import Grove.Catalog
import Grove.Random
import Grove.Tree

/-! Random subtrees. A subtree is grown from the root down, right in the forest that it is for: for a
required type a candidate is drawn from the catalog, and its slots are filled in order with one less of
the budget, which bounds the height. An inner node is a candidate only if every one of its slots has a
leaf that fits, so the leaves at the end of the budget never run out. -/

namespace Grove

/-- `full` draws inner nodes wherever there are any to draw. -/
inductive GrowthMethod where
  | full
  | grow
  deriving DecidableEq

/-- What subtrees are made from: prototypes, and literals for the constants. -/
structure Generator (σ : Type) where
  catalog : NodeCatalog
  literal : Base → Draw σ Value

/-- Leaves whose variables a signature declares. -/
def NodeCatalog.leaves (c : NodeCatalog) (s : Signature) : List Node :=
  c.nodes.filter fun n => n.isLeaf && n.fits s

/-- Whether a node may stand where a type is required; an inner node needs leaves for its slots. -/
def Node.isCandidate (n : Node) (s : Signature) (leaves : List Node) (ty : Ty) (leafOnly : Bool) :
    Bool :=
  ty.accepts n.returns
    && if n.isLeaf then n.fits s
      else !leafOnly
        && (List.range n.arity).all fun i => leaves.any fun l => (n.slotType i).accepts l.returns

/-- The prototypes that may stand where a type is required. -/
def NodeCatalog.candidates (c : NodeCatalog) (s : Signature) (ty : Ty) (leafOnly : Bool) :
    List Node :=
  let leaves := c.leaves s
  c.nodes.filter fun n => n.isCandidate s leaves ty leafOnly

/-- What `full` keeps of its candidates. -/
def GrowthMethod.narrow (m : GrowthMethod) (candidates : List Node) : List Node :=
  match m with
  | .grow => candidates
  | .full =>
    let inner := candidates.filter fun n => !n.isLeaf
    if inner.isEmpty then candidates else inner

/-- Growing in a forest draws at random, and it may be refused. Where it breaks a promise the forest stays
as it is then. -/
abbrev Sprouting (σ : Type) : Type → Type :=
  ExceptT Error (StateT (Forest × σ) (Except (Violation × Forest)))

namespace Sprouting

variable {σ α : Type}

def ofAttempt (x : Attempt σ α) : Sprouting σ α := ExceptT.mk fun (g, s) =>
  match x.run s with
  | .ok (r, s) => .ok (r, (g, s))
  | .error v => .error (v, g)

def violate (v : Violation) : Sprouting σ α := ExceptT.mk fun (g, _) => .error (v, g)

def add (n : Node) : Sprouting σ NodeId := ExceptT.mk fun (g, s) =>
  let (i, g) := g.add n
  .ok (.ok i, (g, s))

/-- Puts a node that hangs nowhere into a slot. -/
def hang (i : NodeId) (slot : Nat) (child : NodeId) : Sprouting σ Unit := ExceptT.mk fun (g, s) =>
  match g.setChild i slot child with
  | .ok (_, g) => .ok (.ok (), (g, s))
  | .error (.refused e) => .ok (.error e, (g, s))
  | .error (.violated v) => .error (v, g)

/-- A refusal takes the subtree at a node with it. -/
def orPrune (i : NodeId) (x : Sprouting σ α) : Sprouting σ α := ExceptT.mk fun start =>
  match x.run start with
  | .ok (.error e, (g, s)) => .ok (.error e, (g.prune i, s))
  | r => r

/-- Fills the last `left` slots of a node, one after the other. -/
def fillSlots (n : Node) (i : NodeId) (child : Nat → Sprouting σ NodeId) : (left : Nat) → Sprouting σ Unit
  | 0 => return
  | left + 1 => do
    let slot := n.arity - (left + 1)
    orPrune i do
      let c ← child slot
      orPrune c (hang i slot c)
    fillSlots n i child left

/-- A node with what is grown for its slots. -/
def fill (n : Node) (child : Nat → Sprouting σ NodeId) : Sprouting σ NodeId := do
  let i ← add n
  fillSlots n i child n.arity
  return i

/-- Growing in a forest of its own. -/
def alone (x : Sprouting σ α) : Attempt σ (α × Forest) := ExceptT.mk fun s =>
  match x.run (.empty, s) with
  | .ok (.ok a, (g, s)) => .ok (.ok (a, g), s)
  | .ok (.error e, (_, s)) => .ok (.error e, s)
  | .error (v, _) => .error v

end Sprouting

namespace Generator

variable {σ : Type} [WordSource σ] (g : Generator σ) (s : Signature) (method : GrowthMethod)

/-- A node with the prototype's parameters; a constant gets a literal of its own. -/
def fresh : Node → Draw σ Node
  | .const v => return .const (← g.literal v.base)
  | n => return n

/-- A node for a position of the given type. -/
def node (budget : Nat) (ty : Ty) : Attempt σ Node := do
  let leafOnly : Bool := budget = 0
  match ← .lift (Draw.choose (method.narrow (g.catalog.candidates s ty leafOnly))) with
  | some n => .lift (g.fresh n)
  | none => throw (Error.noCandidate ty leafOnly)

/-- A subtree for a position of the given type, of height at most `budget`; it hangs nowhere. Each child
has one less of the budget, so a node drawn with nothing left of it must not have slots. -/
def subtree : (budget : Nat) → Ty → Sprouting σ NodeId
  | 0, ty => do
    let n ← .ofAttempt (g.node s method 0 ty)
    .fill n fun _ => .violate .budgetSpent
  | budget + 1, ty => do
    let n ← .ofAttempt (g.node s method (budget + 1) ty)
    .fill n fun slot => subtree budget (n.slotType slot)

def tree (budget : Nat) : Attempt σ Tree := do
  let (root, forest) ← (g.subtree s method budget s.returns).alone
  match Tree.setRoot ⟨s, forest, none⟩ root with
  | .ok (_, t) => return t
  | .error (.refused e) => throw e
  | .error (.violated v) => throwThe Violation v

/-- A tree by a method drawn at random. -/
def ramped (budget : Nat) : Attempt σ Tree := do
  g.tree s (if ← .lift Draw.bool then .full else .grow) budget

end Generator
end Grove
