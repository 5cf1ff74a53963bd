import Grove.Forest.Surgery
import Grove.Term

/-! A tree: a forest with a root in it, and the signature that the tree declares. The forest may hold
nodes that the root does not reach. -/

namespace Grove

structure Tree where
  signature : Signature
  forest : Forest
  root : Option NodeId
  deriving DecidableEq

namespace Tree

def new (s : Signature) : Tree := ⟨s, .empty, none⟩

def name (t : Tree) : Option String := t.signature.name

def add (t : Tree) (n : Node) : NodeId × Tree :=
  let (i, g) := t.forest.add n
  (i, { t with forest := g })

def replace (t : Tree) (i : NodeId) (n : Node) : Tree := { t with forest := t.forest.replace i n }

/-- Makes a node without a parent the root and returns the former one. -/
def setRoot (t : Tree) (i : NodeId) : Except Failure (Option NodeId × Tree) := do
  match t.forest.node? i with
  | none => throw (.violated .missingNode)
  | some n =>
    checkSlot t.signature.returns n.returns
    if t.forest.hasParent i then throw (.violated .alreadyOwned)
    return (t.root, { t with root := some i })

def setChild (t : Tree) (i : NodeId) (slot : Nat) (new : NodeId) :
    Except Failure (Option NodeId × Tree) := do
  if some new = t.root then throw (.violated .rootAsChild)
  let (old, g) ← t.forest.setChild i slot new
  return (old, { t with forest := g })

def detach (t : Tree) (i : NodeId) : Option (NodeId × Nat) × Tree :=
  let (place, g) := t.forest.detach i
  (place, { t with forest := g })

def nodes (t : Tree) : List NodeId := t.root.elim [] t.forest.preorder

/-- The nodes below one with their depths, down to a given depth; an empty slot is listed too. -/
def outlineFrom (g : Forest) : Nat → (depth : Nat) → NodeId → Except Violation (List (Nat × Option NodeId))
  | 0, _, _ => .error .endless
  | room + 1, depth, i => do
    let below ← (← g.children i).mapM fun
      | some c => outlineFrom g room (depth + 1) c
      | none => return [(depth + 1, none)]
    return (depth, some i) :: below.flatten

/-- The nodes that the root reaches and the empty slots among them, in pre-order. -/
def outline (t : Tree) : Except Violation (List (Nat × Option NodeId)) :=
  t.root.elim (.ok []) (outlineFrom t.forest (t.forest.size + 1) 0)

def shape? (t : Tree) : Option Shape := t.root.map t.forest.shape

def rootWithout (t : Tree) (i : NodeId) : Option NodeId := t.root.filter (· ≠ i)

/-- Moves a subtree out; the tree loses its root with it. -/
def take (t : Tree) (i : NodeId) : Subtree × Tree :=
  let (s, g) := t.forest.take i
  (s, { t with forest := g, root := t.rootWithout i })

def prune (t : Tree) (i : NodeId) : Tree :=
  { t with forest := t.forest.prune i, root := t.rootWithout i }

def graft (t : Tree) (s : Subtree) : NodeId × Tree :=
  let (i, g) := t.forest.graft s
  (i, { t with forest := g })

/-- The tree whose root is that of a subtree. -/
def ofSubtree (sig : Signature) (s : Subtree) : Except Failure Tree := do
  let (_, t) ← setRoot ⟨sig, s.forest, none⟩ s.root
  return t

/-- The tree of a term that the signature accepts at the root. -/
def ofTerm (sig : Signature) (e : Term) : Except Error Tree := do
  checkSlot sig.returns e.returns
  let (i, g) := Forest.empty.plant e
  return ⟨sig, g, some i⟩

/-- The type that a node must return where it stands: that of its parent's slot, or else the one
that the tree returns. -/
def landing (t : Tree) (i : NodeId) : Except Violation Ty :=
  match t.forest.parent? i with
  | none => .ok t.signature.returns
  | some (p, slot) =>
    match t.forest.node? p with
    | some n => n.childType slot
    | none => .error .missingNode

end Tree
end Grove
