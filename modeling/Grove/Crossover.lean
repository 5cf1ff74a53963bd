import Grove.Selection

/-! Crossover: subtrees of two trees change places. Each must be accepted where the other stood. On its
way into another tree a local variable that the signature there does not declare is renumbered. -/

namespace Grove

/-- What becomes of a local variable that moves to a tree with the given signature. -/
abbrev Adapter := Signature → Node → Node

/-- A local variable keeps its number if that fits, and else gets the first number that does; where
none fits, the number lies past the end. -/
def Node.remap (s : Signature) : Node → Node
  | .localVariable ty i =>
    if Signature.declares s.locals ty i then .localVariable ty i
    else .localVariable ty (s.locals.findIdx fun declared => declared.strip = ty.strip)
  | n => n

/-- The same node, for trees that are read as they are. -/
def Node.keep (_ : Signature) (n : Node) : Node := n

/-- Only local variables are adapted. -/
def Node.adapt (f : Adapter) (s : Signature) (n : Node) : Node :=
  match n with
  | .localVariable .. => f s n
  | n => n

def Subtree.adapt (f : Adapter) (s : Signature) (t : Subtree) : Subtree :=
  let reached := t.forest.preorder t.root
  { t with forest := { t.forest with
    nodes := t.forest.nodes.map fun e => if e.1 ∈ reached then (e.1, e.2.adapt f s) else e } }

namespace Tree

/-- Whether a node would be accepted where another one stands. -/
def checkLanding (t : Tree) (i : NodeId) (n : Node) : Except Failure Unit := do
  let ty ← t.landing i
  checkSlot ty n.returns

/-- Cuts a subtree out and tells where it hung. -/
def uproot (t : Tree) (i : NodeId) : Option (NodeId × Nat) × Subtree × Tree :=
  let (place, t) := t.detach i
  let (s, t) := t.take i
  (place, s, t)

/-- Hangs a node where another one was uprooted. -/
def attach (t : Tree) (place : Option (NodeId × Nat)) (i : NodeId) : Except Failure Tree := do
  match place with
  | some (p, slot) => return (← t.setChild p slot i).2
  | none => return (← t.setRoot i).2

/-- Exchanges the subtrees at two nodes in place: tells what came of it, and leaves both trees. -/
def exchange (f : Adapter) (a : Tree) (i : NodeId) (b : Tree) (j : NodeId) :
    Except Failure Unit × Tree × Tree :=
  match a.forest.node? i, b.forest.node? j with
  | some m, some n =>
    match a.checkLanding i n, b.checkLanding j m with
    | .error e, _ => (.error e, a, b)
    | .ok _, .error e => (.error e, a, b)
    | .ok _, .ok _ =>
      let (placeA, fromA, a) := a.uproot i
      let (placeB, fromB, b) := b.uproot j
      let (intoA, a) := a.graft (fromB.adapt f a.signature)
      let (intoB, b) := b.graft (fromA.adapt f b.signature)
      match a.attach placeA intoA with
      | .error e => (.error e, a, b)
      | .ok a =>
        match b.attach placeB intoB with
        | .error e => (.error e, a, b)
        | .ok b => (.ok (), a, b)
  | _, _ => (.error (.violated .missingNode), a, b)

def swap (f : Adapter) (a : Tree) (i : NodeId) (b : Tree) (j : NodeId) :
    Except Failure (Tree × Tree) :=
  let (result, trees) := a.exchange f i b j
  result.map fun _ => trees

/-- Exchanges the subtrees at a pair of nodes that a selector draws, if it draws one. -/
def crossover {σ : Type} (f : Adapter) (select : Tree → Tree → Draw σ (Option (NodeId × NodeId)))
    (a b : Tree) : Attempt σ (Tree × Tree) := do
  match ← select a b with
  | none => return (a, b)
  | some (i, j) =>
    match a.swap f i b j with
    | .ok r => return r
    | .error (.refused e) => throw e
    | .error (.violated v) => throwThe Violation v

end Tree
end Grove
