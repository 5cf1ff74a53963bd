import Grove.Forest.Surgery
import Grove.Slab

/-! A plot: a forest whose nodes and edges are numbered, and whose freed numbers are used again. A subtree is taken
out, copied and grafted by making it once more, node by node and edge by edge, with a record of the number that each
node has got. `Forest.cutting`, `Forest.take` and `Forest.graft` say the same of forests that use no number twice. -/

namespace Grove

structure Plot where
  nodes : Slab Node
  edges : Slab Edge
  deriving DecidableEq

/-- A subtree in a plot of its own. -/
structure Seedling where
  plot : Plot
  root : NodeId
  deriving DecidableEq

/-- Nodes on their way from one plot to another; `numbers` pairs the number that a node had with the one it has got,
the last node first. -/
structure Removal where
  source : Plot
  target : Plot
  numbers : List (NodeId × NodeId)

namespace Plot

def empty : Plot := ⟨.empty, .empty⟩

def forest (a : Plot) : Forest := ⟨a.nodes.entries, a.edges.entries.map (·.2), a.nodes.bound⟩

def ofForest (g : Forest) : Plot where
  nodes := ⟨g.nodes, (List.range g.fresh).filter (· ∉ g.nodes.map (·.1)), g.fresh⟩
  edges := ⟨g.edges.zipIdx.map fun e => (e.2, e.1), [], g.edges.length⟩

def add (a : Plot) (n : Node) : NodeId × Plot :=
  let (i, nodes) := a.nodes.insert n
  (i, { a with nodes })

def link (a : Plot) (parent : NodeId) (slot : Nat) (child : NodeId) : Plot :=
  { a with edges := (a.edges.insert ⟨parent, slot, child⟩).2 }

/-- The numbers of the edges at a node: first of those that lead from it, then of those that lead to it. -/
def incident (a : Plot) (i : NodeId) : List Nat :=
  (a.edges.entries.filter (·.2.parent = i)).map (·.1) ++
    (a.edges.entries.filter fun e => e.2.parent ≠ i ∧ e.2.child = i).map (·.1)

/-- Takes a node out, and the edges at it. -/
def remove (a : Plot) (i : NodeId) : Option (Node × Plot) :=
  (a.nodes.get? i).map fun n => (n, ⟨a.nodes.remove i, (a.incident i).foldl Slab.remove a.edges⟩)

/-- Puts a node without a parent into a slot and returns the one that stood there. -/
def setChild (a : Plot) (i : NodeId) (slot : Nat) (new : NodeId) : Except Failure (Option NodeId × Plot) := do
  match a.nodes.get? i, a.nodes.get? new with
  | some parent, some child =>
    let ty ← parent.childType slot
    checkSlot ty child.returns
    if a.forest.hasParent new then throw (.violated .alreadyOwned)
    let old := a.edges.entries.find? fun e => e.2.parent = i && e.2.slot = slot
    let rest : Plot := old.elim a fun e => { a with edges := a.edges.remove e.1 }
    return (old.map (·.2.child), rest.link i slot new)
  | _, _ => throw (.violated .missingNode)

/-- The nodes below those on a stack, in the order in which they come off it. -/
def walk (a : Plot) : Nat → List NodeId → Except Violation (List NodeId)
  | _, [] => .ok []
  | 0, _ :: _ => .error .endless
  | room + 1, i :: stack => do
    let rest ← a.walk room ((a.forest.slotsInOrder i).map (·.child) ++ stack)
    return i :: rest

/-- Makes an edge once more, between the new numbers of its ends. -/
def relink (numbers : List (NodeId × NodeId)) (a : Plot) (e : Edge) : Except Violation Plot :=
  match numbers.lookup e.parent, numbers.lookup e.child with
  | some p, some c => .ok (a.link p e.slot c)
  | _, _ => .error .missingNode

end Plot

def Removal.move (m : Removal) (i : NodeId) : Removal :=
  match m.source.remove i with
  | some (n, source) =>
    let (new, target) := m.target.add n
    ⟨source, target, (i, new) :: m.numbers⟩
  | none => m

namespace Plot

/-- Moves nodes into another plot, and then makes the edges there. Returns the new number of the root, what is left
and the other plot. -/
def transfer (nodes : List NodeId) (edges : List Edge) (root : NodeId) (source target : Plot) :
    Except Violation (NodeId × Plot × Plot) := do
  let m := nodes.foldl Removal.move ⟨source, target, []⟩
  let target ← edges.foldlM (relink m.numbers) m.target
  match m.numbers.lookup root with
  | some new => return (new, m.source, target)
  | none => throw .missingNode

/-- Moves the subtree at a node into a plot of its own. -/
def take (a : Plot) (i : NodeId) : Except Violation (Seedling × Plot) := do
  let nodes ← a.walk a.forest.size [i]
  let (root, rest, part) ← transfer nodes (nodes.flatMap a.forest.outgoing) i a .empty
  return (⟨part, root⟩, rest)

/-- Moves a subtree into the plot and returns the number of its root there. -/
def graft (a : Plot) (s : Seedling) : Except Violation (NodeId × Plot) := do
  let nodes := s.plot.nodes.inOrder.map (·.1)
  let edges := s.plot.edges.inOrder.map (·.2)
  let (root, _, grown) ← transfer nodes edges s.root s.plot a
  return (root, grown)

/-- Adds the child at an edge to a copy, below the new number of its parent, and lists both its numbers. -/
def copyChild (a : Plot) (parent : NodeId) (c : Plot × List (NodeId × NodeId)) (e : Edge) :
    Except Violation (Plot × List (NodeId × NodeId)) :=
  match a.nodes.get? e.child with
  | some n =>
    let (new, copy) := c.1.add n
    .ok (copy.link parent e.slot new, c.2 ++ [(e.child, new)])
  | none => .error .missingNode

/-- Goes on with a copy from nodes that are in it, each with its old and its new number: their children make up the
next level. -/
def copyLevels (a : Plot) : Nat → List (NodeId × NodeId) → Plot → Except Violation Plot
  | _, [], copy => .ok copy
  | 0, _ :: _, _ => .error .endless
  | room + 1, level, copy => do
    let (copy, next) ← level.foldlM (fun c p => (a.forest.outgoing p.1).foldlM (a.copyChild p.2) c) (copy, [])
    a.copyLevels room next copy

/-- Copies the subtree at a node. -/
def copy (a : Plot) (i : NodeId) : Except Violation Seedling :=
  match a.nodes.get? i with
  | some n => do
    let (root, start) := empty.add n
    let plot ← a.copyLevels a.forest.size [(i, root)] start
    return ⟨plot, root⟩
  | none => .error .missingNode

end Plot
end Grove
