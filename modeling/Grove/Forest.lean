import Grove.Node
import Grove.Sorting

/-! The arena in which trees grow. Nodes have numbers that are never used again, and an edge puts a
child into a slot of its parent. A forest may hold nodes that hang nowhere. Both lists are kept newest
first, and `children` looks at the newest edges first. -/

namespace Grove

abbrev NodeId := Nat

structure Edge where
  parent : NodeId
  slot : Nat
  child : NodeId
  deriving DecidableEq

structure Forest where
  nodes : List (NodeId × Node)
  edges : List Edge
  /-- The number that the next node gets. -/
  fresh : NodeId
  deriving DecidableEq

namespace Forest

def empty : Forest := ⟨[], [], 0⟩

def node? (g : Forest) (i : NodeId) : Option Node := g.nodes.lookup i

def size (g : Forest) : Nat := g.nodes.length

def add (g : Forest) (n : Node) : NodeId × Forest :=
  (g.fresh, { g with nodes := (g.fresh, n) :: g.nodes, fresh := g.fresh + 1 })

/-- Puts another node in the place of one; its edges stay. -/
def replace (g : Forest) (i : NodeId) (n : Node) : Forest :=
  { g with nodes := g.nodes.map fun e => if e.1 = i then (i, n) else e }

def outgoing (g : Forest) (i : NodeId) : List Edge := g.edges.filter (·.parent = i)

def child? (g : Forest) (i : NodeId) (slot : Nat) : Option NodeId :=
  (g.edges.find? fun e => e.parent = i && e.slot = slot).map (·.child)

def parent? (g : Forest) (i : NodeId) : Option (NodeId × Nat) :=
  (g.edges.find? (·.child = i)).map fun e => (e.parent, e.slot)

def hasParent (g : Forest) (i : NodeId) : Bool := (g.parent? i).isSome

def arity (g : Forest) (i : NodeId) : Nat := (g.node? i).elim 0 Node.arity

/-- An edge into a slot that the node does not have, left over from a replaced node. -/
def stray? (g : Forest) (i : NodeId) : Option Edge :=
  (g.outgoing i).find? fun e => g.arity i ≤ e.slot

def children (g : Forest) (i : NodeId) : Except Violation (List (Option NodeId)) :=
  match g.stray? i with
  | some e => .error (.edgeBeyondSlots (g.arity i) e.slot)
  | none => .ok ((List.range (g.arity i)).map (g.child? i))

/-- What keeps a traversal from going below a node: a stray edge, or else its first empty slot. -/
def flaw? (g : Forest) (i : NodeId) : Option Violation :=
  match g.stray? i with
  | some e => some (.edgeBeyondSlots (g.arity i) e.slot)
  | none => ((List.range (g.arity i)).find? fun s => (g.child? i s).isNone).map .emptySlot

/-- Whether a node stands in the last slot of its parent; one without a parent does. -/
def isLastChild (g : Forest) (i : NodeId) : Bool :=
  match g.parent? i with
  | some (p, slot) => slot + 1 = g.arity p
  | none => true

def link (g : Forest) (parent : NodeId) (slot : Nat) (child : NodeId) : Forest :=
  { g with edges := ⟨parent, slot, child⟩ :: g.edges }

def unlink (g : Forest) (i : NodeId) : Forest :=
  { g with edges := g.edges.eraseP (·.child = i) }

/-- Puts a node without a parent into a slot and returns the one that stood there. -/
def setChild (g : Forest) (i : NodeId) (slot : Nat) (new : NodeId) :
    Except Failure (Option NodeId × Forest) := do
  match g.node? i, g.node? new with
  | some parent, some child =>
    let ty ← parent.childType slot
    checkSlot ty child.returns
    if g.hasParent new then throw (.violated .alreadyOwned)
    let old := g.child? i slot
    return (old, (old.elim g g.unlink).link i slot new)
  | _, _ => throw (.violated .missingNode)

/-- Cuts the edge into a node and returns where it hung. -/
def detach (g : Forest) (i : NodeId) : Option (NodeId × Nat) × Forest := (g.parent? i, g.unlink i)

def slotsInOrder (g : Forest) (i : NodeId) : List Edge :=
  sortBy (fun a b => a.slot < b.slot) (g.outgoing i).reverse

def preorderTo (g : Forest) : Nat → NodeId → List NodeId
  | 0, i => [i]
  | room + 1, i => i :: (g.slotsInOrder i).flatMap fun e => preorderTo g room e.child

/-- The nodes of the subtree at a node, in pre-order; no path is longer than the forest is large. -/
def preorder (g : Forest) (i : NodeId) : List NodeId := g.preorderTo g.size i

def depthWithin (g : Forest) : Nat → NodeId → Nat
  | 0, _ => 0
  | room + 1, i =>
    match g.parent? i with
    | some (p, _) => depthWithin g room p + 1
    | none => 0

/-- The number of edges above a node. -/
def depth (g : Forest) (i : NodeId) : Nat := g.depthWithin g.size i

end Forest
end Grove
