import Grove.Forest

/-! Cutting subtrees out of a forest and growing them in another. `cutting` keeps the numbers of the
nodes, `graft` moves them all past those in use. -/

namespace Grove

structure Subtree where
  forest : Forest
  root : NodeId
  deriving DecidableEq

namespace Forest

/-- The part of a forest on the given nodes; each node's edges come out in reverse. -/
def restrict (g : Forest) (keep : List NodeId) : Forest :=
  { nodes := keep.reverse.filterMap fun i => (g.node? i).map fun n => (i, n)
    edges := (keep.flatMap g.outgoing).reverse
    fresh := g.fresh }

def without (g : Forest) (gone : List NodeId) : Forest :=
  { g with
    nodes := g.nodes.filter fun e => e.1 ∉ gone
    edges := g.edges.filter fun e => e.parent ∉ gone ∧ e.child ∉ gone }

/-- A copy of the subtree at a node. -/
def cutting (g : Forest) (i : NodeId) : Subtree := ⟨g.restrict (g.preorder i), i⟩

/-- Moves the subtree at a node out of the forest. -/
def take (g : Forest) (i : NodeId) : Subtree × Forest := (g.cutting i, g.without (g.preorder i))

def prune (g : Forest) (i : NodeId) : Forest := g.without (g.preorder i)

def shift (g : Forest) (by_ : Nat) : Forest :=
  { nodes := g.nodes.map fun e => (e.1 + by_, e.2)
    edges := g.edges.map fun e => ⟨e.parent + by_, e.slot, e.child + by_⟩
    fresh := g.fresh + by_ }

/-- Moves a subtree into the forest and returns the number of its root there. -/
def graft (g : Forest) (s : Subtree) : NodeId × Forest :=
  let moved := s.forest.shift g.fresh
  (s.root + g.fresh, ⟨moved.nodes ++ g.nodes, moved.edges ++ g.edges, moved.fresh⟩)

end Forest
end Grove
