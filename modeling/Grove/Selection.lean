import Grove.Random
import Grove.Tree

/-! Drawing nodes. A node of a tree is drawn in one pass over its nodes: the `i`-th one replaces the
choice so far if a draw from `0` to `i` is zero. For a crossover, a node of the first tree is drawn and
then one of those nodes of the second that return the same type and leave both trees within a height;
that is tried a number of times. -/

namespace Grove

/-- The last member whose draw is zero. -/
def lastZero {α : Type} (draws : List (α × Nat)) : Option α :=
  draws.foldl (fun chosen d => if d.2 = 0 then some d.1 else chosen) none

/-- One draw for every member, from zero to its position. -/
def drawPositions {σ α : Type} [WordSource σ] : (position : Nat) → List α → Draw σ (List (α × Nat))
  | _, [] => return []
  | position, x :: xs => do
    let r ← Draw.uniform .double position
    return (x, r.val) :: (← drawPositions (position + 1) xs)

/-- A node that the root reaches. -/
def Tree.selectNode {σ : Type} [WordSource σ] (t : Tree) : Draw σ (Option NodeId) :=
  return lastZero (← drawPositions 0 t.nodes)

/-- A node with what a crossover asks of it. -/
structure Site where
  id : NodeId
  returns : Ty
  depth : Nat
  height : Except Violation Nat

namespace Site

def at? (t : Tree) (i : NodeId) : Option Site :=
  (t.forest.node? i).map fun n => ⟨i, n.returns, t.forest.depth i, t.forest.height i⟩

def ofTree (t : Tree) : List Site := t.nodes.filterMap (at? t)

/-- Whether two nodes may change places within a height. -/
def compatible (maxDepth : Nat) (a : Site) (height : Nat) (b : Site) : Except Violation Bool :=
  if b.returns = a.returns then
    b.height.map fun h => a.depth + h ≤ maxDepth && b.depth + height ≤ maxDepth
  else .ok false

def partners (maxDepth : Nat) (a : Site) (bs : List Site) : Except Violation (List Site) := do
  let height ← a.height
  bs.filterM (a.compatible maxDepth height)

end Site

/-- Bounds for drawing a pair of nodes. -/
structure PairLimits where
  maxDepth : Nat
  retries : Nat

namespace PairLimits

variable {σ : Type} [WordSource σ]

def selectWithin (l : PairLimits) (a : Tree) (bs : List Site) :
    Nat → Draw σ (Option (NodeId × NodeId))
  | 0 => return none
  | tries + 1 => do
    match (← a.selectNode).bind (Site.at? a) with
    | none => return none
    | some x =>
      let partners ← liftM (m := Except Violation) (x.partners l.maxDepth bs)
      match ← Draw.choose partners with
      | some y => return some (x.id, y.id)
      | none => selectWithin l a bs tries

/-- A pair of nodes that may change places; there is at least one attempt. -/
def selectPair (l : PairLimits) (a b : Tree) : Draw σ (Option (NodeId × NodeId)) :=
  l.selectWithin a (Site.ofTree b) (max l.retries 1)

end PairLimits
end Grove
