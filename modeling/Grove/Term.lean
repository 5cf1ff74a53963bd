import Grove.Shape

/-! Complete expressions, without a place in a forest. A term is what a text denotes and what a
generator grows; `plant` puts it into a forest, its nodes numbered in pre-order. -/

namespace Grove

inductive Term where
  | node (n : Node) (kids : Fin n.arity → Term)

namespace Term

def label : Term → Node
  | node n _ => n

def returns (t : Term) : Ty := t.label.returns

def nodes : Term → List Node
  | node n kids => n :: (List.ofFn fun i => (kids i).nodes).flatten

def height : Term → Nat
  | node _ kids => (List.ofFn fun i => (kids i).height + 1).foldl max 0

def WellTyped : Term → Prop
  | node n kids => ∀ i : Fin n.arity, (n.slotType i).accepts (kids i).returns = true ∧ (kids i).WellTyped

instance decidableWellTyped : (t : Term) → Decidable t.WellTyped
  | node n kids =>
    have : ∀ i, Decidable (kids i).WellTyped := fun i => decidableWellTyped (kids i)
    inferInstanceAs (Decidable (∀ i : Fin n.arity, (n.slotType i).accepts (kids i).returns = true ∧ (kids i).WellTyped))

/-- A node over as many children as it has slots. -/
def ofList (n : Node) (kids : List Term) (h : kids.length = n.arity) : Term :=
  let kids := kids.toArray
  have size : kids.size = n.arity := h
  .node n fun i => kids[i.val]

end Term

namespace Forest

/-- Adds a term and returns the number of its root, which hangs nowhere. -/
def plant : Term → Forest → NodeId × Forest
  | .node n kids, g =>
    let (root, g) := g.add n
    let g := (List.finRange n.arity).foldl (fun g i =>
      let (child, g) := plant (kids i) g
      g.link root i child) g
    (root, g)

end Forest
end Grove
