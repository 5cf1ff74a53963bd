import Grove.Forest

/-! What a traversal sees below a node. A shape is a node with its children, one for each slot, or a
node that is torn: one whose children cannot all be listed, with the reason. Every traversal that
comes to a torn node breaks off there with that reason. -/

namespace Grove

inductive Shape where
  | node (id : NodeId) (n : Node) (kids : Fin n.arity → Shape)
  | torn (id : NodeId) (n : Node) (why : Violation)

/-- The same function, with its values computed once. -/
def tabulate {α : Type} {n : Nat} (f : Fin n → α) : Fin n → α :=
  let values := Array.ofFn f
  have size : values.size = n := Array.size_ofFn
  fun i => values[i.val]

@[simp] theorem tabulate_eq {α : Type} {n : Nat} (f : Fin n → α) : tabulate f = f := by
  funext i
  simp [tabulate]

namespace Shape

def id : Shape → NodeId
  | node i _ _ => i
  | torn i _ _ => i

def label : Shape → Node
  | node _ n _ => n
  | torn _ n _ => n

def Complete : Shape → Prop
  | node _ _ kids => ∀ i, (kids i).Complete
  | torn .. => False

def nodes : Shape → List Node
  | node _ n kids => n :: (List.ofFn fun i => (kids i).nodes).flatten
  | torn _ n _ => [n]

/-- The numbers of the nodes in pre-order. -/
def ids : Shape → List NodeId
  | node i _ kids => i :: (List.ofFn fun j => (kids j).ids).flatten
  | torn i _ _ => [i]

/-- The length of the longest path down to a leaf. -/
def height : Shape → Except Violation Nat
  | node _ _ kids =>
    (List.finRange _).foldlM (fun most i => (kids i).height.map fun h => max most (h + 1)) 0
  | torn _ _ why => .error why

def count : Shape → Except Violation Nat
  | node _ _ kids =>
    (List.finRange _).foldlM (fun sum i => (kids i).count.map fun c => sum + c) 1
  | torn _ _ why => .error why

end Shape

namespace Forest

/-- The shape at a node, down to a given depth. -/
def shapeTo (g : Forest) : Nat → NodeId → Shape
  | 0, i => .torn i ((g.node? i).getD (.nop .any)) .endless
  | room + 1, i =>
    match g.node? i with
    | none => .torn i (.nop .any) .missingNode
    | some n =>
      match g.flaw? i with
      | some why => .torn i n why
      | none => .node i n (tabulate fun slot => shapeTo g room ((g.child? i slot).getD i))

/-- The shape at a node; no path in a forest without cycles is longer than the forest is large. -/
def shape (g : Forest) (i : NodeId) : Shape := g.shapeTo g.size i

def height (g : Forest) (i : NodeId) : Except Violation Nat := (g.shape i).height

def count (g : Forest) (i : NodeId) : Except Violation Nat := (g.shape i).count

end Forest
end Grove
