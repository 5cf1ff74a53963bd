import Grove.Tree

/-! The term that a tree holds. A shape denotes a term when it is that term with its nodes numbered, so a
shape is complete just when it denotes one, and then it denotes no other. A signature admits the terms that
its trees may hold. -/

namespace Grove

inductive Shape.Denotes : Shape → Term → Prop
  | node {id : NodeId} {n : Node} {kids : Fin n.arity → Shape} {terms : Fin n.arity → Term}
      (h : ∀ i, (kids i).Denotes (terms i)) : Denotes (.node id n kids) (.node n terms)

def Tree.Denotes (t : Tree) (e : Term) : Prop := ∃ s, t.shape? = some s ∧ s.Denotes e

/-- A tree with this signature may hold the term. -/
structure Signature.Admits (s : Signature) (e : Term) : Prop where
  root : s.returns.accepts e.returns = true
  slots : e.WellTyped
  declared : ∀ n ∈ e.nodes, n.fits s = true

/-- The same signature over the same term; the numbers of the nodes do not count. -/
def Tree.Alike (t t' : Tree) : Prop := t.signature = t'.signature ∧ ∃ e, t.Denotes e ∧ t'.Denotes e

namespace Shape

variable {s : Shape} {e : Term}

theorem Denotes.complete (h : s.Denotes e) : s.Complete := by
  induction h with
  | node _ ih => exact ih

theorem Denotes.nodes_eq (h : s.Denotes e) : s.nodes = e.nodes := by
  induction h with
  | node _ ih => simp only [Shape.nodes, Term.nodes, ih]

theorem Complete.denotes (h : s.Complete) : ∃ e, s.Denotes e := by
  induction s with
  | node id n kids ih =>
    obtain ⟨terms, hterms⟩ := Classical.axiomOfChoice fun i => ih i (h i)
    exact ⟨.node n terms, .node hterms⟩
  | torn => exact h.elim

end Shape

theorem Term.mem_nodes_self {n : Node} (kids : Fin n.arity → Term) : n ∈ (Term.node n kids).nodes := by
  simp [Term.nodes]

theorem Term.mem_nodes_kid {n m : Node} {kids : Fin n.arity → Term} (i : Fin n.arity) (h : m ∈ (kids i).nodes) :
    m ∈ (Term.node n kids).nodes := by
  simp only [Term.nodes, List.mem_cons, List.mem_flatten, List.mem_ofFn]
  exact .inr ⟨_, ⟨i, rfl⟩, h⟩

end Grove
