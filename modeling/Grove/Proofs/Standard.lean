import Grove.Proofs.Catalog
import Grove.Proofs.Preservation
import Grove.Reader

/-! The nodes that standard catalogs know. Each may stand in a tree as far as its operator goes, and none returns
anything but an integer. A family has members of standard kinds only and a new name changes properties only, so
a name stands for a standard node, or for a call of the registry. -/

namespace Grove

/-- The kinds of nodes that standard catalogs know; they return integers only. -/
def Node.Standard : Node → Prop
  | .call _ => False
  | .returnValue ty => ty = .int
  | n => n.Operable

theorem Node.standard_of_property {n : Node} (h : n.property?.isSome) : n.Standard := by
  cases n <;> simp_all [Node.property?, Node.Standard, Node.Operable]

theorem Node.standard_of_mem {arguments locals : List Ty} {n : Node}
    (h : n ∈ NodeCatalog.standardNodes arguments locals) :
    n.Standard := by
  simp only [NodeCatalog.standardNodes, List.mem_append, List.mem_map, List.mem_flatMap] at h
  have numeric : ∀ b ∈ [Base.int, .float], b.IsNumeric := by simp [Base.IsNumeric]
  rcases h with (((((⟨v, -, rfl⟩ | ⟨_, -, _, -, rfl⟩) | ⟨_, -, _, -, rfl⟩) | ⟨ty, -, h⟩) | ⟨b, hb, h⟩) | h)
  · trivial
  · trivial
  · trivial
  · simp only [List.mem_cons, List.not_mem_nil, or_false] at h
    rcases h with rfl | rfl <;> trivial
  · simp only [List.mem_cons, List.not_mem_nil, or_false] at h
    rcases h with (⟨op, -, rfl⟩ | ⟨op, -, rfl⟩) | rfl | rfl <;> exact numeric b hb
  · simp only [List.mem_cons, List.not_mem_nil, or_false] at h
    rcases h with rfl | rfl | rfl | rfl | rfl | rfl | rfl | rfl | rfl <;> trivial

theorem Node.Standard.rename {n n' : Node} {types : TypeCatalog} {name : String} (h : n.Standard)
    (hr : n.rename types name = .ok n') : n'.Standard := by
  cases hp : n.property? with
  | none =>
    obtain ⟨-, rfl⟩ := (Node.rename_fixed hp).1 hr
    exact h
  | some p =>
    obtain ⟨_, _, _, -, -, hset⟩ := (Node.rename_property hp).1 hr
    exact Node.standard_of_property (by rw [Node.property?_of_set hset]; rfl)

theorem Node.standard_of_familial {n : Node} (h : n.Familial) : n.Standard := by
  cases n <;> first | exact h.elim | trivial

theorem NodeCatalog.standard_of_instantiate {c : NodeCatalog} (hc : ∀ n ∈ c.nodes, n.Standard) {name : String}
    {n : Node}
    (h : c.instantiate name = .ok (some n)) : n.Standard := by
  obtain ⟨m, hm, hr⟩ := NodeCatalog.instantiate_some.1 h
  refine Node.Standard.rename ?_ hr
  rcases hm with hg | ⟨-, hf⟩
  · obtain ⟨l₁, l₂, hl, -⟩ := List.lookup_eq_some_iff.1 hg
    exact hc m (List.mem_map.2 ⟨(trimmed name, m), by simp [hl], rfl⟩)
  · exact Node.standard_of_familial (NodeCatalog.familial_of_family? hf)

theorem Vocabulary.node_cases {v : Vocabulary} (hc : ∀ n ∈ v.catalog.nodes, n.Standard) {name : String} {n : Node}
    (h : v.node name = .ok n) : n.Standard ∨ ∃ c, n = .call c ∧ v.registry.callee? name = some c := by
  unfold Vocabulary.node at h
  obtain ⟨found, hf, h⟩ := Result.bind_ok.1 h
  cases found with
  | some m =>
    cases h
    exact .inl (NodeCatalog.standard_of_instantiate hc hf)
  | none =>
    obtain ⟨m, hm, h⟩ := Result.elim_ok.1 h
    cases h
    obtain ⟨c, hc, rfl⟩ := Option.map_eq_some_iff.1 hm
    exact .inr ⟨c, rfl, hc⟩

end Grove
