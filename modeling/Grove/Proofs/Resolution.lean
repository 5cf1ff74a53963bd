import Grove.Proofs.Catalog
import Grove.Proofs.Spelling
import Grove.Reader

/-! Names resolve. A vocabulary knows the prototypes of its catalog, the members of the families, and the calls
that its catalog or else its registry holds. The name of a node that it knows is found, and stands for that
node: a prototype that bears the same name is a sibling, and no call does, having no bracket in its name. -/

namespace Grove

namespace NodeCatalog

/-- A catalog over the standard types whose calls have no bracket in their names. -/
structure Spelled (c : NodeCatalog) : Prop where
  types : c.types = .standard
  named : c.Named
  calls : ∀ callee, .call callee ∈ c.nodes → '<' ∉ callee.name.toList

variable {c : NodeCatalog} {n m : Node} {name : String}

theorem Spelled.of_get? (h : c.Spelled) (hm : c.get? name = some m) :
    m ∈ c.nodes ∧ m.name .standard = .ok (trimmed name) := by
  obtain ⟨l₁, l₂, hl, -⟩ := List.lookup_eq_some_iff.1 hm
  have hmem : (trimmed name, m) ∈ c.prototypes := by simp [hl]
  exact ⟨List.mem_map.2 ⟨_, hmem, rfl⟩, h.types ▸ h.named.names _ hmem⟩

theorem constantOf_base (name : String) (v : Value) :
    constantOf name (.plain v.base) = .ok (.const (Value.initial v.base v.base_ne_any)) := by
  rw [constantOf, Ty.plain, Value.default?_of_ne v.base_ne_any]
  rfl

/-- The name of a member of a family, with blanks around it or not, leads to a sibling of the member. -/
theorem family?_name (ht : c.types = .standard) (hf : n.Familial) (h : n.name .standard = .ok (trimmed name)) :
    ∃ m, c.family? name = .ok (some m) ∧ m.Sibling n := by
  obtain ⟨tyName, second, hty, hp⟩ := Node.parse_familial hf h
  replace hp := NameParts.parse_of_trimmed (Node.solid_name (Node.kind_of_familial hf) h).clean hp
  have hl : c.types.lookup (String.ofList tyName.toList) = .ok n.returns := by
    rw [String.ofList_toList, ht]
    exact hty.lookup
  unfold family?
  simp only [hp, hl, bind, Except.bind, pure, Except.pure]
  cases n with
  | const v =>
    exact ⟨_, by simp [Node.kindName, Node.returns, constantOf_base], .const (Value.base_initial v.base_ne_any)⟩
  | argument ty i => exact ⟨.argument ty 0, by simp [Node.kindName, Node.returns], .argument ..⟩
  | localVariable ty i => exact ⟨.localVariable ty 0, by simp [Node.kindName, Node.returns], .localVariable ..⟩
  | progn ty k => exact ⟨.progn ty 2, by simp [Node.kindName, Node.returns], .progn ..⟩
  | nop ty => exact ⟨.nop ty, by simp [Node.kindName, Node.returns], .nop _⟩
  | _ => exact hf.elim

theorem family?_call (hc : Clean name.toList) (hb : '<' ∉ name.toList) : c.family? name = .ok none := by
  have hp : NameParts.parse name = .ok ⟨name.toList, none, none⟩ := by
    rw [NameParts.parse, hc.trim, cutAt_front hb]
  unfold family?
  rw [hp]
  rfl

theorem Spelled.instantiate_familial (h : c.Spelled) (hf : n.Familial) (hl : n.Legible)
    (hn : n.name .standard = .ok name) :
    c.instantiate name = .ok (some n) := by
  have ht : trimmed name = name := trimmed_eq_self_iff.2 (Node.solid_name (Node.kind_of_familial hf) hn).clean
  rw [instantiate_some, h.types]
  cases hg : c.get? name with
  | some m =>
    obtain ⟨hm, hname⟩ := h.of_get? hg
    rw [ht] at hname
    have hkind : m.kind ≠ .subroutine := by
      refine Node.kind_of_not_call fun callee he => ?_
      subst he
      cases hname
      exact h.calls callee hm (Node.bracket_mem_name (Node.kind_of_familial hf) hn)
    exact ⟨m, .inl rfl, (Node.Sibling.of_name hf hkind hname hn).rename hl hn⟩
  | none =>
    obtain ⟨m, hm, hs⟩ := family?_name h.types hf (ht.symm ▸ hn)
    exact ⟨m, .inr ⟨rfl, hm⟩, hs.rename hl hn⟩

theorem Spelled.instantiate_prototype (h : c.Spelled) (hn : n ∈ c.nodes) (hk : n.kind ≠ .subroutine)
    (hl : n.Legible) :
    ∃ name, n.name .standard = .ok name ∧ c.instantiate name = .ok (some n) := by
  obtain ⟨⟨name, n⟩, hp, rfl⟩ := List.mem_map.1 hn
  have hname : n.name c.types = .ok name := h.named.names _ hp
  have hname' : n.name .standard = .ok name := h.types ▸ hname
  refine ⟨name, hname', instantiate_some.2 ⟨n, .inl ?_, by rw [h.types]; exact Node.rename_self hk hl hname'⟩⟩
  exact h.named.get? hn hname (trimmed_eq_self_iff.2 (Node.solid_name hk hname').clean)

end NodeCatalog

namespace Vocabulary

/-- The call that the catalog, or else the registry, holds under its name. -/
structure Calls (v : Vocabulary) (callee : Callee) : Prop where
  held : (v.catalog.get? callee.name).or (v.registry.prototype? callee.name) = some (.call callee)
  trimmed : trimmed callee.name = callee.name
  line : '\n' ∉ callee.name.toList
  bracket : '<' ∉ callee.name.toList

/-- The nodes that a vocabulary has names for. -/
inductive Knows (v : Vocabulary) : Node → Prop
  | prototype {n : Node} (h : n ∈ v.catalog.nodes) (hk : n.kind ≠ .subroutine) : Knows v n
  | member {n : Node} (h : n.Familial) {tyName : String} (ht : v.catalog.types.name n.returns = .ok tyName) : Knows v n
  | call {callee : Callee} (h : v.Calls callee) : Knows v (.call callee)

variable {v : Vocabulary} {n : Node}

theorem node_of_instantiate {name : String} (h : v.catalog.instantiate name = .ok (some n)) : v.node name = .ok n :=
  Result.bind_ok.2 ⟨_, h, rfl⟩

theorem Calls.node {callee : Callee} (h : v.Calls callee) : v.node callee.name = .ok (.call callee) := by
  have hheld := h.held
  cases hg : v.catalog.get? callee.name with
  | some m =>
    rw [hg, Option.some_or] at hheld
    cases hheld
    have hr : (Node.call callee).rename v.catalog.types callee.name = .ok (.call callee) :=
      (Node.rename_fixed rfl).2 ⟨by rw [h.trimmed]; rfl, rfl⟩
    exact node_of_instantiate (NodeCatalog.instantiate_some.2 ⟨_, .inl hg, hr⟩)
  | none =>
    rw [hg, Option.none_or] at hheld
    have hclean := trimmed_eq_self_iff.1 h.trimmed
    refine Result.bind_ok.2 ⟨none, NodeCatalog.instantiate_none hg (NodeCatalog.family?_call hclean h.bracket), ?_⟩
    exact Result.elim_ok.2 ⟨_, hheld, rfl⟩

theorem name_familial {tyName : String} (h : n.Familial) (ht : TypeCatalog.standard.name n.returns = .ok tyName) :
    ∃ name, n.name .standard = .ok name := by
  cases n with
  | const v => exact ⟨_, Result.bind_ok.2 ⟨_, ht, rfl⟩⟩
  | argument ty i => exact ⟨_, Result.bind_ok.2 ⟨_, ht, rfl⟩⟩
  | localVariable ty i => exact ⟨_, Result.bind_ok.2 ⟨_, ht, rfl⟩⟩
  | progn ty k => exact ⟨_, Result.bind_ok.2 ⟨_, ht, rfl⟩⟩
  | nop ty => exact ⟨_, Result.bind_ok.2 ⟨_, ht, rfl⟩⟩
  | _ => exact h.elim

theorem Knows.named (h : v.Knows n) (hc : v.catalog.Spelled) (hl : n.Legible) :
    ∃ name, n.name .standard = .ok name ∧ v.node name = .ok n ∧ Clean name.toList ∧ '\n' ∉ name.toList := by
  have one_line : ∀ {name : String}, Solid name.toList → Clean name.toList ∧ '\n' ∉ name.toList := fun hs =>
    ⟨hs.clean, fun h => absurd (hs _ h) (by decide)⟩
  cases h with
  | prototype h hk =>
    obtain ⟨name, hn, hi⟩ := hc.instantiate_prototype h hk hl
    exact ⟨name, hn, node_of_instantiate hi, one_line (Node.solid_name hk hn)⟩
  | member h ht =>
    rw [hc.types] at ht
    obtain ⟨name, hn⟩ := name_familial h ht
    have hs := Node.solid_name (Node.kind_of_familial h) hn
    exact ⟨name, hn, node_of_instantiate (hc.instantiate_familial h hl hn), one_line hs⟩
  | @call callee h => exact ⟨callee.name, rfl, h.node, trimmed_eq_self_iff.1 h.trimmed, h.line⟩

end Vocabulary
end Grove
