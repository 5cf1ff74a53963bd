import Grove.Proofs.Callable

/-! Exact lookup agrees with the families. A prototype found under a name of a family is a sibling of what the family
answers, and siblings take names alike. So it does not matter to what such a name reads as, however it is spaced,
whether a member of the family is registered. -/

namespace Grove.NodeCatalog

variable {c d : NodeCatalog} {name : String} {m : Node}

theorem Reached.spelled (h : Reached .standard c) (hn : ∀ callee, .call callee ∉ c.nodes) : c.Spelled :=
  ⟨h.types, h.named, fun callee hc => absurd hc (hn callee)⟩

theorem family?_congr (h : c.types = d.types) (name : String) : c.family? name = d.family? name := by
  unfold family?
  rw [h]

theorem instantiate_unregistered (hg : c.get? name = none) :
    c.instantiate name = (empty c.types).instantiate name := by
  have hnone : (empty c.types).get? name = none := rfl
  unfold instantiate
  rw [hg, hnone]
  dsimp only
  rw [family?_congr (d := empty c.types) rfl]
  rfl

theorem instantiate_of_get? (hg : c.get? name = some m) :
    c.instantiate name = some <$> m.rename c.types name := by
  unfold instantiate
  rw [hg]
  exact bind_pure_comp some (m.rename c.types name)

theorem instantiate_of_family? (hg : c.get? name = none) (hf : c.family? name = .ok (some m)) :
    c.instantiate name = some <$> m.rename c.types name := by
  unfold instantiate
  rw [hg]
  dsimp only
  rw [hf]
  exact bind_pure_comp some (m.rename c.types name)

theorem Spelled.familial_of_get? (h : c.Spelled) (hg : c.get? name = some m) (hm : m.kind ≠ .subroutine)
    (hk : ∀ parts, NameParts.parse name = .ok parts → parts.kind ∈ familyKinds.map String.toList) : m.Familial := by
  obtain ⟨-, hname⟩ := h.of_get? hg
  obtain ⟨inner, he, -⟩ := Node.name_bracketed hm hname
  have hparts := Node.parse_bracketed (Node.word_kindName m) inner
  rw [← he] at hparts
  have hkind := hk _ (NameParts.parse_of_trimmed (Node.solid_name hm hname).clean hparts)
  obtain ⟨kind, hmem, hsame⟩ := List.mem_map.1 hkind
  obtain rfl := String.toList_inj.1 hsame
  exact (Node.familial_iff m).2 hmem

theorem instantiate_eq_empty (h : Reached .standard c) (hn : ∀ callee, .call callee ∉ c.nodes)
    (hk : ∀ parts, NameParts.parse name = .ok parts → parts.kind ∈ familyKinds.map String.toList) :
    c.instantiate name = (empty .standard).instantiate name := by
  cases hg : c.get? name with
  | none => rw [instantiate_unregistered hg, h.types]
  | some m =>
    have hspelled := h.spelled hn
    obtain ⟨hm, hname⟩ := hspelled.of_get? hg
    have hkind : m.kind ≠ .subroutine := Node.kind_of_not_call fun callee he => hn callee (he ▸ hm)
    obtain ⟨m', hfamily, hs⟩ := family?_name (c := empty .standard) rfl (hspelled.familial_of_get? hg hkind hk) hname
    have hrename : m'.rename .standard name = m.rename .standard name := hs.rename_eq
    rw [instantiate_of_get? hg, instantiate_of_family? rfl hfamily, h.types]
    exact congrArg (some <$> ·) hrename.symm

/-- Two catalogs over the standard types, both without calls and whatever else was registered in them, answer alike to
every text whose kind is that of a family: with the same node, with none, or with the same error. -/
theorem familiar_names_agree (hc : Reached .standard c) (hd : Reached .standard d)
    (hnc : ∀ callee, .call callee ∉ c.nodes) (hnd : ∀ callee, .call callee ∉ d.nodes)
    (hk : ∀ parts, NameParts.parse name = .ok parts → parts.kind ∈ familyKinds.map String.toList) :
    c.instantiate name = d.instantiate name :=
  (instantiate_eq_empty hc hnc hk).trans (instantiate_eq_empty hd hnd hk).symm

/-- One catalog holds the variable of the name, and the other one nothing. -/
theorem familiar_names_agree_spaced : ∃ d, standard .standard [.int] [] = .ok d ∧
    Reached .standard (empty .standard) ∧ Reached .standard d ∧
    (∀ callee, .call callee ∉ (empty .standard).nodes) ∧ (∀ callee, .call callee ∉ d.nodes) ∧
    (∀ parts, NameParts.parse " Argument<int,0> " = .ok parts → parts.kind ∈ familyKinds.map String.toList) ∧
    d.get? " Argument<int,0> " = some (.argument .int 0) ∧
    (empty .standard).get? " Argument<int,0> " = none ∧
    (empty .standard).instantiate " Argument<int,0> " = d.instantiate " Argument<int,0> " := by
  have hcatalog : (standard .standard [.int] []).toOption.map (·.get? " Argument<int,0> ") =
      some (some (.argument .int 0)) := by decide +kernel
  obtain ⟨d, hd, hg⟩ := Option.map_eq_some_iff.1 hcatalog
  replace hd := Result.toOption_some.1 hd
  have hnd : ∀ callee, .call callee ∉ d.nodes := fun callee hmem => by
    rw [(standard_ok hd).2.2] at hmem
    exact Node.standard_of_mem hmem
  have hnc : ∀ callee, .call callee ∉ (empty .standard).nodes := fun _ => List.not_mem_nil
  have hparse : NameParts.parse " Argument<int,0> " = .ok ⟨"Argument".toList, some "int".toList, some "0".toList⟩ :=
    Result.toOption_some.1 (by decide +kernel)
  have hk : ∀ parts, NameParts.parse " Argument<int,0> " = .ok parts → parts.kind ∈ familyKinds.map String.toList := by
    intro parts hp
    obtain rfl := Except.ok.inj (hparse.symm.trans hp)
    decide
  exact ⟨d, hd, .empty, .standard hd, hnc, hnd, hk, hg, rfl, familiar_names_agree .empty (.standard hd) hnc hnd hk⟩

end Grove.NodeCatalog
