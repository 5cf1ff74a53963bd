import Grove.Proofs.Atomicity
import Grove.Proofs.RoundTrip

/-! Subroutines by name. A name goes to the catalog first, so a subroutine that was loaded is called by its name just
when the catalog leaves the name over or holds the very call. Any name without a bracket is left over by a standard
catalog; a document may still declare another one, and then the name means a node of the catalog. -/

namespace Grove

/-- The kinds whose nodes a catalog makes without a prototype. -/
def familyKinds : List String := ["Const", "Argument", "LocalVariable", "Progn", "Nop"]

/-- The name is not that of a member of a family: there are no brackets in it, or the kind before them is another. -/
def Unfamiliar (name : String) : Prop :=
  ∃ parts, NameParts.parse name = .ok parts ∧ (parts.first = none ∨ parts.kind ∉ familyKinds.map String.toList)

theorem unfamiliar_of_bracket {name : String} (h : '<' ∉ name.toList) : Unfamiliar name := by
  have hb : '<' ∉ trim name.toList := fun hm => h (mem_of_mem_trim hm)
  exact ⟨⟨trim name.toList, none, none⟩, by rw [NameParts.parse, cutAt_front hb], .inl rfl⟩

namespace NodeCatalog

variable {catalog : NodeCatalog} {name : String} {c : Callee}

theorem family?_eq_none : catalog.family? name = .ok none ↔ Unfamiliar name := by
  have member : ∀ {α : Type} {x : Except Error α} {f : α → Node},
      (do return some (f (← x))) ≠ Except.ok (ε := Error) (none : Option Node) := by
    intro α x f h
    obtain ⟨_, -, h⟩ := Result.bind_ok.1 h
    cases h
  unfold family? Unfamiliar
  constructor
  · intro h
    obtain ⟨parts, hp, h⟩ := Result.bind_ok.1 h
    refine ⟨parts, hp, ?_⟩
    cases hf : parts.first with
    | none => exact .inl rfl
    | some first =>
      rw [hf] at h
      refine .inr fun hk => ?_
      simp only [familyKinds, List.map_cons, List.map_nil, List.mem_cons, List.not_mem_nil, or_false] at hk
      dsimp only at h
      rcases hk with hk | hk | hk | hk | hk <;> rw [hk] at h
      · obtain ⟨ty, -, h⟩ := Result.bind_ok.1 h
        exact member (f := id) h
      all_goals exact member h
  · rintro ⟨parts, hp, h⟩
    refine Result.bind_ok.2 ⟨parts, hp, ?_⟩
    cases hf : parts.first with
    | none => rfl
    | some first =>
      have hne : ∀ kind ∈ familyKinds, parts.kind ≠ kind.toList := fun kind hk heq =>
        h.resolve_left (by rw [hf]; exact nofun) (heq ▸ List.mem_map_of_mem hk)
      dsimp only
      rw [if_neg (hne "Const" (by decide)), if_neg (hne "Argument" (by decide)),
        if_neg (hne "LocalVariable" (by decide)), if_neg (hne "Progn" (by decide)), if_neg (hne "Nop" (by decide))]
      rfl

theorem instantiate_eq_none : catalog.instantiate name = .ok none ↔ catalog.get? name = none ∧ Unfamiliar name := by
  constructor
  · intro h
    unfold instantiate at h
    cases hg : catalog.get? name with
    | some m =>
      rw [hg] at h
      obtain ⟨found, hf, h⟩ := Result.bind_ok.1 h
      cases hf
      obtain ⟨n, -, h⟩ := Result.bind_ok.1 h
      cases h
    | none =>
      rw [hg] at h
      obtain ⟨found, hf, h⟩ := Result.bind_ok.1 h
      cases found with
      | some m =>
        obtain ⟨n, -, h⟩ := Result.bind_ok.1 h
        cases h
      | none => exact ⟨rfl, family?_eq_none.1 hf⟩
  · rintro ⟨hg, hu⟩
    exact instantiate_none hg (family?_eq_none.2 hu)

theorem instantiate_call : catalog.instantiate name = .ok (some (.call c)) ↔
    catalog.get? name = some (.call c) ∧ c.name = trimmed name := by
  rw [instantiate_some]
  constructor
  · rintro ⟨m, hm, hr⟩
    have hmem : m = .call c := by
      cases hp : m.property? with
      | none => exact ((Node.rename_fixed hp).1 hr).2.symm
      | some p =>
        obtain ⟨_, _, _, -, -, hset⟩ := (Node.rename_property hp).1 hr
        cases Node.property?_of_set hset
    subst hmem
    rcases hm with hg | ⟨-, hf⟩
    · exact ⟨hg, Except.ok.inj ((Node.rename_fixed rfl).1 hr).1⟩
    · exact (familial_of_family? hf).elim
  · rintro ⟨hg, hname⟩
    exact ⟨_, .inl hg, (Node.rename_fixed rfl).2 ⟨congrArg Except.ok hname, rfl⟩⟩

theorem get?_standard {arguments locals : List Ty} (hc : standard .standard arguments locals = .ok catalog)
    (hb : '<' ∉ name.toList) : catalog.get? name = none := by
  cases hg : catalog.get? name with
  | none => rfl
  | some m =>
    obtain ⟨hm, hname⟩ := (Stocked.standard hc).spelled.of_get? hg
    rw [(standard_ok hc).2.2] at hm
    have hk : m.kind ≠ .subroutine := Node.kind_of_not_call fun callee he => by
      subst he
      exact (Node.standard_of_mem hm).elim
    have hmem := Node.bracket_mem_name hk hname
    rw [trimmed, String.toList_ofList] at hmem
    exact absurd (mem_of_mem_trim hmem) hb

end NodeCatalog

namespace Registry

variable {r r' : Registry} {catalog : NodeCatalog} {text : String} {c : Callee}

/-- The name of a call that the registry holds means that call unless the catalog answers otherwise. -/
theorem node_stored_iff (r : Registry) (catalog : NodeCatalog) (c : Callee) (body : Option Tree) :
    Vocabulary.node ⟨catalog, r.stored c body⟩ c.name = .ok (.call c) ↔
      (catalog.get? c.name = none ∧ Unfamiliar c.name) ∨
        (catalog.get? c.name = some (.call c) ∧ c.name = trimmed c.name) := by
  have hcall : (r.stored c body).prototype? c.name = some (.call c) := by
    rw [prototype?, callee?, entry?_stored, if_pos rfl]
    rfl
  rw [← NodeCatalog.instantiate_eq_none, ← NodeCatalog.instantiate_call]
  constructor
  · intro h
    obtain ⟨found, hf, h⟩ := Result.bind_ok.1 h
    cases found with
    | none => exact .inl hf
    | some n =>
      cases h
      exact .inr hf
  · rintro (h | h)
    · exact Result.bind_ok.2 ⟨none, h, by rw [hcall]; rfl⟩
    · exact Vocabulary.node_of_instantiate h

/-- A document that was loaded left a body under the name that it declares. The name means the call, for the body that
is being read as for whatever is read later, just when the catalog has no prototype of that name and the name is of no
family, or when the catalog itself holds this call. -/
theorem loaded_callable_iff (h : r.loadDocument catalog text = (.ok c, r')) :
    ∃ reserved body, r.reserve c = .ok reserved ∧ r'.body? c.name = some body ∧
      Vocabulary.node ⟨catalog, reserved⟩ = Vocabulary.node ⟨catalog, r'⟩ ∧
      (Vocabulary.node ⟨catalog, r'⟩ c.name = .ok (.call c) ↔
        (catalog.get? c.name = none ∧ Unfamiliar c.name) ∨
          (catalog.get? c.name = some (.call c) ∧ c.name = trimmed c.name)) := by
  cases h ▸ r.loadDocument_ends catalog text with
  | @loaded s body _ t hp hs hn hread =>
    refine ⟨r.stored c none, t, reserve_ok.2 ⟨hn, rfl⟩, ?_, ?_, node_stored_iff r catalog c _⟩
    · rw [body?, entry?_stored, if_pos rfl]
      rfl
    · exact Vocabulary.node_congr catalog (callee?_stored r c none _)

def constantText (name : String) : String :=
  "[tree]\nname = \"" ++ name ++ "\"\nreturn_type = \"int\"\ntree_entity = \"+--Const<int,5>\"\n"

theorem loaded_callable_five : ∃ catalog r' reserved body, NodeCatalog.standard .standard [] [] = .ok catalog ∧
    loadDocument .empty catalog (constantText "Five") = (.ok ⟨"Five", .int, []⟩, r') ∧
    reserve .empty ⟨"Five", .int, []⟩ = .ok reserved ∧ r'.body? "Five" = some body ∧
    Vocabulary.node ⟨catalog, reserved⟩ "Five" = .ok (.call ⟨"Five", .int, []⟩) ∧
    Vocabulary.node ⟨catalog, r'⟩ "Five" = .ok (.call ⟨"Five", .int, []⟩) := by
  have hruns : ((NodeCatalog.standard .standard [] []).toOption.map fun catalog =>
      (loadDocument .empty catalog (constantText "Five")).1.toOption) = some (some ⟨"Five", .int, []⟩) := by
    decide +kernel
  obtain ⟨catalog, hc, hload⟩ := Option.map_eq_some_iff.1 hruns
  replace hc := Result.toOption_some.1 hc
  rcases hrun : loadDocument .empty catalog (constantText "Five") with ⟨res, r'⟩
  rw [hrun] at hload
  obtain rfl := Result.toOption_some.1 hload
  obtain ⟨reserved, body, hres, hbody, hsame, hiff⟩ := loaded_callable_iff hrun
  have hnode := hiff.2 (.inl ⟨NodeCatalog.get?_standard hc (by decide), unfamiliar_of_bracket (by decide)⟩)
  exact ⟨catalog, r', reserved, body, hc, hrun, hres, hbody, hsame ▸ hnode, hnode⟩

/-- A document may declare the name of a prototype, which then means that. -/
theorem loaded_taken_add : ∃ catalog r', NodeCatalog.standard .standard [] [] = .ok catalog ∧
    loadDocument .empty catalog (constantText "Add<int>") = (.ok ⟨"Add<int>", .int, []⟩, r') ∧
    Vocabulary.node ⟨catalog, r'⟩ "Add<int>" = .ok (.arithmetic .add .int) ∧
    Vocabulary.node ⟨catalog, r'⟩ "Add<int>" ≠ .ok (.call ⟨"Add<int>", .int, []⟩) := by
  have hruns : ((NodeCatalog.standard .standard [] []).toOption.map fun catalog =>
      let loaded := loadDocument .empty catalog (constantText "Add<int>")
      (loaded.1.toOption, (Vocabulary.node ⟨catalog, loaded.2⟩ "Add<int>").toOption)) =
        some (some ⟨"Add<int>", .int, []⟩, some (.arithmetic .add .int)) := by
    decide +kernel
  obtain ⟨catalog, hc, hload⟩ := Option.map_eq_some_iff.1 hruns
  rcases hrun : loadDocument .empty catalog (constantText "Add<int>") with ⟨res, r'⟩
  dsimp only at hload
  rw [hrun] at hload
  obtain ⟨hload, hnode⟩ := Prod.mk.inj hload
  obtain rfl := Result.toOption_some.1 hload
  replace hnode := Result.toOption_some.1 hnode
  exact ⟨catalog, r', Result.toOption_some.1 hc, hrun, hnode, by rw [hnode]; nofun⟩

end Registry
end Grove
