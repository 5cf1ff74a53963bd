import Grove.Proofs.Loading

/-! Loading is atomic. A document that is refused, wherever that shows, leaves the registry exactly as it was. Any
other adds its call with a body: a valid tree for the signature that the document declares, which is what the text
in the document reads as. Nothing else can come of a document. -/

namespace Grove

variable {r r' : Registry}

/-- What names mean depends on the registry only through the calls that it knows. -/
theorem Vocabulary.node_congr (catalog : NodeCatalog) (h : ∀ name, r.callee? name = r'.callee? name) :
    Vocabulary.node ⟨catalog, r⟩ = Vocabulary.node ⟨catalog, r'⟩ := by
  funext name
  simp only [Vocabulary.node, Registry.prototype?, h name]

theorem Vocabulary.readTree_congr {catalog : NodeCatalog} (h : ∀ name, r.callee? name = r'.callee? name) {text : String}
    {s : Signature} {t : Tree} (hread : Vocabulary.readTree ⟨catalog, r⟩ text s = .ok t) :
    Vocabulary.readTree ⟨catalog, r'⟩ text s = .ok t := by
  rw [readTree_ok] at hread ⊢
  rwa [← Vocabulary.node_congr catalog h]

namespace Registry

/-- A call is known as well before its body is as after. -/
theorem callee?_stored (r : Registry) (c : Callee) (body body' : Option Tree) (name : String) :
    (r.stored c body).callee? name = (r.stored c body').callee? name := by
  rw [callee?, callee?, entry?_stored, entry?_stored]
  split <;> rfl

theorem entries_stored {c : Callee} (hn : r.entry? c.name = none) (body : Option Tree) :
    r.stored c body = ⟨(c.name, ⟨c, body⟩) :: r.entries⟩ := by
  rw [stored, Table.put, Table.drop_of_lookup hn]

end Registry

theorem loadDocument_atomic (r : Registry) (catalog : NodeCatalog) (text : String) :
    (∃ e, r.loadDocument catalog text = (.error (.refused e), r) ∧ r.Refuses catalog text e) ∨
      ∃ s body c t r', r.loadDocument catalog text = (.ok c, r') ∧
        parseDocument catalog.types text = .ok (s, body) ∧ s.callee? = some c ∧
        r.entry? c.name = none ∧ r' = ⟨(c.name, ⟨c, some t⟩) :: r.entries⟩ ∧
        r'.entry? c.name = some ⟨c, some t⟩ ∧ (∀ name, name ≠ c.name → r'.entry? name = r.entry? name) ∧
        t.ValidFor s ∧ Vocabulary.readTree ⟨catalog, r'⟩ body s = .ok t := by
  have h := Registry.loadDocument_ends r catalog text
  generalize r.loadDocument catalog text = res at h
  cases h with
  | refused h => exact .inl ⟨_, rfl, h⟩
  | @loaded s body c t hp hs hn hread =>
    obtain ⟨e, -, ha, rfl⟩ := readTree_ok.1 hread
    refine .inr ⟨s, body, c, _, _, rfl, hp, hs, hn, Registry.entries_stored hn _, ?_, ?_, Tree.validFor_planted ha, ?_⟩
    · rw [Registry.entry?_stored, if_pos rfl]
    · intro name hname
      rw [Registry.entry?_stored, if_neg hname]
    · exact Vocabulary.readTree_congr (Registry.callee?_stored r c none _) hread

end Grove
