import Grove.Document
import Grove.Proofs.Grammar
import Grove.Proofs.Soundness
import Grove.Proofs.Standard

/-! What loading documents puts into a registry. A document that is refused leaves the registry as it was; any
other adds one entry, whose body was read with the call already reserved. So every body of a registry that was
filled from documents is well formed, up to the integers that it may return out of turn. -/

namespace Grove

theorem Node.Standard.sits {n : Node} (h : n.Standard) {r : Registry} {d : Ty} : n.Sits [.int] r d := by
  refine ⟨?_, ?_, ?_⟩
  · cases n with
    | returnValue ty =>
      obtain rfl : ty = .int := h
      exact ⟨rfl, by simp [Ty.int, Ty.plain]⟩
    | call c => exact h.elim
    | _ => exact h
  · rintro ty rfl
    obtain rfl : ty = .int := h
    exact .inr (by simp [Ty.int, Ty.plain])
  · rintro c rfl
    exact h.elim

section Extending

variable {stray : List Base} {r r' : Registry}

/-- Everything that could be called before can be called after. -/
def Registry.Extends (r r' : Registry) : Prop := ∀ {name c}, r.callee? name = some c → r'.callee? name = some c

theorem Node.Sits.mono {d : Ty} {n : Node} (h : n.Sits stray r d) (hr : r.Extends r') : n.Sits stray r' d :=
  ⟨h.operable, h.returned, fun hc => ⟨hr (h.called hc).1, (h.called hc).2⟩⟩

theorem Tree.WellFormed.mono {t : Tree} (h : t.WellFormed stray r) (hr : r.Extends r') : t.WellFormed stray r' := by
  obtain ⟨e, he, ha, hs⟩ := h.term
  exact ⟨h.locals, e, he, ha, fun n hn => (hs n hn).mono hr⟩

theorem Entry.WellFormed.mono {e : Entry} (h : e.WellFormed stray r) (hr : r.Extends r') : e.WellFormed stray r' :=
  ⟨h.concrete, fun t ht => ⟨(h.body t ht).1, (h.body t ht).2.mono hr⟩⟩

end Extending

/-- A registry that stores calls under their own names, with bodies that return a stray integer at worst. -/
structure Registry.Stocked (r : Registry) : Prop where
  keyed : ∀ {name e}, r.entry? name = some e → e.callee.name = name
  wellFormed : r.WellFormed [.int]

theorem readTree_wellFormed {v : Vocabulary} (hc : ∀ n ∈ v.catalog.nodes, n.Standard)
    (hr : ∀ {name e}, v.registry.entry? name = some e → e.callee.name = name ∧ e.callee.Concrete)
    {text : String} {s : Signature} {t : Tree} (hl : ∀ ty ∈ s.locals, ty.base ≠ .any) (h : v.readTree text s = .ok t) :
    t.WellFormed [.int] v.registry := by
  obtain ⟨e, hnames, ha, rfl⟩ := readTree_ok.1 h
  refine ⟨hl, e, Tree.denotes_planted s e, ha, fun n hn => ?_⟩
  have hmem : (Except.ok n : Except Error Node) ∈ (nodeNames text).map v.node := hnames ▸ List.mem_map_of_mem hn
  obtain ⟨name, -, hname⟩ := List.mem_map.1 hmem
  rcases Vocabulary.node_cases hc hname with hstd | ⟨c, rfl, hcall⟩
  · exact hstd.sits
  · obtain ⟨entry, he, rfl⟩ := Option.map_eq_some_iff.1 hcall
    obtain ⟨hkey, hconcrete⟩ := hr he
    refine ⟨trivial, nofun, fun hc => ?_⟩
    cases hc
    rw [hkey]
    exact ⟨hcall, hconcrete⟩

theorem Complaints.isEmpty_push (c : Complaints) (message : String) : (c.push message).isEmpty = false := by
  simp [Complaints.isEmpty, Complaints.push]

theorem Complaints.finish_ok {c : Complaints} : c.finish = .ok () ↔ c.isEmpty = true := by
  unfold Complaints.finish
  split <;> simp_all

theorem signature_of_readTree {v : Vocabulary} {text : String} {s : Signature} {t : Tree}
    (h : v.readTree text s = .ok t) : t.signature = s := by
  obtain ⟨e, -, -, rfl⟩ := readTree_ok.1 h
  rfl

namespace Declaration

variable {types : TypeCatalog}

/-- No complaint was made about the types of variables, so all of them are concrete. -/
theorem variableTypes_concrete {what : String} {names : List String} {i : Nat} {c : Complaints}
    (h : (variableTypes types what i names c).2.isEmpty = true) :
    c.isEmpty = true ∧ ∀ ty ∈ (variableTypes types what i names c).1, ty.base ≠ .any := by
  induction names generalizing i c with
  | nil => exact ⟨h, by simp [variableTypes]⟩
  | cons name names ih =>
    unfold variableTypes lookupType Complaints.check at h ⊢
    cases hl : (types.lookup name).mapError Error.message with
    | error m =>
      rw [hl] at h
      simpa [Complaints.isEmpty_push] using (ih h).1
    | ok ty =>
      rw [hl] at h
      dsimp only at h ⊢
      obtain ⟨hc, htys⟩ := ih h
      by_cases ha : ty.isAny = true
      · simp [ha, Complaints.isEmpty_push] at hc
      · simp only [ha] at hc htys ⊢
        exact ⟨hc, List.forall_mem_cons.2 ⟨by simpa [Ty.isAny] using ha, htys⟩⟩

theorem returnType_plain {d : Declaration} {c : Complaints} (h : (d.returnType types c).2.isEmpty = true) :
    ∃ ty, (d.returnType types c).1 = some ty ∧ ty.qualifier = .plain ∧ ty.base ≠ .any := by
  unfold returnType lookupType Complaints.check at h ⊢
  cases hr : d.returns with
  | none => simp [hr, Complaints.isEmpty_push] at h
  | some name =>
    rw [hr] at h
    dsimp only at h ⊢
    cases hl : (types.lookup name).mapError Error.message with
    | error m => simp [hl, Complaints.isEmpty_push] at h
    | ok ty =>
      rw [hl] at h
      dsimp only at h ⊢
      by_cases hq : (ty.isQualified || ty.isAny) = true
      · simp [hq, Complaints.isEmpty_push] at h
      · refine ⟨ty, by simp [hq], ?_⟩
        simpa [Ty.isQualified, Ty.isAny] using hq

end Declaration

theorem parseDocument_concrete {types : TypeCatalog} {text body : String} {s : Signature}
    (h : parseDocument types text = .ok (s, body)) :
    (∀ c, s.callee? = some c → c.Concrete) ∧ ∀ ty ∈ s.locals, ty.base ≠ .any := by
  obtain ⟨d, -, h⟩ := Result.bind_ok.1 h
  unfold Declaration.resolve at h
  rcases hr : d.returnType types .none with ⟨returns, c₁⟩
  rcases ha : Declaration.variableTypes types "argument" 0 d.arguments c₁ with ⟨arguments, c₂⟩
  rcases hl : Declaration.variableTypes types "local variable" 0 d.locals c₂ with ⟨locals, c₃⟩
  have concreteLocals := @Declaration.variableTypes_concrete types "local variable" d.locals 0 c₂
  have concreteArguments := @Declaration.variableTypes_concrete types "argument" d.arguments 0 c₁
  have plainReturns := @Declaration.returnType_plain types d .none
  simp only [hr, ha, hl] at h concreteLocals concreteArguments plainReturns
  obtain ⟨⟨⟩, hfinish, h⟩ := Result.bind_ok.1 h
  have h₃ : c₃.isEmpty = true := by
    rw [Complaints.finish_ok] at hfinish
    split at hfinish
    · simp [Complaints.isEmpty_push] at hfinish
    · exact hfinish
  obtain ⟨h₂, hlocals⟩ := concreteLocals h₃
  obtain ⟨h₁, harguments⟩ := concreteArguments h₂
  obtain ⟨ty, rfl, hq, hconcrete⟩ := plainReturns h₁
  cases h
  refine ⟨fun c hc => ?_, hlocals⟩
  obtain ⟨name, -, rfl⟩ := Option.map_eq_some_iff.1 hc
  exact ⟨hq, hconcrete, harguments⟩

namespace Registry

/-- The registries that documents fill, each read with a standard catalog. -/
inductive Loaded : Registry → Prop
  | empty : Loaded .empty
  | load {r : Registry} {types : TypeCatalog} {arguments locals : List Ty} {catalog : NodeCatalog} (h : Loaded r)
      (hc : NodeCatalog.standard types arguments locals = .ok catalog) (text : String) :
      Loaded (r.loadDocument catalog text).2

def stored (r : Registry) (c : Callee) (body : Option Tree) : Registry := ⟨Table.put c.name ⟨c, body⟩ r.entries⟩

def Agrees (r r' : Registry) : Prop := ∀ name, r'.entry? name = r.entry? name

variable {r : Registry} {c : Callee}

theorem entry?_put (es : List (String × Entry)) (key name : String) (e : Entry) :
    Registry.entry? ⟨Table.put key e es⟩ name = if name = key then some e else Registry.entry? ⟨es⟩ name :=
  Table.lookup_put key name e es

theorem entry?_stored (r : Registry) (c : Callee) (body : Option Tree) (name : String) :
    Registry.entry? (r.stored c body) name = if name = c.name then some ⟨c, body⟩ else r.entry? name :=
  entry?_put r.entries c.name name _

theorem reserve_ok {r' : Registry} : r.reserve c = .ok r' ↔ r.entry? c.name = none ∧ r' = r.stored c none := by
  unfold reserve contains stored
  cases r.entry? c.name <;> simp [eq_comm]

theorem register_iff {t : Tree} {r' : Registry} : r.register t = .ok (c, r') ↔
    t.signature.callee? = some c ∧ r.entry? c.name = none ∧ r' = r.stored c (some t) := by
  unfold register contains stored
  cases t.signature.callee? with
  | none => simp
  | some own =>
    cases hn : r.entry? own.name with
    | none =>
      simp only [hn, Option.isSome_none, Bool.false_eq_true, if_false, Except.ok.injEq, Prod.mk.injEq,
        Option.some.injEq]
      constructor
      · rintro ⟨rfl, rfl⟩
        exact ⟨rfl, hn, rfl⟩
      · rintro ⟨rfl, -, rfl⟩
        exact ⟨rfl, rfl⟩
    | some e =>
      simp only [hn, Option.isSome_some, if_true, Option.some.injEq]
      refine ⟨nofun, ?_⟩
      rintro ⟨rfl, hnone, -⟩
      rw [hn] at hnone
      cases hnone

theorem rollback_stored (hn : r.entry? c.name = none) (body : Option Tree) : (r.stored c body).rollback c.name = r := by
  rw [rollback, stored, Table.drop_put, Table.drop_of_lookup hn]

theorem commit_stored (r : Registry) (c : Callee) (t : Tree) :
    (r.stored c none).commit c.name t = .ok (r.stored c (some t)) := by
  have he : Registry.entry? (r.stored c none) c.name = some ⟨c, none⟩ := by rw [entry?_stored, if_pos rfl]
  rw [commit, he]
  exact congrArg (fun entries => Except.ok (Registry.mk entries)) (Table.put_put c.name _ _ r.entries)

/-- Why a document is refused: its declaration, a name that is missing or taken, or the text of its tree. -/
inductive Refuses (r : Registry) (catalog : NodeCatalog) (text : String) : Error → Prop
  | undeclared {e : Error} (hp : parseDocument catalog.types text = .error e) : Refuses r catalog text e
  | nameless {s : Signature} {body : String} (hp : parseDocument catalog.types text = .ok (s, body))
      (hs : s.callee? = none) : Refuses r catalog text .missingName
  | taken {s : Signature} {body : String} {c : Callee} (hp : parseDocument catalog.types text = .ok (s, body))
      (hs : s.callee? = some c) (hc : r.contains c.name = true) : Refuses r catalog text (.duplicateSubroutine c.name)
  | unreadable {s : Signature} {body : String} {c : Callee} {e : Error}
      (hp : parseDocument catalog.types text = .ok (s, body)) (hs : s.callee? = some c) (hn : r.entry? c.name = none)
      (hread : Vocabulary.readTree ⟨catalog, r.stored c none⟩ body s = .error e) : Refuses r catalog text e

/-- A document is refused, with the registry as it was, or the tree that it declares is added. -/
inductive LoadEnds (r : Registry) (catalog : NodeCatalog) (text : String) : Except Failure Callee × Registry → Prop
  | refused {e : Error} (h : r.Refuses catalog text e) : LoadEnds r catalog text (.error (.refused e), r)
  | loaded {s : Signature} {body : String} {c : Callee} {t : Tree}
      (hp : parseDocument catalog.types text = .ok (s, body)) (hs : s.callee? = some c) (hn : r.entry? c.name = none)
      (hread : Vocabulary.readTree ⟨catalog, r.stored c none⟩ body s = .ok t) :
      LoadEnds r catalog text (.ok c, r.stored c (some t))

theorem loadDocument_ends (r : Registry) (catalog : NodeCatalog) (text : String) :
    LoadEnds r catalog text (r.loadDocument catalog text) := by
  unfold loadDocument
  cases hp : parseDocument catalog.types text with
  | error e => exact .refused (.undeclared hp)
  | ok p =>
    obtain ⟨s, body⟩ := p
    dsimp only
    cases hs : s.callee? with
    | none => exact .refused (.nameless hp hs)
    | some c =>
      dsimp only
      cases hres : r.reserve c with
      | error e =>
        by_cases hc : r.contains c.name = true
        · rw [reserve, if_pos hc] at hres
          cases hres
          exact .refused (.taken hp hs hc)
        · rw [reserve, if_neg hc] at hres
          cases hres
      | ok reserved =>
        obtain ⟨hn, rfl⟩ := reserve_ok.1 hres
        dsimp only
        cases hread : Vocabulary.readTree ⟨catalog, r.stored c none⟩ body s with
        | error e =>
          dsimp only
          rw [rollback_stored hn]
          exact .refused (.unreadable hp hs hn hread)
        | ok t =>
          dsimp only
          rw [commit_stored]
          exact .loaded hp hs hn hread

theorem loadDocument_cases (r : Registry) (catalog : NodeCatalog) (text : String) :
    r.Agrees (r.loadDocument catalog text).2 ∨
      ∃ s body c t, parseDocument catalog.types text = .ok (s, body) ∧ s.callee? = some c ∧ r.entry? c.name = none ∧
        Vocabulary.readTree ⟨catalog, r.stored c none⟩ body s = .ok t ∧
          (r.stored c (some t)).Agrees (r.loadDocument catalog text).2 := by
  have h := loadDocument_ends r catalog text
  generalize r.loadDocument catalog text = res at h
  cases h with
  | refused => exact .inl fun _ => rfl
  | loaded hp hs hn hread => exact .inr ⟨_, _, _, _, hp, hs, hn, hread, fun _ => rfl⟩

theorem extends_stored (hn : r.entry? c.name = none) (body : Option Tree) : r.Extends (r.stored c body) := by
  intro name c' hc
  rw [callee?, entry?_stored]
  by_cases he : name = c.name
  · rw [callee?, he, hn] at hc
    cases hc
  · rwa [if_neg he]

theorem stored_extends (r : Registry) (c : Callee) (body body' : Option Tree) :
    (r.stored c body).Extends (r.stored c body') := by
  intro name c' hc
  rw [callee?, entry?_stored] at hc ⊢
  by_cases he : name = c.name
  · rwa [if_pos he] at hc ⊢
  · rwa [if_neg he] at hc ⊢

theorem Stocked.congr {r' : Registry} (h : r.Stocked) (he : r.Agrees r') : r'.Stocked := by
  have hextends : r.Extends r' := fun hc => by rwa [callee?, he]
  exact ⟨fun h' => h.keyed (he _ ▸ h'), fun h' => (h.wellFormed (he _ ▸ h')).mono hextends⟩

theorem Stocked.stored (h : r.Stocked) (hc : c.Concrete) (hn : r.entry? c.name = none) {body : Option Tree}
    (hb : ∀ t ∈ body, t.signature.callee? = some c ∧ t.WellFormed [.int] (r.stored c body)) :
    (r.stored c body).Stocked := by
  refine ⟨fun {name e} he => ?_, fun {name e} he => ?_⟩ <;> rw [entry?_stored] at he <;> split at he
  · rename_i heq
    cases he
    exact heq.symm
  · exact h.keyed he
  · cases he
    exact ⟨hc, hb⟩
  · exact (h.wellFormed he).mono (extends_stored hn body)

theorem Stocked.loadDocument (h : r.Stocked) {catalog : NodeCatalog} (hc : ∀ n ∈ catalog.nodes, n.Standard)
    (text : String) : (r.loadDocument catalog text).2.Stocked := by
  rcases loadDocument_cases r catalog text with he | ⟨s, body, c, t, hp, hs, hn, hread, he⟩
  · exact h.congr he
  · obtain ⟨hconcrete, hlocals⟩ := parseDocument_concrete hp
    have reserved : (r.stored c none).Stocked := h.stored (hconcrete c hs) hn (by simp)
    have ht := readTree_wellFormed hc (fun he => ⟨reserved.keyed he, (reserved.wellFormed he).concrete⟩) hlocals hread
    refine Stocked.congr (h.stored (hconcrete c hs) hn ?_) he
    rintro _ ⟨⟩
    exact ⟨signature_of_readTree hread ▸ hs, ht.mono (stored_extends r c none (some t))⟩

theorem Loaded.stocked {r : Registry} (h : r.Loaded) : r.Stocked := by
  induction h with
  | empty => exact ⟨nofun, nofun⟩
  | load _ hc text ih =>
    refine ih.loadDocument (fun n hn => ?_) text
    rw [(NodeCatalog.standard_ok hc).2.2] at hn
    exact Node.standard_of_mem hn

end Registry
end Grove
