import Grove.Proofs.Loading
import Grove.Proofs.Refusing

/-! What is wrong with a declaration. Every field is checked on its own, each fault is reported once, and the reports
stand in the order of the fields, that of a list's members being the order of the list. As long as there is a fault the
document is refused for all of them together, and neither its text nor its name is looked at. -/

namespace Grove

namespace Declaration

/-- Where a declaration can be wrong. -/
inductive Place where
  | returnType
  | slot (table : VariableTable) (index : Nat)
  | body
  deriving DecidableEq

namespace Place

def field : Place → Nat
  | returnType => 0
  | slot .argument _ => 1
  | slot .localVariable _ => 2
  | body => 3

def index : Place → Nat
  | slot _ i => i
  | _ => 0

def Before (p q : Place) : Prop := p.field < q.field ∨ p.field = q.field ∧ p.index < q.index

end Place

def slots (d : Declaration) : VariableTable → List String
  | .argument => d.arguments
  | .localVariable => d.locals

/-- A fault of a declaration, with the place that it is in and the message about it. -/
inductive Fault (d : Declaration) (types : TypeCatalog) : Place → String → Prop
  | noReturnType (h : d.returns = none) : Fault d types .returnType "missing field `return_type`"
  | unknownReturnType {name : String} (h : d.returns = some name) (hl : ∀ ty, types.lookup name ≠ .ok ty) :
      Fault d types .returnType (Error.unknownType name).message
  | improperReturnType {name : String} {ty : Ty} (h : d.returns = some name) (hl : types.lookup name = .ok ty)
      (hq : ty.qualifier ≠ .plain ∨ ty.base = .any) :
      Fault d types .returnType ("return type `" ++ ty.name ++ "` must be a plain value type")
  | unknownVariable {table : VariableTable} {i : Nat} {name : String} (h : (d.slots table)[i]? = some name)
      (hl : ∀ ty, types.lookup name ≠ .ok ty) : Fault d types (.slot table i) (Error.unknownType name).message
  | wildcardVariable {table : VariableTable} {i : Nat} {name : String} {ty : Ty}
      (h : (d.slots table)[i]? = some name) (hl : types.lookup name = .ok ty) (ha : ty.base = .any) :
      Fault d types (.slot table i) (table.word ++ " " ++ showNat i ++ " must have a concrete type")
  | noBody (h : d.body = none) : Fault d types .body "missing field `tree_entity`"

def Faulty (d : Declaration) (types : TypeCatalog) : Prop := ∃ place message, d.Fault types place message

def returnFault? (d : Declaration) (types : TypeCatalog) : Option String :=
  match d.returns with
  | none => some "missing field `return_type`"
  | some name =>
    match types.lookup name with
    | .error e => some e.message
    | .ok ty =>
      if ty.isQualified || ty.isAny then some ("return type `" ++ ty.name ++ "` must be a plain value type") else none

def slotFault? (types : TypeCatalog) (table : VariableTable) (i : Nat) (name : String) : Option String :=
  match types.lookup name with
  | .error e => some e.message
  | .ok ty => if ty.isAny then some (table.word ++ " " ++ showNat i ++ " must have a concrete type") else none

def bodyFault? (d : Declaration) : Option String := if d.body.isNone then some "missing field `tree_entity`" else none

/-- The faults among the variables from one on. -/
def slotReport (types : TypeCatalog) (table : VariableTable) : Nat → List String → List (Place × String)
  | _, [] => []
  | i, name :: names =>
    (slotFault? types table i name).toList.map (Place.slot table i, ·) ++ slotReport types table (i + 1) names

def report (d : Declaration) (types : TypeCatalog) : List (Place × String) :=
  (d.returnFault? types).toList.map (.returnType, ·) ++ slotReport types .argument 0 d.arguments ++
    slotReport types .localVariable 0 d.locals ++ d.bodyFault?.toList.map (.body, ·)

section Gathering

variable {d : Declaration} {types : TypeCatalog} {table : VariableTable} {name what : String} {ty : Ty} {c : Complaints}

theorem lookupType_ok (h : types.lookup name = .ok ty) (c : Complaints) : lookupType types name c = (some ty, c) := by
  rw [lookupType, h]
  rfl

theorem lookupType_error {e : Error} (h : types.lookup name = .error e) (c : Complaints) :
    lookupType types name c = (none, c.push e.message) := by
  rw [lookupType, h]
  rfl

theorem returnType_messages (d : Declaration) (types : TypeCatalog) (c : Complaints) :
    (d.returnType types c).2.messages = c.messages ++ (d.returnFault? types).toList := by
  unfold returnType returnFault?
  cases d.returns with
  | none => rfl
  | some name =>
    dsimp only
    cases hl : types.lookup name with
    | error e => simp only [lookupType_error hl]; rfl
    | ok ty =>
      simp only [lookupType_ok hl]
      split <;> simp [Complaints.push]

theorem variableTypes_messages (types : TypeCatalog) (table : VariableTable) (i : Nat) (names : List String)
    (c : Complaints) : (variableTypes types table.word i names c).2.messages =
      c.messages ++ (slotReport types table i names).map (·.2) := by
  induction names generalizing i c with
  | nil => simp [variableTypes, slotReport]
  | cons name names ih =>
    unfold variableTypes slotReport slotFault?
    cases hl : types.lookup name with
    | error e => simp [lookupType_error hl, ih, Complaints.push]
    | ok ty =>
      simp only [lookupType_ok hl, ih]
      split <;> simp [Complaints.push]

theorem variableTypes_types {names : List String} {i : Nat} (h : slotReport types table i names = []) :
    names.map types.lookup = (variableTypes types what i names c).1.map .ok := by
  induction names generalizing i c with
  | nil => rfl
  | cons name names ih =>
    obtain ⟨hnone, hrest⟩ := List.append_eq_nil_iff.1 h
    unfold variableTypes
    cases hl : types.lookup name with
    | error e => simp [slotFault?, hl] at hnone
    | ok ty =>
      simp only [lookupType_ok hl, List.map_cons, hl]
      rw [← ih hrest]

theorem returnType_type (h : d.returnFault? types = none) :
    ∃ ty, (d.returnType types c).1 = some ty ∧ d.returns.map types.lookup = some (.ok ty) := by
  unfold returnFault? at h
  unfold returnType
  cases hr : d.returns with
  | none => simp [hr] at h
  | some name =>
    rw [hr] at h
    dsimp only at h ⊢
    cases hl : types.lookup name with
    | error e => simp [hl] at h
    | ok ty =>
      refine ⟨ty, ?_, by simp [hl]⟩
      simp only [lookupType_ok hl]
      split <;> rfl

theorem body_of_silence (h : d.bodyFault? = none) : ∃ body, d.body = some body := by
  cases hb : d.body with
  | none => simp [bodyFault?, hb] at h
  | some body => exact ⟨body, rfl⟩

/-- What was said by the time the return type, the arguments and the local variables had been checked, and then all. -/
def saidOfReturn (d : Declaration) (types : TypeCatalog) : Complaints := (d.returnType types .none).2

def saidOfArguments (d : Declaration) (types : TypeCatalog) : Complaints :=
  (variableTypes types "argument" 0 d.arguments (d.saidOfReturn types)).2

def saidOfLocals (d : Declaration) (types : TypeCatalog) : Complaints :=
  (variableTypes types "local variable" 0 d.locals (d.saidOfArguments types)).2

def said (d : Declaration) (types : TypeCatalog) : Complaints :=
  if d.body.isNone then (d.saidOfLocals types).push "missing field `tree_entity`" else d.saidOfLocals types

theorem resolve_eq (d : Declaration) (types : TypeCatalog) : d.resolve types = (do
    (d.said types).finish
    return (⟨d.name, (d.returnType types .none).1.getD .any,
      (variableTypes types "argument" 0 d.arguments (d.saidOfReturn types)).1,
      (variableTypes types "local variable" 0 d.locals (d.saidOfArguments types)).1⟩, d.body.getD "")) := rfl

theorem messages_said (d : Declaration) (types : TypeCatalog) :
    (d.said types).messages = (d.report types).map (·.2) := by
  have arguments : (d.saidOfArguments types).messages =
      (d.saidOfReturn types).messages ++ (slotReport types .argument 0 d.arguments).map (·.2) :=
    variableTypes_messages types .argument 0 d.arguments _
  have locals : (d.saidOfLocals types).messages =
      (d.saidOfArguments types).messages ++ (slotReport types .localVariable 0 d.locals).map (·.2) :=
    variableTypes_messages types .localVariable 0 d.locals _
  have body : (d.said types).messages = (d.saidOfLocals types).messages ++ d.bodyFault?.toList := by
    unfold said bodyFault?
    split <;> simp [Complaints.push]
  rw [body, locals, arguments, saidOfReturn, returnType_messages]
  simp [report, Complaints.none, Function.comp_def]

/-- A declaration of which nothing is said is resolved, to the types that its names stand for. -/
theorem resolve_of_silence (h : d.report types = []) :
    ∃ s body, d.resolve types = .ok (s, body) ∧ s.name = d.name ∧ d.body = some body ∧
      d.returns.map types.lookup = some (.ok s.returns) ∧ d.arguments.map types.lookup = s.arguments.map .ok ∧
      d.locals.map types.lookup = s.locals.map .ok := by
  have hfinish : (d.said types).finish = .ok () := by
    rw [Complaints.finish_ok, Complaints.isEmpty, messages_said, h]
    rfl
  simp only [report, List.append_eq_nil_iff, List.map_eq_nil_iff, Option.toList_eq_nil_iff] at h
  obtain ⟨⟨⟨hr, ha⟩, hl⟩, hb⟩ := h
  obtain ⟨ty, hty, hreturns⟩ := returnType_type (c := .none) hr
  obtain ⟨body, hbody⟩ := body_of_silence hb
  rw [resolve_eq, hfinish, hty, hbody]
  exact ⟨_, _, rfl, rfl, rfl, hreturns, variableTypes_types ha, variableTypes_types hl⟩

theorem resolve_of_report (h : d.report types ≠ []) :
    d.resolve types = .error (.document ((d.report types).map (·.2))) := by
  have hfinish : (d.said types).finish = .error (.document ((d.report types).map (·.2))) := by
    rw [Complaints.finish, Complaints.isEmpty, messages_said, if_neg (by simpa using h)]
  rw [resolve_eq, hfinish]
  rfl

end Gathering

section Reporting

variable {d : Declaration} {types : TypeCatalog} {table : VariableTable} {name message : String} {place : Place}

theorem lookup_unknown {e : Error} (h : types.lookup name = .error e) : e = .unknownType name := by
  unfold TypeCatalog.lookup at h
  cases hl : types.byName.lookup (trimmed name) <;> rw [hl] at h <;> cases h
  rfl

theorem returnFault?_iff : d.returnFault? types = some message ↔ d.Fault types .returnType message := by
  constructor
  · intro h
    unfold returnFault? at h
    cases hr : d.returns with
    | none =>
      rw [hr] at h
      cases h
      exact .noReturnType hr
    | some name =>
      rw [hr] at h
      dsimp only at h
      cases hl : types.lookup name with
      | error e =>
        rw [hl] at h
        cases h
        rw [lookup_unknown hl]
        exact .unknownReturnType hr (by simp [hl])
      | ok ty =>
        simp only [hl] at h
        split at h
        · rename_i hq
          cases h
          exact .improperReturnType hr hl (by simpa [Ty.isQualified, Ty.isAny] using hq)
        · cases h
  · intro h
    unfold returnFault?
    cases h with
    | noReturnType h => rw [h]
    | @unknownReturnType name h hl =>
      rw [h]
      cases he : types.lookup name with
      | ok ty => exact absurd he (hl ty)
      | error e => simp [he, lookup_unknown he]
    | @improperReturnType name ty h hl hq =>
      have hq : (ty.isQualified || ty.isAny) = true := by simpa [Ty.isQualified, Ty.isAny] using hq
      simp only [h, hl, hq, if_true]

theorem slotFault?_iff {i : Nat} (hi : (d.slots table)[i]? = some name) :
    slotFault? types table i name = some message ↔ d.Fault types (.slot table i) message := by
  constructor
  · intro h
    unfold slotFault? at h
    cases hl : types.lookup name with
    | error e =>
      rw [hl] at h
      cases h
      rw [lookup_unknown hl]
      exact .unknownVariable hi (by simp [hl])
    | ok ty =>
      simp only [hl] at h
      split at h
      · rename_i ha
        cases h
        exact .wildcardVariable hi hl (by simpa [Ty.isAny] using ha)
      · cases h
  · intro h
    unfold slotFault?
    cases h with
    | unknownVariable h hl =>
      obtain rfl := Option.some.inj (hi.symm.trans h)
      cases he : types.lookup name with
      | ok ty => exact absurd he (hl ty)
      | error e => rw [lookup_unknown he]
    | wildcardVariable h hl ha =>
      obtain rfl := Option.some.inj (hi.symm.trans h)
      simp [hl, Ty.isAny, ha]

theorem bodyFault?_iff (types : TypeCatalog) : d.bodyFault? = some message ↔ d.Fault types .body message := by
  unfold bodyFault?
  constructor
  · intro h
    split at h
    · rename_i hb
      cases h
      exact .noBody (Option.isNone_iff_eq_none.1 hb)
    · cases h
  · rintro ⟨⟩
    rename_i h
    rw [h]
    rfl

theorem mem_slotReport {k : Nat} {names : List String} : (place, message) ∈ slotReport types table k names ↔
    ∃ i name, names[i]? = some name ∧ place = .slot table (k + i) ∧
      slotFault? types table (k + i) name = some message := by
  induction names generalizing k with
  | nil => simp [slotReport]
  | cons name names ih =>
    simp only [slotReport, List.mem_append, List.mem_map, Option.mem_toList, Prod.mk.injEq, ih]
    constructor
    · rintro (⟨m, hm, rfl, rfl⟩ | ⟨i, name', hi, hp, hm⟩)
      · exact ⟨0, name, rfl, rfl, hm⟩
      · refine ⟨i + 1, name', by simpa using hi, ?_, ?_⟩
        · rw [hp, Nat.add_assoc, Nat.add_comm 1]
        · rw [← hm, Nat.add_assoc, Nat.add_comm 1]
    · rintro ⟨_ | i, name', hi, hp, hm⟩
      · obtain rfl : name = name' := by simpa using hi
        exact .inl ⟨message, hm, hp.symm, rfl⟩
      · rw [← Nat.add_assoc, Nat.add_right_comm] at hp hm
        exact .inr ⟨i, name', by simpa using hi, hp, hm⟩

theorem mem_slotReport_iff : (place, message) ∈ slotReport types table 0 (d.slots table) ↔
    (∃ i, place = .slot table i) ∧ d.Fault types place message := by
  rw [mem_slotReport]
  constructor
  · rintro ⟨i, name, hi, rfl, hm⟩
    rw [Nat.zero_add] at hm ⊢
    exact ⟨⟨i, rfl⟩, (slotFault?_iff hi).1 hm⟩
  · rintro ⟨⟨i, rfl⟩, hf⟩
    obtain ⟨name, hi⟩ : ∃ name, (d.slots table)[i]? = some name := by cases hf <;> exact ⟨_, ‹_›⟩
    refine ⟨i, name, hi, ?_, ?_⟩
    · rw [Nat.zero_add]
    · rw [Nat.zero_add]
      exact (slotFault?_iff hi).2 hf

theorem mem_report : (place, message) ∈ d.report types ↔ d.Fault types place message := by
  have arguments := @mem_slotReport_iff d types .argument message place
  have locals := @mem_slotReport_iff d types .localVariable message place
  simp only [slots] at arguments locals
  simp only [report, List.mem_append, List.mem_map, Option.mem_toList, Prod.mk.injEq, arguments, locals,
    returnFault?_iff, bodyFault?_iff types]
  constructor
  · rintro (((⟨_, h, rfl, rfl⟩ | ⟨-, h⟩) | ⟨-, h⟩) | ⟨_, h, rfl, rfl⟩) <;> exact h
  · intro h
    match place, h with
    | .returnType, h => exact .inl (.inl (.inl ⟨_, h, rfl, rfl⟩))
    | .slot .argument i, h => exact .inl (.inl (.inr ⟨⟨i, rfl⟩, h⟩))
    | .slot .localVariable i, h => exact .inl (.inr ⟨⟨i, rfl⟩, h⟩)
    | .body, h => exact .inr ⟨_, h, rfl, rfl⟩

theorem slotReport_ordered (types : TypeCatalog) (table : VariableTable) (k : Nat) (names : List String) :
    (slotReport types table k names).Pairwise fun a b => a.1.Before b.1 := by
  induction names generalizing k with
  | nil => exact .nil
  | cons name names ih =>
    refine List.pairwise_append.2 ⟨?_, ih (k + 1), ?_⟩
    · cases slotFault? types table k name <;> simp
    · rintro a ha ⟨q, m⟩ hb
      obtain ⟨_, -, rfl⟩ := List.mem_map.1 ha
      obtain ⟨i, -, -, rfl, -⟩ := mem_slotReport.1 hb
      exact .inr ⟨by cases table <;> rfl, by simp only [Place.index]; omega⟩

/-- Reports in order, on fields before the given one. -/
structure OrderedBelow (field : Nat) (l : List (Place × String)) : Prop where
  ordered : l.Pairwise fun a b => a.1.Before b.1
  below : ∀ a ∈ l, a.1.field < field

theorem OrderedBelow.nil : OrderedBelow 0 [] := ⟨.nil, nofun⟩

theorem OrderedBelow.append {field : Nat} {l l' : List (Place × String)} (h : OrderedBelow field l)
    (hl : l'.Pairwise fun a b => a.1.Before b.1) (hf : ∀ b ∈ l', b.1.field = field) :
    OrderedBelow (field + 1) (l ++ l') := by
  refine ⟨List.pairwise_append.2 ⟨h.ordered, hl, fun a ha b hb => .inl ?_⟩, fun a ha => ?_⟩
  · rw [hf b hb]
    exact h.below a ha
  · rcases List.mem_append.1 ha with ha | ha
    · exact Nat.lt_succ_of_lt (h.below a ha)
    · rw [hf a ha]
      exact Nat.lt_succ_self field

theorem report_ordered (d : Declaration) (types : TypeCatalog) :
    (d.report types).Pairwise fun a b => a.1.Before b.1 := by
  have single : ∀ (p : Place) (o : Option String), (o.toList.map (p, ·)).Pairwise (fun a b => a.1.Before b.1) ∧
      ∀ b ∈ o.toList.map (p, ·), b.1.field = p.field := by
    intro p o
    cases o <;> simp
  have slots : ∀ (table : VariableTable) (names : List String), ∀ b ∈ slotReport types table 0 names,
      b.1.field = (Place.slot table 0).field := by
    rintro table names ⟨p, m⟩ hb
    obtain ⟨i, -, -, rfl, -⟩ := mem_slotReport.1 hb
    cases table <;> rfl
  have returns : OrderedBelow 1 ((d.returnFault? types).toList.map (.returnType, ·)) :=
    OrderedBelow.nil.append (single .returnType _).1 (single .returnType _).2
  exact (((returns.append (slotReport_ordered ..) (slots .argument _)).append (slotReport_ordered ..)
    (slots .localVariable _)).append (single .body _).1 (single .body _).2).ordered

theorem faulty_iff : d.Faulty types ↔ d.report types ≠ [] := by
  constructor
  · rintro ⟨place, message, h⟩ hnil
    have hmem := mem_report.2 h
    rw [hnil] at hmem
    cases hmem
  · intro h
    obtain ⟨⟨place, message⟩, l, hl⟩ := List.exists_cons_of_ne_nil h
    exact ⟨place, message, mem_report.1 (by rw [hl]; exact List.mem_cons_self)⟩

end Reporting
end Declaration

section Documents

variable {text body : String} {d : Declaration} {s : Signature} {catalog : NodeCatalog} {r : Registry}

theorem parseDocument_faulty {types : TypeCatalog} (hd : Declaration.read text = .ok d) (h : d.Faulty types) :
    parseDocument types text = .error (.document ((d.report types).map (·.2))) :=
  Result.bind_error.2 (.inr ⟨d, hd, Declaration.resolve_of_report (Declaration.faulty_iff.1 h)⟩)

theorem readDocument_declared (hp : parseDocument catalog.types text = .ok (s, body)) (ms : List String) :
    Vocabulary.readDocument ⟨catalog, r⟩ text ≠ .error (.document ms) := by
  intro h
  rcases Result.bind_error.1 h with h | ⟨⟨s', body'⟩, -, h⟩
  · rw [hp] at h
    cases h
  · exact FaultsOfText.readTree _ _ _ _ h

theorem loadDocument_declared (hp : parseDocument catalog.types text = .ok (s, body)) (ms : List String) :
    (r.loadDocument catalog text).1 ≠ .error (.refused (.document ms)) := by
  intro h
  have hends := r.loadDocument_ends catalog text
  generalize r.loadDocument catalog text = res at h hends
  cases hends with
  | loaded => cases h
  | refused hrefuses =>
    cases h
    cases hrefuses with
    | undeclared hp' => cases hp.symm.trans hp'
    | unreadable _ _ _ hread => exact FaultsOfText.readTree _ _ _ _ hread

/-- What is wrong with a declaration is reported before anything else: all faults, each once, in the order of the
fields and of their lists. Such a document is refused for just that, whatever its name and its text, and loading it
leaves the registry as it was. Any other is never refused as a declaration, and declares the types that its names stand
for. -/
theorem faults_reported (hd : Declaration.read text = .ok d) (catalog : NodeCatalog) (r : Registry) :
    ∃ report : List (Declaration.Place × String),
      (report.Pairwise fun a b => a.1.Before b.1) ∧
      (∀ place message, (place, message) ∈ report ↔ d.Fault catalog.types place message) ∧
      ((∃ ms, Vocabulary.readDocument ⟨catalog, r⟩ text = .error (.document ms)) ↔ d.Faulty catalog.types) ∧
      ((∃ ms, (r.loadDocument catalog text).1 = .error (.refused (.document ms))) ↔ d.Faulty catalog.types) ∧
      (d.Faulty catalog.types →
        Vocabulary.readDocument ⟨catalog, r⟩ text = .error (.document (report.map (·.2))) ∧
        r.loadDocument catalog text = (.error (.refused (.document (report.map (·.2)))), r)) ∧
      (¬d.Faulty catalog.types → ∃ s body, parseDocument catalog.types text = .ok (s, body) ∧
        s.name = d.name ∧ d.body = some body ∧ d.returns.map catalog.types.lookup = some (.ok s.returns) ∧
        d.arguments.map catalog.types.lookup = s.arguments.map .ok ∧
        d.locals.map catalog.types.lookup = s.locals.map .ok) := by
  have faulty : d.Faulty catalog.types →
      Vocabulary.readDocument ⟨catalog, r⟩ text = .error (.document ((d.report catalog.types).map (·.2))) ∧
      r.loadDocument catalog text = (.error (.refused (.document ((d.report catalog.types).map (·.2)))), r) := by
    intro h
    have hp := parseDocument_faulty hd h
    refine ⟨Result.bind_error.2 (.inl hp), ?_⟩
    unfold Registry.loadDocument
    rw [hp]
  have declared : d.report catalog.types = [] → ∃ s body, parseDocument catalog.types text = .ok (s, body) ∧
      s.name = d.name ∧ d.body = some body ∧ d.returns.map catalog.types.lookup = some (.ok s.returns) ∧
      d.arguments.map catalog.types.lookup = s.arguments.map .ok ∧
      d.locals.map catalog.types.lookup = s.locals.map .ok := by
    intro h
    obtain ⟨s, body, hr, hs⟩ := Declaration.resolve_of_silence h
    exact ⟨s, body, Result.bind_ok.2 ⟨d, hd, hr⟩, hs⟩
  refine ⟨d.report catalog.types, d.report_ordered _, fun _ _ => Declaration.mem_report, ⟨?_, ?_⟩, ⟨?_, ?_⟩, faulty, ?_⟩
  · rintro ⟨ms, h⟩
    refine Declaration.faulty_iff.2 fun hnil => ?_
    obtain ⟨s, body, hp, -⟩ := declared hnil
    exact readDocument_declared hp ms h
  · exact fun h => ⟨_, (faulty h).1⟩
  · rintro ⟨ms, h⟩
    refine Declaration.faulty_iff.2 fun hnil => ?_
    obtain ⟨s, body, hp, -⟩ := declared hnil
    exact loadDocument_declared hp ms h
  · exact fun h => ⟨_, congrArg Prod.fst (faulty h).2⟩
  · exact fun h => declared (Decidable.not_not.1 (mt Declaration.faulty_iff.2 h))

/-- Nothing is right in it but one argument. -/
def faultyText : String := "[tree]\nreturn_type = \"ref[int]\"\narguments = [\"strng\", \"int\", \"any\"]\n" ++
  "local_variables = [\"any\"]\n"

def faultyDeclaration : Declaration := ⟨none, some "ref[int]", ["strng", "int", "any"], ["any"], none⟩

def faultyMessages : List String :=
  ["return type `ref[int]` must be a plain value type", "unknown type name `strng`",
    "argument 2 must have a concrete type", "local variable 0 must have a concrete type",
    "missing field `tree_entity`"]

theorem faults_reported_five : Declaration.read faultyText = .ok faultyDeclaration ∧
    faultyDeclaration.Faulty .standard ∧
    Vocabulary.readDocument ⟨.empty .standard, .empty⟩ faultyText = .error (.document faultyMessages) ∧
    Registry.loadDocument .empty (.empty .standard) faultyText =
      (.error (.refused (.document faultyMessages)), .empty) := by
  have hread : Declaration.read faultyText = .ok faultyDeclaration := Result.toOption_some.1 (by decide +kernel)
  have hfaulty : faultyDeclaration.Faulty .standard := ⟨.body, _, .noBody rfl⟩
  have hsaid : (faultyDeclaration.report .standard).map (·.2) = faultyMessages := by decide +kernel
  have hparse := parseDocument_faulty hread hfaulty
  obtain ⟨report, -, -, -, -, hrefused, -⟩ := faults_reported hread (.empty .standard) .empty
  obtain ⟨hdocument, hload⟩ := hrefused hfaulty
  have hmessages : report.map (·.2) = faultyMessages := by
    have hbind := hdocument.symm.trans (Result.bind_error.2 (.inl hparse))
    rw [hsaid] at hbind
    exact Error.document.inj (Except.error.inj hbind)
  rw [hmessages] at hdocument hload
  exact ⟨hread, hfaulty, hdocument, hload⟩

end Documents
end Grove
