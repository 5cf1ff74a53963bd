import Grove.Proofs.Literal
import Grove.Proofs.Naming

/-! How the standard types spell the names of nodes. A name that is not that of a call is a word, with a type
and perhaps a property in brackets behind it, and no blank anywhere. Any node that bears the name of another
becomes that node by taking its name. -/

namespace Grove

/-- What the standard spelling of a type is like. -/
structure TypeName (ty : Ty) (name : String) : Prop where
  lookup : TypeCatalog.standard.lookup name = .ok ty
  solid : Solid name.toList
  comma : ',' ∉ name.toList

theorem typeName_of_standard {ty : Ty} {name : String} (h : TypeCatalog.standard.name ty = .ok name) :
    TypeName ty name := by
  have spelled : ∀ ty, match TypeCatalog.standard.name ty with
      | .error _ => True
      | .ok name => (TypeCatalog.standard.lookup name).toOption = some ty ∧ Solid name.toList ∧ ',' ∉ name.toList := by
    rintro ⟨b, q⟩
    cases b <;> cases q <;> first | exact trivial | exact ⟨by decide +kernel, by decide +kernel, by decide +kernel⟩
  have := spelled ty
  rw [h] at this
  exact ⟨Result.toOption_some.1 this.1, this.2.1, this.2.2⟩

theorem name_of_concrete (ty : Ty) (h : ty.base ≠ .any) : ∃ name, TypeCatalog.standard.name ty = .ok name := by
  have named : (TypeCatalog.standard.name ty).toOption.isSome = true := by
    obtain ⟨b, q⟩ := ty
    cases b <;> cases q <;> first | exact absurd rfl h | decide +kernel
  obtain ⟨name, hn⟩ := Option.isSome_iff_exists.1 named
  exact ⟨name, Result.toOption_some.1 hn⟩

theorem NameParts.parse_of_trimmed {name : String} {parts : NameParts} (hc : Clean (trimmed name).toList)
    (h : NameParts.parse (trimmed name) = .ok parts) : NameParts.parse name = .ok parts := by
  unfold NameParts.parse at h ⊢
  rw [hc.trim, trimmed, String.toList_ofList] at h
  split at h
  · exact h
  · rename_i kind inner _
    by_cases hlast : inner.getLast? = some '>'
    · rwa [if_pos hlast] at h ⊢
    · rw [if_neg hlast] at h
      cases h

namespace Node

/-- The word in front of the bracket. -/
structure Word (kind : String) : Prop where
  solid : Solid kind.toList
  bracket : '<' ∉ kind.toList

theorem toList_bracketed (kind inner : String) :
    (bracketed kind inner).toList = kind.toList ++ '<' :: (inner.toList ++ ['>']) := by
  simp [bracketed]

theorem clean_bracketed {kind : String} (h : Word kind) (inner : String) : Clean (bracketed kind inner).toList := by
  rw [toList_bracketed]
  refine ⟨fun c hc => ?_, fun c hc => ?_⟩
  · cases hk : kind.toList with
    | nil =>
      obtain rfl : '<' = c := by simpa [hk] using hc
      decide
    | cons d ds =>
      obtain rfl : d = c := by simpa [hk] using hc
      exact h.solid d (by simp [hk])
  · rw [← List.cons_append, ← List.append_assoc, List.getLast?_concat] at hc
    obtain rfl : '>' = c := Option.some.inj hc
    decide

theorem parse_bracketed {kind : String} (h : Word kind) (inner : String) : NameParts.parse (bracketed kind inner) =
    .ok ⟨kind.toList, some (trim (cutAt ',' inner.toList).1), (cutAt ',' inner.toList).2.map trim⟩ := by
  rw [NameParts.parse, (clean_bracketed h inner).trim, toList_bracketed, cutAt_append h.bracket]
  simp

theorem parse_property {kind tyName datum : String} {ty : Ty} (h : Word kind) (ht : TypeName ty tyName)
    (hd : Solid datum.toList) :
    NameParts.parse
    (bracketed kind (tyName ++ "," ++ datum)) = .ok ⟨kind.toList, some tyName.toList, some datum.toList⟩ := by
  have hlist : (tyName ++ "," ++ datum).toList = tyName.toList ++ ',' :: datum.toList := by simp
  rw [parse_bracketed h, hlist, cutAt_append ht.comma, Option.map_some, ht.solid.clean.trim, hd.clean.trim]

theorem parse_fixed {kind tyName : String} {ty : Ty} (h : Word kind) (ht : TypeName ty tyName) :
    NameParts.parse (bracketed kind tyName) = .ok ⟨kind.toList, some tyName.toList, none⟩ := by
  rw [parse_bracketed h, cutAt_front ht.comma, Option.map_none, ht.solid.clean.trim]

variable {n m : Node} {name : String}

theorem word_kindName (n : Node) : Word n.kindName := by
  suffices h : Solid n.kindName.toList ∧ '<' ∉ n.kindName.toList from ⟨h.1, h.2⟩
  cases n with
  | arithmetic op b => cases op <;> simp only [kindName, Arithmetic.name] <;> decide
  | comparison op b => cases op <;> simp only [kindName, Comparison.name] <;> decide
  | logic op => cases op <;> simp only [kindName, Logic.name] <;> decide
  | _ => simp only [kindName]; decide

theorem solid_propertyText {p : Property} : Solid (propertyText p).toList := by
  cases p with
  | literal v => simpa [propertyText, Value.render] using v.solid_text
  | index i => simpa [propertyText, showNat] using solid_digits i
  | arity k => simpa [propertyText, showNat] using solid_digits k

theorem name_property {p : Property} (hp : n.property? = some p) (h : n.name .standard = .ok name) :
    ∃ tyName, TypeName n.returns tyName ∧ name = bracketed n.kindName (tyName ++ "," ++ propertyText p) := by
  have spelled : ∀ {ty : Ty},
      (do return bracketed n.kindName ((← TypeCatalog.standard.name ty) ++ "," ++ propertyText p)) =
        Except.ok (ε := Error) name →
      ∃ tyName, TypeName ty tyName ∧ name = bracketed n.kindName (tyName ++ "," ++ propertyText p) := by
    intro ty h
    obtain ⟨tyName, ht, h⟩ := Result.bind_ok.1 h
    exact ⟨tyName, typeName_of_standard ht, (Except.ok.inj h).symm⟩
  cases n with
  | const v => cases hp; exact spelled h
  | argument ty i => cases hp; exact spelled h
  | localVariable ty i => cases hp; exact spelled h
  | progn ty k => cases hp; exact spelled h
  | _ => cases hp

theorem name_bracketed (hc : n.kind ≠ .subroutine) (h : n.name .standard = .ok name) :
    ∃ inner, name = bracketed n.kindName inner ∧ Solid inner.toList := by
  unfold Node.name at h
  split at h
  · exact absurd rfl hc
  · obtain ⟨count, hcount, h⟩ := Result.bind_ok.1 h
    obtain ⟨body, hbody, h⟩ := Result.bind_ok.1 h
    refine ⟨_, (Except.ok.inj h).symm, ?_⟩
    simpa using (typeName_of_standard hcount).solid.append (.cons (by decide) (typeName_of_standard hbody).solid)
  · obtain ⟨tyName, ht, h⟩ := Result.bind_ok.1 h
    split at h
    · refine ⟨_, (Except.ok.inj h).symm, ?_⟩
      simpa using (typeName_of_standard ht).solid.append (.cons (by decide) solid_propertyText)
    · exact ⟨_, (Except.ok.inj h).symm, (typeName_of_standard ht).solid⟩

theorem solid_name (hc : n.kind ≠ .subroutine) (h : n.name .standard = .ok name) : Solid name.toList := by
  obtain ⟨inner, rfl, hi⟩ := name_bracketed hc h
  rw [toList_bracketed]
  exact (word_kindName n).solid.append (.cons (by decide) (hi.append (.cons (by decide) solid_nil)))

theorem bracket_mem_name (hc : n.kind ≠ .subroutine) (h : n.name .standard = .ok name) : '<' ∈ name.toList := by
  obtain ⟨inner, rfl, -⟩ := name_bracketed hc h
  simp [toList_bracketed]

theorem kindName_of_name (hm : m.kind ≠ .subroutine) (hn : n.kind ≠ .subroutine) (h : m.name .standard = .ok name)
    (h' : n.name .standard = .ok name) : m.kindName = n.kindName := by
  obtain ⟨inner, rfl, -⟩ := name_bracketed hm h
  obtain ⟨inner', he, -⟩ := name_bracketed hn h'
  have hcut := congrArg (fun name : String => (cutAt '<' name.toList).1) he
  simp only [toList_bracketed, cutAt_append (word_kindName _).bracket] at hcut
  exact String.toList_inj.1 hcut

/-- Literals are legible, and numbers fit the words of 64 bits that hold them. -/
def Legible : Node → Prop
  | const v => v.Legible
  | argument _ i => i < words64
  | localVariable _ i => i < words64
  | progn _ k => 2 ≤ k ∧ k < words64
  | _ => True

theorem familial_iff (n : Node) : n.Familial ↔
    n.kindName ∈ ["Const", "Argument", "LocalVariable", "Progn", "Nop"] := by
  cases n with
  | arithmetic op b => cases op <;> simp [Familial, kindName, Arithmetic.name]
  | comparison op b => cases op <;> simp [Familial, kindName, Comparison.name]
  | logic op => cases op <;> simp [Familial, kindName, Logic.name]
  | _ => simp [Familial, kindName]

theorem parse_familial (hf : n.Familial) (h : n.name .standard = .ok name) :
    ∃ tyName second, TypeName n.returns tyName ∧
    NameParts.parse name = .ok ⟨n.kindName.toList, some tyName.toList, second⟩ := by
  cases hp : n.property? with
  | some p =>
    obtain ⟨tyName, ht, rfl⟩ := name_property hp h
    exact ⟨tyName, _, ht, parse_property (word_kindName n) ht solid_propertyText⟩
  | none =>
    cases n with
    | nop ty =>
      obtain ⟨tyName, ht, h⟩ := Result.bind_ok.1 h
      cases h
      exact ⟨tyName, _, typeName_of_standard ht, parse_fixed (word_kindName (nop ty)) (typeName_of_standard ht)⟩
    | _ => first | exact hf.elim | cases hp

/-- Members of one family, that is nodes of one kind and type that differ in the property at most. -/
inductive Sibling : Node → Node → Prop
  | const {v v' : Value} (h : v.base = v'.base) : Sibling (const v) (const v')
  | argument (ty : Ty) (i j : Nat) : Sibling (argument ty i) (argument ty j)
  | localVariable (ty : Ty) (i j : Nat) : Sibling (localVariable ty i) (localVariable ty j)
  | progn (ty : Ty) (k l : Nat) : Sibling (progn ty k) (progn ty l)
  | nop (ty : Ty) : Sibling (nop ty) (nop ty)

theorem Sibling.of_eq (hf : n.Familial) (hk : m.kindName = n.kindName) (hr : m.returns = n.returns) :
    m.Sibling n := by
  have hm : m.Familial := by rwa [familial_iff, hk, ← familial_iff]
  cases n <;> cases m <;>
    first | exact hm.elim | exact hf.elim | (simp [kindName] at hk; done) | (simp only [returns] at hr)
  · exact .const (congrArg Ty.base hr)
  · exact hr ▸ .argument ..
  · exact hr ▸ .localVariable ..
  · exact hr ▸ .progn ..
  · exact hr ▸ .nop _

theorem Sibling.kind_ne (h : m.Sibling n) : n.kind ≠ .subroutine := by
  cases h <;> nofun

theorem readIndex_showNat {i : Nat} (h : i < words64) : readIndex (showNat i).toList = .ok i := by
  simp [readIndex, showNat, readNat_digits h]

theorem read_self {p : Property} (hp : n.property? = some p) (hl : n.Legible) :
    n.readProperty (propertyText p).toList = .ok p ∧ n.setProperty p = .ok n := by
  cases n with
  | const v =>
    cases hp
    constructor
    · rw [readProperty, propertyText, String.ofList_toList, Value.parse_render hl]
      rfl
    · simp [setProperty]
  | argument ty i =>
    cases hp
    exact ⟨by simp only [readProperty, propertyText, readIndex_showNat hl]; rfl, rfl⟩
  | localVariable ty i =>
    cases hp
    exact ⟨by simp only [readProperty, propertyText, readIndex_showNat hl]; rfl, rfl⟩
  | progn ty k =>
    cases hp
    have hlong : ¬k < 2 := Nat.not_lt.2 hl.1
    exact ⟨by simp only [readProperty, propertyText, readIndex_showNat hl.2]; rfl, by simp [setProperty, hlong]⟩
  | _ => cases hp

theorem rename_self (hc : n.kind ≠ .subroutine) (hl : n.Legible) (h : n.name .standard = .ok name) :
    n.rename .standard name = .ok n := by
  cases hp : n.property? with
  | none => exact (rename_fixed hp).2 ⟨by rw [trimmed_eq_self_iff.2 (solid_name hc h).clean, h], rfl⟩
  | some p =>
    obtain ⟨tyName, ht, rfl⟩ := name_property hp h
    obtain ⟨hread, hset⟩ := read_self hp hl
    have hparse := parse_property (word_kindName n) ht (solid_propertyText (p := p))
    refine (rename_property hp).2 ⟨_, _, p, ⟨hparse, rfl, ?_, rfl⟩, hread, hset⟩
    rw [Option.getD_some, String.ofList_toList]
    exact ht.lookup

theorem rename_congr {p q : Property} {types : TypeCatalog} (hp : m.property? = some p) (hq : n.property? = some q)
    (hk : m.kindName = n.kindName) (hr : m.returns = n.returns) (hread : m.readProperty = n.readProperty)
    (hset : m.setProperty = n.setProperty) : m.rename types name = n.rename types name := by
  unfold Node.rename
  rw [hp, hq]
  dsimp only
  rw [hk, hr, hread, hset]

theorem Sibling.rename_eq {types : TypeCatalog} (h : m.Sibling n) : m.rename types name = n.rename types name := by
  cases h with
  | @const v v' hb =>
    refine rename_congr rfl rfl rfl (congrArg Ty.plain hb) ?_ (funext fun p => ?_)
    · funext datum
      simp only [readProperty, hb]
    · cases p <;> simp only [setProperty, kindName, hb]
  | argument ty i j => exact rename_congr rfl rfl rfl rfl rfl (funext fun p => by cases p <;> rfl)
  | localVariable ty i j => exact rename_congr rfl rfl rfl rfl rfl (funext fun p => by cases p <;> rfl)
  | progn ty k l => exact rename_congr rfl rfl rfl rfl rfl (funext fun p => by cases p <;> rfl)
  | nop ty => rfl

theorem Sibling.rename (hs : m.Sibling n) (hl : n.Legible) (h : n.name .standard = .ok name) :
    m.rename .standard name = .ok n :=
  hs.rename_eq.trans (rename_self hs.kind_ne hl h)

theorem Sibling.of_name (hf : n.Familial) (hm : m.kind ≠ .subroutine) (h : m.name .standard = .ok name)
    (h' : n.name .standard = .ok name) : m.Sibling n := by
  have hk := kindName_of_name hm (kind_of_familial hf) h h'
  obtain ⟨tyName, _, ht, hp⟩ := parse_familial (by rwa [familial_iff, hk, ← familial_iff]) h
  obtain ⟨tyName', _, ht', hp'⟩ := parse_familial hf h'
  refine .of_eq hf hk ?_
  have hparts := hp.symm.trans hp'
  simp only [Except.ok.injEq, NameParts.mk.injEq, Option.some.injEq, String.toList_inj] at hparts
  obtain ⟨-, rfl, -⟩ := hparts
  exact Except.ok.inj (ht.lookup.symm.trans ht'.lookup)

end Node
end Grove
