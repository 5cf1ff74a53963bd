import Grove.Proofs.Spelling

/-! Names identify nodes. The word of a name tells the kind and the operator, the type behind it the rest, and what is
left is the property, whose text reads back. So over the standard types no two nodes that are not calls bear one name,
as long as floats read back and the elements of arrays are integers. -/

namespace Grove

theorem showNat_inj {i j : Nat} : showNat i = showNat j ↔ i = j := by
  constructor
  · intro h
    have hdigits : digits i = digits j := by simpa [showNat] using congrArg String.toList h
    have hread := congrArg readDigits hdigits
    rwa [readDigits_digits, readDigits_digits, Option.some.injEq] at hread
  · rintro rfl
    rfl

namespace Node

variable {m n : Node} {name : String}

/-- The name tells all of the node: its literal is legible, and arrays are of integers. -/
def Told : Node → Prop
  | const v => v.Legible
  | elementAt b => b = .int
  | size b => b = .int
  | _ => True

theorem bracketed_inj {kind inner inner' : String} : bracketed kind inner = bracketed kind inner' ↔ inner = inner' := by
  simp [bracketed]

theorem Sibling.eq_of_text {p q : Property} (hs : m.Sibling n) (hm : m.Told) (hn : n.Told) (hp : m.property? = some p)
    (hq : n.property? = some q) (h : propertyText p = propertyText q) : m = n := by
  cases hs with
  | @const v v' hb =>
    cases hp
    cases hq
    have hread := Value.parse_render hm
    rw [hb, show v.render = v'.render from h, Value.parse_render hn] at hread
    rw [Except.ok.inj hread]
  | argument ty i j =>
    cases hp
    cases hq
    rw [showNat_inj.1 h]
  | localVariable ty i j =>
    cases hp
    cases hq
    rw [showNat_inj.1 h]
  | progn ty k l =>
    cases hp
    cases hq
    rw [showNat_inj.1 h]
  | nop ty => cases hp

theorem Sibling.property?_isSome (hs : m.Sibling n) : m.property?.isSome = n.property?.isSome := by
  cases hs <;> rfl

theorem Sibling.eq_of_name (hs : m.Sibling n) (hm : m.Told) (hn : n.Told) (h : m.name .standard = .ok name)
    (h' : n.name .standard = .ok name) : m = n := by
  cases hq : n.property? with
  | none =>
    cases hs with
    | nop ty => rfl
    | _ => cases hq
  | some q =>
    obtain ⟨p, hp⟩ := Option.isSome_iff_exists.1 (hs.property?_isSome.trans (by rw [hq]; rfl))
    obtain ⟨tyName, ht, rfl⟩ := name_property hp h
    obtain ⟨tyName', ht', he⟩ := name_property hq h'
    have hparts := parse_property (word_kindName m) ht (solid_propertyText (p := p))
    rw [he, parse_property (word_kindName n) ht' solid_propertyText] at hparts
    simp only [Except.ok.injEq, NameParts.mk.injEq, Option.some.injEq, String.toList_inj] at hparts
    exact hs.eq_of_text hm hn hp hq hparts.2.2.symm

/-- What stands before the last type in the name of an operator: loops name the type of their count besides. -/
def lead (kind : String) : String := if kind = "Repeat" then "int," else ""

theorem name_operator (hf : ¬n.Familial) (hc : n.kind ≠ .subroutine) (h : n.name .standard = .ok name) :
    ∃ tyName, TypeName n.typeParameter tyName ∧ name = bracketed n.kindName (lead n.kindName ++ tyName) := by
  have int : TypeCatalog.standard.name .int = .ok "int" := Result.toOption_some.1 (by decide +kernel)
  have plain : (do return bracketed n.kindName (← TypeCatalog.standard.name n.typeParameter)) =
      Except.ok (ε := Error) name → n.kindName ≠ "Repeat" →
      ∃ tyName, TypeName n.typeParameter tyName ∧ name = bracketed n.kindName (lead n.kindName ++ tyName) := by
    intro h hk
    obtain ⟨tyName, ht, h⟩ := Result.bind_ok.1 h
    refine ⟨tyName, typeName_of_standard ht, (Except.ok.inj h).symm.trans ?_⟩
    rw [lead, if_neg hk, String.empty_append]
  cases n with
  | repeatTimes ty =>
    obtain ⟨count, hcount, h⟩ := Result.bind_ok.1 h
    obtain ⟨body, hbody, h⟩ := Result.bind_ok.1 h
    obtain rfl := Except.ok.inj (hcount.symm.trans int)
    exact ⟨body, typeName_of_standard hbody, (Except.ok.inj h).symm⟩
  | call c => exact absurd rfl hc
  | arithmetic op b => exact plain h (by cases op <;> simp [kindName, Arithmetic.name])
  | comparison op b => exact plain h (by cases op <;> simp [kindName, Comparison.name])
  | logic op => exact plain h (by cases op <;> decide)
  | const | argument | localVariable | progn | nop => exact absurd trivial hf
  | _ => exact plain h (by simp [kindName])

/-- The operator of a word and a type. -/
def operator? (kind : String) (ty : Ty) : Option Node :=
  [("Add", arithmetic .add ty.base), ("Sub", arithmetic .sub ty.base), ("Mult", arithmetic .mult ty.base),
    ("Div", arithmetic .div ty.base), ("Greater", comparison .greater ty.base),
    ("GreaterEq", comparison .greaterEq ty.base), ("Less", comparison .less ty.base),
    ("LessEq", comparison .lessEq ty.base), ("Equal", comparison .equal ty.base),
    ("NotEqual", comparison .notEqual ty.base), ("And", logic .and), ("Or", logic .or), ("Not", logic .not),
    ("If", ifElse ty), ("Repeat", repeatTimes ty), ("Substitute", substitute ty.base), ("Increment", increment ty.base),
    ("At", elementAt .int), ("Size", size .int), ("Break", breakLoop ty), ("Continue", continueLoop ty),
    ("Return", returnValue ty)].lookup kind

theorem operator?_kindName (hf : ¬n.Familial) (hc : n.kind ≠ .subroutine) (ht : n.Told) :
    operator? n.kindName n.typeParameter = some n := by
  cases n with
  | call c => exact absurd rfl hc
  | const | argument | localVariable | progn | nop => exact absurd trivial hf
  | arithmetic op b => cases op <;> rfl
  | comparison op b => cases op <;> rfl
  | logic op => cases op <;> rfl
  | elementAt b =>
    obtain rfl : b = .int := ht
    rfl
  | size b =>
    obtain rfl : b = .int := ht
    rfl
  | _ => rfl

/-- Two nodes of one name are one node. -/
theorem eq_of_name (hm : m.kind ≠ .subroutine) (hn : n.kind ≠ .subroutine) (tm : m.Told) (tn : n.Told)
    (h : m.name .standard = .ok name) (h' : n.name .standard = .ok name) : m = n := by
  have hk := kindName_of_name hm hn h h'
  by_cases hf : n.Familial
  · exact (Sibling.of_name hf hm h h').eq_of_name tm tn h h'
  · have hf' : ¬m.Familial := by rwa [familial_iff, hk, ← familial_iff]
    obtain ⟨tyName, ht, rfl⟩ := name_operator hf' hm h
    obtain ⟨tyName', ht', he⟩ := name_operator hf hn h'
    rw [hk, bracketed_inj, String.append_right_inj] at he
    subst he
    have hty : m.typeParameter = n.typeParameter := Except.ok.inj (ht.lookup.symm.trans ht'.lookup)
    have hop := operator?_kindName hf' hm tm
    rw [hk, hty, operator?_kindName hf hn tn] at hop
    exact (Option.some.inj hop).symm

end Node
end Grove
