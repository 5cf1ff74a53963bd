import Grove.Proofs.Floating
import Grove.Proofs.Literal

/-! Literals read back, floats included: what is written for a value has no blank in it and is read as that value, and
a literal that is accepted, however it was spelt, has the value that its canonical spelling has. -/

namespace Grove.Value

variable {base : Base} {literal : String} {v : Value}

theorem legible (v : Value) : v.Legible := fun x _ => readFloat_floatText x

theorem base_of_parse (h : parse base literal = .ok v) : v.base = base := by
  have read : ∀ {α : Type} {f : α → Value} {e : LiteralError} {x : Option α}, (∀ a, (f a).base = base) →
      (x.map f).elim (.error e) .ok = Except.ok v → v.base = base := by
    intro α f e x hf h
    cases x with
    | none => cases h
    | some a =>
      obtain rfl := Except.ok.inj h
      exact hf a
  unfold parse at h
  cases base with
  | any => cases h
  | bool => exact read (fun _ => rfl) h
  | int => exact read (fun _ => rfl) h
  | float => exact read (fun _ => rfl) h
  | ints =>
    dsimp only at h
    split at h
    · cases h
    · exact read (fun _ => rfl) h

/-- A value is read from its literal, which has no blanks and so neither ends nor breaks a line, and whatever literal
has the value, the canonical one has it for the same base. -/
theorem literals_read_back :
    (∀ v : Value, parse v.base v.render = .ok v ∧ Solid v.render.toList ∧ '\n' ∉ v.render.toList ∧
      trimmed v.render = v.render) ∧
    ∀ (base : Base) (literal : String) (v : Value), parse base literal = .ok v →
      v.base = base ∧ parse base v.render = .ok v := by
  constructor
  · intro v
    have hsolid : Solid v.render.toList := by
      rw [render, String.toList_ofList]
      exact v.solid_text
    refine ⟨parse_render v.legible, hsolid, fun hbreak => ?_, trimmed_eq_self_iff.2 hsolid.clean⟩
    exact absurd (hsolid '\n' hbreak) (by decide)
  · intro base literal v h
    obtain rfl := base_of_parse h
    exact ⟨rfl, parse_render v.legible⟩

theorem literals_read_back_loose : parse .ints "\t[ +7, -0012 ,2147483647]\n" = .ok (.ints [7, -12, 2147483647]) ∧
    render (.ints [7, -12, 2147483647]) = "[7,-12,2147483647]" ∧
    parse .ints "[7,-12,2147483647]" = .ok (.ints [7, -12, 2147483647]) := by
  have hloose : parse .ints "\t[ +7, -0012 ,2147483647]\n" = .ok (.ints [7, -12, 2147483647]) := by decide +kernel
  have hrender : render (.ints [7, -12, 2147483647]) = "[7,-12,2147483647]" := by decide +kernel
  exact ⟨hloose, hrender, hrender ▸ (literals_read_back.2 _ _ _ hloose).2⟩

end Grove.Value
