import Grove.Proofs.TypedExec

/-! Operands of a typed evaluation. A child that yields for its slot hands its parent a value or handle of
the slot's base, up to stray bases; so where there are none, a parent is never handed what it cannot
take. -/

namespace Grove

variable {stray cs : List Base} {d ty : Ty}

theorem Value.Fits.stray_ne {b : Base} {v : Value} (h : v.Fits stray b) (hb : v.base ≠ b) : stray ≠ [] := by
  rintro rfl
  simp [Value.Fits, hb] at h

theorem Handle.set_iff (h : Handle) (v : Value) (s : Store) :
    (h.set v s).1 = true ↔ h.isBound = true ∧ v.base = h.base := by
  cases h with
  | unbound b => simp [Handle.set, Handle.isBound, Handle.target?]
  | bound x => by_cases hv : v.base = x.base <;> simp [Handle.set, Handle.isBound, Handle.target?, Handle.base, hv]

namespace Exec

theorem Keeps.operand {child : Exec Yield} (h : Keeps stray d cs (Yields stray ty) child) :
    Keeps stray d cs (Yields stray ty) (operand child) := by
  refine Keeps.bind h fun cs₁ y _ hy => ?_
  refine Keeps.bind Keeps.isEvaluating fun cs₂ b h₂ _ => ?_
  cases b
  · exact Keeps.stop
  · exact Keeps.pure fun cs₃ h₃ => hy.mono (h₂.trans h₃)

theorem Keeps.readHandle {h : Handle} {b : Base} (hh : h.Typed cs) (hb : h.base = b) (s : Status) :
    Keeps stray d cs (fun _ o => ∀ v ∈ o, v.Fits stray b) (do
      let v ← Exec.onStore h.get
      if v.isNone then Exec.signal s
      return v) := by
  refine Keeps.bind (P := fun _ o => ∀ v ∈ o, v.base = h.base) ?_ fun cs₁ o _ ho => ?_
  · exact Keeps.onStore fun cs₁ s h₁ hs =>
      have := (hh.mono h₁).get hs
      ⟨cs₁, List.prefix_refl _, this.2, this.1⟩
  · have hfit : ∀ v ∈ o, v.Fits stray b := fun v hv => .inl ((ho v hv).trans hb)
    cases o with
    | none => exact Keeps.bind (Keeps.signal s) fun _ _ _ _ => Keeps.pure fun _ _ => hfit
    | some v => exact Keeps.pure fun _ _ => hfit

theorem Keeps.read? {y : Yield} (hy : Yields stray ty cs y) (h : ty.base ≠ .any) :
    Keeps stray d cs (fun _ o => ∀ v ∈ o, v.Fits stray ty.base) (read? y) := by
  have hc := hy.2 h
  cases y with
  | void => exact hc.elim
  | value v => exact Keeps.pure fun _ _ => by simpa using hc.2
  | leftHand l => exact Keeps.readHandle (hy.1 l rfl) hc.1 _
  | reference l => exact Keeps.readHandle (hy.1 l rfl) hc.1 _

theorem Keeps.value {child : Exec Yield} (h : Keeps stray d cs (Yields stray ty) child) (ha : ty.base ≠ .any) :
    Keeps stray d cs (fun _ v => v.Fits stray ty.base) (value child) := by
  refine Keeps.bind h.operand fun cs₁ y _ hy => ?_
  refine Keeps.bind (Keeps.read? hy ha) fun cs₂ o _ ho => ?_
  cases o with
  | none => exact Keeps.stop
  | some v => exact Keeps.pure fun _ _ => ho v rfl

theorem Keeps.expectBool {v : Value} (h : v.Fits stray .bool) :
    Keeps stray d cs (fun _ _ => True) (expectBool v) := by
  cases v with
  | bool b => exact Keeps.pure fun _ _ => trivial
  | _ => exact Keeps.mismatch (h.stray_ne (by simp [Value.base]))

theorem Keeps.expectInt {v : Value} (h : v.Fits stray .int) :
    Keeps stray d cs (fun _ _ => True) (expectInt v) := by
  cases v with
  | int i => exact Keeps.pure fun _ _ => trivial
  | _ => exact Keeps.mismatch (h.stray_ne (by simp [Value.base]))

theorem Keeps.expectFloat {v : Value} (h : v.Fits stray .float) :
    Keeps stray d cs (fun _ _ => True) (expectFloat v) := by
  cases v with
  | float x => exact Keeps.pure fun _ _ => trivial
  | _ => exact Keeps.mismatch (h.stray_ne (by simp [Value.base]))

theorem Keeps.expectInts {v : Value} (h : v.Fits stray .ints) :
    Keeps stray d cs (fun _ _ => True) (expectInts v) := by
  cases v with
  | ints xs => exact Keeps.pure fun _ _ => trivial
  | _ => exact Keeps.mismatch (h.stray_ne (by simp [Value.base]))

theorem Keeps.handle {child : Exec Yield} {b : Base} (hb : b ≠ .any)
    (h : Keeps stray d cs (Yields stray (Ty.plain b).leftHand) child) :
    Keeps stray d cs (fun cs₁ l => l.Typed cs₁ ∧ l.base = b) (handle child) := by
  refine Keeps.bind h.operand fun cs₁ y _ hy => ?_
  have hc := hy.2 hb
  cases y with
  | void => exact hc.elim
  | value v => simp [Ty.leftHand] at hc
  | leftHand l => exact Keeps.pure fun cs₂ h₂ => ⟨(hy.1 l rfl).mono h₂, hc.1⟩
  | reference l => simp [Ty.leftHand] at hc

theorem Keeps.assign {l : Handle} (hl : l.Typed cs) (v : Value) :
    Keeps stray d cs (fun _ done => done = true ↔ l.isBound = true ∧ v.base = l.base) (assign l v) := by
  refine Keeps.bind (P := fun _ done => done = true ↔ l.isBound = true ∧ v.base = l.base) ?_
    fun cs₁ done _ hd => ?_
  · exact Keeps.onStore fun cs₁ s h₁ hs =>
      ⟨cs₁, List.prefix_refl _, (hl.mono h₁).set hs v, Handle.set_iff l v s⟩
  · cases done
    · exact Keeps.pure fun _ _ => hd
    · cases ht : l.target? with
      | none => exact Keeps.pure fun _ _ => hd
      | some x => exact Keeps.bind (Keeps.note trivial) fun _ _ _ _ => Keeps.pure fun _ _ => hd

/-- A variable of the frame, read as a node of the type sees it. -/
theorem Keeps.access {x : Option Variable} (hx : ∀ v ∈ x, v.Typed cs) (ty : Ty) :
    Keeps stray d cs (Yields stray ty) (access ty x) := by
  have hf : ∀ v ∈ x.filter (·.base = ty.base), v.Typed cs ∧ v.base = ty.base := by
    intro v hv
    simp only [Option.mem_def, Option.filter_eq_some_iff, decide_eq_true_eq] at hv
    exact ⟨hx v hv.1, hv.2⟩
  have hh : ∀ cs₁, cs <+: cs₁ → ((x.filter (·.base = ty.base)).elim (Handle.unbound ty.base) .bound).Typed cs₁ ∧
      ((x.filter (·.base = ty.base)).elim (Handle.unbound ty.base) .bound).base = ty.base := by
    intro cs₁ h₁
    cases hv : x.filter (·.base = ty.base) with
    | none => exact ⟨by simp [Handle.Typed, Handle.target?], rfl⟩
    | some v =>
      have := hf v hv
      exact ⟨by simpa [Handle.Typed, Handle.target?] using this.1.mono h₁, this.2⟩
  unfold Exec.access
  cases hq : ty.qualifier with
  | leftHand =>
    exact Keeps.pure fun cs₁ h₁ => ⟨by simpa [Yield.Typed, Yield.handle?] using (hh cs₁ h₁).1,
      fun _ => ⟨(hh cs₁ h₁).2, .inr hq⟩⟩
  | reference =>
    exact Keeps.pure fun cs₁ h₁ => ⟨by simpa [Yield.Typed, Yield.handle?] using (hh cs₁ h₁).1,
      fun _ => ⟨(hh cs₁ h₁).2, .inr hq⟩⟩
  | plain =>
    cases hv : x.filter (·.base = ty.base) with
    | none => exact Keeps.invalid
    | some v =>
      obtain ⟨hv, hb⟩ := hf v hv
      refine Keeps.bind (P := fun _ w => w.base = ty.base) ?_ fun cs₁ w _ hw => ?_
      · exact Keeps.onStore fun cs₁ s h₁ hs =>
          have := (hv.mono h₁).get hs
          ⟨cs₁, List.prefix_refl _, this.2, this.1.trans hb⟩
      · exact Keeps.pure fun _ _ => ⟨Yield.typed_value w, fun _ => ⟨hq, .inl hw⟩⟩

theorem Keeps.bindArgument {slot : Ty} {child : Exec Yield} (ha : slot.base ≠ .any)
    (h : Keeps stray d cs (Yields stray slot) child) :
    Keeps stray d cs (fun cs₁ x => x.Typed cs₁) (bindArgument slot child) := by
  refine Keeps.bind h.operand fun cs₁ y _ hy => ?_
  cases hq : slot.isQualified with
  | true =>
    have hp : slot.qualifier ≠ .plain := by simpa [Ty.isQualified] using hq
    have hc := hy.2 ha
    cases y with
    | void => exact hc.elim
    | value v => exact absurd hc.1 hp
    | leftHand l =>
      cases l with
      | unbound b => exact Keeps.invalid
      | bound x => exact Keeps.pure fun cs₂ h₂ => (hy.1 (.bound x) rfl x rfl).mono h₂
    | reference l =>
      cases l with
      | unbound b => exact Keeps.invalid
      | bound x => exact Keeps.pure fun cs₂ h₂ => (hy.1 (.bound x) rfl x rfl).mono h₂
  | false =>
    refine Keeps.bind (Keeps.read? hy ha) fun cs₂ o _ _ => ?_
    cases o with
    | none => exact Keeps.invalid
    | some v =>
      refine Keeps.onStore fun cs₃ s _ hs => ⟨cs₃ ++ [v.base], List.prefix_append _ _, ?_⟩
      exact hs.alloc v.base (c := some v) (by simp)

end Exec
end Grove
