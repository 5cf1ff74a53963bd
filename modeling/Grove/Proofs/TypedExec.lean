import Grove.Proofs.Typing

/-! Computations that keep a run typed. From every typed state such a computation leaves a typed state,
breaks no promise, and a result has the stated property. Cells made on the way extend the typing, so a
property of a result is kept while more cells are made. -/

namespace Grove

/-- A computation is never left by a broken promise, and a result of it has the property. -/
def Ends {α : Type} (P : α → Prop) : Except Halt α → Prop
  | .ok a => P a
  | .error .stopped => True
  | .error (.violated _) => False

namespace Exec

variable {α β : Type} {stray cs : List Base} {d ty : Ty}

def Keeps (stray : List Base) (d : Ty) (cs : List Base) (P : List Base → α → Prop) (x : Exec α) : Prop :=
  ∀ cs₁ r, cs <+: cs₁ → r.Typed stray d cs₁ →
    ∃ cs₂, cs₁ <+: cs₂ ∧ (x.runFrom r).2.Typed stray d cs₂ ∧ Ends (P cs₂) (x.runFrom r).1

/-- A yield for a position of the type. -/
def Yields (stray : List Base) (ty : Ty) (cs : List Base) (y : Yield) : Prop :=
  y.Typed cs ∧ y.Conforms stray ty

section Rules

variable {P : List Base → α → Prop} {Q : List Base → β → Prop} {x : Exec α}

theorem Keeps.mono {cs' : List Base} (h : Keeps stray d cs P x) (hc : cs <+: cs') : Keeps stray d cs' P x :=
  fun cs₁ r h₁ hr => h cs₁ r (hc.trans h₁) hr

theorem Keeps.weaken {P' : List Base → α → Prop} (h : Keeps stray d cs P x)
    (hp : ∀ cs₁ a, cs <+: cs₁ → P cs₁ a → P' cs₁ a) : Keeps stray d cs P' x := by
  intro cs₁ r h₁ hr
  obtain ⟨cs₂, h₂, ht, he⟩ := h cs₁ r h₁ hr
  refine ⟨cs₂, h₂, ht, ?_⟩
  revert he
  rcases (x.runFrom r).1 with (_ | _) | a
  · exact id
  · exact id
  · exact hp cs₂ a (h₁.trans h₂)

theorem Keeps.pure {a : α} (h : ∀ cs₁, cs <+: cs₁ → P cs₁ a) : Keeps stray d cs P (pure a) :=
  fun cs₁ _ h₁ hr => ⟨cs₁, List.prefix_refl _, hr, h cs₁ h₁⟩

theorem Keeps.bind {f : α → Exec β} (hx : Keeps stray d cs P x)
    (hf : ∀ cs₁ a, cs <+: cs₁ → P cs₁ a → Keeps stray d cs₁ Q (f a)) : Keeps stray d cs Q (x >>= f) := by
  intro cs₁ r h₁ hr
  obtain ⟨cs₂, h₂, ht, he⟩ := hx cs₁ r h₁ hr
  rcases hrun : x.runFrom r with ⟨(_ | v) | a, r'⟩ <;> rw [hrun] at ht he
  · rw [runFrom_bind_error hrun]
    exact ⟨cs₂, h₂, ht, trivial⟩
  · exact he.elim
  · rw [runFrom_bind_ok hrun]
    obtain ⟨cs₃, h₃, ht', he'⟩ := hf cs₂ a (h₁.trans h₂) he cs₂ r' (List.prefix_refl _) ht
    exact ⟨cs₃, h₂.trans h₃, ht', he'⟩

theorem Keeps.of_run (f : Run → Run) (a : α) (hx : ∀ r, x.runFrom r = (.ok a, f r))
    (hf : ∀ cs₁ r, cs <+: cs₁ → r.Typed stray d cs₁ → (f r).Typed stray d cs₁) (hp : ∀ cs₁, cs <+: cs₁ → P cs₁ a) :
    Keeps stray d cs P x := by
  intro cs₁ r h₁ hr
  rw [hx]
  exact ⟨cs₁, List.prefix_refl _, hf cs₁ r h₁ hr, hp cs₁ h₁⟩

theorem Keeps.get : Keeps stray d cs (fun cs₁ r => r.Typed stray d cs₁) get :=
  fun cs₁ _ _ hr => ⟨cs₁, List.prefix_refl _, hr, hr⟩

theorem Keeps.onStore {f : Store → α × Store}
    (h : ∀ cs₁ s, cs <+: cs₁ → s.Typed cs₁ → ∃ cs₂, cs₁ <+: cs₂ ∧ (f s).2.Typed cs₂ ∧ P cs₂ (f s).1) :
    Keeps stray d cs P (onStore f) := by
  intro cs₁ r h₁ hr
  obtain ⟨cs₂, h₂, hs, hp⟩ := h cs₁ r.store h₁ hr.store
  exact ⟨cs₂, h₂, ⟨hs, fun x hx => (hr.arguments x hx).mono h₂, fun x hx => (hr.locals x hx).mono h₂,
    hr.returned, hr.journal⟩, hp⟩

theorem Keeps.note {e : Event} (h : e.Sound stray) : Keeps stray d cs (fun _ _ => True) (note e) :=
  Keeps.of_run _ _ (runFrom_note e)
    (fun _ _ _ hr => ⟨hr.store, hr.arguments, hr.locals, hr.returned, List.forall_mem_cons.2 ⟨h, hr.journal⟩⟩)
    fun _ _ => trivial

theorem typed_signal {r : Run} (s : Status) (hr : r.Typed stray d cs) :
    Run.Typed stray d cs { r with frame := r.frame.signal s } := by
  unfold Frame.signal
  split
  · exact ⟨hr.store, hr.arguments, hr.locals, hr.returned, hr.journal⟩
  · exact hr

theorem Keeps.signal (s : Status) : Keeps stray d cs (fun _ _ => True) (signal s) :=
  Keeps.of_run _ _ (runFrom_signal s) (fun _ _ _ hr => typed_signal s hr) fun _ _ => trivial

theorem Keeps.stop : Keeps stray d cs P (stop : Exec α) :=
  fun cs₁ _ _ hr => ⟨cs₁, List.prefix_refl _, hr, trivial⟩

theorem Keeps.fault (s : Status) : Keeps stray d cs P (fault s : Exec α) :=
  fun cs₁ _ _ hr => ⟨cs₁, List.prefix_refl _, typed_signal s hr, trivial⟩

theorem Keeps.invalid : Keeps stray d cs P (invalid : Exec α) := Keeps.fault _

theorem Keeps.mismatch (h : stray ≠ []) : Keeps stray d cs P (mismatch : Exec α) :=
  Keeps.bind (Keeps.note h) fun _ _ _ _ => Keeps.invalid

theorem Keeps.isEvaluating : Keeps stray d cs (fun _ _ => True) isEvaluating :=
  fun cs₁ _ _ hr => ⟨cs₁, List.prefix_refl _, hr, trivial⟩

theorem Keeps.status : Keeps stray d cs (fun _ _ => True) status :=
  fun cs₁ _ _ hr => ⟨cs₁, List.prefix_refl _, hr, trivial⟩

theorem Keeps.resume : Keeps stray d cs (fun _ _ => True) (modifyFrame Frame.resume) :=
  Keeps.of_run _ _ (runFrom_modifyFrame _)
    (fun _ _ _ hr => ⟨hr.store, hr.arguments, hr.locals, hr.returned, hr.journal⟩) fun _ _ => trivial

theorem Keeps.enter (l : Limits) (id : NodeId) : Keeps stray d cs (fun _ _ => True) (enter l id) := by
  intro cs₁ r _ hr
  rw [runFrom_enter]
  refine ⟨cs₁, List.prefix_refl _, ?_⟩
  split
  · exact ⟨hr, trivial⟩
  split
  · exact ⟨typed_signal _ hr, trivial⟩
  · exact ⟨⟨hr.store, hr.arguments, hr.locals, hr.returned, List.forall_mem_cons.2 ⟨trivial, hr.journal⟩⟩, trivial⟩

theorem Keeps.mapM {ι : Type} (hp : ∀ {cs₁ cs₂ a}, cs₁ <+: cs₂ → P cs₁ a → P cs₂ a) {f : ι → Exec α} (l : List ι)
    (h : ∀ i ∈ l, Keeps stray d cs P (f i)) : Keeps stray d cs (fun cs₁ as => ∀ a ∈ as, P cs₁ a) (l.mapM f) := by
  induction l with
  | nil =>
    rw [List.mapM_nil]
    exact Keeps.pure fun _ _ => by simp
  | cons i l ih =>
    rw [List.mapM_cons]
    refine Keeps.bind (h i (by simp)) fun cs₁ a h₁ ha => ?_
    refine Keeps.bind ((ih fun j hj => h j (by simp [hj])).mono h₁) fun cs₂ as h₂ has => ?_
    exact Keeps.pure fun cs₃ h₃ => List.forall_mem_cons.2 ⟨hp (h₂.trans h₃) ha, fun b hb => hp h₃ (has b hb)⟩

end Rules

theorem Yields.mono {cs' : List Base} {y : Yield} (h : Yields stray ty cs y) (hc : cs <+: cs') :
    Yields stray ty cs' y := ⟨h.1.mono hc, h.2⟩

theorem yields_value {v : Value} {b : Base} (h : v.Fits stray b) : Yields stray (.plain b) cs (.value v) :=
  ⟨Yield.typed_value v, Yield.conforms_value h⟩

theorem yields_ofType (ty : Ty) : Yields stray ty cs (.ofType ty) :=
  ⟨Yield.typed_ofType ty, Yield.conforms_ofType ty⟩

theorem Keeps.yieldValue {v : Value} {b : Base} (h : v.Fits stray b) :
    Keeps stray d cs (Yields stray (.plain b)) (Pure.pure (.value v)) :=
  Keeps.pure fun _ _ => yields_value h

theorem Keeps.orElse {x : Exec Yield} (hx : Keeps stray d cs (Yields stray ty) x) :
    Keeps stray d cs (Yields stray ty) (orElse x (.ofType ty)) := by
  intro cs₁ r h₁ hr
  obtain ⟨cs₂, h₂, ht, he⟩ := hx cs₁ r h₁ hr
  rw [runFrom_orElse]
  refine ⟨cs₂, h₂, ?_⟩
  rcases hrun : x.runFrom r with ⟨(_ | v) | a, r'⟩ <;> rw [hrun] at ht he
  · exact ⟨ht, yields_ofType ty⟩
  · exact he.elim
  · exact ⟨ht, he⟩

end Exec
end Grove
