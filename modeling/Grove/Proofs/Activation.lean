import Grove.Proofs.Denotation
import Grove.Proofs.Preservation

/-! Frames. A frame starts with new cells for its local variables, which exist if their types are concrete,
and ends with a value that fits its declared type. What runs in a frame of its own is never broken off by
that frame, so the caller always gets its frame back. -/

namespace Grove

variable {stray cs : List Base} {d : Ty}

theorem freshCells_typed {tys : List Ty} {s : Store} (h : ∀ ty ∈ tys, ty.base ≠ .any) (hs : s.Typed cs) :
    ∃ xs s' cs', freshCells tys s = .ok (xs, s') ∧ cs <+: cs' ∧ s'.Typed cs' ∧ ∀ x ∈ xs, x.Typed cs' := by
  induction tys generalizing s cs with
  | nil => exact ⟨[], s, cs, rfl, List.prefix_refl _, hs, by simp⟩
  | cons ty tys ih =>
    obtain ⟨hb, htys⟩ := List.forall_mem_cons.1 h
    obtain ⟨ha, hx⟩ := hs.alloc ty.base (c := none) (by simp)
    obtain ⟨xs, s', cs', hf, hc, hs', hxs⟩ := ih htys ha
    have hn : Variable.newEmpty ty.base s = .ok (⟨ty.base, (s.alloc none).1, hb⟩, (s.alloc none).2) := by
      simp [Variable.newEmpty, hb]
    have hf' : freshCells (ty :: tys) s = .ok (⟨ty.base, (s.alloc none).1, hb⟩ :: xs, s') := by
      simp [freshCells, hn, hf, bind, Except.bind, pure, Except.pure]
    exact ⟨_, s', cs', hf', (List.prefix_append _ _).trans hc, hs',
      List.forall_mem_cons.2 ⟨Variable.Typed.mono hx hc, hxs⟩⟩

theorem concrete_of_freshCells {tys : List Ty} {s : Store} {a} (h : freshCells tys s = .ok a) :
    ∀ ty ∈ tys, ty.base ≠ .any := by
  induction tys generalizing s a with
  | nil => simp
  | cons ty tys ih =>
    by_cases hb : ty.base = .any
    · simp [freshCells, Variable.newEmpty, hb, bind, Except.bind] at h
    · have hn : Variable.newEmpty ty.base s = .ok (⟨ty.base, (s.alloc none).1, hb⟩, (s.alloc none).2) := by
        simp [Variable.newEmpty, hb]
      simp only [freshCells, hn, bind, Except.bind] at h
      cases hf : freshCells tys (s.alloc none).2 with
      | error v => simp [hf] at h
      | ok a => exact List.forall_mem_cons.2 ⟨hb, ih hf⟩

namespace Exec

theorem Keeps.accepted {slot child : Ty} {x : Exec Yield} (ha : slot.accepts child = true)
    (h : Keeps stray d cs (Yields stray child) x) : Keeps stray d cs (Yields stray slot) x :=
  h.weaken fun _ _ _ hy => ⟨hy.1, hy.2.of_accepts ha⟩

theorem Keeps.finish {y : Yield} (hd : d.base ≠ .any) (hy : Yields stray d cs y) :
    Keeps stray d cs (fun _ o => ∀ v ∈ o.value, v.Fits stray d.base) (finish y) := by
  refine Keeps.bind Keeps.status fun cs₁ s h₁ _ => ?_
  cases s with
  | evaluating =>
    refine Keeps.bind (Keeps.read? (hy.mono h₁) hd) fun cs₂ o _ ho => ?_
    cases o with
    | some v => exact Keeps.pure fun _ _ => ho
    | none => exact Keeps.seq (Keeps.signal _) (Keeps.bind Keeps.status fun _ _ _ _ => Keeps.pure fun _ _ => by simp)
  | valueReturned =>
    refine Keeps.bind Keeps.get fun cs₂ r _ hr => Keeps.seq (P := fun _ _ => True) ?_ ?_
    · exact Keeps.of_run _ _ (runFrom_modifyFrame _) (fun cs₃ r' h₃ hr' => ⟨hr'.store,
        fun x hx => (hr.arguments x hx).mono h₃, fun x hx => (hr.locals x hx).mono h₃, by simp,
        hr'.journal⟩) fun _ _ => trivial
    · exact Keeps.pure fun _ _ => hr.returned
  | _ => exact Keeps.pure fun _ _ => by simp

/-- A computation that its own frame does not break off. -/
def Settles {α : Type} (x : Exec α) : Prop := ∀ r, (x.runFrom r).1 ≠ .error .stopped

theorem Settles.bind {α β : Type} {x : Exec α} {f : α → Exec β} (hx : Settles x) (hf : ∀ a, Settles (f a)) :
    Settles (x >>= f) := by
  intro r
  rcases hrun : x.runFrom r with ⟨e | a, r'⟩
  · rw [runFrom_bind_error hrun]
    simpa [hrun] using hx r
  · rw [runFrom_bind_ok hrun]
    exact hf a r'

theorem Settles.of_ok {α : Type} {x : Exec α} (h : ∀ r, ∃ a, (x.runFrom r).1 = .ok a) : Settles x := by
  intro r he
  obtain ⟨a, ha⟩ := h r
  simp [ha] at he

theorem settles_pure {α : Type} (a : α) : Settles (pure a) := .of_ok fun _ => ⟨a, rfl⟩

theorem settles_read? (y : Yield) : Settles (read? y) := by
  have read : ∀ (h : Handle) (s : Status), Settles (do
      let v ← onStore h.get
      if v.isNone then signal s
      return v) := by
    intro h s
    refine .bind (.of_ok fun _ => ⟨_, rfl⟩) fun v => ?_
    cases v with
    | none => exact .bind (.of_ok fun _ => ⟨_, rfl⟩) fun _ => settles_pure _
    | some v => exact settles_pure _
  cases y with
  | void => exact .bind (.of_ok fun _ => ⟨_, rfl⟩) fun _ => settles_pure _
  | value v => exact settles_pure _
  | leftHand h => exact read h _
  | reference h => exact read h _

theorem settles_finish (y : Yield) : Settles (finish y) := by
  refine .bind (.of_ok fun _ => ⟨_, rfl⟩) fun s => ?_
  cases s with
  | evaluating =>
    refine .bind (settles_read? y) fun o => ?_
    cases o with
    | some v => exact settles_pure _
    | none => exact .of_ok fun _ => ⟨_, rfl⟩
  | valueReturned => exact .of_ok fun _ => ⟨_, rfl⟩
  | _ => exact settles_pure _

theorem settles_orElse (x : Exec Yield) (y : Yield) : Settles (orElse x y) := by
  intro r
  rw [runFrom_orElse]
  rcases x.runFrom r with ⟨(_ | v) | a, r'⟩ <;> simp

theorem settles_enter (l : Limits) (id : NodeId) : Settles (enter l id) := by
  intro r
  rw [runFrom_enter]
  split
  · simp
  split <;> simp

theorem settles_eval (w : World) (call : Callee → List Variable → Exec Yield) (s : Shape) :
    Settles (w.eval call s) := by
  cases s with
  | node id n kids =>
    unfold World.eval
    refine .bind (settles_enter _ _) fun b => ?_
    cases b
    · exact settles_pure _
    · refine .bind (settles_orElse _ _) fun y => .bind (.of_ok fun _ => ⟨_, rfl⟩) fun b => ?_
      cases b
      · exact settles_pure _
      · exact .bind (.of_ok fun _ => ⟨_, rfl⟩) fun _ => settles_pure _
  | torn id n why =>
    unfold World.eval
    refine .bind (settles_enter _ _) fun b => ?_
    cases b
    · exact settles_pure _
    · intro r h
      cases h

theorem settles_run (w : World) (room : Nat) (s : Shape) : Settles (w.run room s) := by
  cases room <;> exact settles_eval _ _ _

theorem runFrom_activate {inner : Shape → Exec Yield} {body : Tree} {shape : Shape} {xs locals : List Variable}
    {r : Run} {s : Store} (h : freshCells body.signature.locals r.store = .ok (locals, s)) :
    (World.activate inner body shape xs).runFrom r =
      match (inner shape >>= finish).runFrom
          { r with frame := .start xs locals, store := s, depth := r.depth + 1 } with
      | (.ok o, r') => (.ok o, { r' with frame := r.frame, depth := r'.depth - 1 })
      | (.error e, r') => (.error e, r') := by
  unfold World.activate
  rw [runFrom_bind_ok (runFrom_get r), h]
  change (set _ >>= _ : Exec Outcome).runFrom r = _
  rw [runFrom_bind_ok (runFrom_set _ _), runFrom_bind, runFrom_bind]
  rcases (inner shape).runFrom _ with ⟨e | y, r'⟩
  · rfl
  · dsimp only
    rw [runFrom_bind]
    rcases (finish y).runFrom r' with ⟨e | o, r''⟩ <;> rfl

/-- A callee's frame is left as the caller's was, with the cells that were made in between. -/
theorem Keeps.activate {inner : Shape → Exec Yield} {body : Tree} {shape : Shape} {xs : List Variable}
    (hl : ∀ ty ∈ body.signature.locals, ty.base ≠ .any) (hd : body.signature.returns.base ≠ .any)
    (hxs : ∀ x ∈ xs, x.Typed cs) (hs : Settles (inner shape))
    (hi : ∀ cs₁, Keeps stray body.signature.returns cs₁ (Yields stray body.signature.returns) (inner shape)) :
    Keeps stray d cs (fun _ o => ∀ v ∈ o.value, v.Fits stray body.signature.returns.base)
      (World.activate inner body shape xs) := by
  intro cs₁ r h₁ hr
  obtain ⟨locals, s, cs₂, hf, h₂, hst, hlocals⟩ := freshCells_typed hl hr.store
  have hr' : Run.Typed stray body.signature.returns cs₂
      { r with frame := .start xs locals, store := s, depth := r.depth + 1 } :=
    ⟨hst, fun x hx => (hxs x hx).mono (h₁.trans h₂), hlocals, by simp [Frame.start], hr.journal⟩
  obtain ⟨cs₃, h₃, ht, he⟩ :=
    Keeps.bind (hi cs₂) (fun cs₃ y _ hy => Keeps.finish hd hy) cs₂ _ (List.prefix_refl _) hr'
  have settled := Settles.bind hs settles_finish { r with frame := .start xs locals, store := s, depth := r.depth + 1 }
  have hc := h₂.trans h₃
  rw [runFrom_activate hf]
  rcases hrun : (inner shape >>= Exec.finish).runFrom _ with ⟨(_ | v) | o, r'⟩ <;> rw [hrun] at ht he settled
  · exact absurd rfl settled
  · exact he.elim
  · exact ⟨cs₃, hc, ⟨ht.store, fun x hx => (hr.arguments x hx).mono hc, fun x hx => (hr.locals x hx).mono hc,
      hr.returned, ht.journal⟩, he⟩

end Exec
end Grove
