import Grove.Proofs.Calls
import Grove.Proofs.Moves

/-! The counters of a run. Every step that is counted is an entered node, no step goes beyond the limit, and
after a node the depth is what it was before; frames made on the way have no more depth than there was room
for. A frame is out of steps only when all were taken. -/

namespace Grove

def Event.isEntry : Event → Bool
  | entered _ => true
  | _ => false

def Status.isLimit : Status → Bool
  | stepsExceeded | stackExceeded => true
  | _ => false

/-- From `r` to `r'` with these new events, newest first, and with room for so many frames. -/
structure Run.Within (l : Limits) (room : Nat) (r : Run) (new : List Event) (o : Option Violation) (r' : Run) :
    Prop where
  journal : r'.journal = new ++ r.journal
  steps : r'.steps = r.steps + new.countP Event.isEntry
  maxSteps : r.steps ≤ l.maxSteps → r'.steps ≤ l.maxSteps
  depth : o = none → r'.depth = r.depth
  called : ∀ {name d}, Event.called name d ∈ new → d ≤ r.depth + room
  stepsExceeded : r'.frame.status = .stepsExceeded → r.frame.status = .stepsExceeded ∨ l.maxSteps ≤ r'.steps
  stackExceeded : r'.frame.status = .stackExceeded →
    r.frame.status = .stackExceeded ∨ room = 0 ∨ ∃ name, Event.called name (r.depth + room) ∈ new

namespace Run.Within

variable {l : Limits} {room : Nat} {r r' r'' : Run} {new new' : List Event} {o : Option Violation}

theorem trans (h : Within l room r new none r') (h' : Within l room r' new' o r'') :
    Within l room r (new' ++ new) o r'' := by
  have hd := h.depth rfl
  refine ⟨?_, ?_, fun hm => h'.maxSteps (h.maxSteps hm), fun ho => (h'.depth ho).trans hd, fun hc => ?_,
    fun hs => ?_, fun hs => ?_⟩
  · rw [h'.journal, h.journal, List.append_assoc]
  · rw [h'.steps, h.steps, List.countP_append]
    omega
  · rcases List.mem_append.1 hc with hc | hc
    · exact hd ▸ h'.called hc
    · exact h.called hc
  · rcases h'.stepsExceeded hs with hs | hs
    · exact (h.stepsExceeded hs).imp_right fun hm => Nat.le_trans hm (h'.steps ▸ Nat.le_add_right _ _)
    · exact .inr hs
  · rcases h'.stackExceeded hs with hs | hs | ⟨name, hs⟩
    · exact (h.stackExceeded hs).imp_right fun hr => hr.imp_right fun ⟨name, hn⟩ => ⟨name, List.mem_append_right _ hn⟩
    · exact .inr (.inl hs)
    · exact .inr (.inr ⟨name, List.mem_append_left _ (hd ▸ hs)⟩)

theorem own (hj : r'.journal = new ++ r.journal) (hnew : ∀ e ∈ new, e.isOwn = true) (hs : r'.steps = r.steps)
    (hd : r'.depth = r.depth) (hf : r'.frame.status.isLimit = true → r'.frame.status = r.frame.status) :
    Within l room r new o r' := by
  have hentry : new.countP Event.isEntry = 0 := List.countP_eq_zero.2 fun e he h => by
    have := hnew e he
    cases e <;> simp_all [Event.isOwn, Event.isEntry]
  refine ⟨hj, by omega, fun h => hs ▸ h, fun _ => hd, fun hc => ?_, fun h => .inl ?_, fun h => .inl ?_⟩
  · exact absurd (hnew _ hc) (by simp [Event.isOwn])
  · exact (hf (by rw [h]; rfl)) ▸ h
  · exact (hf (by rw [h]; rfl)) ▸ h

end Run.Within

namespace Exec

/-- Within the limits, whatever the new events are. -/
def Bounded (l : Limits) (room : Nat) (r : Run) (o : Option Violation) (r' : Run) : Prop :=
  ∃ new, r.Within l room new o r'

theorem status_signal_limit {f : Frame} {s : Status} (hs : s.isLimit = false)
    (hl : (f.signal s).status.isLimit = true) : (f.signal s).status = f.status := by
  rw [Frame.status_signal] at hl ⊢
  split at hl
  · rw [hs] at hl
    cases hl
  · simp_all

variable {l : Limits} {room : Nat}

theorem Bounded.quiet {r r' : Run} {o : Option Violation} (hj : r'.journal = r.journal) (hs : r'.steps = r.steps)
    (hd : r'.depth = r.depth) (hf : r'.frame.status.isLimit = true → r'.frame.status = r.frame.status) :
    Bounded l room r o r' :=
  ⟨[], .own hj (by simp) hs hd hf⟩

theorem paced_bounded (l : Limits) (room : Nat) : Paced l (Bounded l room) where
  refl r := .quiet rfl rfl rfl fun _ => rfl
  trans := fun ⟨_, h⟩ ⟨_, h'⟩ => ⟨_, h.trans h'⟩
  store r s := .quiet rfl rfl rfl fun _ => rfl
  note r e he := ⟨[e], .own rfl (by simpa using he) rfl rfl fun _ => rfl⟩
  signal r s hs := .quiet rfl rfl rfl (status_signal_limit (by cases s <;> first | rfl | cases hs))
  leap r s hs := .quiet rfl rfl rfl (status_signal_limit (by cases s <;> first | rfl | cases hs))
  returnWith r v := .quiet rfl rfl rfl fun h => by
    unfold Frame.returnWith at h ⊢
    split at h
    · simp [Status.isLimit] at h
    · simp_all
  resume r _ := .quiet rfl rfl rfl fun h => by simp [Frame.resume, Status.isLimit] at h
  enter r id _ hs := ⟨[.entered id], rfl, rfl, fun _ => hs, fun _ => rfl, fun h => by simp at h, .inl, .inl⟩
  exhaust r _ hs := ⟨[], rfl, rfl, fun h => h, fun _ => rfl, fun h => by simp at h, fun _ => .inr hs,
    fun h => .inl (Frame.status_of_signal h (by simp))⟩

theorem bounded_finish (y : Yield) : Moves (Bounded l room) (finish y) :=
  Moves.finish (paced_bounded l room).toClosed (fun _ => .quiet rfl rfl rfl fun _ => rfl) y

theorem Bounded.suffix {r r' : Run} {o : Option Violation} (h : Bounded l room r o r') : r.journal <:+ r'.journal := by
  obtain ⟨new, h⟩ := h
  exact ⟨new, h.journal.symm⟩

/-- A body runs one frame deeper, and what it leaves is seen from the frame of its caller. -/
theorem bounded_body {r after r' : Run} {c : Callee} {xs locals : List Variable} {s : Store} {o : Option Violation}
    (h : Bounded l room (r.callee c xs locals s) o after) (hj : r'.journal = after.journal)
    (hs : r'.steps = after.steps) (hd : o = none → r'.depth = after.depth - 1)
    (hf : r'.frame.status.isLimit = true → r'.frame.status = r.frame.status ∨ r'.frame.status = after.frame.status) :
    Bounded l (room + 1) r o r' := by
  obtain ⟨new, h⟩ := h
  have hstart : (r.callee c xs locals s).frame.status = .evaluating := rfl
  refine ⟨new ++ [.called c.name (r.depth + 1)], ?_, ?_, fun hm => hs ▸ h.maxSteps hm, fun ho => ?_, fun hc => ?_,
    fun hl => ?_, fun hl => ?_⟩
  · rw [hj, h.journal, List.append_assoc]
    rfl
  · rw [hs, h.steps, List.countP_append]
    rfl
  · rw [hd ho, h.depth ho]
    rfl
  · rcases List.mem_append.1 hc with hc | hc
    · have := h.called hc
      simp only [Run.callee] at this
      omega
    · obtain ⟨-, rfl⟩ : _ = c.name ∧ _ = r.depth + 1 := by simpa using hc
      omega
  · rcases hf (by rw [hl]; rfl) with he | he
    · exact .inl (he ▸ hl)
    · rcases h.stepsExceeded (he ▸ hl) with hm | hm
      · rw [hstart] at hm
        cases hm
      · exact .inr (hs ▸ hm)
  · rcases hf (by rw [hl]; rfl) with he | he
    · exact .inl (he ▸ hl)
    · refine .inr (.inr ?_)
      rcases h.stackExceeded (he ▸ hl) with hm | rfl | ⟨name, hm⟩
      · rw [hstart] at hm
        cases hm
      · exact ⟨c.name, by simp⟩
      · refine ⟨name, List.mem_append_left _ ?_⟩
        rwa [Run.callee, Nat.add_assoc, Nat.add_comm 1] at hm

theorem bounded_call {w : World} {room : Nat} (hbody : ∀ k, room = k + 1 → ∀ s, Moves (Bounded l k) (w.run k s))
    (c : Callee) (xs : List Variable) : Moves (Bounded l room) (w.call (w.below room) c xs) := by
  intro r
  cases call_ends w room c xs r with
  | missing h =>
    rw [h]
    exact Moves.fault (paced_bounded l room).toClosed rfl r
  | refused hroom h =>
    rw [h]
    exact ⟨[], rfl, rfl, fun h => h, fun _ => rfl, fun h => by simp at h,
      fun hf => .inl (Frame.status_of_signal hf (by simp)), fun _ => .inr (.inl hroom)⟩
  | wild hroom _ _ _ h =>
    rw [h]
    refine ⟨[.called c.name (r.depth + 1)], rfl, rfl, fun h => h, by simp, fun hc => ?_, .inl, .inl⟩
    obtain ⟨-, rfl⟩ : _ = c.name ∧ _ = r.depth + 1 := by simpa using hc
    omega
  | @broken k body shape locals s v after hroom _ _ _ hrun h =>
    subst hroom
    have hran := hbody k rfl shape (r.callee c xs locals s)
    rw [hrun] at hran
    rw [h]
    exact bounded_body hran rfl rfl (by simp) fun _ => .inr rfl
  | @back k body shape locals s y ended after o hroom _ _ _ hrun hfin h =>
    subst hroom
    have hran := Moves.bind (paced_bounded l k).toClosed (hbody k rfl shape) bounded_finish (r.callee c xs locals s)
    rw [runFrom_bind_ok hrun, hfin] at hran
    rw [h]
    rcases hand_cases o with ⟨v, -, ho⟩ | ⟨-, ho⟩ | ⟨ho', ho⟩ <;> rw [ho]
    · exact bounded_body hran rfl rfl (fun _ => rfl) fun _ => .inl rfl
    · refine bounded_body hran rfl rfl (fun _ => rfl) fun hl => .inl ?_
      exact status_signal_limit rfl hl
    · refine bounded_body hran rfl rfl (fun _ => rfl) fun _ => ?_
      rw [runFrom_fault, Frame.status_signal]
      split
      · exact .inr ((finish_ok hfin).2.resolve_left ho').2
      · exact .inl rfl

theorem bounded_torn (room : Nat) (r : Run) (v : Violation) : Bounded l room r (some v) r :=
  .quiet rfl rfl rfl fun _ => rfl

theorem bounded_run (w : World) (room : Nat) (s : Shape) : Moves (Bounded w.limits room) (w.run room s) := by
  induction room generalizing s with
  | zero => exact Moves.eval (paced_bounded _ 0) (bounded_call (by simp)) (.inr (bounded_torn 0))
  | succ k ih =>
    refine Moves.eval (paced_bounded _ (k + 1)) (bounded_call ?_) (.inr (bounded_torn (k + 1)))
    rintro _ ⟨⟩
    exact ih

theorem bounded_inside (w : World) (room : Nat) (s : Shape) :
    ∃ x, w.run room s = entering w.limits s.id s.label.returns x ∧ Moves (Bounded w.limits room) x := by
  rw [World.run_eq]
  exact Moves.inside (paced_bounded _ room) (bounded_call fun k _ s => bounded_run w k s) (.inr (bounded_torn room))

end Exec
end Grove
