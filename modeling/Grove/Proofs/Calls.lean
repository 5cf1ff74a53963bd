import Grove.Proofs.Activation

/-! Calls. A call is refused, or its body runs in a frame of its own: from the state that `Run.callee` gives to
one from which `Run.back` returns to the caller, who is then handed how the body ended. -/

namespace Grove

/-- The state in which the body of a subroutine starts. -/
def Run.callee (r : Run) (c : Callee) (arguments locals : List Variable) (s : Store) : Run :=
  { r with
    frame := .start arguments locals, store := s, depth := r.depth + 1
    journal := .called c.name (r.depth + 1) :: r.journal }

/-- The state after a body, in the frame of its caller. -/
def Run.back (after r : Run) : Run := { after with frame := r.frame, depth := after.depth - 1 }

/-- What a caller does with the way in which a body ended. -/
def Outcome.hand : Outcome → Exec Yield
  | ⟨.valueReturned, some v⟩ => return .value v
  | ⟨.valueReturned, none⟩ => Exec.invalid
  | ⟨s, _⟩ => Exec.fault s

/-- What calls run bodies with in a frame that has room for so many others below it. -/
def World.below (w : World) : (room : Nat) → Option (Shape → Exec Yield)
  | 0 => none
  | k + 1 => some (w.run k)

theorem World.run_eq (w : World) (room : Nat) : w.run room = w.eval (w.call (w.below room)) := by
  cases room <;> rfl

theorem Frame.status_signal (f : Frame) (s : Status) :
    (f.signal s).status = if f.isEvaluating then s else f.status := by
  unfold signal
  split <;> rfl

theorem Frame.isEvaluating_signal (f : Frame) {s : Status} (hs : s ≠ .evaluating) :
    (f.signal s).isEvaluating = false := by
  cases he : f.isEvaluating with
  | true =>
    rw [signal, if_pos he]
    exact decide_eq_false hs
  | false => rw [signal_of_not he, he]

theorem Frame.status_of_signal {f : Frame} {s s' : Status} (h : (f.signal s).status = s') (hs : s ≠ s') :
    f.status = s' := by
  rw [status_signal] at h
  split at h
  · exact absurd h hs
  · exact h

theorem Frame.status_of_not {f : Frame} (h : f.isEvaluating = false) : f.status ≠ .evaluating := by
  simpa [isEvaluating] using h

namespace Exec

theorem hand_cases (o : Outcome) :
    (∃ v, o = .returned v ∧ o.hand = pure (.value v)) ∨ (o.status = .valueReturned ∧ o.hand = invalid) ∨
      (o.status ≠ .valueReturned ∧ o.hand = fault o.status) := by
  rcases o with ⟨s, v⟩
  cases s with
  | valueReturned =>
    cases v with
    | none => exact .inr (.inl ⟨rfl, rfl⟩)
    | some v => exact .inl ⟨v, rfl, rfl⟩
  | _ => exact .inr (.inr ⟨nofun, rfl⟩)

theorem finish_ok {y : Yield} {r r' : Run} {o : Outcome} (h : (finish y).runFrom r = (.ok o, r')) :
    o.status ≠ .evaluating ∧ (o.status = .valueReturned ∨ o.value = none ∧ o.status = r'.frame.status) := by
  rw [runFrom_finish] at h
  cases hs : r.frame.status with
  | evaluating =>
    rw [hs] at h
    rcases hy : (read? y).runFrom r with ⟨e | _ | v, after⟩ <;> rw [hy] at h <;> cases h
    · refine ⟨?_, .inr ⟨rfl, rfl⟩⟩
      rw [Frame.status_signal]
      cases he : after.frame.isEvaluating
      · exact Frame.status_of_not he
      · exact nofun
    · exact ⟨nofun, .inl rfl⟩
  | valueReturned =>
    rw [hs] at h
    cases h
    exact ⟨nofun, .inl rfl⟩
  | _ =>
    rw [hs] at h
    cases h
    exact ⟨nofun, .inr ⟨rfl, hs.symm⟩⟩

variable {w : World} {c : Callee} {xs : List Variable} {body : Tree} {shape : Shape}

theorem call_refused (hb : w.registry.body? c.name = some body) (hs : body.shape? = some shape) :
    w.call none c xs = fault .stackExceeded := by
  unfold World.call
  rw [hb]
  dsimp only
  rw [hs]

/-- A call finds no body to run, whatever room there is, or a body with a shape. -/
theorem call_cases (w : World) (c : Callee) :
    (∀ inner xs, w.call inner c xs = invalid) ∨
      ∃ body shape, w.registry.body? c.name = some body ∧ body.shape? = some shape := by
  cases hb : w.registry.body? c.name with
  | none => exact .inl fun inner xs => by simp only [World.call, hb]
  | some body =>
    cases hs : body.shape? with
    | none => exact .inl fun inner xs => by simp only [World.call, hb, hs]
    | some shape => exact .inr ⟨body, shape, rfl, hs⟩

theorem runFrom_call {f : Shape → Exec Yield} (hb : w.registry.body? c.name = some body)
    (hs : body.shape? = some shape) (r : Run) :
    (w.call (some f) c xs).runFrom r =
      match freshCells body.signature.locals r.store with
      | .error v => (.error (.violated v), { r with journal := .called c.name (r.depth + 1) :: r.journal })
      | .ok (locals, s) =>
        match (f shape >>= finish).runFrom (r.callee c xs locals s) with
        | (.ok o, after) => o.hand.runFrom (after.back r)
        | (.error e, after) => (.error e, after) := by
  unfold World.call
  rw [hb]
  dsimp only
  rw [hs]
  dsimp only
  rw [runFrom_bind_ok (runFrom_get r), runFrom_bind_ok (runFrom_note _ r), runFrom_bind]
  cases hf : freshCells body.signature.locals r.store with
  | error v =>
    have : (World.activate f body shape xs).runFrom { r with journal := .called c.name (r.depth + 1) :: r.journal } =
        (.error (.violated v), { r with journal := .called c.name (r.depth + 1) :: r.journal }) := by
      unfold World.activate
      rw [runFrom_bind_ok (runFrom_get _), hf]
      rfl
    rw [this]
  | ok a =>
    rw [runFrom_activate (r := { r with journal := .called c.name (r.depth + 1) :: r.journal }) hf]
    dsimp only [Run.callee]
    rcases (f shape >>= finish).runFrom _ with ⟨e | o, after⟩ <;> rfl

theorem finish_total (y : Yield) (r : Run) : ∃ o r', (finish y).runFrom r = (.ok o, r') := by
  rw [runFrom_finish]
  cases hs : r.frame.status with
  | evaluating =>
    obtain ⟨v, r', hr, -⟩ := runFrom_read? y r
    rw [hr]
    cases v <;> exact ⟨_, _, rfl⟩
  | _ => exact ⟨_, _, rfl⟩

/-- What a call comes to in a frame that has room for so many below it. -/
inductive CallEnds (w : World) (c : Callee) (xs : List Variable) (room : Nat) (r : Run)
    (res : Except Halt Yield × Run) : Prop
  /-- There is no body. -/
  | missing (h : res = (invalid : Exec Yield).runFrom r)
  /-- There is no room. -/
  | refused (hroom : room = 0) (h : res = (fault .stackExceeded : Exec Yield).runFrom r)
  /-- There are no cells for the local variables. -/
  | wild {k : Nat} {body : Tree} {v : Violation} (hroom : room = k + 1) (hb : w.registry.body? c.name = some body)
      (hs : body.root ≠ none) (hf : freshCells body.signature.locals r.store = .error v)
      (h : res = (.error (.violated v), { r with journal := .called c.name (r.depth + 1) :: r.journal }))
  /-- The body breaks off. -/
  | broken {k : Nat} {body : Tree} {shape : Shape} {locals : List Variable} {s : Store} {v : Violation} {after : Run}
      (hroom : room = k + 1) (hb : w.registry.body? c.name = some body) (hs : body.shape? = some shape)
      (hf : freshCells body.signature.locals r.store = .ok (locals, s))
      (hrun : (w.run k shape).runFrom (r.callee c xs locals s) = (.error (.violated v), after))
      (h : res = (.error (.violated v), after))
  /-- The body ends its frame, and the caller goes on in its own. -/
  | back {k : Nat} {body : Tree} {shape : Shape} {locals : List Variable} {s : Store} {y : Yield} {ended after : Run}
      {o : Outcome} (hroom : room = k + 1) (hb : w.registry.body? c.name = some body) (hs : body.shape? = some shape)
      (hf : freshCells body.signature.locals r.store = .ok (locals, s))
      (hrun : (w.run k shape).runFrom (r.callee c xs locals s) = (.ok y, ended))
      (hfin : (finish y).runFrom ended = (.ok o, after)) (h : res = o.hand.runFrom (after.back r))

theorem call_ends (w : World) (room : Nat) (c : Callee) (xs : List Variable) (r : Run) :
    CallEnds w c xs room r ((w.call (w.below room) c xs).runFrom r) := by
  rcases call_cases w c with h | ⟨body, shape, hb, hs⟩
  · exact .missing (by rw [h])
  cases room with
  | zero => exact .refused rfl (by rw [World.below, call_refused hb hs])
  | succ k =>
    have hcall := @runFrom_call w c xs body shape (w.run k) hb hs r
    cases hf : freshCells body.signature.locals r.store with
    | error v =>
      rw [hf] at hcall
      exact .wild rfl hb (fun h => by simp [Tree.shape?, h] at hs) hf hcall
    | ok a =>
      have settled := settles_run w k shape (r.callee c xs a.1 a.2)
      rw [hf] at hcall
      dsimp only at hcall
      rcases hrun : (w.run k shape).runFrom (r.callee c xs a.1 a.2) with ⟨(_ | v) | y, ended⟩
      · rw [hrun] at settled
        exact absurd rfl settled
      · rw [runFrom_bind_error hrun] at hcall
        exact .broken rfl hb hs hf hrun hcall
      · obtain ⟨o, after, hfin⟩ := finish_total y ended
        rw [runFrom_bind_ok hrun, hfin] at hcall
        exact .back rfl hb hs hf hrun hfin hcall

theorem hand_journal (o : Outcome) (r : Run) : (o.hand.runFrom r).2.journal = r.journal := by
  rcases hand_cases o with ⟨v, -, h⟩ | ⟨-, h⟩ | ⟨-, h⟩ <;> rw [h] <;> rfl

theorem hand_store (o : Outcome) (r : Run) : (o.hand.runFrom r).2.store = r.store := by
  rcases hand_cases o with ⟨v, -, h⟩ | ⟨-, h⟩ | ⟨-, h⟩ <;> rw [h] <;> rfl

theorem outcome_ok {α : Type} {x : Exec α} {r r' : Run} {a : α} (h : x.runFrom r = (.ok a, r')) :
    x.outcome r = (.ok a, r') := by
  rw [outcome, show x.run r = _ from h]

theorem outcome_violated {α : Type} {x : Exec α} {r r' : Run} {v : Violation}
    (h : x.runFrom r = (.error (.violated v), r')) : x.outcome r = (.error v, r') := by
  rw [outcome, show x.run r = _ from h]

theorem outcome_state {α : Type} (x : Exec α) (r : Run) : (x.outcome r).2 = (x.runFrom r).2 := by
  rw [outcome, show x.run r = x.runFrom r from rfl]
  rcases x.runFrom r with ⟨(_ | _) | _, r'⟩ <;> rfl

theorem outcome_congr {α : Type} {x x' : Exec α} {r : Run} (h : x.runFrom r = x'.runFrom r) :
    x.outcome r = x'.outcome r := by
  rw [outcome, outcome, show x.run r = x'.run r from h]

end Exec

theorem Tree.evaluate_of_shape {t : Tree} {shape : Shape} {s s' : Store} {locals : List Variable}
    (hs : t.shape? = some shape) (hf : freshCells t.signature.locals s = .ok (locals, s')) (w : World)
    (xs : List Variable) :
    t.evaluate w xs s =
      (w.run w.limits.maxDepth shape >>= Exec.finish).outcome (.start (.start xs locals) s') := by
  simp only [evaluate, hs, hf]
  rfl

/-- What an evaluation comes to. -/
inductive Tree.Ends (w : World) (t : Tree) (xs : List Variable) (s : Store) (res : Except Violation Outcome × Run) :
    Prop
  | rootless (hs : t.shape? = none) (h : res = (.error .noRootToEvaluate, .start (.start xs []) s))
  /-- There are no cells for the local variables. -/
  | wild {v : Violation} (hf : freshCells t.signature.locals s = .error v)
      (h : res = (.error v, .start (.start xs []) s))
  | broken {shape : Shape} {locals : List Variable} {s' : Store} {v : Violation} {after : Run}
      (hs : t.shape? = some shape) (hf : freshCells t.signature.locals s = .ok (locals, s'))
      (hrun : (w.run w.limits.maxDepth shape).runFrom (.start (.start xs locals) s') = (.error (.violated v), after))
      (h : res = (.error v, after))
  | ended {shape : Shape} {locals : List Variable} {s' : Store} {y : Yield} {last after : Run} {o : Outcome}
      (hs : t.shape? = some shape) (hf : freshCells t.signature.locals s = .ok (locals, s'))
      (hrun : (w.run w.limits.maxDepth shape).runFrom (.start (.start xs locals) s') = (.ok y, last))
      (hfin : (Exec.finish y).runFrom last = (.ok o, after)) (h : res = (.ok o, after))

theorem Tree.evaluate_ends (w : World) (t : Tree) (xs : List Variable) (s : Store) :
    t.Ends w xs s (t.evaluate w xs s) := by
  cases hs : t.shape? with
  | none => exact .rootless hs (by simp only [evaluate, hs])
  | some shape =>
    cases hf : freshCells t.signature.locals s with
    | error v => exact .wild hf (by simp only [evaluate, hs, hf])
    | ok a =>
      have settled := Exec.settles_run w w.limits.maxDepth shape (.start (.start xs a.1) a.2)
      rcases hrun : (w.run w.limits.maxDepth shape).runFrom (.start (.start xs a.1) a.2) with ⟨(_ | v) | y, last⟩
      · rw [hrun] at settled
        exact absurd rfl settled
      · refine .broken hs hf hrun ?_
        rw [evaluate_of_shape hs hf, Exec.outcome_violated (Exec.runFrom_bind_error hrun)]
      · obtain ⟨o, after, hfin⟩ := Exec.finish_total y last
        refine .ended hs hf hrun hfin ?_
        rw [evaluate_of_shape hs hf, Exec.outcome_ok ((Exec.runFrom_bind_ok hrun).trans hfin)]

end Grove
