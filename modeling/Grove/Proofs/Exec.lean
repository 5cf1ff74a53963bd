import Grove.Evaluation

/-! Running a computation from a state. Each primitive of an evaluation is described by its result and
the state that it leaves; `runFrom_bind` puts them together. -/

namespace Grove.Exec

variable {α β : Type}

/-- The result of a computation and the state that it leaves. -/
def runFrom (x : Exec α) (r : Run) : Except Halt α × Run := x.run r

theorem runFrom_bind (x : Exec α) (f : α → Exec β) (r : Run) :
    (x >>= f).runFrom r =
      match x.runFrom r with
      | (.ok a, r) => (f a).runFrom r
      | (.error h, r) => (.error h, r) := by
  change ExceptT.bind x f r = _
  simp only [ExceptT.bind, ExceptT.mk, runFrom, ExceptT.run, bind, StateT.bind]
  rcases x r with ⟨_ | _, r'⟩ <;> rfl

theorem runFrom_bind_ok {x : Exec α} {f : α → Exec β} {r r' : Run} {a : α}
    (h : x.runFrom r = (.ok a, r')) : (x >>= f).runFrom r = (f a).runFrom r' := by
  rw [runFrom_bind, h]

theorem runFrom_bind_error {x : Exec α} {f : α → Exec β} {r r' : Run} {e : Halt}
    (h : x.runFrom r = (.error e, r')) : (x >>= f).runFrom r = (.error e, r') := by
  rw [runFrom_bind, h]

theorem runFrom_stop (r : Run) : (stop : Exec α).runFrom r = (.error .stopped, r) := rfl

theorem runFrom_fault (s : Status) (r : Run) :
    (fault s : Exec α).runFrom r = (.error .stopped, { r with frame := r.frame.signal s }) := rfl

theorem runFrom_violate (v : Violation) (r : Run) : (violate v : Exec α).runFrom r = (.error (.violated v), r) := rfl

theorem runFrom_onStore (f : Store → α × Store) (r : Run) :
    (onStore f).runFrom r = (.ok (f r.store).1, { r with store := (f r.store).2 }) := rfl

theorem runFrom_status (r : Run) : status.runFrom r = (.ok r.frame.status, r) := rfl

theorem runFrom_get (r : Run) : (get : Exec Run).runFrom r = (.ok r, r) := rfl

theorem runFrom_set (r r' : Run) : (set r' : Exec PUnit).runFrom r = (.ok ⟨⟩, r') := rfl

theorem runFrom_modifyFrame (f : Frame → Frame) (r : Run) :
    (modifyFrame f).runFrom r = (.ok ⟨⟩, { r with frame := f r.frame }) := rfl

theorem runFrom_signal (s : Status) (r : Run) :
    (signal s).runFrom r = (.ok ⟨⟩, { r with frame := r.frame.signal s }) := rfl

theorem runFrom_note (e : Event) (r : Run) :
    (note e).runFrom r = (.ok ⟨⟩, { r with journal := e :: r.journal }) := rfl

theorem runFrom_orElse (x : Exec Yield) (y : Yield) (r : Run) :
    (orElse x y).runFrom r =
      match x.runFrom r with
      | (.ok a, r) => (.ok a, r)
      | (.error .stopped, r) => (.ok y, r)
      | (.error (.violated v), r) => (.error (.violated v), r) := by
  change ExceptT.tryCatch x _ r = _
  simp only [ExceptT.tryCatch, ExceptT.mk, bind, StateT.bind, runFrom, ExceptT.run]
  rcases x r with ⟨(_ | _) | _, r'⟩ <;> rfl

theorem orElse_state (x : Exec Yield) (y : Yield) (r : Run) : ((orElse x y).runFrom r).2 = (x.runFrom r).2 := by
  rw [runFrom_orElse]
  rcases x.runFrom r with ⟨(_ | _) | _, r'⟩ <;> rfl

theorem runFrom_enter (l : Limits) (id : NodeId) (r : Run) :
    (enter l id).runFrom r =
      if r.frame.isEvaluating = false then (.ok false, r)
      else if l.maxSteps ≤ r.steps then (.ok false, { r with frame := r.frame.signal .stepsExceeded })
      else (.ok true, { r with steps := r.steps + 1, journal := .entered id :: r.journal }) := by
  unfold enter
  rw [runFrom_bind_ok (runFrom_get r)]
  cases he : r.frame.isEvaluating
  · rfl
  · by_cases hs : l.maxSteps ≤ r.steps <;> simp [hs] <;> rfl

theorem runFrom_operand (child : Exec Yield) (r : Run) :
    (operand child).runFrom r =
      match child.runFrom r with
      | (.ok y, r') => (if r'.frame.isEvaluating then .ok y else .error .stopped, r')
      | (.error e, r') => (.error e, r') := by
  rw [operand, runFrom_bind]
  rcases child.runFrom r with ⟨e | y, r'⟩
  · rfl
  · have h : isEvaluating.runFrom r' = (.ok r'.frame.isEvaluating, r') := rfl
    dsimp only
    rw [runFrom_bind_ok h]
    cases r'.frame.isEvaluating <;> rfl

/-- What is read leaves the frame as it is; a handle without a value ends it. -/
theorem runFrom_read? (y : Yield) (r : Run) :
    ∃ v r', (read? y).runFrom r = (.ok v, r') ∧ (r'.frame = r.frame ∨
      v = none ∧ ∃ s, (s = .invalidLeftHandValue ∨ s = .invalidReference) ∧ r'.frame = r.frame.signal s) := by
  have through : ∀ (h : Handle) (s : Status), ∃ v r', (do
      let v ← onStore h.get
      if v.isNone then signal s
      return v : Exec (Option Value)).runFrom r = (.ok v, r') ∧
        (r'.frame = r.frame ∨ v = none ∧ r'.frame = r.frame.signal s) := by
    intro h s
    rw [runFrom_bind_ok (runFrom_onStore _ r)]
    cases (h.get r.store).1 with
    | none => exact ⟨none, _, rfl, .inr ⟨rfl, rfl⟩⟩
    | some v => exact ⟨some v, _, rfl, .inl rfl⟩
  cases y with
  | void => exact ⟨none, _, rfl, .inl rfl⟩
  | value v => exact ⟨some v, r, rfl, .inl rfl⟩
  | leftHand h =>
    obtain ⟨v, r', hr, hf⟩ := through h .invalidLeftHandValue
    exact ⟨v, r', hr, hf.imp_right fun hs => ⟨hs.1, _, .inl rfl, hs.2⟩⟩
  | reference h =>
    obtain ⟨v, r', hr, hf⟩ := through h .invalidReference
    exact ⟨v, r', hr, hf.imp_right fun hs => ⟨hs.1, _, .inr rfl, hs.2⟩⟩

theorem runFrom_rounds (body : Exec Yield) (n : Nat) (last : Yield) (r : Run) :
    (rounds body (n + 1) last).runFrom r =
      match body.runFrom r with
      | (.error e, r') => (.error e, r')
      | (.ok y, r') =>
        match r'.frame.status with
        | .evaluating => (rounds body n y).runFrom r'
        | .continueCalled => (rounds body n last).runFrom { r' with frame := r'.frame.resume }
        | .breakCalled => (.ok last, { r' with frame := r'.frame.resume })
        | _ => (.error .stopped, r') := by
  rw [rounds, runFrom_bind]
  rcases body.runFrom r with ⟨e | y, r'⟩
  · rfl
  · dsimp only
    rw [runFrom_bind_ok (runFrom_status r')]
    cases r'.frame.status <;> rfl

theorem runFrom_finish (y : Yield) (r : Run) :
    (finish y).runFrom r =
      match r.frame.status with
      | .evaluating =>
        match (read? y).runFrom r with
        | (.ok (some v), r') => (.ok (.returned v), r')
        | (.ok none, r') =>
          (.ok ⟨(r'.frame.signal .invalidValue).status, none⟩, { r' with frame := r'.frame.signal .invalidValue })
        | (.error e, r') => (.error e, r')
      | .valueReturned =>
        (.ok ⟨.valueReturned, r.frame.returned⟩, { r with frame := { r.frame with returned := none } })
      | s => (.ok ⟨s, none⟩, r) := by
  unfold finish
  rw [runFrom_bind_ok (runFrom_status r)]
  cases r.frame.status with
  | evaluating =>
    dsimp only
    rw [runFrom_bind]
    rcases (read? y).runFrom r with ⟨e | _ | v, r'⟩ <;> rfl
  | _ => rfl

/-- A node that is let in goes on with `x`; where it is not there is only the default of its type. -/
def entering (l : Limits) (id : NodeId) (ty : Ty) (x : Exec Yield) : Exec Yield := do
  if ← enter l id then x else return .ofType ty

theorem runFrom_entering (l : Limits) (id : NodeId) (ty : Ty) (x : Exec Yield) (r : Run) :
    (entering l id ty x).runFrom r =
      if r.frame.isEvaluating = false then (.ok (.ofType ty), r)
      else if l.maxSteps ≤ r.steps then (.ok (.ofType ty), { r with frame := r.frame.signal .stepsExceeded })
      else x.runFrom { r with steps := r.steps + 1, journal := .entered id :: r.journal } := by
  rw [entering, runFrom_bind, runFrom_enter]
  by_cases he : r.frame.isEvaluating = false
  · rw [if_pos he, if_pos he]
    rfl
  · rw [if_neg he, if_neg he]
    by_cases hs : l.maxSteps ≤ r.steps
    · rw [if_pos hs, if_pos hs]
      rfl
    · rw [if_neg hs, if_neg hs]
      rfl

/-- The end of a node: what it yields, or the default of its type where it stopped. -/
def conclude (n : Node) (x : Exec Yield) : Exec Yield := do
  let y ← orElse x (.ofType n.returns)
  if ← isEvaluating then note (.yielded n y)
  return y

theorem conclude_stopped {n : Node} {x : Exec Yield} {r r' : Run} (h : x.runFrom r = (.error .stopped, r'))
    (he : r'.frame.isEvaluating = false) : (conclude n x).runFrom r = (.ok (.ofType n.returns), r') := by
  have ho : (orElse x (.ofType n.returns)).runFrom r = (.ok (.ofType n.returns), r') := by rw [runFrom_orElse, h]
  have hb : isEvaluating.runFrom r' = (.ok false, r') := by rw [← he]; rfl
  rw [conclude, runFrom_bind_ok ho, runFrom_bind_ok hb]
  rfl

theorem eval_node (w : World) (call : Callee → List Variable → Exec Yield) (id : NodeId) (n : Node)
    (kids : Fin n.arity → Shape) : w.eval call (.node id n kids) =
      entering w.limits id n.returns (conclude n (produce call n fun i => w.eval call (kids i))) := by
  rw [World.eval]
  rfl

theorem eval_torn (w : World) (call : Callee → List Variable → Exec Yield) (id : NodeId) (n : Node) (why : Violation) :
    w.eval call (.torn id n why) = entering w.limits id n.returns (violate why) := by
  rw [World.eval]
  rfl

end Grove.Exec
