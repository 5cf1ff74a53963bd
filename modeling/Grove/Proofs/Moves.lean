import Grove.Proofs.Congruence

/-! Where a computation may lead. A relation between the state before and the state after that is closed under
what nodes do on their own holds of every node, if it holds of its children and of calls. The violation, if
there is one, is the broken promise that ended the computation. -/

namespace Grove

/-- The promise whose breach broke a computation off. -/
def Halt.broken? {α : Type} : Except Halt α → Option Violation
  | .error (.violated v) => some v
  | _ => none

@[simp] theorem Halt.broken?_ok {α : Type} (a : α) : broken? (.ok a) = none := rfl

@[simp] theorem Halt.broken?_stopped {α : Type} : broken? (.error .stopped : Except Halt α) = none := rfl

@[simp] theorem Halt.broken?_violated {α : Type} (v : Violation) :
    broken? (.error (.violated v) : Except Halt α) = some v := rfl

namespace Exec

/-- A node moves along `Q` in each of its own actions, unless it leaves a loop. -/
structure Closed (Q : Run → Option Violation → Run → Prop) : Prop where
  refl : ∀ r, Q r none r
  trans : ∀ {r r' r'' o}, Q r none r' → Q r' o r'' → Q r o r''
  store : ∀ r s, Q r none { r with store := s }
  note : ∀ r e, e.isOwn = true → Q r none { r with journal := e :: r.journal }
  signal : ∀ r s, s.isOwn = true → Q r none { r with frame := r.frame.signal s }
  returnWith : ∀ r v, Q r none { r with frame := r.frame.returnWith v }
  resume : ∀ r, r.frame.status = .breakCalled ∨ r.frame.status = .continueCalled →
    Q r none { r with frame := r.frame.resume }

variable {α β : Type} {Q : Run → Option Violation → Run → Prop}

def Moves (Q : Run → Option Violation → Run → Prop) (x : Exec α) : Prop :=
  ∀ r, Q r (Halt.broken? (x.runFrom r).1) (x.runFrom r).2

theorem Moves.imp {Q' : Run → Option Violation → Run → Prop} {x : Exec α} (h : Moves Q x)
    (hq : ∀ {r o r'}, Q r o r' → Q' r o r') : Moves Q' x := fun r => hq (h r)

theorem Moves.orElse {x : Exec Yield} (h : Moves Q x) (y : Yield) : Moves Q (orElse x y) := by
  intro r
  have hx := h r
  rw [runFrom_orElse]
  rcases hr : x.runFrom r with ⟨(_ | v) | a, r'⟩ <;> rw [hr] at hx <;> exact hx

section Rules

variable (hQ : Closed Q)
include hQ

theorem Moves.pure (a : α) : Moves Q (pure a) := hQ.refl

theorem Moves.isEvaluating : Moves Q isEvaluating := hQ.refl

theorem Moves.bind {x : Exec α} {f : α → Exec β} (hx : Moves Q x) (hf : ∀ a, Moves Q (f a)) : Moves Q (x >>= f) := by
  intro r
  have h := hx r
  rcases hr : x.runFrom r with ⟨(_ | v) | a, r'⟩ <;> rw [hr] at h
  · rw [runFrom_bind_error hr]
    exact h
  · rw [runFrom_bind_error hr]
    exact h
  · rw [runFrom_bind_ok hr]
    exact hQ.trans h (hf a r')

theorem Moves.signal {s : Status} (hs : s.isOwn = true) : Moves Q (signal s) := fun r => hQ.signal r s hs

theorem Moves.fault {s : Status} (hs : s.isOwn = true) : Moves Q (fault s : Exec α) := fun r => hQ.signal r s hs

theorem Moves.note {e : Event} (he : e.isOwn = true) : Moves Q (note e) := fun r => hQ.note r e he

theorem Moves.onStore (f : Store → α × Store) : Moves Q (onStore f) := fun r => hQ.store r _

theorem Moves.operand {child : Exec Yield} (h : Moves Q child) : Moves Q (operand child) :=
  Moves.bind hQ h fun y => Moves.bind hQ (Moves.isEvaluating hQ) fun b => by
    cases b
    · exact fun r => hQ.refl r
    · exact Moves.pure hQ y

theorem Moves.read? (y : Yield) : Moves Q (read? y) := by
  have through : ∀ (h : Handle) {s : Status}, s.isOwn = true → Moves Q (do
      let v ← Exec.onStore h.get
      if v.isNone then Exec.signal s
      return v) := fun h s hs => Moves.bind hQ (Moves.onStore hQ _) fun v => by
    cases v with
    | none => exact Moves.bind hQ (Moves.signal hQ hs) fun _ => Moves.pure hQ _
    | some v => exact Moves.pure hQ _
  cases y with
  | void => exact Moves.bind hQ (Moves.note hQ rfl) fun _ => Moves.pure hQ _
  | value v => exact Moves.pure hQ _
  | leftHand h => exact through h rfl
  | reference h => exact through h rfl

theorem Moves.readOr {other : Exec Value} (h : Moves Q other) (y : Yield) : Moves Q (readOr other y) :=
  Moves.bind hQ (Moves.read? hQ y) fun v => by
    cases v with
    | none => exact h
    | some v => exact Moves.pure hQ v

theorem Moves.rounds {body : Exec Yield} (h : Moves Q body) (n : Nat) (last : Yield) :
    Moves Q (rounds body n last) := by
  induction n generalizing last with
  | zero => exact Moves.pure hQ last
  | succ n ih =>
    intro r
    have hb := h r
    rw [runFrom_rounds]
    rcases hr : body.runFrom r with ⟨e | y, r'⟩ <;> rw [hr] at hb
    · exact hb
    · dsimp only
      split
      · exact hQ.trans hb (ih y r')
      · rename_i hs
        exact hQ.trans hb (hQ.trans (hQ.resume r' (.inr hs)) (ih last _))
      · rename_i hs
        exact hQ.trans hb (hQ.resume r' (.inl hs))
      · exact hb

/-- Seen as a relation between computations, of which only the second one counts. -/
theorem Moves.congruence :
    Congruence (fun _ x => Moves Q x) (fun _ x => Moves Q x) (fun _ _ _ k => Moves Q k) where
  pure a := Moves.pure hQ a
  bind hx hf := Moves.bind hQ hx hf
  bind_last hx hf := Moves.bind hQ hx hf
  last h := h
  stop := hQ.refl
  fault hs := Moves.fault hQ hs
  note he := Moves.note hQ he
  store _ := Moves.onStore hQ _
  find _ _ _ h := Moves.bind hQ hQ.refl fun _ => h _
  read_stop := Moves.readOr hQ hQ.refl
  read_invalid := Moves.readOr hQ (Moves.fault hQ rfl)
  returnWith v := Moves.bind hQ (fun r => hQ.returnWith r v) fun _ => Moves.pure hQ _
  operand _ h := Moves.operand hQ h
  rounds h := Moves.rounds hQ h

theorem Moves.produce {call : Callee → List Variable → Exec Yield} (hcall : ∀ c xs, Moves Q (call c xs)) (n : Node)
    (hleap : ∀ s, n.leap? = some s → Moves Q (Exec.fault s : Exec Yield)) {kid : Fin n.arity → Exec Yield}
    (h : ∀ i, Moves Q (kid i)) : Moves Q (produce call n kid) :=
  @Congruence.produce _ _ _ (Moves.congruence hQ) call call n hleap (fun c _ => hcall c) kid kid h

theorem Moves.tell (n : Node) (y : Yield) : Moves Q (do
    if ← Exec.isEvaluating then Exec.note (.yielded n y)
    return y) :=
  Moves.bind hQ (Moves.isEvaluating hQ) fun b => by
    cases b
    · exact Moves.pure hQ y
    · exact Moves.bind hQ (Moves.note hQ rfl) fun _ => Moves.pure hQ y

theorem Moves.conclude {x : Exec Yield} (h : Moves Q x) (n : Node) : Moves Q (conclude n x) :=
  Moves.bind hQ (Moves.orElse h _) (Moves.tell hQ n)

theorem Moves.finish (htake : ∀ r, Q r none { r with frame := { r.frame with returned := none } }) (y : Yield) :
    Moves Q (finish y) := by
  intro r
  rw [runFrom_finish]
  split
  · have hy := Moves.read? hQ y r
    rcases hr : (Exec.read? y).runFrom r with ⟨(_ | v) | _ | v, r'⟩ <;> rw [hr] at hy
    · exact hy
    · exact hy
    · exact hQ.trans hy (hQ.signal r' .invalidValue rfl)
    · exact hy
  · exact htake r
  · exact hQ.refl r

end Rules

/-- Entering a node moves along `Q` too, whether there is a step left for it or not. -/
structure Stepped (l : Limits) (Q : Run → Option Violation → Run → Prop) : Prop extends Closed Q where
  enter : ∀ r id, r.frame.isEvaluating = true → r.steps < l.maxSteps →
    Q r none { r with steps := r.steps + 1, journal := .entered id :: r.journal }
  exhaust : ∀ r, r.frame.isEvaluating = true → l.maxSteps ≤ r.steps →
    Q r none { r with frame := r.frame.signal .stepsExceeded }

/-- And so does leaving a loop. -/
structure Paced (l : Limits) (Q : Run → Option Violation → Run → Prop) : Prop extends Stepped l Q where
  leap : ∀ r s, s.isLeap = true → Q r none { r with frame := r.frame.signal s }

theorem Paced.imp {l : Limits} {Q' : Run → Option Violation → Run → Prop} (h : Paced l Q)
    (hq : ∀ {r o r'}, Q r o r' → Q' r o r')
    (trans : ∀ {r r' r'' o}, Q' r none r' → Q' r' o r'' → Q' r o r'') : Paced l Q' where
  refl r := hq (h.refl r)
  trans := trans
  store r s := hq (h.store r s)
  note r e he := hq (h.note r e he)
  signal r s hs := hq (h.signal r s hs)
  leap r s hs := hq (h.leap r s hs)
  returnWith r v := hq (h.returnWith r v)
  resume r hr := hq (h.resume r hr)
  enter r id he hs := hq (h.enter r id he hs)
  exhaust r he hs := hq (h.exhaust r he hs)

theorem Moves.leap {l : Limits} (hQ : Paced l Q) {n : Node} {s : Status} (h : n.leap? = some s) :
    Moves Q (Exec.fault s : Exec α) :=
  fun r => hQ.leap r s (Node.isLeap_of_leap h)

theorem Moves.entering {l : Limits} (hQ : Stepped l Q) {x : Exec Yield} (hx : Moves Q x) (id : NodeId) (ty : Ty) :
    Moves Q (entering l id ty x) := by
  intro r
  rw [runFrom_entering]
  cases he : r.frame.isEvaluating with
  | false => exact hQ.refl r
  | true =>
    by_cases hs : l.maxSteps ≤ r.steps
    · simpa [hs] using hQ.exhaust r he hs
    · simpa [hs] using hQ.trans (hQ.enter r id he (by omega)) (hx _)

/-- A shape moves along `Q` once it is entered if calls do, unless it is torn and `Q` does not let it break off
there. -/
theorem Moves.inside {w : World} (hQ : Paced w.limits Q) {call : Callee → List Variable → Exec Yield}
    (hcall : ∀ c xs, Moves Q (call c xs)) {s : Shape} (hs : s.Complete ∨ ∀ r v, Q r (some v) r) :
    ∃ x, w.eval call s = Exec.entering w.limits s.id s.label.returns x ∧ Moves Q x := by
  induction s with
  | node id n kids ih =>
    have hkids : ∀ i, Moves Q (w.eval call (kids i)) := by
      intro i
      obtain ⟨x, he, hx⟩ := ih i (hs.imp_left fun h => h i)
      rw [he]
      exact Moves.entering hQ.toStepped hx _ _
    exact ⟨_, eval_node w call id n kids,
      Moves.conclude hQ.toClosed (Moves.produce hQ.toClosed hcall n (fun _ => Moves.leap hQ) hkids) n⟩
  | torn id n why =>
    have hbreak : Moves Q (violate why : Exec Yield) := fun r => hs.resolve_left not_false r why
    exact ⟨_, eval_torn w call id n why, hbreak⟩

theorem Moves.eval {w : World} (hQ : Paced w.limits Q) {call : Callee → List Variable → Exec Yield}
    (hcall : ∀ c xs, Moves Q (call c xs)) {s : Shape} (hs : s.Complete ∨ ∀ r v, Q r (some v) r) :
    Moves Q (w.eval call s) := by
  obtain ⟨x, he, hx⟩ := Moves.inside hQ hcall hs
  rw [he]
  exact Moves.entering hQ.toStepped hx _ _

end Exec
end Grove
