import Grove.Error

/-! Requests that change a state in place. What was changed before a request is refused stays changed, so that nothing
has is a fact about the order of its steps: all that can be refused comes before the first change. -/

namespace Grove

variable {ε σ τ α : Type} {R : σ → τ → Prop} {x y : EStateM ε σ Unit} {s s' : σ} {t : τ} {e : ε}

theorem run_seq_ok (h : x.run s = .ok () s') : (do x; y).run s = y.run s' := by
  have h : x s = .ok () s' := h
  simp only [EStateM.run, bind, EStateM.bind, h]

theorem run_seq_error (h : x.run s = .error e s') : (do x; y).run s = .error e s' := by
  have h : x s = .error e s' := h
  simp only [EStateM.run, bind, EStateM.bind, h]

/-- A request does what a function says of what the state stands for. Where that is an error, it is refused for that
and the state is as it was. -/
def Performs (R : σ → τ → Prop) (x : EStateM ε σ Unit) (s : σ) : Except ε τ → Prop
  | .ok t => ∃ s', x.run s = .ok () s' ∧ R s' t
  | .error e => x.run s = .error e s

namespace Performs

theorem throw : Performs R (throw e) s (.error e) := rfl

theorem pure (h : R s t) : Performs R (pure () : EStateM ε σ Unit) s (.ok t) := ⟨s, rfl, h⟩

theorem set (h : R s' t) : Performs R (set s' : EStateM ε σ Unit) s (.ok t) := ⟨s', rfl, h⟩

theorem check {r : Except ε α} {k : α → EStateM ε σ Unit} {f : α → Except ε τ}
    (h : ∀ a, r = .ok a → Performs R (k a) s (f a)) : Performs R (MonadExcept.ofExcept r >>= k) s (r >>= f) := by
  cases r with
  | error e => exact throw
  | ok a => exact h a rfl

theorem get {k : σ → EStateM ε σ Unit} {r : Except ε τ} (h : Performs R (k s) s r) :
    Performs R (MonadState.get >>= k) s r := by
  cases r <;> exact h

theorem guard {p q : Prop} [Decidable p] [Decidable q] {r : Except ε τ} (hpq : p ↔ q) (h : ¬q → Performs R x s r) :
    Performs R (if p then (MonadExcept.throw e : EStateM ε σ Unit) >>= fun _ => x else x) s
      (if q then (MonadExcept.throw e : Except ε Unit) >>= fun _ => r else r) := by
  by_cases hq : q
  · rw [if_pos (hpq.2 hq), if_pos hq]
    exact throw
  · rw [if_neg (mt hpq.1 hq), if_neg hq]
    exact h hq

end Performs
end Grove
