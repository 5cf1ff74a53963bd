import Mathlib.Data.List.Monad
import Grove.Text.Scan

/-! What scans take. Each scan is described by what comes of it on a text whose front is known: what it takes off,
what it makes of that, and what it leaves. A chain of scans is then followed link by link. -/

namespace Grove.Scan

variable {α β : Type} {p q : Scan α} {f : α → Scan β} {a : α} {cs ds front back : List Char} {c d : Char}
  {sort : Char → Bool}

theorem run_bind (h : StateT.run p cs = some (a, ds)) : StateT.run (p >>= f) cs = StateT.run (f a) ds := by
  rw [StateT.run_bind, h]
  rfl

theorem run_bind_none (h : StateT.run p cs = none) : StateT.run (p >>= f) cs = none := by
  rw [StateT.run_bind, h]
  rfl

theorem run_orElse (h : StateT.run p cs = some (a, ds)) : StateT.run (p <|> q) cs = some (a, ds) := by
  rw [StateT.run_orElse, h]
  rfl

theorem run_orElse_none (h : StateT.run p cs = none) : StateT.run (p <|> q) cs = StateT.run q cs := by
  rw [StateT.run_orElse, h]
  rfl

theorem discard_eq (p : Scan α) : discard p = p >>= fun _ => pure () := by
  rw [← map_eq_pure_bind]
  exact congrFun (congrFun (LawfulFunctor.map_const (f := Scan)) ()) p

theorem forall_head_cons {P : Char → Prop} : (∀ d ∈ (c :: cs).head?, P d) ↔ P c := by simp

theorem run_one (h : sort c = true) : StateT.run (one sort) (c :: cs) = some (c, cs) := by simp [one, h]

theorem run_one_none (h : ∀ c ∈ cs.head?, sort c = false) : StateT.run (one sort) cs = none := by
  cases cs with
  | nil => rfl
  | cons c cs =>
    have hc : sort c = false := h c rfl
    simp only [one, StateT.run_bind, StateT.run_get, Option.pure_def, Option.bind_eq_bind, Option.bind_some, hc]
    rfl

theorem run_char : StateT.run (char c) (c :: cs) = some ((), cs) := by
  rw [char, discard_eq, run_bind (run_one (decide_eq_true rfl))]
  rfl

theorem run_char_none (h : c ∉ cs.head?) : StateT.run (char c) cs = none := by
  rw [char, discard_eq]
  refine run_bind_none (run_one_none fun d hd => decide_eq_false ?_)
  rintro rfl
  exact h hd

theorem run_word : StateT.run (word front) (front ++ back) = some ((), back) := by
  induction front with
  | nil => rfl
  | cons c cs ih => rw [word, List.cons_append, run_bind run_char, ih]

theorem run_word_none (h : c ∉ cs.head?) : StateT.run (word (c :: front)) cs = none :=
  run_bind_none (run_char_none h)

theorem run_accept : StateT.run (accept c) (c :: cs) = some (true, cs) :=
  run_orElse (run_bind run_char)

theorem run_accept_none (h : c ∉ cs.head?) : StateT.run (accept c) cs = some (false, cs) :=
  run_orElse_none (run_bind_none (run_char_none h))

theorem run_attempt {p : Scan Unit} (h : StateT.run p cs = some ((), ds)) :
    StateT.run (attempt p) cs = some ((), ds) :=
  run_orElse h

theorem run_attempt_none {p : Scan Unit} (h : StateT.run p cs = none) : StateT.run (attempt p) cs = some ((), cs) :=
  run_orElse_none h

theorem run_peek : StateT.run peek cs = some (cs.head?, cs) := rfl

theorem run_room : StateT.run room cs = some (cs.length + 1, cs) := rfl

/-- The longest run of a class ends where another character comes. -/
theorem run_takeWhile (hf : ∀ c ∈ front, sort c = true) (hb : ∀ c ∈ back.head?, sort c = false) :
    StateT.run (takeWhile sort) (front ++ back) = some (front, back) := by
  have ht : back.takeWhile sort = [] := by cases back <;> simp_all
  have hd : back.dropWhile sort = back := by cases back <;> simp_all
  have run : StateT.run (takeWhile sort) (front ++ back) =
    some ((front ++ back).takeWhile sort, (front ++ back).dropWhile sort) := rfl
  rw [run, List.takeWhile_append_of_pos hf, List.dropWhile_append_of_pos hf, ht, hd, List.append_nil]

theorem run_exactly (hf : ∀ c ∈ front, sort c = true) :
    StateT.run (exactly sort front.length) (front ++ back) = some (front, back) := by
  induction front with
  | nil => rfl
  | cons c cs ih =>
    obtain ⟨hc, hcs⟩ := List.forall_mem_cons.1 hf
    rw [List.length_cons, exactly, List.cons_append, run_bind (run_one hc), run_bind (ih hcs)]
    rfl

end Grove.Scan
