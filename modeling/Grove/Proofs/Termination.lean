import Grove.Proofs.Outcomes
import Grove.Proofs.Result
import Grove.Proofs.Truncation

/-! An evaluation ends within its limits. Every node that is let in takes one of the steps that are left, so a loop
is through with its rounds when these are used up, however many it was to make; and every frame that is made
takes one of those that there is room for, and gives it back. -/

namespace Grove

/-- The counters of an evaluation, from its start to `r`. -/
structure Run.Counted (l : Limits) (r : Run) : Prop where
  steps : r.steps = r.journal.countP Event.isEntry
  maxSteps : r.steps ≤ l.maxSteps
  maxDepth : ∀ name d, Event.called name d ∈ r.journal → d ≤ l.maxDepth

/-- The same limits with room for one more frame. -/
def World.deeper (w : World) : World := ⟨⟨w.limits.maxSteps, w.limits.maxDepth + 1⟩, w.registry⟩

namespace Exec

variable {w : World} {room : Nat} {s : Shape} {r : Run}

theorem run_steps (hr : r.frame.isEvaluating = true) (hs : r.steps < w.limits.maxSteps) :
    r.steps < ((w.run room s).runFrom r).2.steps := by
  obtain ⟨x, he, hx⟩ := bounded_inside w room s
  obtain ⟨new, h⟩ := hx { r with steps := r.steps + 1, journal := .entered s.id :: r.journal }
  have hsteps := h.steps
  rw [he, runFrom_entering, if_neg (by simp [hr]), if_neg (by omega)]
  dsimp only at hsteps
  omega

theorem run_exhausted (hr : r.frame.isEvaluating = true) (hs : w.limits.maxSteps ≤ r.steps) :
    (w.run room s).runFrom r = (.ok (.ofType s.label.returns), { r with frame := r.frame.signal .stepsExceeded }) := by
  obtain ⟨x, he, -⟩ := bounded_inside w room s
  rw [he, runFrom_entering, if_neg (by simp [hr]), if_pos hs]

/-- A loop makes no more rounds than there are steps left, and one to find that there are none. -/
theorem rounds_within_steps {n m : Nat} (hr : r.frame.isEvaluating = true) (hn : w.limits.maxSteps - r.steps < n)
    (hm : w.limits.maxSteps - r.steps < m) (y : Yield) :
    (rounds (w.run room s) n y).runFrom r = (rounds (w.run room s) m y).runFrom r := by
  induction n generalizing m r y with
  | zero => omega
  | succ n ih =>
    obtain ⟨m, rfl⟩ : ∃ k, m = k + 1 := ⟨m - 1, by omega⟩
    rw [runFrom_rounds, runFrom_rounds]
    by_cases hs : w.limits.maxSteps ≤ r.steps
    · rw [run_exhausted hr hs]
      simp [Frame.signal, hr]
    · have hstep := @run_steps w room s r hr (by omega)
      rcases hrun : (w.run room s).runFrom r with ⟨e | z, r'⟩
      · rfl
      · rw [hrun] at hstep
        dsimp only at hstep ⊢
        cases hstatus : r'.frame.status with
        | evaluating =>
          exact ih (by simp [Frame.isEvaluating, hstatus]) (by omega) (by omega) z
        | continueCalled =>
          apply ih rfl
          · dsimp only
            omega
          · dsimp only
            omega
        | _ => rfl

theorem Bounded.of_start {l : Limits} {r' : Run} {o : Option Violation} (h : Bounded l room r o r')
    (hj : r.journal = []) : r.Within l room r'.journal o r' := by
  obtain ⟨new, h⟩ := h
  obtain rfl : r'.journal = new := by rw [h.journal, hj, List.append_nil]
  exact h

end Exec

/-- A whole evaluation seen as one run from a start without steps, frames and events. -/
theorem Tree.evaluate_within (w : World) (t : Tree) (xs : List Variable) (s : Store) :
    ∃ (r : Run) (o : Option Violation), r.journal = [] ∧ r.steps = 0 ∧ r.depth = 0 ∧ r.frame.status = .evaluating ∧
      r.Within w.limits w.limits.maxDepth (t.evaluate w xs s).2.journal o (t.evaluate w xs s).2 ∧
      ∀ out, (t.evaluate w xs s).1 = .ok out →
        o = none ∧ (out.status = .valueReturned ∨ out.status = (t.evaluate w xs s).2.frame.status) := by
  have hnothing : ∀ r : Run, r.journal = [] → r.Within w.limits w.limits.maxDepth r.journal none r :=
    fun r hj => Exec.Bounded.of_start ((Exec.paced_bounded _ _).refl r) hj
  cases t.evaluate_ends w xs s with
  | rootless _ h =>
    rw [h]
    exact ⟨_, none, rfl, rfl, rfl, rfl, hnothing _ rfl, by simp⟩
  | wild _ h =>
    rw [h]
    exact ⟨_, none, rfl, rfl, rfl, rfl, hnothing _ rfl, by simp⟩
  | @broken shape locals s' v after _ _ hrun h =>
    have hran := Exec.bounded_run w w.limits.maxDepth shape (.start (.start xs locals) s')
    rw [hrun] at hran
    rw [h]
    exact ⟨_, _, rfl, rfl, rfl, rfl, hran.of_start rfl, by simp⟩
  | @ended shape locals s' y last after o _ _ hrun hfin h =>
    have hran := Exec.Moves.bind (Exec.paced_bounded _ _).toClosed (Exec.bounded_run w w.limits.maxDepth shape)
      Exec.bounded_finish (.start (.start xs locals) s')
    rw [Exec.runFrom_bind_ok hrun, hfin] at hran
    rw [h]
    refine ⟨_, _, rfl, rfl, rfl, rfl, hran.of_start rfl, ?_⟩
    rintro _ ⟨⟩
    exact ⟨rfl, (Exec.finish_ok hfin).2.imp_right And.right⟩

theorem Tree.evaluate_counted (w : World) (t : Tree) (xs : List Variable) (s : Store) :
    (t.evaluate w xs s).2.Counted w.limits := by
  obtain ⟨r, o, -, hsteps, hdepth, -, h, -⟩ := t.evaluate_within w xs s
  refine ⟨?_, h.maxSteps (by omega), fun name d hc => ?_⟩
  · rw [h.steps, hsteps, Nat.zero_add]
  · have := h.called hc
    omega

theorem Tree.evaluate_stepsExceeded {w : World} {t : Tree} {xs : List Variable} {s : Store} {o : Outcome}
    (h : (t.evaluate w xs s).1 = .ok o) (ho : o.status = .stepsExceeded) :
    (t.evaluate w xs s).2.steps = w.limits.maxSteps := by
  obtain ⟨r, _, -, -, -, hstatus, hwithin, hend⟩ := t.evaluate_within w xs s
  have hframe : (t.evaluate w xs s).2.frame.status = .stepsExceeded := by
    rw [← ho]
    exact ((hend o h).2.resolve_left (by simp [ho])).symm
  have hall := (hwithin.stepsExceeded hframe).resolve_left (by simp [hstatus])
  exact Nat.le_antisymm (t.evaluate_counted w xs s).maxSteps hall

/-- Where the stack is exceeded, the same evaluation with room for one more frame goes on by making it. -/
theorem Tree.evaluate_stackExceeded {w : World} {t : Tree} {xs : List Variable} {s : Store} {o : Outcome}
    (h : (t.evaluate w xs s).1 = .ok o) (ho : o.status = .stackExceeded) :
    ∃ name, (.called name (w.limits.maxDepth + 1) :: (t.evaluate w xs s).2.journal) <:+
      (t.evaluate w.deeper xs s).2.journal := by
  have hcut := @evaluate_cut w.limits w.deeper.limits (Nat.le_refl _) (Nat.le_succ _) w.registry t xs s
  rcases hcut with hsame | ⟨e, he, hcut⟩
  · -- with room to spare a frame would stand at the depth that is one too deep
    exfalso
    have hsame' : t.evaluate w xs s = t.evaluate w.deeper xs s := hsame
    obtain ⟨r, _, -, -, hdepth, hstatus, hwithin, hend⟩ := t.evaluate_within w.deeper xs s
    have hframe : (t.evaluate w.deeper xs s).2.frame.status = .stackExceeded := by
      rw [← ho]
      exact ((hend o (hsame' ▸ h)).2.resolve_left (by simp [ho])).symm
    rcases hwithin.stackExceeded hframe with hstart | hroom | ⟨name, hcalled⟩
    · rw [hstatus] at hstart
      cases hstart
    · cases hroom
    · rw [← hsame'] at hcalled
      have hle := (t.evaluate_counted w xs s).maxDepth name _ hcalled
      have hroom : w.deeper.limits.maxDepth = w.limits.maxDepth + 1 := rfl
      omega
  · have he' : t.evaluate w xs s = (.ok ⟨e.frame.status, none⟩, e) := he
    rw [he'] at h ⊢
    obtain rfl := Except.ok.inj h
    exact hcut.refused ho

/-- Evaluation ends within its limits. It comes to an outcome, or to a local variable without a concrete type. The
steps that it counts are nodes that it entered, and frames are made only where there is room for them. Steps are
exceeded when all were taken, and the stack where a call would have made one frame more. The same counts hold
around every node, which leaves the depth as it found it, and for a loop any two numbers of rounds are the same
that are greater than the number of steps left. -/
theorem evaluate_within_limits {w : World} {t : Tree} (ht : t.Complete) (hg : w.registry.Bodies Tree.Complete)
    (xs : List Variable) (s : Store) :
    ((∃ o, (t.evaluate w xs s).1 = .ok o) ∨ (t.evaluate w xs s).1 = .error .wildcardVariable) ∧
      (t.evaluate w xs s).2.Counted w.limits ∧
      (∀ o, (t.evaluate w xs s).1 = .ok o → (t.evaluate w xs s).2.depth = 0 ∧
        (o.status = .stepsExceeded → (t.evaluate w xs s).2.steps = w.limits.maxSteps) ∧
        (o.status = .stackExceeded → ∃ name, (.called name (w.limits.maxDepth + 1) :: (t.evaluate w xs s).2.journal) <:+
          (t.evaluate w.deeper xs s).2.journal)) ∧
      (∀ (room : Nat) (shape : Shape) (r : Run), shape.Complete →
        ((∃ y, ((w.run room shape).runFrom r).1 = .ok y) ∨
          ((w.run room shape).runFrom r).1 = .error (.violated .wildcardVariable)) ∧
        ∃ new, r.Within w.limits room new (Halt.broken? ((w.run room shape).runFrom r).1)
          ((w.run room shape).runFrom r).2) ∧
      ∀ (room : Nat) (body : Shape) (r : Run) (n m : Nat) (y : Yield), r.frame.isEvaluating = true →
        w.limits.maxSteps - r.steps < n → w.limits.maxSteps - r.steps < m →
          (Exec.rounds (w.run room body) n y).runFrom r = (Exec.rounds (w.run room body) m y).runFrom r := by
  have hbodies : w.registry.Bodies (Tree.Breaks (· = .wildcardVariable)) := hg.imp Tree.Complete.breaks
  refine ⟨?_, t.evaluate_counted w xs s, fun o h => ⟨?_, Tree.evaluate_stepsExceeded h, Tree.evaluate_stackExceeded h⟩,
    fun room shape r hs => ⟨?_, Exec.bounded_run w room shape r⟩,
    fun room body r n m y hr hn hm => Exec.rounds_within_steps hr hn hm y⟩
  · rcases ht.breaks.evaluate hbodies xs s with ⟨v, hv, rfl⟩ | ⟨o, ho, -⟩
    · exact .inr hv
    · exact .inl ⟨o, ho⟩
  · obtain ⟨r, _, -, -, hdepth, -, hwithin, hend⟩ := t.evaluate_within w xs s
    exact (hwithin.depth (hend o h).1).trans hdepth
  · have hbreach := (Exec.orderly_run hbodies room hs r).breach
    have settled := Exec.settles_run w room shape r
    rcases hend : (w.run room shape).runFrom r with ⟨(_ | v) | y, r'⟩ <;> rw [hend] at hbreach settled
    · exact absurd rfl settled
    · exact .inr (by rw [hbreach v rfl])
    · exact .inl ⟨y, rfl⟩

namespace Diving

def dive : Callee := ⟨"Dive", .int, []⟩

/-- Calls itself, or is called by a tree that is the same. -/
def tree : Tree := .planted ⟨some "Dive", .int, [], []⟩ (.node (.call dive) Fin.elim0)

def world : World := ⟨⟨100, 3⟩, ⟨[("Dive", ⟨dive, some tree⟩)]⟩⟩

theorem complete_tree : tree.Complete := (Tree.evaluable_planted _ (by decide)).complete

theorem complete_registry : world.registry.Bodies Tree.Complete := by
  intro name body h
  by_cases hname : name = "Dive"
  · subst hname
    obtain rfl := Option.some.inj h
    exact .inr complete_tree
  · simp [world, Registry.body?, Registry.entry?, List.lookup_cons, beq_false_of_ne hname] at h

end Diving

/-- The fourth frame is one too many. -/
theorem evaluate_within_limits_diving :
    Diving.tree.Complete ∧ Diving.world.registry.Bodies Tree.Complete ∧
      (Diving.tree.evaluate Diving.world [] .empty).1 = .ok ⟨.stackExceeded, none⟩ ∧
      (Diving.tree.evaluate Diving.world [] .empty).2.Counted ⟨100, 3⟩ ∧
      (Diving.tree.evaluate Diving.world [] .empty).2.depth = 0 ∧
      ∃ name, (.called name 4 :: (Diving.tree.evaluate Diving.world [] .empty).2.journal) <:+
        (Diving.tree.evaluate Diving.world.deeper [] .empty).2.journal := by
  have hend : (Diving.tree.evaluate Diving.world [] .empty).1 = .ok ⟨.stackExceeded, none⟩ :=
    Result.toOption_some.1 (by decide +kernel)
  obtain ⟨-, hcounted, hlimits, -⟩ := evaluate_within_limits Diving.complete_tree Diving.complete_registry [] .empty
  obtain ⟨hdepth, -, hstack⟩ := hlimits _ hend
  exact ⟨Diving.complete_tree, Diving.complete_registry, hend, hcounted, hdepth, hstack rfl⟩

end Grove
