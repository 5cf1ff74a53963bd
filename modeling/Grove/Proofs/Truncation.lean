import Grove.Proofs.Cuts
import Grove.Proofs.Limits
import Grove.Proofs.Planting

/-! Limits cut a run short and change nothing else. With smaller limits a run is the one with larger limits up to
a node that finds no step left or a call that finds no room. From there frame after frame ends and nothing more
is done, so what was written by then is a beginning of what the larger limits let it write. -/

namespace Grove

def Run.writes (r : Run) : List (Nat × Value) :=
  r.journal.reverse.filterMap fun
    | .wrote cell v => some (cell, v)
    | _ => none

theorem Run.writes_prefix {r r' : Run} (h : r.journal <:+ r'.journal) : r.writes <+: r'.writes :=
  (List.reverse_prefix.2 h).filterMap _

/-- At `e` a frame has ended at a limit `l`, which would have been passed on the way to `r`. -/
structure Run.CutShort (l : Limits) (e r : Run) : Prop where
  limit : e.frame.status.isLimit = true
  journal : e.journal <:+ r.journal
  refused : e.frame.status = .stackExceeded → ∃ name, (.called name (l.maxDepth + 1) :: e.journal) <:+ r.journal

theorem Run.CutShort.later {l : Limits} {e r r' : Run} (h : e.CutShort l r) (hj : r.journal <:+ r'.journal) :
    e.CutShort l r' :=
  ⟨h.limit, h.journal.trans hj, fun hs => (h.refused hs).imp fun _ hn => hn.trans hj⟩

theorem Run.CutShort.ended {l : Limits} {e r : Run} (h : e.CutShort l r) : e.frame.status ≠ .evaluating := fun hs => by
  have hlimit := h.limit
  rw [hs] at hlimit
  cases hlimit

namespace Exec

variable {l l' : Limits} {d : Nat}

theorem stays_of_bounded {room : Nat} {r r' : Run} {o : Option Violation} (h : Bounded l' room r o r') :
    Stays (Run.CutShort l) (·.depth = d) r o r' := by
  refine ⟨fun e he => he.later h.suffix, fun ho hd => ?_⟩
  obtain ⟨new, h⟩ := h
  exact (h.depth ho).trans hd

theorem paced_stays (l l' : Limits) (d : Nat) : Paced l' (Stays (Run.CutShort l) (·.depth = d)) :=
  (paced_bounded l' 0).imp stays_of_bounded fun h h' =>
    ⟨fun e he => h'.cut e (h.cut e he), fun ho hd => h'.kept ho (h.kept rfl hd)⟩

/-- What a body did before a call went back is in the journal after the call. -/
theorem suffix_call {w : World} {k : Nat} {c : Callee} {xs locals : List Variable} {body : Tree} {shape : Shape}
    (hb : w.registry.body? c.name = some body) (hs : body.shape? = some shape) {r : Run} {s : Store}
    (hf : freshCells body.signature.locals r.store = .ok (locals, s)) :
    ((w.run k shape).runFrom (r.callee c xs locals s)).2.journal <:+
      ((w.call (some (w.run k)) c xs).runFrom r).2.journal := by
  rw [runFrom_call hb hs, hf]
  dsimp only
  rcases hrun : (w.run k shape).runFrom (r.callee c xs locals s) with ⟨e | y, r₁⟩
  · rewrite [runFrom_bind_error hrun]
    exact List.suffix_refl _
  · have hend := (@bounded_finish w.limits 0 y r₁).suffix
    rw [runFrom_bind_ok hrun]
    rcases hfin : (finish y).runFrom r₁ with ⟨e | o, r₂⟩ <;> rw [hfin] at hend
    · exact hend
    · dsimp only
      rw [hand_journal]
      exact hend

theorem called_suffix {w : World} {k : Nat} {c : Callee} {xs : List Variable} {body : Tree} {shape : Shape}
    (hb : w.registry.body? c.name = some body) (hs : body.shape? = some shape) (r : Run) :
    (.called c.name (r.depth + 1) :: r.journal) <:+ ((w.call (some (w.run k)) c xs).runFrom r).2.journal := by
  cases hf : freshCells body.signature.locals r.store with
  | error v =>
    rewrite [runFrom_call hb hs, hf]
    exact List.suffix_refl _
  | ok a => exact (bounded_run w k shape (r.callee c xs a.1 a.2)).suffix.trans (suffix_call hb hs hf)

theorem finish_limit {r : Run} (h : r.frame.status.isLimit = true) (y : Yield) :
    (finish y).runFrom r = (.ok ⟨r.frame.status, none⟩, r) := by
  rw [runFrom_finish]
  cases hs : r.frame.status <;> simp_all [Status.isLimit]

theorem hand_limit {s : Status} (h : s.isLimit = true) : Outcome.hand ⟨s, none⟩ = fault s := by
  cases s <;> simp_all [Status.isLimit, Outcome.hand]

theorem absorbs_limit {s : Status} (h : s.isLimit = true) (n : Node) (slot : Nat) : n.absorbs slot s = false := by
  unfold Node.absorbs
  split
  · cases s <;> simp_all [Status.isLimit]
  · rfl

/-- A fault that comes of a limit is cut short in the frame that it is handed to. -/
theorem cutShort_signal {s : Status} {e r r' : Run} (hs : s.isLimit = true) (hr : Alive r)
    (hj : e.journal <:+ r'.journal)
    (hrefused : s = .stackExceeded → ∃ name, (.called name (l.maxDepth + 1) :: e.journal) <:+ r'.journal) :
    Run.CutShort l { e with frame := r.frame.signal s } r' := by
  have hstatus : (r.frame.signal s).status = s := by
    rw [Frame.status_signal]
    exact if_pos hr
  exact ⟨by rw [hstatus]; exact hs, hj, fun h => hrefused (hstatus ▸ h)⟩

/-- A body that comes to a limit brings its caller's frame to it. -/
theorem call_limit {w : World} {k : Nat} {c : Callee} {xs locals : List Variable} {body : Tree} {shape : Shape}
    (hb : w.registry.body? c.name = some body) (hs : body.shape? = some shape) {r e : Run} {s : Store} {y : Yield}
    (hf : freshCells body.signature.locals r.store = .ok (locals, s))
    (hrun : (w.run k shape).runFrom (r.callee c xs locals s) = (.ok y, e)) (he : e.frame.status.isLimit = true) :
    (w.call (some (w.run k)) c xs).runFrom r =
      (.error .stopped, { e.back r with frame := r.frame.signal e.frame.status }) := by
  rw [runFrom_call hb hs, hf]
  dsimp only
  rw [runFrom_bind_ok hrun, finish_limit he]
  dsimp only
  rw [hand_limit he]
  rfl

variable {g : Registry}

/-- With room for the bodies on both sides a call does the same, or its body is cut short and the call with it. -/
theorem cuts_body {k k' : Nat} {body : Tree} {shape : Shape} {c : Callee} (hb : g.body? c.name = some body)
    (hs : body.shape? = some shape)
    (hbody : CutsNode (Run.CutShort l) (·.depth = d + 1) shape.label.returns (World.run ⟨l, g⟩ k shape)
      (World.run ⟨l', g⟩ k' shape))
    {r : Run} (hr : Alive r) (hd : r.depth = d) (xs : List Variable) :
    (World.call ⟨l, g⟩ (some (World.run ⟨l, g⟩ k)) c xs).runFrom r =
        (World.call ⟨l', g⟩ (some (World.run ⟨l', g⟩ k')) c xs).runFrom r ∨
      ((World.call ⟨l, g⟩ (some (World.run ⟨l, g⟩ k)) c xs).runFrom r).1 = .error .stopped ∧
        Run.CutShort l ((World.call ⟨l, g⟩ (some (World.run ⟨l, g⟩ k)) c xs).runFrom r).2
          ((World.call ⟨l', g⟩ (some (World.run ⟨l', g⟩ k')) c xs).runFrom r).2 := by
  cases hf : freshCells body.signature.locals r.store with
  | error v =>
    left
    rw [@runFrom_call ⟨l, g⟩ c xs body shape _ hb hs, @runFrom_call ⟨l', g⟩ c xs body shape _ hb hs, hf]
  | ok a =>
    rcases hbody.run (r.callee c xs a.1 a.2) rfl (congrArg (· + 1) hd) with hsame | ⟨e, he, hcut⟩
    · left
      rw [@runFrom_call ⟨l, g⟩ c xs body shape _ hb hs, @runFrom_call ⟨l', g⟩ c xs body shape _ hb hs, hf]
      dsimp only
      rw [runFrom_bind, runFrom_bind, hsame]
    · right
      have hcut' := hcut.later (@suffix_call ⟨l', g⟩ k' c xs a.1 body shape hb hs r a.2 hf)
      rw [@call_limit ⟨l, g⟩ k c xs a.1 body shape hb hs r e a.2 _ hf he hcut.limit]
      exact ⟨rfl, cutShort_signal hcut.limit hr hcut'.journal hcut'.refused⟩

theorem cuts_call {room room' : Nat} (hl : room + d = l.maxDepth) (hl' : room' + d = l'.maxDepth)
    (hdepth : l.maxDepth ≤ l'.maxDepth)
    (hbody : ∀ k k', room = k + 1 → room' = k' + 1 → ∀ s : Shape,
      CutsNode (Run.CutShort l) (·.depth = d + 1) s.label.returns (World.run ⟨l, g⟩ k s) (World.run ⟨l', g⟩ k' s))
    (c : Callee) (xs : List Variable) :
    Cuts (Run.CutShort l) (·.depth = d) (fun _ => True)
      (World.call ⟨l, g⟩ (World.below ⟨l, g⟩ room) c xs) (World.call ⟨l', g⟩ (World.below ⟨l', g⟩ room') c xs) := by
  have hlater := @bounded_call l' ⟨l', g⟩ room' (fun k _ s => bounded_run ⟨l', g⟩ k s) c xs
  refine ⟨fun r hr hd => ?_, hlater.imp stays_of_bounded⟩
  rcases call_cases ⟨l, g⟩ c with h | ⟨body, shape, hb, hs⟩
  · have h' : World.call ⟨l', g⟩ (World.below ⟨l', g⟩ room') c xs = invalid := h _ _
    rw [h, h']
    exact .inl ⟨rfl, fun _ _ => trivial⟩
  have hrefused : ∀ l, World.call ⟨l, g⟩ none c xs = Exec.fault .stackExceeded := fun l => call_refused hb hs
  cases room with
  | zero =>
    rw [World.below, hrefused]
    cases room' with
    | zero =>
      rw [World.below, hrefused]
      exact .inl ⟨rfl, fun _ _ => trivial⟩
    | succ k' =>
      -- the call that is refused here is made there
      have hcalled := @called_suffix ⟨l', g⟩ k' c xs body shape hb hs r
      have hroom : r.depth = l.maxDepth := by omega
      rw [hroom] at hcalled
      exact .inr ⟨rfl, cutShort_signal rfl hr ((List.suffix_cons _ _).trans hcalled) fun _ => ⟨_, hcalled⟩⟩
  | succ k =>
    obtain ⟨k', rfl⟩ : ∃ k', room' = k' + 1 := ⟨room' - 1, by omega⟩
    exact (cuts_body hb hs (hbody k k' rfl rfl shape) hr hd xs).imp_left fun hsame => ⟨hsame, fun _ _ => trivial⟩

theorem cuts_eval (hsteps : l.maxSteps ≤ l'.maxSteps) {call call' : Callee → List Variable → Exec Yield}
    (hcall : ∀ c xs, Cuts (Run.CutShort l) (·.depth = d) (fun _ => True) (call c xs) (call' c xs)) (s : Shape) :
    CutsNode (Run.CutShort l) (·.depth = d) s.label.returns (World.eval ⟨l, g⟩ call s)
      (World.eval ⟨l', g⟩ call' s) := by
  have hD := paced_stays l l' d
  have hexhaust : ∀ r, Alive r → l.maxSteps ≤ r.steps → r.steps < l'.maxSteps →
      Run.CutShort l { r with frame := r.frame.signal .stepsExceeded } r :=
    fun r hr _ _ => cutShort_signal rfl hr (List.suffix_refl _) (by simp)
  induction s with
  | node id n kids ih =>
    have hkids : ∀ i : Fin n.arity, CutsChild (Run.CutShort l) (·.depth = d) n i (World.eval ⟨l, g⟩ call (kids i))
        (World.eval ⟨l', g⟩ call' (kids i)) :=
      fun i => (ih i).child fun h => ⟨h.ended, absorbs_limit h.limit n i⟩
    rw [eval_node, eval_node]
    have hnode := Congruence.produce (Cuts.congruence hD.toClosed) n (fun _ => Cuts.leap hD) (fun c _ => hcall c) hkids
    have hcut := Cuts.conclude hD.toClosed hnode (fun h => by simpa [Frame.isEvaluating] using h.ended) n
    exact CutsNode.entering hD hcut hsteps hexhaust id
  | torn id n why =>
    rw [eval_torn, eval_torn]
    have hbreak : Moves (Stays (Run.CutShort l) (·.depth = d)) (violate why : Exec Yield) := fun r =>
      ⟨fun e he => he, by simp [runFrom_violate]⟩
    exact CutsNode.entering hD ⟨fun r _ _ => .inl rfl, hbreak⟩ hsteps hexhaust id

theorem cuts_run (hsteps : l.maxSteps ≤ l'.maxSteps) (hdepth : l.maxDepth ≤ l'.maxDepth) {room room' : Nat}
    (hl : room + d = l.maxDepth) (hl' : room' + d = l'.maxDepth) (s : Shape) :
    CutsNode (Run.CutShort l) (·.depth = d) s.label.returns (World.run ⟨l, g⟩ room s) (World.run ⟨l', g⟩ room' s) := by
  induction room generalizing room' d s with
  | zero =>
    rw [World.run_eq, World.run_eq]
    exact cuts_eval hsteps (cuts_call hl hl' hdepth (by simp)) s
  | succ k ih =>
    rw [World.run_eq, World.run_eq]
    refine cuts_eval hsteps (cuts_call hl hl' hdepth ?_) s
    rintro _ k' ⟨⟩ ⟨⟩ s
    exact ih (by omega) (by omega) s

end Exec

/-- An evaluation is the same with more room, or it ends at a limit that the other passes on. -/
theorem Tree.evaluate_cut {l l' : Limits} (hsteps : l.maxSteps ≤ l'.maxSteps) (hdepth : l.maxDepth ≤ l'.maxDepth)
    (g : Registry) (t : Tree) (xs : List Variable) (s : Store) :
    t.evaluate ⟨l, g⟩ xs s = t.evaluate ⟨l', g⟩ xs s ∨
      ∃ e : Run, t.evaluate ⟨l, g⟩ xs s = (.ok ⟨e.frame.status, none⟩, e) ∧
        e.CutShort l (t.evaluate ⟨l', g⟩ xs s).2 := by
  cases hs : t.shape? with
  | none =>
    left
    simp only [evaluate, hs]
  | some shape =>
    cases hf : freshCells t.signature.locals s with
    | error v =>
      left
      simp only [evaluate, hs, hf]
    | ok a =>
      rw [evaluate_of_shape hs hf, evaluate_of_shape hs hf]
      have hcuts := @Exec.cuts_run l l' 0 g hsteps hdepth l.maxDepth l'.maxDepth rfl rfl shape
      rcases hcuts.run (.start (.start xs a.1) a.2) rfl rfl with hsame | ⟨e, he, hcut⟩
      · left
        apply Exec.outcome_congr
        rw [Exec.runFrom_bind, Exec.runFrom_bind, hsame]
      · right
        refine ⟨e, Exec.outcome_ok ?_, ?_⟩
        · rw [Exec.runFrom_bind_ok he, Exec.finish_limit hcut.limit]
        · rw [Exec.outcome_state]
          exact Exec.stays_bind (fun y => (@Exec.bounded_finish l' 0 y).imp (Exec.stays_of_bounded (d := 0))) hcut

/-- What a run wrote under its limits comes first under larger ones; it is the same run, result and state, unless it
came to a limit. -/
theorem limits_truncate {l l' : Limits} (hsteps : l.maxSteps ≤ l'.maxSteps) (hdepth : l.maxDepth ≤ l'.maxDepth)
    (g : Registry) (t : Tree) (xs : List Variable) (s : Store) :
    (t.evaluate ⟨l, g⟩ xs s).2.writes <+: (t.evaluate ⟨l', g⟩ xs s).2.writes ∧
      ((∀ o, (t.evaluate ⟨l, g⟩ xs s).1 = .ok o → o.status ≠ .stepsExceeded ∧ o.status ≠ .stackExceeded) →
        t.evaluate ⟨l', g⟩ xs s = t.evaluate ⟨l, g⟩ xs s) := by
  rcases t.evaluate_cut hsteps hdepth g xs s with hsame | ⟨e, he, hcut⟩
  · rw [hsame]
    exact ⟨List.prefix_refl _, fun _ => rfl⟩
  · rw [he]
    refine ⟨Run.writes_prefix hcut.journal, fun hno => ?_⟩
    obtain ⟨hsteps, hstack⟩ := hno _ rfl
    have hlimit := hcut.limit
    cases hs : e.frame.status <;> simp_all [Status.isLimit]

namespace Counting

def term : Term :=
  .node (.repeatTimes .int) fun
    | ⟨0, _⟩ => .node (.const (.int 8)) Fin.elim0
    | _ => .node (.increment .int) fun _ => .node (.argument Ty.int.leftHand 0) Fin.elim0

def tree : Tree := .planted ⟨none, .int, [.int], []⟩ term

def zero : Variable × Store := Variable.new (.int 0) .empty

def after (maxSteps : Nat) : Except Violation Outcome × Run :=
  tree.evaluate ⟨⟨maxSteps, 4⟩, .empty⟩ [zero.1] zero.2

end Counting

/-- Nine steps are enough for three of the eight writes, eighteen for all of them and the result. -/
theorem limits_truncate_counting :
    (9 ≤ 18 ∧ 4 ≤ 4) ∧ (18 ≤ 30 ∧ 4 ≤ 4) ∧
      (Counting.after 9).1.toOption = some ⟨.stepsExceeded, none⟩ ∧
      (Counting.after 9).2.writes = [(0, .int 1), (0, .int 2), (0, .int 3)] ∧
      (Counting.after 9).2.writes <+: (Counting.after 18).2.writes ∧
      (Counting.after 18).1.toOption = some (.returned (.int 8)) ∧
      Counting.after 30 = Counting.after 18 := by
  have hshort := @limits_truncate ⟨9, 4⟩ ⟨18, 4⟩ (by decide) (by decide) .empty Counting.tree
    [Counting.zero.1] Counting.zero.2
  have hlong := @limits_truncate ⟨18, 4⟩ ⟨30, 4⟩ (by decide) (by decide) .empty Counting.tree
    [Counting.zero.1] Counting.zero.2
  have hends : (Counting.after 18).1.toOption = some (.returned (.int 8)) := by decide +kernel
  refine ⟨by decide, by decide, by decide +kernel, by decide +kernel, hshort.1, hends, hlong.2 fun o ho => ?_⟩
  have hreturned : (Counting.after 18).1 = .ok o := ho
  rw [hreturned] at hends
  obtain rfl : o = .returned (.int 8) := Option.some.inj hends
  decide

end Grove
