import Grove.Proofs.Calls
import Grove.Proofs.Moves
import Grove.Proofs.Planting

/-! How an evaluation ends. A frame holds a value to return just when its status says that it returned one, and
whatever nodes and calls do, that stays so. Nothing breaks a run off but a torn node and a local variable
without a concrete type; where there are none, every fault is the status of an outcome. -/

namespace Grove

/-- Every slot that the root reaches is filled. -/
def Tree.Complete (t : Tree) : Prop := ∃ s, t.shape? = some s ∧ s.Complete

/-- A tree that can be evaluated: it is complete, and cells can be made for its local variables. -/
structure Tree.Evaluable (t : Tree) : Prop where
  complete : t.Complete
  locals : ∀ ty ∈ t.signature.locals, ty.base ≠ .any

/-- A tree whose evaluation breaks no promise of its own but those of `V`. -/
structure Tree.Breaks (V : Violation → Prop) (t : Tree) : Prop where
  complete : t.Complete
  locals : ∀ s v, freshCells t.signature.locals s = .error v → V v

/-- Every body that has a root is of this sort. -/
def Registry.Bodies (P : Tree → Prop) (g : Registry) : Prop :=
  ∀ name body, g.body? name = some body → body.root = none ∨ P body

theorem Registry.Bodies.imp {P P' : Tree → Prop} {g : Registry} (h : g.Bodies P) (hp : ∀ {t}, P t → P' t) :
    g.Bodies P' :=
  fun name body hb => (h name body hb).imp_right hp

theorem freshCells_error {tys : List Ty} {s : Store} {v : Violation} (h : freshCells tys s = .error v) :
    v = .wildcardVariable ∧ ∃ ty ∈ tys, ty.base = .any := by
  induction tys generalizing s with
  | nil => cases h
  | cons ty tys ih =>
    by_cases hb : ty.base = .any
    · simp [freshCells, Variable.newEmpty, hb, bind, Except.bind] at h
      exact ⟨h.symm, ty, List.mem_cons_self, hb⟩
    · have hn : Variable.newEmpty ty.base s = .ok (⟨ty.base, (s.alloc none).1, hb⟩, (s.alloc none).2) := by
        simp [Variable.newEmpty, hb]
      simp only [freshCells, hn, bind, Except.bind] at h
      cases hf : freshCells tys (s.alloc none).2 with
      | error v' =>
        simp only [hf] at h
        cases h
        obtain ⟨hv, ty', hmem, hany⟩ := ih hf
        exact ⟨hv, ty', List.mem_cons_of_mem _ hmem, hany⟩
      | ok a => simp [hf, pure, Except.pure] at h

theorem Tree.Evaluable.breaks {t : Tree} (h : t.Evaluable) : t.Breaks fun _ => False := by
  refine ⟨h.complete, fun s v hf => ?_⟩
  obtain ⟨-, ty, hmem, hany⟩ := freshCells_error hf
  exact h.locals ty hmem hany

theorem Tree.Complete.breaks {t : Tree} (h : t.Complete) : t.Breaks (· = .wildcardVariable) :=
  ⟨h, fun _ _ hf => (freshCells_error hf).1⟩

theorem Tree.complete_body {V : Violation → Prop} {t : Tree} {s : Shape} (h : t.root = none ∨ t.Breaks V)
    (hs : t.shape? = some s) : s.Complete := by
  obtain ⟨⟨s', hs', hcomplete⟩, -⟩ := h.resolve_left fun hroot => by simp [Tree.shape?, hroot] at hs
  obtain rfl : s = s' := Option.some.inj (hs.symm.trans hs')
  exact hcomplete

/-- There is a value to return just when the status says that one was returned. -/
def Frame.Paired (f : Frame) : Prop := f.returned.isSome = true ↔ f.status = .valueReturned

namespace Frame.Paired

variable {f : Frame}

theorem start (arguments locals : List Variable) : (Frame.start arguments locals).Paired := by
  simp [Frame.Paired, Frame.start]

theorem none_of {s : Status} (h : f.Paired) (hf : f.status = s) (hs : s ≠ .valueReturned) : f.returned.isSome ≠ true :=
  fun hr => hs (hf ▸ h.1 hr)

theorem signal {s : Status} (h : f.Paired) (hs : s ≠ .valueReturned) : (f.signal s).Paired := by
  unfold Frame.signal
  split
  · rename_i he
    have hnone := h.none_of (s := .evaluating) (by simpa [isEvaluating] using he) (by simp)
    exact ⟨fun hr => absurd hr hnone, fun hr => absurd hr hs⟩
  · exact h

theorem returnWith (h : f.Paired) (v : Value) : (f.returnWith v).Paired := by
  unfold Frame.returnWith
  split
  · simp [Frame.Paired]
  · exact h

theorem resume (h : f.Paired) (hs : f.status ≠ .valueReturned) : f.resume.Paired := by
  have hnone := h.none_of rfl hs
  exact ⟨fun hr => absurd hr hnone, fun h => by simp [Frame.resume] at h⟩

end Frame.Paired

namespace Exec

/-- Only promises of `V` are broken, and a paired frame is left paired. -/
structure Orderly (V : Violation → Prop) (r : Run) (o : Option Violation) (r' : Run) : Prop where
  breach : ∀ v, o = some v → V v
  paired : o = none → r.frame.Paired → r'.frame.Paired

variable {V : Violation → Prop}

theorem orderly_of {r r' : Run} (h : r.frame.Paired → r'.frame.Paired) : Orderly V r none r' := ⟨by simp, fun _ => h⟩

theorem paced_orderly (l : Limits) (V : Violation → Prop) : Paced l (Orderly V) where
  refl r := orderly_of id
  trans h h' := ⟨h'.breach, fun ho hp => h'.paired ho (h.paired rfl hp)⟩
  store r s := orderly_of id
  note r e he := orderly_of id
  signal r s hs := orderly_of fun hp => hp.signal fun h => by simp [h, Status.isOwn] at hs
  leap r s hs := orderly_of fun hp => hp.signal fun h => by simp [h, Status.isLeap] at hs
  returnWith r v := orderly_of fun hp => hp.returnWith v
  resume r hr := orderly_of fun hp => hp.resume fun h => by simp [h] at hr
  enter r id he hs := orderly_of fun hp => hp
  exhaust r he hs := orderly_of fun hp => hp.signal (by simp)

theorem finish_paired {r r' : Run} {y : Yield} {o : Outcome} (h : r.frame.Paired)
    (hfin : (finish y).runFrom r = (.ok o, r')) : o.value.isSome = true ↔ o.status = .valueReturned := by
  rw [runFrom_finish] at hfin
  cases hs : r.frame.status with
  | evaluating =>
    obtain ⟨v, r₁, hr, hf⟩ := runFrom_read? y r
    rw [hs, hr] at hfin
    cases v with
    | some v =>
      cases hfin
      simp [Outcome.returned]
    | none =>
      cases hfin
      rcases hf with hf | ⟨-, s, rfl | rfl, hf⟩ <;> simp [hf, hs, Frame.signal, Frame.isEvaluating]
  | valueReturned =>
    rw [hs] at hfin
    cases hfin
    exact ⟨fun _ => rfl, fun _ => h.2 hs⟩
  | _ =>
    rw [hs] at hfin
    cases hfin
    simp

theorem orderly_hand (o : Outcome) : Moves (Orderly V) o.hand := by
  intro r
  rcases hand_cases o with ⟨v, -, h⟩ | ⟨-, h⟩ | ⟨hs, h⟩ <;> rw [h]
  · exact orderly_of id
  · exact orderly_of fun hp => hp.signal (by simp)
  · exact orderly_of fun hp => hp.signal hs

variable {w : World}

theorem orderly_call (hg : w.registry.Bodies (Tree.Breaks V)) {room : Nat}
    (hbody : ∀ k, room = k + 1 → ∀ s : Shape, s.Complete → Moves (Orderly V) (w.run k s)) (c : Callee)
    (xs : List Variable) : Moves (Orderly V) (w.call (w.below room) c xs) := by
  intro r
  cases call_ends w room c xs r with
  | missing h =>
    rw [h]
    exact Moves.fault (paced_orderly w.limits V).toClosed rfl r
  | refused _ h =>
    rw [h]
    exact orderly_of fun hp => hp.signal (by simp)
  | wild _ hb hs hf h =>
    have hbreaks := (hg _ _ hb).resolve_left hs
    rw [h]
    exact ⟨fun _ hv => Option.some.inj hv ▸ hbreaks.locals _ _ hf, by simp⟩
  | @broken k body shape locals s v after hroom hb hs _ hrun h =>
    have hran := hbody k hroom shape (Tree.complete_body (hg _ _ hb) hs) (r.callee c xs locals s)
    rw [hrun] at hran
    rw [h]
    exact ⟨hran.breach, by simp⟩
  | @back k body shape locals s y ended after o _ hb hs _ _ _ h =>
    -- the caller goes on in the frame that it had
    obtain ⟨hbreach, hpaired⟩ : Orderly V (after.back r) _ _ := orderly_hand o (after.back r)
    rw [h]
    exact ⟨hbreach, hpaired⟩

theorem orderly_run (hg : w.registry.Bodies (Tree.Breaks V)) (room : Nat) {s : Shape} (hs : s.Complete) :
    Moves (Orderly V) (w.run room s) := by
  induction room generalizing s with
  | zero =>
    rw [World.run_eq]
    refine Moves.eval (paced_orderly _ V) (orderly_call hg ?_) (.inl hs)
    intro k hk
    cases hk
  | succ k ih =>
    rw [World.run_eq]
    refine Moves.eval (paced_orderly _ V) (orderly_call hg ?_) (.inl hs)
    rintro _ ⟨⟩ s hs
    exact ih hs

end Exec

/-- An evaluation ends with an outcome or a broken promise of those that its trees break. -/
theorem Tree.Breaks.evaluate {V : Violation → Prop} {w : World} {t : Tree} (ht : t.Breaks V)
    (hg : w.registry.Bodies (Tree.Breaks V)) (xs : List Variable) (s : Store) :
    (∃ v, (t.evaluate w xs s).1 = .error v ∧ V v) ∨
      ∃ o, (t.evaluate w xs s).1 = .ok o ∧ o.status ≠ .evaluating ∧
        (o.value.isSome = true ↔ o.status = .valueReturned) := by
  cases t.evaluate_ends w xs s with
  | rootless hs _ =>
    obtain ⟨shape, hshape, -⟩ := ht.complete
    rw [hs] at hshape
    cases hshape
  | @wild v hf h =>
    rw [h]
    exact .inl ⟨v, rfl, ht.locals _ _ hf⟩
  | @broken shape locals s' v _ hs _ hrun h =>
    have hran := Exec.orderly_run hg w.limits.maxDepth (Tree.complete_body (.inr ht) hs) (.start (.start xs locals) s')
    rw [hrun] at hran
    rw [h]
    exact .inl ⟨v, rfl, hran.breach v rfl⟩
  | @ended shape locals s' y last after o hs _ hrun hfin h =>
    have hran := Exec.orderly_run hg w.limits.maxDepth (Tree.complete_body (.inr ht) hs) (.start (.start xs locals) s')
    rw [hrun] at hran
    have hpaired : last.frame.Paired := hran.paired rfl (.start xs locals)
    rw [h]
    exact .inr ⟨o, rfl, (Exec.finish_ok hfin).1, Exec.finish_paired hpaired hfin⟩

/-- A tree that can be evaluated ends with an outcome, never still evaluating and with a value just when it returned
one, whatever its arguments are and whichever bodies the names that it calls have. -/
theorem evaluate_outcome {w : World} {t : Tree} (ht : t.Evaluable) (hg : w.registry.Bodies Tree.Evaluable)
    (xs : List Variable) (s : Store) :
    ∃ o, (t.evaluate w xs s).1 = .ok o ∧ o.status ≠ .evaluating ∧
      (o.value.isSome = true ↔ o.status = .valueReturned) := by
  rcases ht.breaks.evaluate (hg.imp Tree.Evaluable.breaks) xs s with ⟨v, -, hv⟩ | ho
  · exact hv.elim
  · exact ho

theorem Tree.evaluable_planted {sig : Signature} (e : Term) (hl : ∀ ty ∈ sig.locals, ty.base ≠ .any) :
    (planted sig e).Evaluable := by
  obtain ⟨s, hs, he⟩ := denotes_planted sig e
  exact ⟨⟨s, hs, he.complete⟩, hl⟩

namespace Astray

/-- Takes no argument, as its caller has it. -/
def stale : Callee := ⟨"Stale", .int, []⟩

def registry : Registry :=
  ⟨[("Stale", ⟨stale, some (.planted ⟨some "Stale", .int, [.int], []⟩ (.node (.argument .int 0) Fin.elim0))⟩),
    ("Bare", ⟨⟨"Bare", .int, []⟩, some (.new ⟨some "Bare", .int, [], []⟩)⟩)]⟩

def world : World := ⟨⟨100, 10⟩, registry⟩

def caller : Tree := .planted ⟨none, .int, [], []⟩ (.node (.call stale) Fin.elim0)

theorem evaluable_caller : caller.Evaluable := Tree.evaluable_planted _ (by decide)

theorem evaluable_registry : registry.Bodies Tree.Evaluable := by
  intro name body h
  by_cases hs : name = "Stale"
  · subst hs
    obtain rfl := Option.some.inj h
    exact .inr (Tree.evaluable_planted _ (by decide))
  by_cases hb : name = "Bare"
  · subst hb
    obtain rfl := Option.some.inj h
    exact .inl rfl
  · simp [registry, Registry.body?, Registry.entry?, List.lookup_cons, beq_false_of_ne hs, beq_false_of_ne hb] at h

end Astray

/-- The body of `Stale` reads an argument that its caller does not give it; the caller ends without a valid value. -/
theorem evaluate_outcome_stale :
    Astray.caller.Evaluable ∧ Astray.world.registry.Bodies Tree.Evaluable ∧
      (Astray.caller.evaluate Astray.world [] .empty).1.toOption = some ⟨.invalidValue, none⟩ ∧
      ∃ o, (Astray.caller.evaluate Astray.world [] .empty).1 = .ok o ∧ o.status ≠ .evaluating ∧
        (o.value.isSome = true ↔ o.status = .valueReturned) :=
  ⟨Astray.evaluable_caller, Astray.evaluable_registry, by decide +kernel,
    evaluate_outcome Astray.evaluable_caller Astray.evaluable_registry [] .empty⟩

example : Arithmetic.div.onInts Int32.minValue (-1) = some Int32.minValue := by decide

end Grove
