import Grove.Proofs.Leaps
import Grove.Proofs.RoundTrip

/-! What a loop yields. It keeps what the body yielded in the last round that was complete, whatever rounds were broken
off or continued since, and the default of its type if no round was complete. Where that is a handle it is read only
after the loop, and so the value is that of the last complete round unless a later round has written to the variable. -/

namespace Grove

/-- What a plain slot reads. -/
def Yield.valueIn (s : Store) : Yield → Option Value
  | void => none
  | value v => some v
  | leftHand h => (h.get s).1
  | reference h => (h.get s).1

namespace Exec

/-- A consumer of a plain value gets `v`. -/
def Obtains (child : Exec Yield) (r : Run) (v : Value) : Prop := ((value child).runFrom r).1 = .ok v

/-- How many rounds are to be made: what the count says, and none if it comes to nothing while the frame evaluates. -/
inductive Counts (count : Exec Yield) (r : Run) : Nat → Run → Prop
  | number {n : Int32} {r' : Run} (h : (value count).runFrom r = (.ok (.int n), r')) (hn : 0 ≤ n) :
      Counts count r n.toInt.toNat r'
  | nothing {r' : Run} (h : (value count).runFrom r = (.error .stopped, r')) : Counts count r 0 r'

/-- From the state `r`, where `seen` was yielded in the last complete round and the state after it, at most so many
rounds lead to `r'` and `seen'`. -/
inductive Rounds (body : Exec Yield) : Nat → Run → Option (Yield × Run) → Run → Option (Yield × Run) → Prop
  | spent (r : Run) (seen : Option (Yield × Run)) : Rounds body 0 r seen r seen
  | complete {n : Nat} {y : Yield} {r r₁ r' : Run} {seen seen' : Option (Yield × Run)}
      (h : body.runFrom r = (.ok y, r₁)) (hs : r₁.frame.status = .evaluating)
      (hrest : Rounds body n r₁ (some (y, r₁)) r' seen') : Rounds body (n + 1) r seen r' seen'
  | continued {n : Nat} {y : Yield} {r r₁ r' : Run} {seen seen' : Option (Yield × Run)}
      (h : body.runFrom r = (.ok y, r₁)) (hs : r₁.frame.status = .continueCalled)
      (hrest : Rounds body n { r₁ with frame := r₁.frame.resume } seen r' seen') : Rounds body (n + 1) r seen r' seen'
  | broken {n : Nat} {y : Yield} {r r₁ : Run} {seen : Option (Yield × Run)} (h : body.runFrom r = (.ok y, r₁))
      (hs : r₁.frame.status = .breakCalled) : Rounds body (n + 1) r seen { r₁ with frame := r₁.frame.resume } seen

end Exec

/-- The yield of the last complete round, or the default. -/
def lastYield (ty : Ty) (seen : Option (Yield × Run)) : Yield := seen.elim (.ofType ty) Prod.fst

/-- The value that the body had when the last complete round ended, or the default. -/
def lastValue (ty : Ty) (seen : Option (Yield × Run)) : Option Value :=
  seen.elim (Value.default? ty.base) fun (y, r) => y.valueIn r.store

/-- In the last complete round the body handed out a variable that reads otherwise now. -/
def Overwritten (seen : Option (Yield × Run)) (s : Store) : Prop :=
  ∃ y r x, seen = some (y, r) ∧ y.handle? = some (.bound x) ∧ (x.get s).1 ≠ (x.get r.store).1

theorem Yield.valueIn_eq_iff {y : Yield} {s s' : Store} :
    y.valueIn s = y.valueIn s' ↔ ∀ x, y.handle? = some (.bound x) → (x.get s).1 = (x.get s').1 := by
  have handle : ∀ h : Handle, (h.get s).1 = (h.get s').1 ↔ ∀ x, h = .bound x → (x.get s).1 = (x.get s').1 := by
    rintro (b | x)
    · exact ⟨fun _ _ => nofun, fun _ => rfl⟩
    · exact ⟨fun h y hy => by cases hy; exact Option.some.inj h, fun h => congrArg some (h x rfl)⟩
  cases y with
  | void => simp [Yield.valueIn, Yield.handle?]
  | value v => simp [Yield.valueIn, Yield.handle?]
  | leftHand h => simpa [Yield.valueIn, Yield.handle?] using handle h
  | reference h => simpa [Yield.valueIn, Yield.handle?] using handle h

/-- The value is that of the last complete round unless it was overwritten. -/
theorem valueIn_lastYield_iff {ty : Ty} (hty : ty.qualifier = .plain) {seen : Option (Yield × Run)} {s : Store} :
    (lastYield ty seen).valueIn s = lastValue ty seen ↔ ¬ Overwritten seen s := by
  cases seen with
  | none =>
    have hdefault : (Yield.ofType ty).valueIn s = Value.default? ty.base := by
      unfold Yield.ofType
      rw [hty]
      cases Value.default? ty.base <;> rfl
    simpa [lastYield, lastValue, Overwritten] using hdefault
  | some last =>
    obtain ⟨y, r⟩ := last
    simp only [lastYield, lastValue, Option.elim_some, Yield.valueIn_eq_iff]
    constructor
    · rintro h ⟨_, _, x, hseen, hx, hne⟩
      cases hseen
      exact hne (h x hx)
    · intro h x hx
      exact Classical.not_not.1 fun hne => h ⟨y, r, x, rfl, hx, hne⟩

namespace Exec

variable {body : Exec Yield} {n : Nat} {r r' : Run} {seen seen' : Option (Yield × Run)}

theorem Rounds.unique {r'' : Run} {seen'' : Option (Yield × Run)} (h : Rounds body n r seen r' seen')
    (h' : Rounds body n r seen r'' seen'') : r'' = r' ∧ seen'' = seen' := by
  induction h generalizing r'' seen'' with
  | spent =>
    cases h'
    exact ⟨rfl, rfl⟩
  | complete h hs _ ih =>
    cases h' with
    | complete h' hs' hrest => cases h.symm.trans h'; exact ih hrest
    | continued h' hs' | broken h' hs' => cases h.symm.trans h'; cases hs.symm.trans hs'
  | continued h hs _ ih =>
    cases h' with
    | continued h' hs' hrest => cases h.symm.trans h'; exact ih hrest
    | complete h' hs' | broken h' hs' => cases h.symm.trans h'; cases hs.symm.trans hs'
  | broken h hs =>
    cases h' with
    | broken h' hs' => cases h.symm.trans h'; exact ⟨rfl, rfl⟩
    | complete h' hs' | continued h' hs' => cases h.symm.trans h'; cases hs.symm.trans hs'

/-- A loop that is not left yields what its last complete round did. -/
theorem rounds_ok {ty : Ty} {y : Yield} (h : (rounds body n (lastYield ty seen)).runFrom r = (.ok y, r')) :
    ∃ seen', Rounds body n r seen r' seen' ∧ y = lastYield ty seen' := by
  induction n generalizing r seen with
  | zero =>
    cases h
    exact ⟨seen, .spent _ seen, rfl⟩
  | succ n ih =>
    rw [runFrom_rounds] at h
    rcases hb : body.runFrom r with ⟨e | y₁, r₁⟩
    · rw [hb] at h
      cases h
    · simp only [hb] at h
      cases hs : r₁.frame.status with
      | evaluating =>
        simp only [hs] at h
        have hagain : (rounds body n (lastYield ty (some (y₁, r₁)))).runFrom r₁ = (.ok y, r') := h
        obtain ⟨seen', hrest, hy⟩ := ih hagain
        exact ⟨seen', .complete hb hs hrest, hy⟩
      | continueCalled =>
        simp only [hs] at h
        obtain ⟨seen', hrest, hy⟩ := ih h
        exact ⟨seen', .continued hb hs hrest, hy⟩
      | breakCalled =>
        simp only [hs] at h
        cases h
        exact ⟨seen, .broken hb hs, rfl⟩
      | _ =>
        simp only [hs] at h
        cases h

/-- A loop stops only where its body has left the frame for good. -/
theorem rounds_left (hb : Settles body) {last : Yield}
    (h : (rounds body n last).runFrom r = (.error .stopped, r')) : r'.frame.isEvaluating = false := by
  induction n generalizing r last with
  | zero => cases h
  | succ n ih =>
    rw [runFrom_rounds] at h
    rcases hrun : body.runFrom r with ⟨e | y₁, r₁⟩
    · rw [hrun] at h
      cases h
      exact absurd (congrArg Prod.fst hrun) (hb r)
    · simp only [hrun] at h
      cases hs : r₁.frame.status with
      | evaluating | continueCalled =>
        simp only [hs] at h
        exact ih h
      | breakCalled =>
        simp only [hs] at h
        cases h
      | _ =>
        simp only [hs] at h
        cases h
        simp [Frame.isEvaluating, hs]

theorem Rounds.last_round (h : Rounds body n r seen r' seen')
    (hbody : ∀ r y r₁, body.runFrom r = (.ok y, r₁) → r.frame.status = .evaluating →
      r₁.frame.status ≠ .breakCalled ∧ r₁.frame.status ≠ .continueCalled) (hr : r.frame.status = .evaluating) :
    r' = r ∧ seen' = seen ∨ ∃ y, seen' = some (y, r') := by
  induction h with
  | spent => exact .inl ⟨rfl, rfl⟩
  | complete h hs _ ih =>
    rcases ih hs with ⟨rfl, rfl⟩ | hlast
    · exact .inr ⟨_, rfl⟩
    · exact .inr hlast
  | continued h hs => exact absurd hs (hbody _ _ _ h hr).2
  | broken h hs => exact absurd hs (hbody _ _ _ h hr).1

theorem read?_valueIn (y : Yield) (r : Run) : ((read? y).runFrom r).1 = .ok (y.valueIn r.store) := by
  have handle : ∀ (h : Handle) (s : Status), ((do
      let v ← onStore h.get
      if v.isNone then signal s
      return v : Exec (Option Value)).runFrom r).1 = .ok (h.get r.store).1 := by
    intro h s
    rw [runFrom_bind_ok (runFrom_onStore _ r)]
    cases (h.get r.store).1 <;> rfl
  cases y with
  | void | value v => rfl
  | leftHand h => exact handle h .invalidLeftHandValue
  | reference h => exact handle h .invalidReference

theorem value_evaluating {child : Exec Yield} {v : Value} (h : (value child).runFrom r = (.ok v, r')) :
    r'.frame.status = .evaluating := by
  have hop := runFrom_operand child r
  rcases hc : child.runFrom r with ⟨e | y, r₁⟩ <;> rw [hc] at hop
  · rw [value, runFrom_bind_error hop] at h
    cases h
  · cases he : r₁.frame.isEvaluating <;> simp only [he] at hop
    · rw [value, runFrom_bind_error hop] at h
      cases h
    · obtain ⟨o, r₂, hread, hframe⟩ := runFrom_read? y r₁
      rw [value, runFrom_bind_ok hop, runFrom_bind_ok hread] at h
      cases o with
      | none => cases h
      | some w =>
        cases h
        rw [hframe.resolve_right nofun]
        exact of_decide_eq_true he

/-- A plain slot reads what its child yields, while the frame evaluates. -/
theorem obtains_iff {child : Exec Yield} {y : Yield} {v : Value} (h : child.runFrom r = (.ok y, r'))
    (he : r'.frame.isEvaluating = true) : Obtains child r v ↔ y.valueIn r'.store = some v := by
  have hoperand : (operand child).runFrom r = (.ok y, r') := by rw [runFrom_operand, h]; simp only [he, if_true]
  have hread := read?_valueIn y r'
  rw [Obtains, value, runFrom_bind_ok hoperand]
  rcases hrun : (read? y).runFrom r' with ⟨e | o, r''⟩
  · rw [hrun] at hread
    cases hread
  · rw [hrun] at hread
    rw [runFrom_bind_ok hrun, ← Except.ok.inj hread]
    cases o with
    | none => exact ⟨nofun, nofun⟩
    | some w => exact ⟨fun h => congrArg some (Except.ok.inj h), fun h => congrArg Except.ok (Option.some.inj h)⟩

theorem entering_ok {l : Limits} {i : NodeId} {ty : Ty} {x : Exec Yield} {y : Yield}
    (h : (entering l i ty x).runFrom r = (.ok y, r')) (he : r'.frame.isEvaluating = true) :
    x.runFrom { r with steps := r.steps + 1, journal := .entered i :: r.journal } = (.ok y, r') := by
  rw [runFrom_entering] at h
  by_cases hr : r.frame.isEvaluating = false
  · rw [if_pos hr] at h
    cases h
    rw [hr] at he
    cases he
  · rw [if_neg hr] at h
    by_cases hs : l.maxSteps ≤ r.steps
    · rw [if_pos hs] at h
      cases h
      have hleft := r.frame.isEvaluating_signal (s := .stepsExceeded) nofun
      exact absurd (hleft.symm.trans he) nofun
    · rwa [if_neg hs] at h

theorem conclude_ok {m : Node} {x : Exec Yield} {y : Yield} (h : (conclude m x).runFrom r = (.ok y, r')) :
    ∃ r₁, r₁.frame = r'.frame ∧ r₁.store = r'.store ∧
      (x.runFrom r = (.ok y, r₁) ∨ x.runFrom r = (.error .stopped, r₁) ∧ y = .ofType m.returns) := by
  have noted : ∀ (z : Yield) (r₁ : Run), (do
      if ← isEvaluating then note (.yielded m z)
      return z : Exec Yield).runFrom r₁ = (.ok y, r') → z = y ∧ r₁.frame = r'.frame ∧ r₁.store = r'.store := by
    intro z r₁ h
    have hb : isEvaluating.runFrom r₁ = (.ok r₁.frame.isEvaluating, r₁) := rfl
    rw [runFrom_bind_ok hb] at h
    cases he : r₁.frame.isEvaluating <;> rw [he] at h <;> cases h <;> exact ⟨rfl, rfl, rfl⟩
  rw [conclude, runFrom_bind, runFrom_orElse] at h
  rcases hx : x.runFrom r with ⟨(_ | v) | z, r₁⟩ <;> rw [hx] at h
  · obtain ⟨hy, hframe, hstore⟩ := noted _ _ h
    exact ⟨r₁, hframe, hstore, .inr ⟨rfl, hy.symm⟩⟩
  · cases h
  · obtain ⟨rfl, hframe, hstore⟩ := noted _ _ h
    exact ⟨r₁, hframe, hstore, .inl rfl⟩

section Repeating

variable {call : Callee → List Variable → Exec Yield} {ty : Ty} {kid : Fin 2 → Exec Yield}

/-- A count that is no number from zero on ends the frame. -/
theorem runFrom_repeat (call : Callee → List Variable → Exec Yield) (ty : Ty) {v : Value} {r₁ : Run}
    (h : (value (kid 0)).runFrom r = (.ok v, r₁)) :
    (∃ n, v = .int n ∧ 0 ≤ n ∧ (produce call (.repeatTimes ty) kid).runFrom r =
      (rounds (kid 1) n.toInt.toNat (.ofType ty)).runFrom r₁) ∨
    ∃ r', (produce call (.repeatTimes ty) kid).runFrom r = (.error .stopped, r') ∧ r'.frame.isEvaluating = false := by
  have hcounted : (produce call (.repeatTimes ty) kid).runFrom r = (do
      let n ← expectInt v
      if n < 0 then invalid
      rounds (kid 1) n.toInt.toNat (.ofType ty) : Exec Yield).runFrom r₁ := runFrom_bind_ok h
  rw [hcounted]
  cases v with
  | int n =>
    by_cases hn : n < 0
    · refine .inr ⟨{ r₁ with frame := r₁.frame.signal .invalidValue }, ?_, r₁.frame.isEvaluating_signal nofun⟩
      simp [expectInt, hn, invalid_bind]
      rfl
    · refine .inl ⟨n, rfl, Int32.not_lt.1 hn, ?_⟩
      simp [expectInt, hn]
  | _ => exact .inr ⟨_, rfl, r₁.frame.isEvaluating_signal nofun⟩

theorem repeat_ok {y : Yield} (h : (produce call (.repeatTimes ty) kid).runFrom r = (.ok y, r')) :
    ∃ n start seen, Counts (kid 0) r n start ∧ Rounds (kid 1) n start none r' seen ∧ y = lastYield ty seen := by
  rcases hcount : (value (kid 0)).runFrom r with ⟨e | v, r₁⟩
  · have hstopped : (produce call (.repeatTimes ty) kid).runFrom r = (.error e, r₁) := runFrom_bind_error hcount
    rw [hstopped] at h
    cases h
  · obtain ⟨n, rfl, hn, hrounds⟩ | ⟨_, hstopped, -⟩ := runFrom_repeat call ty hcount
    · have hlast : (rounds (kid 1) n.toInt.toNat (lastYield ty none)).runFrom r₁ = (.ok y, r') := hrounds.symm.trans h
      obtain ⟨seen, hseen, hy⟩ := rounds_ok hlast
      exact ⟨_, r₁, seen, .number hcount hn, hseen, hy⟩
    · rw [hstopped] at h
      cases h

theorem repeat_stopped (hb : Settles (kid 1))
    (h : (produce call (.repeatTimes ty) kid).runFrom r = (.error .stopped, r'))
    (he : r'.frame.isEvaluating = true) : Counts (kid 0) r 0 r' := by
  rcases hcount : (value (kid 0)).runFrom r with ⟨e | v, r₁⟩
  · have hstopped : (produce call (.repeatTimes ty) kid).runFrom r = (.error e, r₁) := runFrom_bind_error hcount
    rw [hstopped] at h
    cases h
    exact .nothing hcount
  · obtain ⟨n, rfl, -, hrounds⟩ | ⟨_, hstopped, hleft⟩ := runFrom_repeat call ty hcount
    · exact absurd ((rounds_left hb (hrounds.symm.trans h)).symm.trans he) nofun
    · cases hstopped.symm.trans h
      exact absurd (hleft.symm.trans he) nofun

end Repeating

variable {w : World} {room : Nat}

/-- A loop that ends with its frame evaluating has gone through its rounds and yields what the last complete one did. -/
theorem loop_rounds {i : NodeId} {ty : Ty} {kids : Fin 2 → Shape} {y : Yield}
    (h : (w.run room (.node i (.repeatTimes ty) kids)).runFrom r = (.ok y, r')) (he : r'.frame.isEvaluating = true) :
    ∃ n start last seen,
      Counts (w.run room (kids 0)) { r with steps := r.steps + 1, journal := .entered i :: r.journal } n start ∧
      Rounds (w.run room (kids 1)) n start none last seen ∧ last.store = r'.store ∧ y = lastYield ty seen := by
  have hnode := eval_node w (w.call (w.below room)) i (.repeatTimes ty) kids
  rw [← World.run_eq] at hnode
  obtain ⟨last, hframe, hstore, hproduced⟩ := conclude_ok (entering_ok (hnode ▸ h) he)
  rcases hproduced with hok | ⟨hstopped, rfl⟩
  · obtain ⟨n, start, seen, hcount, hrounds, rfl⟩ := repeat_ok hok
    exact ⟨n, start, last, seen, hcount, hrounds, hstore, rfl⟩
  · have hcount := repeat_stopped (settles_run w room (kids 1)) hstopped (hframe ▸ he)
    exact ⟨0, last, last, none, hcount, .spent last none, hstore, rfl⟩

/-- Nothing is written after the last complete round if the body leaks neither a break nor a continue. -/
theorem not_overwritten {count : Exec Yield} {body : Shape} {start last : Run}
    (hbreak : ¬ w.registry.Leaks .breakCalled body) (hcontinue : ¬ w.registry.Leaks .continueCalled body)
    (hcount : Counts count r n start) (h : Rounds (w.run room body) n start none last seen) :
    ¬ Overwritten seen last.store := by
  have avoids : ∀ s, s.isLeap = true → ¬ w.registry.Leaks s body → ∀ r y r₁,
      (w.run room body).runFrom r = (.ok y, r₁) → r.frame.status = .evaluating → r₁.frame.status ≠ s := by
    intro s hs hl r y r₁ hrun hr
    have hran := avoids_run w hs room body hl r
    rw [hrun] at hran
    exact hran rfl (hr ▸ Status.ne_of_isLeap hs rfl)
  have stays := fun r y r₁ hrun hr =>
    And.intro (avoids _ rfl hbreak r y r₁ hrun hr) (avoids _ rfl hcontinue r y r₁ hrun hr)
  rintro ⟨y, r₁, x, hlast, -, hne⟩
  cases hcount with
  | nothing =>
    cases h
    cases hlast
  | number hn =>
    rcases h.last_round stays (value_evaluating hn) with ⟨-, rfl⟩ | ⟨z, rfl⟩
    · cases hlast
    · cases hlast
      exact hne rfl

end Exec

/-- The value of a loop. A loop that ends with its frame evaluating has gone through its rounds in the one way there is,
and yields what the last complete one did, or the default. A consumer of a plain value reads that afterwards. It gets
the value that the body had at the end of that round if and only if the body did not yield a variable that a later round
has written to. That holds wherever the body leaks neither a break nor a continue, as no round is later then. -/
theorem repeat_value {w : World} {room : Nat} {i : NodeId} {ty : Ty} {kids : Fin 2 → Shape} {r r' : Run} {y : Yield}
    (hty : ty.qualifier = .plain) (h : (w.run room (.node i (.repeatTimes ty) kids)).runFrom r = (.ok y, r'))
    (he : r'.frame.isEvaluating = true) :
    ∃ n start last seen,
      Exec.Counts (w.run room (kids 0)) { r with steps := r.steps + 1, journal := .entered i :: r.journal } n start ∧
      Exec.Rounds (w.run room (kids 1)) n start none last seen ∧
      (∀ last' seen', Exec.Rounds (w.run room (kids 1)) n start none last' seen' → last' = last ∧ seen' = seen) ∧
      last.store = r'.store ∧ y = lastYield ty seen ∧
      (∀ v, Exec.Obtains (w.run room (.node i (.repeatTimes ty) kids)) r v ↔ y.valueIn r'.store = some v) ∧
      ((∀ v, Exec.Obtains (w.run room (.node i (.repeatTimes ty) kids)) r v ↔ lastValue ty seen = some v) ↔
        ¬ Overwritten seen r'.store) ∧
      (¬ w.registry.Leaks .breakCalled (kids 1) → ¬ w.registry.Leaks .continueCalled (kids 1) →
        ¬ Overwritten seen r'.store) := by
  obtain ⟨n, start, last, seen, hcount, hseen, hstore, rfl⟩ := Exec.loop_rounds h he
  have hobtains := fun v => Exec.obtains_iff (v := v) h he
  have hkept : (∀ v, Exec.Obtains (w.run room (.node i (.repeatTimes ty) kids)) r v ↔ lastValue ty seen = some v) ↔
      ¬ Overwritten seen r'.store := by
    rw [← valueIn_lastYield_iff hty, Option.ext_iff]
    simp only [hobtains]
  refine ⟨n, start, last, seen, hcount, hseen, fun _ _ => hseen.unique, hstore, rfl, hobtains, hkept,
    fun hbreak hcontinue => ?_⟩
  rw [← hstore]
  exact Exec.not_overwritten hbreak hcontinue hcount hseen

namespace Breaking

/-- Counts up, and breaks off beyond one; otherwise it yields the variable in one of its forms. -/
def body (ty : Ty) : Term :=
  .node (.ifElse .int) fun
    | ⟨0, _⟩ => .node (.comparison .greater .int) fun
      | ⟨0, _⟩ => .node (.increment .int) fun _ => .node (.localVariable Ty.int.leftHand 0) nofun
      | _ => .node (.const (.int 1)) nofun
    | ⟨1, _⟩ => .node (.breakLoop .int) nofun
    | _ => .node (.localVariable ty 0) nofun

def number : Term := .node (.const (.int 2)) nofun

def term (ty : Ty) : Term := .node (.repeatTimes .int) fun
  | ⟨0, _⟩ => number
  | _ => body ty

def signature : Signature := ⟨none, .int, [], [.int]⟩

def tree (ty : Ty) : Tree := .planted signature (term ty)

def world : World := ⟨⟨100, 0⟩, .empty⟩

theorem tree_read : ∃ c text, NodeCatalog.standard .standard [] [] = .ok c ∧
    Vocabulary.readTree ⟨c, .empty⟩ text signature = .ok (tree Ty.int.reference) := by
  have hsome : (NodeCatalog.standard .standard [] []).toOption.isSome = true := by decide +kernel
  obtain ⟨c, hc⟩ := Option.isSome_iff_exists.1 hsome
  replace hc := Result.toOption_some.1 hc
  obtain ⟨htypes, -, hnodes⟩ := NodeCatalog.standard_ok hc
  have member : ∀ {n : Node}, n.Familial → (TypeCatalog.standard.name n.returns).toOption.isSome = true →
      Vocabulary.Knows ⟨c, .empty⟩ n := by
    intro n hf ht
    obtain ⟨tyName, ht⟩ := Option.isSome_iff_exists.1 ht
    exact .member hf (htypes ▸ Result.toOption_some.1 ht)
  have prototype : ∀ {n : Node}, n ∈ NodeCatalog.standardNodes [] [] → n.kind ≠ .subroutine →
      Vocabulary.Knows ⟨c, .empty⟩ n := fun hn hk => .prototype (hnodes ▸ hn) hk
  have hk : ∀ n ∈ (term Ty.int.reference).nodes, Vocabulary.Knows ⟨c, .empty⟩ n ∧ n.Legible := by
    have hns : (term Ty.int.reference).nodes = [.repeatTimes .int, .const (.int 2), .ifElse .int,
        .comparison .greater .int, .increment .int, .localVariable Ty.int.leftHand 0, .const (.int 1),
        .breakLoop .int, .localVariable Ty.int.reference 0] := by decide +kernel
    rw [hns]
    simp only [List.forall_mem_cons]
    refine ⟨⟨prototype ?_ nofun, trivial⟩, ⟨member trivial ?_, nofun⟩, ⟨prototype ?_ nofun, trivial⟩,
      ⟨prototype ?_ nofun, trivial⟩, ⟨prototype ?_ nofun, trivial⟩, ⟨member trivial ?_, (by decide : 0 < words64)⟩,
      ⟨member trivial ?_, nofun⟩, ⟨prototype ?_ nofun, trivial⟩, ⟨member trivial ?_, (by decide : 0 < words64)⟩,
      by simp⟩
    all_goals decide +kernel
  have ha : signature.Admits (term Ty.int.reference) := ⟨by decide +kernel, by decide +kernel, by decide +kernel⟩
  obtain ⟨text, -, hread⟩ :=
    Vocabulary.readTree_planted (NodeCatalog.Stocked.standard hc).spelled hk (Tree.denotes_planted signature _) ha
  exact ⟨c, text, hc, hread⟩

def start : Run := .start (.start [] [⟨.int, 0, Base.int_ne_any⟩]) ⟨#[none]⟩

def entered : Run := { start with steps := start.steps + 1, journal := .entered 0 :: start.journal }

def loop (ty : Ty) : Exec Yield := world.run 0 ((term ty).numbered 0)

def count : Exec Yield := world.run 0 (number.numbered 1)

def round (ty : Ty) : Exec Yield := world.run 0 ((body ty).numbered 2)

def counted : Run := ((Exec.value count).runFrom entered).2

def once (ty : Ty) : Run := ((round ty).runFrom counted).2

end Breaking

theorem Exec.runFrom_eq {α : Type} {x : Exec α} {r : Run} {a : α} (h : (x.runFrom r).1.toOption = some a) :
    x.runFrom r = (.ok a, (x.runFrom r).2) :=
  Prod.ext (Result.toOption_some.1 h) rfl

/-- The second round counts on and breaks off, and the loop yields the value of the first. -/
theorem repeat_value_kept : Ty.int.qualifier = .plain ∧ ∃ r',
    (Breaking.loop .int).runFrom Breaking.start = (.ok (.value (.int 1)), r') ∧ r'.frame.isEvaluating = true ∧
    ∃ n start last seen, Exec.Rounds (Breaking.round .int) n start none last seen ∧
      lastValue .int seen = some (.int 1) ∧ ∀ v, Exec.Obtains (Breaking.loop .int) Breaking.start v ↔ v = .int 1 := by
  have hrun := Exec.runFrom_eq (x := Breaking.loop .int) (r := Breaking.start) (a := .value (.int 1))
    (by decide +kernel)
  have he : ((Breaking.loop .int).runFrom Breaking.start).2.frame.isEvaluating = true := by decide +kernel
  obtain ⟨n, start, last, seen, -, hrounds, -, -, hy, hobtains, -⟩ := repeat_value rfl hrun he
  refine ⟨rfl, _, hrun, he, n, start, last, seen, hrounds, ?_, fun v => (hobtains v).trans ?_⟩
  · match seen with
    | none => exact absurd hy (by decide)
    | some (y, r) =>
      obtain rfl : .value (.int 1) = y := hy
      rfl
  · exact ⟨fun h => (Option.some.inj h).symm, fun h => h ▸ rfl⟩

/-- Where the first round yields a reference instead, a consumer gets what the second round wrote. -/
theorem repeat_value_late : (∃ c text, NodeCatalog.standard .standard [] [] = .ok c ∧
      Vocabulary.readTree ⟨c, .empty⟩ text Breaking.signature = .ok (Breaking.tree Ty.int.reference)) ∧
    ((Breaking.tree Ty.int.reference).evaluate Breaking.world [] .empty).1.toOption = some (.returned (.int 2)) ∧
    ((Breaking.loop Ty.int.reference).runFrom Breaking.start).2.frame.isEvaluating = true ∧
    ∃ last seen, Exec.Counts Breaking.count Breaking.entered 2 Breaking.counted ∧
      Exec.Rounds (Breaking.round Ty.int.reference) 2 Breaking.counted none last seen ∧
      lastValue .int seen = some (.int 1) ∧
      Exec.Obtains (Breaking.loop Ty.int.reference) Breaking.start (.int 2) := by
  let handle : Yield := .reference (.bound ⟨.int, 0, Base.int_ne_any⟩)
  have hcount := Exec.runFrom_eq (x := Exec.value Breaking.count) (r := Breaking.entered)
    (a := .int 2) (by decide +kernel)
  have hcounts := Exec.Counts.number hcount (by decide)
  rw [(by decide : (2 : Int32).toInt.toNat = 2)] at hcounts
  have hfirst := Exec.runFrom_eq (x := Breaking.round Ty.int.reference) (r := Breaking.counted)
    (a := handle) (by decide +kernel)
  have hsecond := Exec.runFrom_eq (x := Breaking.round Ty.int.reference) (r := Breaking.once Ty.int.reference)
    (a := .value (.int 0)) (by decide +kernel)
  have hread : handle.valueIn (Breaking.once Ty.int.reference).store = some (.int 1) := by decide +kernel
  exact ⟨Breaking.tree_read, by decide +kernel, by decide +kernel, _, some (handle, _), hcounts,
    .complete hfirst (by decide +kernel) (.broken hsecond (by decide +kernel)), hread,
    Result.toOption_some.1 (by decide +kernel)⟩

end Grove
