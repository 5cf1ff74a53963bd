import Grove.Proofs.Footprint
import Grove.Proofs.Planting

/-! Calls are isolated. An argument is passed as the caller's own variable or as a copy on a new cell, or it is
refused and there is no call. Once all are passed, the call changes none of the cells that are there but those
of the variables passed. Passing itself changes a cell in one way only: an empty cell behind a handle that is
given for a plain slot gets its default by being read. -/

namespace Grove

/-- The state in which a node that was let in begins. -/
def Run.entered (r : Run) (id : NodeId) : Run := { r with steps := r.steps + 1, journal := .entered id :: r.journal }

def Run.faulted (r : Run) (s : Status) : Run := { r with frame := { r.frame with status := s } }

/-- The plain value of a yield, and the store after it was read. -/
inductive Yield.Reads (y : Yield) (s : Store) (v : Value) : Store → Prop
  | plain (hy : y = .value v) : Reads y s v s
  | held {x : Variable} (hy : y.handle? = some (.bound x)) (hv : x.content s = some v) : Reads y s v s
  | first {x : Variable} (hy : y.handle? = some (.bound x)) (hv : x.content s = none)
      (hi : v = .initial x.base x.concrete) : Reads y s v (s.write x.cell v)

theorem Yield.Reads.size {y : Yield} {s s' : Store} {v : Value} (h : y.Reads s v s') :
    s'.cells.size = s.cells.size := by
  cases h with
  | first => exact Store.size_write _ _ _
  | _ => rfl

namespace Exec

/-- How an argument is passed that a child yielded: the variable that the callee gets, and the state after. -/
inductive Passes (slot : Ty) (y : Yield) (r : Run) : Variable → Run → Prop
  /-- The caller's own. -/
  | shared {x : Variable} (hq : slot.isQualified = true) (hy : y.handle? = some (.bound x)) : Passes slot y r x r
  /-- A copy on a new cell. -/
  | copied {x : Variable} {v : Value} {s : Store} (hq : slot.isQualified = false) (hy : y.Reads r.store v s)
      (hb : x.base = v.base) (hc : x.cell = r.store.cells.size) :
      Passes slot y r x { r with store := (s.alloc (some v)).2 }

/-- How an argument is refused that a child yielded, and the state after. -/
inductive Refuses (slot : Ty) (y : Yield) (r : Run) : Run → Prop
  /-- There is no location behind the handle. -/
  | unbound {b : Base} (hq : slot.isQualified = true) (hy : y.handle? = some (.unbound b)) :
      Refuses slot y r (r.faulted .invalidValue)
  | handleless (hq : slot.isQualified = true) (hy : y.handle? = none) :
      Refuses slot y r ({ r with journal := .mismatched :: r.journal }.faulted .invalidValue)
  | void (hq : slot.isQualified = false) (hy : y = .void) :
      Refuses slot y r ({ r with journal := .mismatched :: r.journal }.faulted .invalidValue)
  | leftHand {b : Base} (hq : slot.isQualified = false) (hy : y = .leftHand (.unbound b)) :
      Refuses slot y r (r.faulted .invalidLeftHandValue)
  | reference {b : Base} (hq : slot.isQualified = false) (hy : y = .reference (.unbound b)) :
      Refuses slot y r (r.faulted .invalidReference)

/-- How an argument comes to nothing: its child breaks off or ends the frame, or what it yields is refused. -/
inductive Halts (slot : Ty) (child : Exec Yield) (r : Run) : Halt → Run → Prop
  | broken {e : Halt} {r' : Run} (h : child.runFrom r = (.error e, r')) : Halts slot child r e r'
  | ended {y : Yield} {r' : Run} (h : child.runFrom r = (.ok y, r')) (he : r'.frame.isEvaluating = false) :
      Halts slot child r .stopped r'
  | refused {y : Yield} {r₁ r' : Run} (h : child.runFrom r = (.ok y, r₁)) (he : r₁.frame.isEvaluating = true)
      (hy : Refuses slot y r₁ r') : Halts slot child r .stopped r'

/-- Arguments that are passed, one after the other. -/
inductive Passed {ι : Type} (slot : ι → Ty) (child : ι → Exec Yield) : List ι → Run → List Variable → Run → Prop
  | nil (r : Run) : Passed slot child [] r [] r
  | cons {i : ι} {l : List ι} {r r₁ r₂ r₃ : Run} {y : Yield} {x : Variable} {xs : List Variable}
      (h : (child i).runFrom r = (.ok y, r₁)) (he : r₁.frame.isEvaluating = true) (hy : Passes (slot i) y r₁ x r₂)
      (hl : Passed slot child l r₂ xs r₃) : Passed slot child (i :: l) r (x :: xs) r₃

theorem signal_evaluating {r : Run} (he : r.frame.isEvaluating = true) (s : Status) :
    ({ r with frame := r.frame.signal s } : Run) = r.faulted s := by
  rw [Frame.signal, if_pos he, Run.faulted]

theorem faulted_ended (r : Run) {s : Status} (hs : s ≠ .evaluating) : (r.faulted s).frame.isEvaluating = false :=
  decide_eq_false hs

theorem Refuses.ended {slot : Ty} {y : Yield} {r r' : Run} (h : Refuses slot y r r') :
    r'.frame.isEvaluating = false := by
  cases h <;> exact faulted_ended _ nofun

theorem reads_bound {y : Yield} {x : Variable} (hy : y.handle? = some (.bound x)) (s : Store) :
    y.Reads s (x.get s).1 (x.get s).2 := by
  unfold Variable.get
  cases hv : x.content s with
  | none => exact .first hy hv rfl
  | some v => exact .held hy hv

theorem runFrom_readOr_bound (other : Exec Value) {y : Yield} {x : Variable} (hy : y.handle? = some (.bound x))
    (r : Run) :
    (readOr other y).runFrom r = (.ok (x.get r.store).1, { r with store := (x.get r.store).2 }) := by
  cases y <;> cases hy <;> rfl

/-- A yield is read, or it is refused in any plain slot. -/
theorem readOr_invalid_cases (y : Yield) {r : Run} (he : r.frame.isEvaluating = true) :
    (∃ v s, y.Reads r.store v s ∧ (readOr invalid y).runFrom r = (.ok v, { r with store := s })) ∨
      ∃ r', (∀ slot : Ty, slot.isQualified = false → Refuses slot y r r') ∧
        (readOr invalid y).runFrom r = (.error .stopped, r') := by
  -- the second signal finds the frame ended
  have twice : ∀ s : Status, s ≠ .evaluating →
      ({ r with frame := (r.frame.signal s).signal .invalidValue } : Run) = r.faulted s := fun s hs => by
    have := signal_evaluating he s
    have hend := faulted_ended r hs
    rw [← this] at hend ⊢
    rw [Frame.signal_of_not hend]
  cases y with
  | void =>
    refine .inr ⟨_, fun slot hq => .void hq rfl, ?_⟩
    rw [← signal_evaluating (r := { r with journal := .mismatched :: r.journal }) he]
    rfl
  | value v => exact .inl ⟨v, r.store, .plain rfl, rfl⟩
  | leftHand h =>
    cases h with
    | unbound b =>
      refine .inr ⟨_, fun slot hq => .leftHand hq rfl, ?_⟩
      rw [← twice .invalidLeftHandValue nofun]
      rfl
    | bound x => exact .inl ⟨_, _, reads_bound rfl _, runFrom_readOr_bound _ rfl r⟩
  | reference h =>
    cases h with
    | unbound b =>
      refine .inr ⟨_, fun slot hq => .reference hq rfl, ?_⟩
      rw [← twice .invalidReference nofun]
      rfl
    | bound x => exact .inl ⟨_, _, reads_bound rfl _, runFrom_readOr_bound _ rfl r⟩

theorem bindArgument_cases (slot : Ty) (child : Exec Yield) (r : Run) :
    (∃ y r₁ x r₂, child.runFrom r = (.ok y, r₁) ∧ r₁.frame.isEvaluating = true ∧ Passes slot y r₁ x r₂ ∧
      (bindArgument slot child).runFrom r = (.ok x, r₂)) ∨
      ∃ e r', Halts slot child r e r' ∧ (bindArgument slot child).runFrom r = (.error e, r') := by
  have hop := runFrom_operand child r
  rcases hc : child.runFrom r with ⟨e | y, r₁⟩ <;> rw [hc] at hop
  · exact .inr ⟨e, r₁, .broken hc, runFrom_bind_error hop⟩
  dsimp only at hop
  cases he : r₁.frame.isEvaluating with
  | false =>
    rw [he] at hop
    exact .inr ⟨_, r₁, .ended hc he, runFrom_bind_error hop⟩
  | true =>
    rw [he] at hop
    replace hop : (operand child).runFrom r = (.ok y, r₁) := hop
    cases hq : slot.isQualified with
    | false =>
      rw [bindArgument_plain hq, runFrom_bind_ok hop]
      rcases readOr_invalid_cases y he with ⟨v, s, hv, hrun⟩ | ⟨r', hr, hrun⟩
      · exact .inl ⟨y, r₁, _, _, rfl, he, .copied hq hv rfl hv.size, runFrom_bind_ok hrun⟩
      · exact .inr ⟨_, r', .refused hc he (hr slot hq), runFrom_bind_error hrun⟩
    | true =>
      unfold bindArgument
      rw [runFrom_bind_ok hop, hq]
      cases hy : y.handle? with
      | none =>
        refine .inr ⟨_, _, .refused hc he (.handleless hq hy), ?_⟩
        rw [← signal_evaluating (r := { r₁ with journal := .mismatched :: r₁.journal }) he]
        rfl
      | some l =>
        cases l with
        | unbound b =>
          refine .inr ⟨_, _, .refused hc he (.unbound hq hy), ?_⟩
          rw [← signal_evaluating he]
          rfl
        | bound x => exact .inl ⟨y, r₁, x, r₁, rfl, he, .shared hq hy, rfl⟩

theorem bindArguments_cases {ι : Type} (slot : ι → Ty) (child : ι → Exec Yield) (l : List ι) (r : Run) :
    (∃ xs r', Passed slot child l r xs r' ∧
      (l.mapM fun i => bindArgument (slot i) (child i)).runFrom r = (.ok xs, r')) ∨
      ∃ front i rest xs r₁ e r', l = front ++ i :: rest ∧ Passed slot child front r xs r₁ ∧
        Halts (slot i) (child i) r₁ e r' ∧
        (l.mapM fun i => bindArgument (slot i) (child i)).runFrom r = (.error e, r') := by
  induction l generalizing r with
  | nil => exact .inl ⟨[], r, .nil r, by rw [List.mapM_nil]; rfl⟩
  | cons i l ih =>
    rw [List.mapM_cons]
    rcases bindArgument_cases (slot i) (child i) r with ⟨y, r₁, x, r₂, hc, he, hp, hrun⟩ | ⟨e, r', hh, hrun⟩
    · rcases ih r₂ with ⟨xs, r', hps, hrest⟩ | ⟨front, j, rest, xs, r₃, e, r', rfl, hps, hh, hrest⟩
      · exact .inl ⟨x :: xs, r', .cons hc he hp hps, by rw [runFrom_bind_ok hrun, runFrom_bind_ok hrest]; rfl⟩
      · exact .inr ⟨i :: front, j, rest, x :: xs, r₃, e, r', rfl, .cons hc he hp hps, hh, by
          rw [runFrom_bind_ok hrun, runFrom_bind_error hrest]⟩
    · exact .inr ⟨[], i, l, [], r, e, r', rfl, .nil r, hh, runFrom_bind_error hrun⟩

theorem Passed.evaluating {ι : Type} {slot : ι → Ty} {child : ι → Exec Yield} {l : List ι} {r r' : Run}
    {xs : List Variable} (h : Passed slot child l r xs r') (hr : r.frame.isEvaluating = true) :
    r'.frame.isEvaluating = true := by
  induction h with
  | nil => exact hr
  | cons _ he hp _ ih => exact ih (by cases hp <;> exact he)

theorem conclude_store (n : Node) (x : Exec Yield) (r : Run) :
    ((conclude n x).runFrom r).2.store = (x.runFrom r).2.store := by
  rw [conclude, runFrom_bind, ← orElse_state x (.ofType n.returns) r]
  rcases (orElse x (.ofType n.returns)).runFrom r with ⟨e | y, r'⟩
  · rfl
  · dsimp only
    have hb : isEvaluating.runFrom r' = (.ok r'.frame.isEvaluating, r') := rfl
    rw [runFrom_bind_ok hb]
    cases r'.frame.isEvaluating <;> rfl

/-- The state in which a call node is left whose argument comes to nothing. -/
theorem conclude_halted {n : Node} {x : Exec Yield} {r r' : Run} {e : Halt} (h : x.runFrom r = (.error e, r'))
    (he : e = .stopped → r'.frame.isEvaluating = false) : ((conclude n x).runFrom r).2 = r' := by
  cases e with
  | stopped => rw [conclude_stopped h (he rfl)]
  | violated v =>
    have ho : (orElse x (.ofType n.returns)).runFrom r = (.error (.violated v), r') := by rw [runFrom_orElse, h]
    rw [conclude, runFrom_bind_error ho]

/-- A call changes only cells of the variables passed, and cells that it makes. -/
theorem call_unchanged (w : World) (room : Nat) (c : Callee) (xs : List Variable) (r : Run) {cell : Nat}
    (hc : cell < r.store.cells.size) (hx : ∀ x ∈ xs, x.cell ≠ cell) :
    ((w.call (w.below room) c xs).runFrom r).2.store.content cell = r.store.content cell := by
  have hcall := call_sameOutside (P := fun cell => r.store.cells.size ≤ cell ∨ ∃ x ∈ xs, x.cell = cell)
    (fun x hx => .inr ⟨x, hx, rfl⟩) (fun _ hc => .inl hc) (call_ends w room c xs r)
  refine hcall.content cell ?_
  rintro (hle | ⟨x, hm, he⟩)
  · exact Nat.not_le_of_lt hc hle
  · exact hx x hm he

end Exec

open Exec

/-- Of every call node that is let in, either an argument comes to nothing, after those before it were passed, or
all are passed. Then the call changes no cell that is there but those of the variables passed; without a body
that has a root it only ends the frame with an invalid value; and a body starts with new empty cells for its
local variables. -/
theorem call_isolated (w : World) (room : Nat) (id : NodeId) (c : Callee) (kids : Fin c.arguments.length → Shape)
    (r : Run) (he : r.frame.isEvaluating = true) (hs : r.steps < w.limits.maxSteps) :
    let slot := fun i : Fin c.arguments.length => c.arguments[i]
    let child := fun i => w.run room (kids i)
    let after := ((w.run room (.node id (.call c) kids)).runFrom r).2
    (∃ front i rest xs r' e, List.finRange c.arguments.length = front ++ i :: rest ∧
      Passed slot child front (r.entered id) xs r' ∧ Halts (slot i) (child i) r' e after) ∨
    ∃ xs bound, Passed slot child (List.finRange c.arguments.length) (r.entered id) xs bound ∧
      (∀ cell < bound.store.cells.size, (∀ x ∈ xs, x.cell ≠ cell) →
        after.store.content cell = bound.store.content cell) ∧
      ((∀ body, w.registry.body? c.name = some body → body.root = none) → after = bound.faulted .invalidValue) ∧
      ∀ k body shape locals s, room = k + 1 → w.registry.body? c.name = some body → body.shape? = some shape →
        freshCells body.signature.locals bound.store = .ok (locals, s) →
        locals.map (·.base) = body.signature.locals.map (·.base) ∧
        locals.map (·.cell) = List.range' bound.store.cells.size body.signature.locals.length ∧
        s.cells = bound.store.cells ++ Array.replicate body.signature.locals.length none ∧
        after.store = ((w.run k shape >>= finish).runFrom (bound.callee c xs locals s)).2.store := by
  intro slot child after
  have heval : w.run room (.node id (.call c) kids) = entering w.limits id c.returns
      (conclude (.call c) ((List.finRange c.arguments.length).mapM (fun i => bindArgument (slot i) (child i)) >>=
        w.call (w.below room) c)) := by
    simp only [child, World.run_eq]
    exact eval_node w _ id (.call c) kids
  have hafter : after = ((conclude (.call c) ((List.finRange c.arguments.length).mapM
      (fun i => bindArgument (slot i) (child i)) >>= w.call (w.below room) c)).runFrom (r.entered id)).2 := by
    change ((w.run room _).runFrom r).2 = _
    rw [heval, runFrom_entering, if_neg (by simp [he]), if_neg (Nat.not_le_of_lt hs)]
    rfl
  rcases bindArguments_cases slot child (List.finRange c.arguments.length) (r.entered id) with
    ⟨xs, bound, hpassed, hrun⟩ | ⟨front, i, rest, xs, r', e, r'', hl, hpassed, hhalts, hrun⟩
  · have hstore : after.store = ((w.call (w.below room) c xs).runFrom bound).2.store := by
      rw [hafter, conclude_store, runFrom_bind_ok hrun]
    refine .inr ⟨xs, bound, hpassed, fun cell hc hx => ?_, fun hb => ?_,
      fun k body shape locals s hroom hb hsh hf => ?_⟩
    · rw [hstore]
      exact call_unchanged w room c xs bound hc hx
    · have hcall : w.call (w.below room) c xs = invalid := by
        unfold World.call
        cases hbody : w.registry.body? c.name with
        | none => rfl
        | some body => simp only [Tree.shape?, hb body hbody, Option.map_none]
      have hstop : (w.call (w.below room) c xs).runFrom bound = (.error .stopped, bound.faulted .invalidValue) := by
        rw [hcall, ← signal_evaluating (hpassed.evaluating he)]
        rfl
      rw [hafter]
      exact conclude_halted ((runFrom_bind_ok hrun).trans hstop) fun _ => faulted_ended _ (by decide)
    · obtain ⟨hbase, hcell, hcells⟩ := freshCells_ok hf
      refine ⟨hbase, hcell, hcells, ?_⟩
      subst hroom
      have hcall := @runFrom_call w c xs body shape (w.run k) hb hsh bound
      rw [hf] at hcall
      rw [hstore, World.below, hcall]
      dsimp only
      rcases (w.run k shape >>= finish).runFrom (bound.callee c xs locals s) with ⟨e | o, ended⟩
      · rfl
      · exact hand_store o _
  · refine .inl ⟨front, i, rest, xs, r', e, hl, hpassed, ?_⟩
    have hend : after = r'' := by
      rw [hafter]
      refine conclude_halted (runFrom_bind_error hrun) fun hstop => ?_
      cases hhalts with
      | broken h => exact absurd (hstop ▸ congrArg Prod.fst h) (settles_run w room (kids i) r')
      | ended _ he => exact he
      | refused _ _ hy => exact hy.ended
    rw [hend]
    exact hhalts

def echoCallee : Callee := ⟨"echo", .int, [.int]⟩

def echoWorld : World where
  limits := ⟨100, 10⟩
  registry := ⟨[("echo", ⟨echoCallee,
    some (.planted ⟨some "echo", .int, [.int], []⟩ (.node (.argument .int 0) Fin.elim0))⟩)]⟩

def echoArgument : Fin 1 → Shape := fun _ => .node 1 (.argument Ty.int.reference 0) Fin.elim0

/-- A frame with one argument, whose cell is empty. -/
def echoStart : Run := .start (.start [⟨.int, 0, nofun⟩] []) ⟨#[none]⟩

theorem call_isolated_echo : echoStart.frame.isEvaluating = true ∧ echoStart.steps < echoWorld.limits.maxSteps ∧
    ∃ xs bound, Passed (fun i : Fin 1 => echoCallee.arguments[i]) (fun i => echoWorld.run 1 (echoArgument i))
      (List.finRange 1) (echoStart.entered 0) xs bound ∧
      ∀ cell < bound.store.cells.size, (∀ x ∈ xs, x.cell ≠ cell) →
        ((echoWorld.run 1 (.node 0 (.call echoCallee) echoArgument)).runFrom echoStart).2.store.content cell =
          bound.store.content cell := by
  refine ⟨by decide, by decide, ?_⟩
  rcases call_isolated echoWorld 1 0 echoCallee echoArgument echoStart (by decide) (by decide) with
    ⟨front, i, rest, xs, r', e, hl, hpassed, hhalts⟩ | ⟨xs, bound, hpassed, hkept, -⟩
  · -- the frame goes on after the call, and so the argument was passed
    have hon : ((echoWorld.run 1 (.node 0 (.call echoCallee) echoArgument)).runFrom echoStart).2.frame.isEvaluating =
        true := by decide +kernel
    have hlen : echoCallee.arguments.length = front.length + (rest.length + 1) := by simpa using congrArg List.length hl
    have hone : echoCallee.arguments.length = 1 := rfl
    obtain rfl : front = [] := List.length_eq_zero_iff.1 (by omega)
    cases hpassed
    cases hhalts with
    | broken h =>
      have hok : ((echoWorld.run 1 (echoArgument 0)).runFrom (echoStart.entered 0)).1.toOption.isSome = true := by
        decide +kernel
      cases (congrArg (fun p => p.1.toOption.isSome) h).symm.trans hok
    | ended _ he => exact absurd hon (by simp [he])
    | refused _ _ hy => exact absurd hon (by simp [hy.ended])
  · exact ⟨xs, bound, hpassed, hkept⟩

/-- No slot is qualified and the argument leaves the caller's cell empty, and yet the cell is filled by the call. -/
theorem call_fills_cell : (∀ slot ∈ echoCallee.arguments, slot.isQualified = false) ∧
    ((echoWorld.run 1 (echoArgument 0)).runFrom (echoStart.entered 0)).2.store.content 0 = none ∧
    ((echoWorld.run 1 (.node 0 (.call echoCallee) echoArgument)).runFrom echoStart).2.store.content 0 =
      some (.int 0) := by
  decide +kernel

end Grove
