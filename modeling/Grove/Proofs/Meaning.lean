import Grove.Proofs.Defaults
import Grove.Proofs.Footprint
import Grove.Proofs.Outcomes
import Grove.Proofs.Visiting

/-! The meaning of pure trees. Where nothing is written, left or called, the value of a node is a function of the
values of its children, of the arguments and of the defaults of the local variables, and it is undefined just where
one of those that it needs is. An evaluation with steps enough for every node comes to that value. -/

namespace Grove

/-- On whole numbers, not yet in the range of 32 bits; quotients are cut off toward zero. -/
def Arithmetic.onIntegers : Arithmetic → Int → Int → Option Int
  | add, a, b => some (a + b)
  | sub, a, b => some (a - b)
  | mult, a, b => some (a * b)
  | div, a, b => if b = 0 then none else some (a.tdiv b)

def Comparison.onIntegers : Comparison → Int → Int → Bool
  | greater, a, b => b < a
  | greaterEq, a, b => b ≤ a
  | less, a, b => a < b
  | lessEq, a, b => a ≤ b
  | equal, a, b => a = b
  | notEqual, a, b => a ≠ b

def Value.bool? : Value → Option Bool
  | bool b => some b
  | _ => none

def Value.int? : Value → Option Int32
  | int i => some i
  | _ => none

/-- The integer that a number comes to modulo `2 ^ 32`. -/
def Value.wrap (i : Int) : Value := int (Int32.ofInt i)

/-- The value of a node, from the values of the variables and those of its children in order. A branch that is not taken
may be undefined, and nothing else may. -/
def Node.meaning (arguments locals : List Value) (n : Node) (kids : List (Option Value)) : Option Value :=
  match n, kids with
  | .const v, _ => some v
  | .argument ty i, _ => arguments[i]?.filter (·.base = ty.base)
  | .localVariable ty i, _ => locals[i]?.filter (·.base = ty.base)
  | .progn .., kids => (kids.mapM id).bind List.getLast?
  | .arithmetic op .int, [x, y] => do
    let x ← x
    let y ← y
    return .wrap (← op.onIntegers (← x.int?).toInt (← y.int?).toInt)
  | .comparison op .int, [x, y] => do
    let x ← x
    let y ← y
    return .bool (op.onIntegers (← x.int?).toInt (← y.int?).toInt)
  | .logic .not, [x] => return .bool !(← (← x).bool?)
  | .logic .and, [x, y] => do
    let a ← (← x).bool?
    let b ← (← y).bool?
    return .bool (a && b)
  | .logic .or, [x, y] => do
    let a ← (← x).bool?
    let b ← (← y).bool?
    return .bool (a || b)
  | .ifElse _, [x, y, z] => do if ← (← x).bool? then y else z
  | _, _ => none

def Term.meaning (arguments locals : List Value) : Term → Option Value
  | .node n kids => n.meaning arguments locals (List.ofFn fun i => (kids i).meaning arguments locals)

/-- The values of the children, where there are any, are of the bases that their slots take. -/
def Node.Suits (n : Node) (kid : Fin n.arity → Option Value) : Prop :=
  ∀ i v, kid i = some v → (n.slotType i).base ≠ .any → v.base = (n.slotType i).base

def Ty.isSimple (ty : Ty) : Bool := ty = .int || ty = .bool

/-- The nodes that have such a meaning. -/
def Node.isPure : Node → Bool
  | const v => (Ty.plain v.base).isSimple
  | argument ty _ | localVariable ty _ | ifElse ty => ty.isSimple
  | progn ty n => ty.isSimple && decide (0 < n)
  | arithmetic _ b | comparison _ b => b = .int
  | logic _ => true
  | _ => false

/-- The values of new variables of the given types. -/
def Ty.defaults (types : List Ty) : List Value := types.filterMap fun ty => Value.default? ty.base

/-- How an evaluation ends that comes to a value, or to none. -/
def Outcome.ofMeaning : Option Value → Outcome
  | some v => .returned v
  | none => ⟨.invalidValue, none⟩

/-- The frame evaluates, and its variables hold these values, or are still empty in place of a default. -/
structure Run.Reads (arguments locals : List Value) (r : Run) : Prop where
  evaluating : r.frame.isEvaluating = true
  supports : r.store.Supports (r.frame.arguments ++ r.frame.locals)
  arguments : r.frame.arguments.map (fun x => (x.get r.store).1) = arguments
  locals : r.frame.locals.map (fun x => (x.get r.store).1) = locals

theorem Node.isStraight_of_isPure {n : Node} (h : n.isPure = true) : n.isStraight = true := by
  cases n with
  | const _ | argument _ _ | localVariable _ _ | progn _ _ | arithmetic _ _ | comparison _ _ | logic _ | ifElse _ => rfl
  | _ => cases h

theorem Ty.qualifier_of_isSimple {ty : Ty} (h : ty.isSimple = true) : ty.qualifier = .plain ∧ ty.base ≠ .any := by
  obtain rfl | rfl : ty = .int ∨ ty = .bool := by simpa [Ty.isSimple] using h
  · exact ⟨rfl, nofun⟩
  · exact ⟨rfl, nofun⟩

section Children

variable {α : Type}

theorem ofFn_one (f : Fin 1 → α) : List.ofFn f = [f 0] := rfl

theorem ofFn_two (f : Fin 2 → α) : List.ofFn f = [f 0, f 1] := rfl

theorem ofFn_three (f : Fin 3 → α) : List.ofFn f = [f 0, f 1, f 2] := rfl

theorem mapM_ofFn {n : Nat} (f : Fin n → Option α) : (List.ofFn f).mapM id = (List.finRange n).mapM f := by
  rw [List.ofFn_eq_map, List.mapM_map]
  rfl

theorem getLast_of_mapM {n : Nat} {f : Fin (n + 1) → Option α} {as : List α} (h : (List.ofFn f).mapM id = some as) :
    ∃ a, f (Fin.last n) = some a ∧ as.getLast? = some a := by
  simp only [mapM_ofFn, List.finRange_succ_last, List.mapM_append, List.mapM_cons, List.mapM_nil,
    Option.bind_eq_bind, Option.bind_eq_some_iff, Option.pure_def, Option.some.injEq] at h
  obtain ⟨before, -, _, ⟨a, ha, _, rfl, rfl⟩, rfl⟩ := h
  exact ⟨a, ha, List.getLast?_concat⟩

end Children

section Integers

theorem Arithmetic.onInts_eq (op : Arithmetic) (a b : Int32) :
    op.onInts a b = (op.onIntegers a.toInt b.toInt).map Int32.ofInt := by
  cases op with
  | div =>
    have hzero : b.toInt = 0 ↔ b = 0 := by rw [← Int32.toInt_zero, Int32.toInt_inj]
    by_cases hb : b = 0
    · simp [onInts, onIntegers, hb]
    · have hdiv : Int32.ofInt (a.toInt.tdiv b.toInt) = a / b := by
        rw [Int32.ofInt_eq_iff_bmod_eq_toInt, Int32.toInt_div]
      simp [onInts, onIntegers, hb, hzero, hdiv]
  | _ => simp [onInts, onIntegers, Int32.ofInt_add, Int32.ofInt_sub, Int32.ofInt_mul]

theorem Comparison.holds_ints (op : Comparison) (a b : Int32) :
    op.holds ((Value.int a).compare? (.int b)) = op.onIntegers a.toInt b.toInt := by
  have hlt : a < b ↔ a.toInt < b.toInt := Int32.lt_iff_toInt_lt
  have heq : a = b ↔ a.toInt = b.toInt := Int32.toInt_inj.symm
  simp only [Value.compare?, compareInts, hlt, heq]
  rcases lt_trichotomy a.toInt b.toInt with h | h | h
  · cases op <;> simp [holds, onIntegers, h] <;> omega
  · cases op <;> simp [holds, onIntegers, h]
  · cases op <;> simp [holds, onIntegers, not_lt_of_gt h, ne_of_gt h, h]
    omega

end Integers

section Reading

variable {arguments locals : List Value} {r : Run} {x y : Variable}

theorem Store.Supports.base_get {s : Store} {xs : List Variable} (h : s.Supports xs) (hx : x ∈ xs) :
    (x.get s).1.base = x.base := by
  obtain ⟨cs, hs, hxs⟩ := h
  exact ((hxs x hx).get hs).1

theorem Store.Supports.get {s : Store} {xs : List Variable} (h : s.Supports xs) (hx : x ∈ xs) :
    (x.get s).2.Supports xs := by
  obtain ⟨cs, hs, hxs⟩ := h
  exact ⟨cs, ((hxs x hx).get hs).2, hxs⟩

/-- Reading a variable changes what is read from none. -/
theorem Store.Supports.get_get {s : Store} {xs : List Variable} (h : s.Supports xs) (hx : x ∈ xs) (hy : y ∈ xs) :
    (y.get (x.get s).2).1 = (y.get s).1 := by
  rw [x.get_snd]
  by_cases hc : x.cell = y.cell
  · have hself : x.content s = y.content s := by rw [Variable.content, Variable.content, hc]
    have hsame : (y.get s).1 = (x.get s).1 := by
      rw [← Option.some_inj, Variable.some_get, Variable.some_get, hself, h.base_eq hx hy hc]
    have hwritten : y.content (s.write x.cell (x.get s).1) = some (x.get s).1 := by
      rw [Variable.content, ← hc]
      exact Store.content_write_self (h.cell_lt hx)
    rw [← Option.some_inj, Variable.some_get, hwritten, hsame]
    rfl
  · have hwritten : y.content (s.write x.cell (x.get s).1) = y.content s := Store.content_write_of_ne hc
    rw [← Option.some_inj, Variable.some_get, Variable.some_get, hwritten]

theorem Run.Reads.get (h : r.Reads arguments locals) (hx : x ∈ r.frame.arguments ++ r.frame.locals) :
    Run.Reads arguments locals { r with store := (x.get r.store).2 } where
  evaluating := h.evaluating
  supports := h.supports.get hx
  arguments := by
    rw [← h.arguments]
    exact List.map_congr_left fun y hy => h.supports.get_get hx (List.mem_append_left _ hy)
  locals := by
    rw [← h.locals]
    exact List.map_congr_left fun y hy => h.supports.get_get hx (List.mem_append_right _ hy)

theorem Run.Reads.of_eq {r' : Run} (h : r.Reads arguments locals) (hf : r'.frame = r.frame) (hs : r'.store = r.store) :
    r'.Reads arguments locals := by
  obtain ⟨he, hsupports, ha, hl⟩ := h
  rw [← hf, ← hs] at *
  exact ⟨he, hsupports, ha, hl⟩

end Reading

namespace Exec

theorem conclude_yielded {n : Node} {x : Exec Yield} {r r' : Run} {y : Yield} (h : x.runFrom r = (.ok y, r'))
    (he : r'.frame.isEvaluating = true) :
    (conclude n x).runFrom r = (.ok y, { r' with journal := .yielded n y :: r'.journal }) := by
  have ho : (orElse x (.ofType n.returns)).runFrom r = (.ok y, r') := by rw [runFrom_orElse, h]
  have hb : isEvaluating.runFrom r' = (.ok true, r') := by rw [← he]; rfl
  rw [conclude, runFrom_bind_ok ho, runFrom_bind_ok hb]
  rfl

variable {α β : Type} {arguments locals : List Value}

/-- How a computation ends: with its value, and the variables as they were; as it must where it has none; or because
there are no steps left. -/
inductive Comes (arguments locals : List Value) (o : Option α) : Except Halt α × Run → Prop
  | done {a : α} {r : Run} (ho : o = some a) (h : r.Reads arguments locals) : Comes arguments locals o (.ok a, r)
  | undefined {r : Run} (ho : o = none) (h : r.frame.status = .invalidValue) :
      Comes arguments locals o (.error .stopped, r)
  | exhausted {r : Run} (h : r.frame.status = .stepsExceeded) : Comes arguments locals o (.error .stopped, r)

theorem Comes.left {o : Option α} {e : Halt} {r : Run} (h : Comes arguments locals o (.error e, r)) :
    e = .stopped ∧ r.frame.isEvaluating = false := by
  cases h with
  | undefined _ h | exhausted h => exact ⟨rfl, by simp [Frame.isEvaluating, h]⟩

theorem Comes.error {o : Option α} {o' : Option β} {e : Halt} {r : Run} (h : Comes arguments locals o (.error e, r))
    (ho : o = none → o' = none) : Comes arguments locals o' (.error e, r) := by
  cases h with
  | undefined hnone h => exact .undefined (ho hnone) h
  | exhausted h => exact .exhausted h

/-- From every state with these values the computation comes to the value `o`, or is undefined if there is none. -/
def Computes (arguments locals : List Value) (x : Exec α) (o : Option α) : Prop :=
  ∀ r, r.Reads arguments locals → Comes arguments locals o (x.runFrom r)

theorem Computes.pure (a : α) : Computes arguments locals (pure a) (some a) := fun _ h => .done rfl h

theorem Computes.of_eq {x : Exec α} {o o' : Option α} (h : Computes arguments locals x o) (ho : o = o') :
    Computes arguments locals x o' :=
  ho ▸ h

theorem Computes.bind {x : Exec α} {f : α → Exec β} {o : Option α} {g : α → Option β}
    (hx : Computes arguments locals x o)
    (hf : ∀ a, o = some a → Computes arguments locals (f a) (g a)) :
    Computes arguments locals (x >>= f) (o.bind g) := by
  intro r hr
  have h := hx r hr
  rcases hrun : x.runFrom r with ⟨e | a, r'⟩ <;> rw [hrun] at h
  · rw [runFrom_bind_error hrun]
    exact h.error fun ho => by rw [ho, Option.bind_none]
  · rw [runFrom_bind_ok hrun]
    cases h with
    | done ho h =>
      rw [ho, Option.bind_some]
      exact hf a ho r' h

theorem Computes.invalid : Computes arguments locals (invalid : Exec α) none := by
  intro r hr
  refine .undefined rfl ?_
  have he := hr.evaluating
  simp only [Frame.signal, he, if_true]

theorem Computes.note (e : Event) : Computes arguments locals (note e) (some ⟨⟩) := fun _ h =>
  .done rfl (h.of_eq rfl rfl)

theorem Computes.mismatch : Computes arguments locals (mismatch : Exec α) none :=
  (Computes.note .mismatched).bind fun _ _ => Computes.invalid

def Evaluates (arguments locals : List Value) (x : Exec Yield) (o : Option Value) : Prop :=
  Computes arguments locals (operand x) (o.map Yield.value)

theorem Evaluates.value {x : Exec Yield} {o : Option Value} (h : Evaluates arguments locals x o) :
    Computes arguments locals (value x) o := by
  have hread : Computes arguments locals (Exec.value x) ((o.map Yield.value).bind Yield.value?) :=
    Computes.bind h fun y hy => by
      obtain ⟨v, -, rfl⟩ := Option.map_eq_some_iff.1 hy
      exact Computes.pure v
  cases o <;> exact hread

theorem Computes.yield {x : Exec Value} {o : Option Value} (h : Computes arguments locals x o) :
    Computes arguments locals (do return Yield.value (← x)) (o.map Yield.value) := by
  have := h.bind (g := fun v => some (Yield.value v)) fun v _ => Computes.pure (Yield.value v)
  rwa [Option.map_eq_bind]

theorem comes_access {ty : Ty} (hty : ty.qualifier = .plain) {r : Run} (h : r.Reads arguments locals)
    (x? : Option Variable) (hx : ∀ x ∈ x?, x ∈ r.frame.arguments ++ r.frame.locals) :
    Comes arguments locals (((x?.map fun x => (x.get r.store).1).filter (·.base = ty.base)).map Yield.value)
      ((access ty x?).runFrom r) := by
  unfold access
  rw [hty]
  cases x? with
  | none => exact Computes.invalid r h
  | some x =>
    have hmem := hx x rfl
    have hbase := h.supports.base_get hmem
    by_cases hb : x.base = ty.base
    · have hread : (access ty (some x)).runFrom r =
          (.ok (.value (x.get r.store).1), { r with store := (x.get r.store).2 }) := by
        simp only [access, hty, Option.filter_some, hb, decide_true, if_true]
        rfl
      simp only [access, hty] at hread
      rw [hread]
      exact .done (by simp [hbase, hb]) (h.get hmem)
    · simp only [Option.filter_some, hb, decide_false]
      have hnone : (Option.some (x.get r.store).1).filter (·.base = ty.base) = none := by simp [hbase, hb]
      rw [Option.map_some, hnone]
      exact Computes.invalid r h

section Kinds

variable {call : Callee → List Variable → Exec Yield}

theorem computes_argument (call : Callee → List Variable → Exec Yield) {ty : Ty} (hty : ty.qualifier = .plain)
    (i : Nat) : Computes arguments locals (produce call (.argument ty i) nofun)
      ((arguments[i]?.filter (·.base = ty.base)).map Yield.value) := by
  intro r h
  have := comes_access hty h r.frame.arguments[i]? fun x hx => List.mem_append_left _ (List.mem_of_getElem? hx)
  rwa [← List.getElem?_map, h.arguments] at this

theorem computes_local (call : Callee → List Variable → Exec Yield) {ty : Ty} (hty : ty.qualifier = .plain)
    (i : Nat) : Computes arguments locals (produce call (.localVariable ty i) nofun)
      ((locals[i]?.filter (·.base = ty.base)).map Yield.value) := by
  intro r h
  have := comes_access hty h r.frame.locals[i]? fun x hx => List.mem_append_right _ (List.mem_of_getElem? hx)
  rwa [← List.getElem?_map, h.locals] at this

theorem computes_operands {ι : Type} {kid : ι → Exec Yield} {meaning : ι → Option Value}
    (h : ∀ i, Evaluates arguments locals (kid i) (meaning i)) (is : List ι) (y : Yield) :
    Computes arguments locals (is.foldlM (fun _ i => operand (kid i)) y)
      ((is.mapM meaning).map fun vs => (vs.getLast?.map Yield.value).getD y) := by
  induction is generalizing y with
  | nil => exact Computes.pure y
  | cons i is ih =>
    have hboth := Computes.bind (h i) fun y _ => ih y
    rw [List.foldlM_cons]
    convert hboth using 1
    cases hi : meaning i with
    | none => simp [List.mapM_cons, hi]
    | some v => cases hs : is.mapM meaning <;> simp [List.mapM_cons, hi, hs, List.getLast?_cons]

theorem computes_progn {ty : Ty} {n : Nat} (hn : 0 < n) {kid : Fin n → Exec Yield} {meaning : Fin n → Option Value}
    (h : ∀ i, Evaluates arguments locals (kid i) (meaning i)) :
    Computes arguments locals (produce call (.progn ty n) kid)
      (((Node.progn ty n).meaning arguments locals (List.ofFn meaning)).map Yield.value) := by
  obtain ⟨n, rfl⟩ := Nat.exists_eq_add_one.2 hn
  refine (computes_operands h (List.finRange (n + 1)) .void).of_eq ?_
  rw [← mapM_ofFn, Node.meaning]
  cases hs : (List.ofFn meaning).mapM id with
  | none => rfl
  | some vs =>
    obtain ⟨v, -, hlast⟩ := getLast_of_mapM hs
    simp [hlast]

theorem computes_expectBool (v : Value) : Computes arguments locals (expectBool v) v.bool? := by
  cases v with
  | bool b => exact Computes.pure b
  | _ => exact Computes.mismatch

theorem computes_expectInt (v : Value) : Computes arguments locals (expectInt v) v.int? := by
  cases v with
  | int i => exact Computes.pure i
  | _ => exact Computes.mismatch

theorem computes_arithmetic (op : Arithmetic) (x y : Value) : Computes arguments locals (arithmetic op .int x y)
    (do return .wrap (← op.onIntegers (← x.int?).toInt (← y.int?).toInt)) := by
  have hresult : ∀ o : Option Value,
      Computes arguments locals (match o with | some v => pure v | none => invalid) o := by
    rintro (_ | v)
    · exact Computes.invalid
    · exact Computes.pure v
  have hvalue : ∀ i j, (op.onInts i j).map Value.int = (op.onIntegers i.toInt j.toInt).map Value.wrap := fun i j => by
    rw [op.onInts_eq, Option.map_map]
    rfl
  have hints := (computes_expectInt x).bind fun i _ => (computes_expectInt y).bind fun j _ =>
    (Computes.pure ((op.onInts i j).map Value.int)).bind (g := id) fun o _ => hresult o
  refine hints.of_eq ?_
  cases x.int? <;> cases y.int? <;> simp [hvalue, Option.map_eq_bind]

theorem computes_compare (op : Comparison) {x y : Value} (hx : x.base = .int) (hy : y.base = .int) :
    Computes arguments locals (do
      if x.base ≠ y.base then note .mismatched
      return Yield.value (.bool (op.holds (x.compare? y))))
    (do return .value (.bool (op.onIntegers (← x.int?).toInt (← y.int?).toInt))) := by
  cases x with
  | int i =>
    cases y with
    | int j => exact op.holds_ints i j ▸ Computes.pure _
    | _ => cases hy
  | _ => cases hx

theorem Evaluates.bool {x : Exec Yield} {o : Option Value} (h : Evaluates arguments locals x o) {f : Bool → Exec β}
    {g : Bool → Option β} (hf : ∀ b, Computes arguments locals (f b) (g b)) :
    Computes arguments locals (do f (← expectBool (← Exec.value x))) (o.bind fun v => v.bool?.bind g) :=
  h.value.bind fun v _ => (computes_expectBool v).bind fun b _ => hf b

theorem computes_ifElse {ty : Ty} {kid : Fin 3 → Exec Yield} {meaning : Fin 3 → Option Value}
    (h : ∀ i, Evaluates arguments locals (kid i) (meaning i)) :
    Computes arguments locals (produce call (.ifElse ty) kid)
      (((Node.ifElse ty).meaning arguments locals (List.ofFn meaning)).map Yield.value) := by
  have hbranch : ∀ b : Bool, Computes arguments locals (operand (kid (if b then 1 else 2)))
      ((if b then meaning 1 else meaning 2).map Yield.value)
    | true => h 1
    | false => h 2
  refine ((h 0).bool hbranch).of_eq ?_
  rw [ofFn_three]
  simp only [Node.meaning, Option.bind_eq_bind, Option.map_bind, Function.comp_def]

theorem computes_logic (op : Logic) {kid : Fin (Node.logic op).arity → Exec Yield}
    {meaning : Fin (Node.logic op).arity → Option Value} (h : ∀ i, Evaluates arguments locals (kid i) (meaning i)) :
    Computes arguments locals (produce call (.logic op) kid)
      (((Node.logic op).meaning arguments locals (List.ofFn meaning)).map Yield.value) := by
  have answer : ∀ b, Computes arguments locals (pure (Yield.value (.bool b))) (some (Yield.value (.bool b))) :=
    fun b => Computes.pure _
  cases op with
  | not =>
    have hkids : List.ofFn meaning = _ := ofFn_one meaning
    refine ((h (0 : Fin 1)).bool fun a => answer !a).of_eq ?_
    simp only [hkids, Node.meaning, Option.bind_eq_bind, Option.map_bind, Function.comp_def]
    rfl
  | and =>
    have hkids : List.ofFn meaning = _ := ofFn_two meaning
    refine ((h (0 : Fin 2)).bool fun a => (h (1 : Fin 2)).bool fun b => answer (a && b)).of_eq ?_
    simp only [hkids, Node.meaning, Option.bind_eq_bind, Option.map_bind, Function.comp_def]
    rfl
  | or =>
    have hkids : List.ofFn meaning = _ := ofFn_two meaning
    refine ((h (0 : Fin 2)).bool fun a => (h (1 : Fin 2)).bool fun b => answer (a || b)).of_eq ?_
    simp only [hkids, Node.meaning, Option.bind_eq_bind, Option.map_bind, Function.comp_def]
    rfl

/-- A pure node comes to its meaning, if its children come to values of theirs that suit its slots. -/
theorem computes_produce {n : Node} (hn : n.isPure = true) {kid : Fin n.arity → Exec Yield}
    {meaning : Fin n.arity → Option Value} (h : ∀ i, Evaluates arguments locals (kid i) (meaning i))
    (hm : n.Suits meaning) : Computes arguments locals (produce call n kid)
      ((n.meaning arguments locals (List.ofFn meaning)).map Yield.value) := by
  cases n with
  | const v => exact Computes.pure _
  | argument ty i => exact computes_argument call (Ty.qualifier_of_isSimple hn).1 i
  | localVariable ty i => exact computes_local call (Ty.qualifier_of_isSimple hn).1 i
  | progn ty n =>
    obtain ⟨-, hpos⟩ := Bool.and_eq_true_iff.1 hn
    exact computes_progn (of_decide_eq_true hpos) h
  | arithmetic op b =>
    obtain rfl : b = .int := of_decide_eq_true hn
    have hkids : List.ofFn meaning = _ := ofFn_two meaning
    refine ((h (0 : Fin 2)).value.bind fun x _ => (h (1 : Fin 2)).value.bind fun y _ =>
      (computes_arithmetic op x y).yield).of_eq ?_
    simp only [hkids, Node.meaning, Option.bind_eq_bind, Option.map_bind, Function.comp_def]
  | comparison op b =>
    obtain rfl : b = .int := of_decide_eq_true hn
    have hkids : List.ofFn meaning = _ := ofFn_two meaning
    refine ((h (0 : Fin 2)).value.bind fun x hx => (h (1 : Fin 2)).value.bind fun y hy =>
      computes_compare op (hm (0 : Fin 2) x hx nofun) (hm (1 : Fin 2) y hy nofun)).of_eq ?_
    simp only [hkids, Node.meaning, Option.bind_eq_bind, Option.map_bind, Function.comp_def]
    rfl
  | logic op => exact computes_logic op h
  | ifElse ty => exact computes_ifElse h
  | _ => cases hn

end Kinds

theorem Computes.conclude {x : Exec Yield} {o : Option Value} (h : Computes arguments locals x (o.map Yield.value))
    (n : Node) : Evaluates arguments locals (conclude n x) o := by
  intro r hr
  have hx := h r hr
  rw [runFrom_operand]
  rcases hrun : x.runFrom r with ⟨e | y, r'⟩ <;> rw [hrun] at hx
  · obtain ⟨rfl, he⟩ := hx.left
    rw [conclude_stopped hrun he]
    simp only [he]
    exact hx.error id
  · cases hx with
    | done ho h =>
      rw [conclude_yielded hrun h.evaluating]
      simp only [h.evaluating, if_true]
      exact .done ho (h.of_eq rfl rfl)

/-- There may be no steps left to enter a node. -/
theorem Evaluates.entering {x : Exec Yield} {o : Option Value} (h : Evaluates arguments locals x o) (l : Limits)
    (i : NodeId) (ty : Ty) : Evaluates arguments locals (entering l i ty x) o := by
  intro r hr
  have he := hr.evaluating
  have hentered := runFrom_entering l i ty x r
  rw [if_neg (by simp [he])] at hentered
  by_cases hs : l.maxSteps ≤ r.steps
  · have hexceeded : (r.frame.signal .stepsExceeded).status = .stepsExceeded := by simp only [Frame.signal, he, if_true]
    rw [runFrom_operand, hentered, if_pos hs]
    simp only [r.frame.isEvaluating_signal (s := .stepsExceeded) (by decide)]
    exact .exhausted hexceeded
  · have hx := h { r with steps := r.steps + 1, journal := .entered i :: r.journal } (hr.of_eq rfl rfl)
    rw [runFrom_operand] at hx
    rwa [runFrom_operand, hentered, if_neg hs]

end Exec

section Typing

variable {arguments locals : List Value} {e : Term} {v : Value}

theorem Ty.base_of_accepts {slot child : Ty} (h : slot.accepts child = true) (hs : slot.base ≠ .any) :
    child.base = slot.base := by
  rcases Ty.accepts_iff.1 h with h | rfl | rfl
  · exact absurd h hs
  · rfl
  · rfl

theorem base_of_bind {α : Type} {o : Option α} {f : α → Option Value} {b : Base}
    (hf : ∀ a v, f a = some v → v.base = b) (h : o.bind f = some v) : v.base = b := by
  obtain ⟨a, -, ha⟩ := Option.bind_eq_some_iff.1 h
  exact hf a v ha

theorem base_of_some {w : Value} (h : some w = some v) : v.base = w.base :=
  congrArg Value.base (Option.some.inj h).symm

theorem Node.meaning_base {n : Node} {kid : Fin n.arity → Option Value} (hn : n.isPure = true) (hm : n.Suits kid)
    (h : n.meaning arguments locals (List.ofFn kid) = some v) : v.base = n.returns.base := by
  cases n with
  | const w => exact base_of_some h
  | argument ty i | localVariable ty i => exact of_decide_eq_true (Option.filter_eq_some_iff.1 h).2
  | progn ty n =>
    obtain ⟨hty, hpos⟩ := Bool.and_eq_true_iff.1 hn
    obtain ⟨n, rfl⟩ := Nat.exists_eq_add_one.2 (of_decide_eq_true hpos)
    obtain ⟨vs, hvs, hv⟩ := Option.bind_eq_some_iff.1 h
    obtain ⟨_, hkid, hlast⟩ := getLast_of_mapM hvs
    obtain rfl := Option.some.inj (hlast.symm.trans hv)
    have hslot : (progn ty (n + 1)).slotType (Fin.last n) = ty := by simp [slotType]
    have hbase := hm (Fin.last n) _ hkid
    rw [hslot] at hbase
    exact hbase (Ty.qualifier_of_isSimple hty).2
  | arithmetic op b =>
    obtain rfl : b = .int := of_decide_eq_true hn
    exact base_of_bind (fun x _ => base_of_bind fun y _ => base_of_bind fun i _ => base_of_bind fun j _ =>
      base_of_bind fun q _ => base_of_some) h
  | comparison op b =>
    obtain rfl : b = .int := of_decide_eq_true hn
    exact base_of_bind (fun x _ => base_of_bind fun y _ => base_of_bind fun i _ => base_of_bind fun j _ =>
      base_of_some) h
  | logic op =>
    cases op with
    | not => exact base_of_bind (fun x _ => base_of_bind fun a _ => base_of_some) h
    | and | or =>
      exact base_of_bind (fun x _ => base_of_bind fun a _ => base_of_bind fun y _ => base_of_bind fun b _ =>
        base_of_some) h
  | ifElse ty =>
    obtain ⟨x, -, h⟩ := Option.bind_eq_some_iff.1 h
    obtain ⟨b, -, h⟩ := Option.bind_eq_some_iff.1 h
    cases b with
    | true => exact hm (1 : Fin 3) v h (Ty.qualifier_of_isSimple hn).2
    | false => exact hm (2 : Fin 3) v h (Ty.qualifier_of_isSimple hn).2
  | _ => cases hn

theorem Term.meaning_base (hw : e.WellTyped) (hp : ∀ n ∈ e.nodes, n.isPure = true)
    (h : e.meaning arguments locals = some v) : v.base = e.returns.base := by
  induction e generalizing v with
  | node n kids ih =>
    refine Node.meaning_base (hp n (mem_nodes_self kids)) (fun i v hv hs => ?_) h
    exact (ih i (hw i).2 (fun m hm => hp m (mem_nodes_kid i hm)) hv).trans (Ty.base_of_accepts (hw i).1 hs)

end Typing

section Starting

variable {tys : List Ty} {xs locals : List Variable} {s s' : Store}

theorem freshCells_reads (h : freshCells tys s = .ok (locals, s')) :
    locals.map (fun x => (x.get s').1) = Ty.defaults tys := by
  obtain ⟨hbase, hcell, hs'⟩ := freshCells_ok h
  have hempty : ∀ x ∈ locals, x.content s' = none := fun x hx => by
    have hmem : x.cell ∈ List.range' s.cells.size tys.length := hcell ▸ List.mem_map_of_mem hx
    obtain ⟨k, hk, hx⟩ := List.mem_range'.1 hmem
    simp [Variable.content, Store.content, hs', hx, hk]
  calc locals.map (fun x => (x.get s').1)
      = locals.filterMap fun x => Value.default? x.base := by
        rw [← List.filterMap_eq_map]
        exact List.filterMap_congr fun x hx => by
          rw [Function.comp_apply, x.some_get, hempty x hx]
          rfl
    _ = (locals.map (·.base)).filterMap Value.default? := by
        rw [List.filterMap_map]
        rfl
    _ = Ty.defaults tys := by
        rw [hbase, List.filterMap_map]
        rfl

theorem Run.reads_start (hs : s.Supports xs) (h : freshCells tys s = .ok (locals, s')) :
    (Run.start (.start xs locals) s').Reads (xs.map fun x => (x.get s).1) (Ty.defaults tys) where
  evaluating := rfl
  supports := by
    obtain ⟨cs, hs, hxs⟩ := hs
    obtain ⟨_, _, cs', hf, hc, hs', hlocals⟩ := freshCells_typed (concrete_of_freshCells h) hs
    cases h.symm.trans hf
    exact ⟨cs', hs', List.forall_mem_append.2 ⟨fun x hx => (hxs x hx).mono hc, hlocals⟩⟩
  arguments := List.map_congr_left fun x hx => by
    have hcells := (freshCells_ok h).2.2
    have hcontent : x.content s' = x.content s := by
      simp [Variable.content, Store.content, hcells, Array.getElem?_append, hs.cell_lt hx]
    exact Variable.get_fst_eq.2 (congrArg (Option.or · _) hcontent)
  locals := freshCells_reads h

end Starting

namespace Exec

theorem evaluates_eval (w : World) (call : Callee → List Variable → Exec Yield) {arguments locals : List Value}
    {s : Shape} {e : Term} (h : s.Denotes e) (hw : e.WellTyped) (hp : ∀ n ∈ e.nodes, n.isPure = true) :
    Evaluates arguments locals (w.eval call s) (e.meaning arguments locals) := by
  induction h with
  | @node i n kids terms hk ih =>
    have hkids : ∀ slot m, m ∈ (terms slot).nodes → m.isPure = true := fun slot m hm =>
      hp m (Term.mem_nodes_kid slot hm)
    have hsuits : n.Suits fun slot => (terms slot).meaning arguments locals := fun slot v hv hs =>
      (Term.meaning_base (hw slot).2 (hkids slot) hv).trans (Ty.base_of_accepts (hw slot).1 hs)
    have hproduces : Computes arguments locals (produce call n fun slot => w.eval call (kids slot)) _ :=
      computes_produce (hp n (Term.mem_nodes_self terms)) (fun slot => ih slot (hw slot).2 (hkids slot)) hsuits
    rw [eval_node]
    exact (hproduces.conclude n).entering w.limits i n.returns

theorem evaluates_run (w : World) (room : Nat) {arguments locals : List Value} {s : Shape} {e : Term} (h : s.Denotes e)
    (hw : e.WellTyped) (hp : ∀ n ∈ e.nodes, n.isPure = true) :
    Evaluates arguments locals (w.run room s) (e.meaning arguments locals) := by
  rw [World.run_eq]
  exact evaluates_eval w _ h hw hp

/-- A frame ends with what its root comes to, unless there were no steps left. -/
theorem Evaluates.ends {arguments locals : List Value} {x : Exec Yield} {v : Option Value}
    (h : Evaluates arguments locals x v) {r last after : Run} (hr : r.Reads arguments locals) {y : Yield} {o : Outcome}
    (hrun : x.runFrom r = (.ok y, last)) (hfin : (finish y).runFrom last = (.ok o, after)) :
    o = .ofMeaning v ∨ last.frame.status = .stepsExceeded := by
  have hcomes := h r hr
  rw [runFrom_operand, hrun] at hcomes
  rw [runFrom_finish] at hfin
  cases he : last.frame.isEvaluating with
  | false =>
    simp only [he] at hcomes
    cases hcomes with
    | exhausted h => exact .inr h
    | undefined hv h =>
      simp only [h] at hfin
      obtain rfl := Option.map_eq_none_iff.1 hv
      exact .inl (Except.ok.inj (congrArg Prod.fst hfin)).symm
  | true =>
    simp only [he] at hcomes
    cases hcomes with
    | done hv h =>
      obtain ⟨v, rfl, rfl⟩ := Option.map_eq_some_iff.1 hv
      have hstatus : last.frame.status = .evaluating := of_decide_eq_true he
      simp only [hstatus] at hfin
      exact .inl (Except.ok.inj (congrArg Prod.fst hfin)).symm

end Exec

/-- A pure tree is evaluated to its meaning, and its value is invalid where it has none, if the limit allows as many
steps as it has nodes. Only where a local variable is of the wildcard type there is no evaluation. -/
theorem pure_meaning {t : Tree} {e : Term} (w : World) (h : t.Denotes e) (hw : e.WellTyped)
    (hp : ∀ n ∈ e.nodes, n.isPure = true) : ∃ i c, t.root = some i ∧ t.forest.count i = .ok c ∧
      (c ≤ w.limits.maxSteps → ∀ xs s, s.Supports xs → (t.evaluate w xs s).1 =
        if ∃ ty ∈ t.signature.locals, ty.base = .any then .error .wildcardVariable
        else .ok (.ofMeaning (e.meaning (xs.map fun x => (x.get s).1) (Ty.defaults t.signature.locals)))) := by
  obtain ⟨shape, hshape, he⟩ := h
  obtain ⟨i, hi, rfl⟩ := Option.map_eq_some_iff.1 hshape
  refine ⟨i, _, hi, Shape.count_complete he.complete, fun hmax xs s hs => ?_⟩
  cases t.evaluate_ends w xs s with
  | rootless hnone => rw [hshape] at hnone; cases hnone
  | wild hf heval =>
    obtain ⟨rfl, hwild⟩ := freshCells_error hf
    rw [heval, if_pos hwild]
  | @broken shape locals s' v after hs' hf hrun heval =>
    obtain rfl := Option.some.inj (hshape.symm.trans hs')
    have hcomes := Exec.evaluates_run w w.limits.maxDepth he hw hp _ (Run.reads_start hs hf)
    rw [Exec.runFrom_operand, hrun] at hcomes
    nomatch hcomes.left.1
  | @ended shape locals s' y last after o hs' hf hrun hfin heval =>
    obtain rfl := Option.some.inj (hshape.symm.trans hs')
    rw [heval, if_neg fun ⟨ty, hty, hany⟩ => concrete_of_freshCells hf ty hty hany]
    have hends := (Exec.evaluates_run w w.limits.maxDepth he hw hp).ends (Run.reads_start hs hf) hrun hfin
    rcases hends with rfl | hexceeded
    · rfl
    · have hstraight : ∀ n ∈ (t.forest.shape i).nodes, n.isStraight = true := fun n hn =>
        Node.isStraight_of_isPure (hp n (he.nodes_eq ▸ hn))
      have hvisits := Exec.visits_run w w.limits.maxDepth hstraight (.start (.start xs locals) s')
      rw [hrun] at hvisits
      rcases hvisits.stepsExceeded hexceeded with hstart | hsteps
      · cases hstart
      · exact absurd hmax (by simpa [Run.start] using hsteps)

namespace Dividing

/-- A quotient, guarded by a comparison; where the divisor is zero a third argument is read. -/
def parts : Fin 3 → Term
  | 0 => .node (.comparison .equal .int) fun
    | ⟨0, _⟩ => .node (.argument .int 1) nofun
    | _ => .node (.const (.int 0)) nofun
  | 1 => .node (.argument .int 2) nofun
  | 2 => .node (.arithmetic .div .int) fun
    | ⟨0, _⟩ => .node (.argument .int 0) nofun
    | _ => .node (.argument .int 1) nofun

def term : Term := .node (.ifElse .int) parts

def tree : Tree := .planted ⟨none, .int, [.int, .int], []⟩ term

def world : World := ⟨⟨8, 0⟩, .empty⟩

def arguments : List Variable := [⟨.int, 0, Base.int_ne_any⟩, ⟨.int, 1, Base.int_ne_any⟩]

def store (a b : Int32) : Store := ⟨#[some (.int a), some (.int b)]⟩

theorem store_supports (a b : Int32) : (store a b).Supports arguments := by
  refine ⟨[.int, .int], ⟨rfl, fun {i v} h => ?_⟩, by simp [arguments, Variable.Typed]⟩
  obtain _ | _ | i := i
  · cases h; rfl
  · cases h; rfl
  · cases h

theorem meaning_term (a b : Int32) : term.meaning [.int a, .int b] [] =
    if b = 0 then none else some (.wrap (a.toInt.tdiv b.toInt)) := by
  have hzero : (b.toInt = 0) = (b = 0) := by rw [← Int32.toInt_zero, Int32.toInt_inj]
  have hcondition : term.meaning [.int a, .int b] [] =
      if decide (b.toInt = 0) then (parts 1).meaning [.int a, .int b] [] else
        (parts 2).meaning [.int a, .int b] [] := rfl
  have hquotient : (parts 2).meaning [.int a, .int b] [] =
      (if b.toInt = 0 then none else some (a.toInt.tdiv b.toInt)).bind fun q => some (.wrap q) := rfl
  rw [hcondition]
  by_cases hb : b = 0
  · rw [if_pos hb, if_pos (by simpa [hzero] using hb)]
    rfl
  · rw [if_neg hb, if_neg (by simpa [hzero] using hb), hquotient, if_neg (by rwa [hzero])]
    rfl

end Dividing

/-- A third argument is missing, and the least integer divided by `-1` is itself. -/
theorem pure_meaning_dividing : Dividing.tree.Denotes Dividing.term ∧ Dividing.term.WellTyped ∧
    (∀ n ∈ Dividing.term.nodes, n.isPure = true) ∧
    (∀ a b, (Dividing.tree.evaluate Dividing.world Dividing.arguments (Dividing.store a b)).1 =
      .ok (.ofMeaning (if b = 0 then none else some (.wrap (a.toInt.tdiv b.toInt))))) ∧
    (Dividing.tree.evaluate Dividing.world Dividing.arguments (Dividing.store Int32.minValue (-1))).1 =
      .ok (.returned (.int Int32.minValue)) := by
  have hdenotes : Dividing.tree.Denotes Dividing.term := Tree.denotes_planted _ _
  have htyped : Dividing.term.WellTyped := by decide +kernel
  have hpure : ∀ n ∈ Dividing.term.nodes, n.isPure = true := by decide +kernel
  obtain ⟨i, c, hi, hc, hevaluate⟩ := pure_meaning Dividing.world hdenotes htyped hpure
  obtain rfl : i = 0 := Option.some.inj (hi.symm.trans (by decide +kernel))
  obtain rfl : c = 8 := Except.ok.inj (hc.symm.trans (Result.toOption_some.1 (by decide +kernel)))
  have hall := fun a b => hevaluate (Nat.le_refl 8) Dividing.arguments _ (Dividing.store_supports a b)
  refine ⟨hdenotes, htyped, hpure, fun a b => ?_, ?_⟩
  · rw [hall a b, if_neg (by decide +kernel), ← Dividing.meaning_term a b]
    rfl
  · exact hall Int32.minValue (-1)

end Grove
