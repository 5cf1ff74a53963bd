import Grove.Proofs.Exec

/-! What a node does, related piece by piece. A relation between computations that is kept by sequencing, by the
own actions of nodes and by the ways to run a child relates whole nodes, if it relates their children and the
calls: one pass over the kinds of nodes serves every such relation. -/

namespace Grove

/-- A status that a node may give its frame whatever its children and calls do. -/
def Status.isOwn : Status → Bool
  | invalidLeftHandValue | invalidReference | invalidValue => true
  | _ => false

/-- A status that a loop takes back. -/
def Status.isLeap : Status → Bool
  | breakCalled | continueCalled => true
  | _ => false

/-- The status with which a node leaves the round of a loop. -/
def Node.leap? : Node → Option Status
  | breakLoop _ => some .breakCalled
  | continueLoop _ => some .continueCalled
  | _ => none

theorem Node.isLeap_of_leap {n : Node} {s : Status} (h : n.leap? = some s) : s.isLeap = true := by
  cases n <;> cases h <;> rfl

/-- Whether a child in the slot is the body of a loop. -/
def Node.loops : Node → (slot : Nat) → Bool
  | repeatTimes _, 1 => true
  | _, _ => false

/-- An event that neither enters a node nor makes a frame. -/
def Event.isOwn : Event → Bool
  | yielded .. | wrote .. | mismatched => true
  | _ => false

namespace Exec

/-- The ways in which nodes use the store. -/
inductive StoreAction : {α : Type} → (Store → α × Store) → Prop
  | read (x : Variable) : StoreAction x.get
  | get (h : Handle) : StoreAction h.get
  | set (h : Handle) (v : Value) : StoreAction (h.set v)
  | new (v : Value) : StoreAction (Variable.new v)

/-- The plain value of a yield, or else another way to go on. -/
def readOr (other : Exec Value) (y : Yield) : Exec Value := do
  match ← read? y with
  | some v => return v
  | none => other

/-- `T` relates what a node does before its end, `U` what it ends with, and `K` the children in a slot. -/
structure Congruence (T U : ∀ {α : Type}, Exec α → Exec α → Prop)
    (K : Node → Nat → Exec Yield → Exec Yield → Prop) : Prop where
  pure : ∀ {α : Type} (a : α), T (pure a) (pure a)
  bind : ∀ {α β : Type} {x x' : Exec α} {f f' : α → Exec β}, T x x' → (∀ a, T (f a) (f' a)) → T (x >>= f) (x' >>= f')
  bind_last : ∀ {α β : Type} {x x' : Exec α} {f f' : α → Exec β},
    T x x' → (∀ a, U (f a) (f' a)) → U (x >>= f) (x' >>= f')
  last : ∀ {α : Type} {x x' : Exec α}, T x x' → U x x'
  stop : ∀ {α : Type}, T (stop : Exec α) stop
  fault : ∀ {α : Type} {s : Status}, s.isOwn = true → T (fault s : Exec α) (fault s)
  note : ∀ {e : Event}, e.isOwn = true → T (note e) (note e)
  store : ∀ {α : Type} {f : Store → α × Store}, StoreAction f → T (onStore f) (onStore f)
  find : ∀ {α : Type} (g : Frame → Option Variable) {f f' : Option Variable → Exec α},
    (∀ x, T (f x) (f' x)) → T (get >>= fun r => f (g r.frame)) (get >>= fun r => f' (g r.frame))
  read_stop : ∀ y, T (readOr Exec.stop y) (readOr Exec.stop y)
  read_invalid : ∀ y, T (readOr invalid y) (readOr invalid y)
  returnWith : ∀ v : Value, U (do modifyFrame (·.returnWith v); return Yield.value v)
    (do modifyFrame (·.returnWith v); return Yield.value v)
  operand : ∀ {n i k k'}, n.loops i = false → K n i k k' → T (operand k) (operand k')
  rounds : ∀ {ty k k'}, K (.repeatTimes ty) 1 k k' → ∀ m y, U (rounds k m y) (rounds k' m y)

theorem invalid_bind {α β : Type} (f : α → Exec β) : (invalid >>= f) = invalid := rfl

theorem bindArgument_plain {slot : Ty} (h : slot.isQualified = false) (child : Exec Yield) :
    bindArgument slot child = operand child >>= fun y => readOr invalid y >>= fun v => onStore (Variable.new v) := by
  unfold bindArgument readOr
  rw [h]
  simp only [bind_assoc]
  refine bind_congr fun y => bind_congr fun v => ?_
  cases v <;> rfl

namespace Congruence

variable {T U : ∀ {α : Type}, Exec α → Exec α → Prop} {K : Node → Nat → Exec Yield → Exec Yield → Prop}
variable (C : Congruence T U K)
include C

theorem invalid {α : Type} : T (invalid : Exec α) Exec.invalid := C.fault rfl

theorem mismatch {α : Type} : T (mismatch : Exec α) Exec.mismatch := C.bind (C.note rfl) fun _ => C.invalid

theorem value {n : Node} {i : Nat} {k k' : Exec Yield} (hi : n.loops i = false) (h : K n i k k') :
    T (value k) (Exec.value k') :=
  C.bind (C.operand hi h) C.read_stop

theorem expectBool (v : Value) : T (expectBool v) (Exec.expectBool v) := by
  cases v <;> first | exact C.pure _ | exact C.mismatch

theorem expectInt (v : Value) : T (expectInt v) (Exec.expectInt v) := by
  cases v <;> first | exact C.pure _ | exact C.mismatch

theorem expectFloat (v : Value) : T (expectFloat v) (Exec.expectFloat v) := by
  cases v <;> first | exact C.pure _ | exact C.mismatch

theorem expectInts (v : Value) : T (expectInts v) (Exec.expectInts v) := by
  cases v <;> first | exact C.pure _ | exact C.mismatch

theorem handle {n : Node} {i : Nat} {k k' : Exec Yield} (hi : n.loops i = false) (h : K n i k k') :
    T (handle k) (Exec.handle k') :=
  C.bind (C.operand hi h) fun y => by
    cases y.handle? with
    | none => exact C.mismatch
    | some l => exact C.pure l

theorem assign (h : Handle) (v : Value) : T (assign h v) (Exec.assign h v) :=
  C.bind (C.store (.set h v)) fun done => by
    cases done
    · exact C.pure _
    · cases h.target? with
      | none => exact C.pure _
      | some x => exact C.bind (C.note rfl) fun _ => C.pure _

theorem access (ty : Ty) (x : Option Variable) : T (access ty x) (Exec.access ty x) := by
  unfold Exec.access
  cases ty.qualifier with
  | leftHand => exact C.pure _
  | reference => exact C.pure _
  | plain =>
    cases x.filter (·.base = ty.base) with
    | none => exact C.invalid
    | some x => exact C.bind (C.store (.read x)) fun _ => C.pure _

theorem arithmetic (op : Arithmetic) (b : Base) (x y : Value) : T (arithmetic op b x y) (Exec.arithmetic op b x y) := by
  cases b with
  | int =>
    refine C.bind (C.expectInt x) fun i => C.bind (C.expectInt y) fun j => ?_
    cases op.onInts i j with
    | none => exact C.invalid
    | some k => exact C.pure (Value.int k)
  | float =>
    refine C.bind (C.expectFloat x) fun i => C.bind (C.expectFloat y) fun j => ?_
    cases op.onFloats i j with
    | none => exact C.invalid
    | some k => exact C.pure (Value.float k)
  | _ => exact C.mismatch

theorem bindArgument {slot : Ty} {n : Node} {i : Nat} {k k' : Exec Yield} (hi : n.loops i = false) (h : K n i k k') :
    T (bindArgument slot k) (Exec.bindArgument slot k') := by
  cases hq : slot.isQualified with
  | true =>
    unfold Exec.bindArgument
    rw [hq]
    refine C.bind (C.operand hi h) fun y => ?_
    cases y.handle? with
    | none => exact C.mismatch
    | some l =>
      cases l with
      | unbound b => exact C.invalid
      | bound x => exact C.pure x
  | false =>
    rw [bindArgument_plain hq, bindArgument_plain hq]
    exact C.bind (C.operand hi h) fun y => C.bind (C.read_invalid y) fun v => C.store (.new v)

theorem mapM {α ι : Type} {f f' : ι → Exec α} (hf : ∀ i, T (f i) (f' i)) (l : List ι) : T (l.mapM f) (l.mapM f') := by
  induction l with
  | nil =>
    rw [List.mapM_nil, List.mapM_nil]
    exact C.pure []
  | cons i l ih =>
    rw [List.mapM_cons, List.mapM_cons]
    exact C.bind (hf i) fun a => C.bind ih fun as => C.pure (a :: as)

theorem foldlM {α ι : Type} {f f' : α → ι → Exec α} (hf : ∀ a i, T (f a i) (f' a i)) (l : List ι) (a : α) :
    T (l.foldlM f a) (l.foldlM f' a) := by
  induction l generalizing a with
  | nil => exact C.pure a
  | cons i l ih =>
    rw [List.foldlM_cons, List.foldlM_cons]
    exact C.bind (hf a i) ih

section Kinds

variable {call call' : Callee → List Variable → Exec Yield}

theorem substitute {b : Base} {kid kid' : Fin 2 → Exec Yield} (h : ∀ i : Fin 2, K (.substitute b) i (kid i) (kid' i)) :
    T (produce call (.substitute b) kid) (produce call' (.substitute b) kid') := by
  refine C.bind (C.handle rfl (h (0 : Fin 2))) fun l => C.bind (C.value rfl (h (1 : Fin 2))) fun v => ?_
  cases hb : l.isBound
  · exact C.fault rfl
  · refine C.bind (C.assign l v) fun done => ?_
    cases done
    · exact C.mismatch
    · exact C.pure _

theorem increment {b : Base} {kid kid' : Fin 1 → Exec Yield} (h : ∀ i : Fin 1, K (.increment b) i (kid i) (kid' i)) :
    T (produce call (.increment b) kid) (produce call' (.increment b) kid') := by
  have put : ∀ (l : Handle) (v : Value), T (do let _ ← Exec.assign l v; return Yield.value v)
      (do let _ ← Exec.assign l v; return Yield.value v) :=
    fun l v => C.bind (C.assign l v) fun _ => C.pure (Yield.value v)
  refine C.bind (C.handle rfl (h (0 : Fin 1))) fun l => C.bind (C.store (.get l)) fun o => ?_
  cases o with
  | none => exact C.fault rfl
  | some v =>
    cases v with
    | int i => exact put l _
    | float x => exact put l _
    | _ => exact C.mismatch

theorem elementAt {b : Base} {kid kid' : Fin 2 → Exec Yield} (h : ∀ i : Fin 2, K (.elementAt b) i (kid i) (kid' i)) :
    T (produce call (.elementAt b) kid) (produce call' (.elementAt b) kid') := by
  refine C.bind (C.value rfl (h (0 : Fin 2))) fun x => C.bind (C.expectInts x) fun xs => ?_
  refine C.bind (C.value rfl (h (1 : Fin 2))) fun y => C.bind (C.expectInt y) fun i => ?_
  by_cases hi : i < 0
  · simpa [hi, invalid_bind] using C.invalid
  · cases hx : xs[i.toInt.toNat]? with
    | none => simpa [hi, hx] using C.invalid
    | some x => simpa [hi, hx] using C.pure (Yield.value (.int x))

theorem compare {op : Comparison} {b : Base} {kid kid' : Fin 2 → Exec Yield}
    (h : ∀ i : Fin 2, K (.comparison op b) i (kid i) (kid' i)) :
    T (produce call (.comparison op b) kid) (produce call' (.comparison op b) kid') := by
  refine C.bind (C.value rfl (h (0 : Fin 2))) fun x => C.bind (C.value rfl (h (1 : Fin 2))) fun y => ?_
  by_cases hb : x.base = y.base
  · simpa [hb] using C.pure _
  · simpa [hb] using C.bind (C.note (e := .mismatched) rfl) fun _ => C.pure _

theorem repeatTimes {ty : Ty} {kid kid' : Fin 2 → Exec Yield}
    (h : ∀ i : Fin 2, K (.repeatTimes ty) i (kid i) (kid' i)) :
    U (produce call (.repeatTimes ty) kid) (produce call' (.repeatTimes ty) kid') := by
  refine C.bind_last (C.value rfl (h (0 : Fin 2))) fun x => C.bind_last (C.expectInt x) fun n => ?_
  by_cases hn : n < 0
  · simpa [hn, invalid_bind] using C.last C.invalid
  · simpa [hn] using C.rounds (h (1 : Fin 2)) _ _

/-- A node is related to one of its kind if their children and calls are, and if it may leave a loop should it do so. -/
theorem produce (n : Node) (hleap : ∀ s, n.leap? = some s → T (Exec.fault s : Exec Yield) (Exec.fault s))
    (hcall : ∀ c, n = .call c → ∀ xs, U (call c xs) (call' c xs)) {kid kid' : Fin n.arity → Exec Yield}
    (h : ∀ i : Fin n.arity, K n i (kid i) (kid' i)) : U (produce call n kid) (Exec.produce call' n kid') := by
  cases n with
  | const v => exact C.last (C.pure _)
  | argument ty i => exact C.last (C.find (fun f => f.arguments[i]?) (C.access ty))
  | localVariable ty i => exact C.last (C.find (fun f => f.locals[i]?) (C.access ty))
  | progn ty k =>
    cases k with
    | zero => exact C.last C.stop
    | succ k => exact C.last (C.foldlM (fun _ i => C.operand rfl (h i)) _ _)
  | nop ty => exact C.last (C.pure _)
  | arithmetic op b =>
    refine C.last (C.bind (C.value rfl (h (0 : Fin 2))) fun x => C.bind (C.value rfl (h (1 : Fin 2))) fun y => ?_)
    exact C.bind (C.arithmetic op b x y) fun _ => C.pure _
  | comparison op b => exact C.last (C.compare h)
  | logic op =>
    cases op with
    | not =>
      exact C.last (C.bind (C.value rfl (h (0 : Fin 1))) fun x => C.bind (C.expectBool x) fun _ => C.pure _)
    | _ =>
      refine C.last (C.bind (C.value rfl (h (0 : Fin 2))) fun x => C.bind (C.expectBool x) fun _ => ?_)
      exact C.bind (C.value rfl (h (1 : Fin 2))) fun y => C.bind (C.expectBool y) fun _ => C.pure _
  | ifElse ty =>
    exact C.last (C.bind (C.value rfl (h (0 : Fin 3))) fun x => C.bind (C.expectBool x) fun b => C.operand rfl (h _))
  | repeatTimes ty => exact C.repeatTimes h
  | substitute b => exact C.last (C.substitute h)
  | increment b => exact C.last (C.increment h)
  | elementAt b => exact C.last (C.elementAt h)
  | size b =>
    exact C.last (C.bind (C.value rfl (h (0 : Fin 1))) fun x => C.bind (C.expectInts x) fun _ => C.pure _)
  | breakLoop ty => exact C.last (hleap _ rfl)
  | continueLoop ty => exact C.last (hleap _ rfl)
  | returnValue ty => exact C.bind_last (C.value rfl (h (0 : Fin 1))) C.returnWith
  | call c => exact C.bind_last (C.mapM (fun i => C.bindArgument rfl (h i)) _) fun xs => hcall c rfl xs

end Kinds
end Congruence
end Exec
end Grove
