import Grove.Run

/-! Evaluation. A node is entered, which takes a step, and then computes from its children; once a
frame has left `evaluating` its nodes yield the default of their type and do nothing. `produce` gives
each kind of node its meaning, `Shape.eval` folds that over a shape, and `World.run` ties the knot of
calls: a frame at a given depth has that much less room below it. -/

namespace Grove

def Arithmetic.onInts : Arithmetic → Int32 → Int32 → Option Int32
  | add, a, b => some (a + b)
  | sub, a, b => some (a - b)
  | mult, a, b => some (a * b)
  | div, a, b => if b = 0 then none else some (a / b)

def Arithmetic.onFloats : Arithmetic → Float → Float → Option Float
  | add, a, b => some (a + b)
  | sub, a, b => some (a - b)
  | mult, a, b => some (a * b)
  | div, a, b => if b == 0.0 then none else some (a / b)

def compareInts (a b : Int32) : Ordering := if a < b then .lt else if a = b then .eq else .gt

/-- The order of arrays by their first difference, a proper beginning coming first. -/
def compareArrays : List Int32 → List Int32 → Ordering
  | [], [] => .eq
  | [], _ :: _ => .lt
  | _ :: _, [] => .gt
  | a :: as, b :: bs => (compareInts a b).then (compareArrays as bs)

def compareFloats (a b : Float) : Option Ordering :=
  if a < b then some .lt else if a == b then some .eq else if b < a then some .gt else none

/-- The order of two values of one base; there is none across bases, or with NaN. -/
def Value.compare? : Value → Value → Option Ordering
  | bool a, bool b => some (if a = b then .eq else if b then .lt else .gt)
  | int a, int b => some (compareInts a b)
  | float a, float b => compareFloats a b
  | ints a, ints b => some (compareArrays a b)
  | _, _ => none

def Comparison.holds : Comparison → Option Ordering → Bool
  | greater, o => o = some .gt
  | greaterEq, o => o = some .gt || o = some .eq
  | less, o => o = some .lt
  | lessEq, o => o = some .lt || o = some .eq
  | equal, o => o = some .eq
  | notEqual, o => o ≠ some .eq

namespace Exec

def arithmetic (op : Arithmetic) (b : Base) (x y : Value) : Exec Value := do
  let result ← match b with
    | .int => do
      let i ← expectInt x
      let j ← expectInt y
      pure ((op.onInts i j).map Value.int)
    | .float => do
      let i ← expectFloat x
      let j ← expectFloat y
      pure ((op.onFloats i j).map Value.float)
    | _ => mismatch
  match result with
  | some v => return v
  | none => invalid

/-- A variable of the frame as a node of type `ty` sees it: a plain read needs one of that base, a
qualified one yields a handle that is unbound without it. -/
def access (ty : Ty) (x : Option Variable) : Exec Yield := do
  let x := x.filter (·.base = ty.base)
  let h := x.elim (Handle.unbound ty.base) .bound
  match ty.qualifier with
  | .leftHand => return .leftHand h
  | .reference => return .reference h
  | .plain =>
    match x with
    | some x => return .value (← onStore x.get)
    | none => invalid

/-- Evaluates a body a number of times and yields what the last complete round did. -/
def rounds (body : Exec Yield) : Nat → (last : Yield) → Exec Yield
  | 0, last => return last
  | n + 1, last => do
    let y ← body
    match ← status with
    | .evaluating => rounds body n y
    | .continueCalled =>
      modifyFrame Frame.resume
      rounds body n last
    | .breakCalled =>
      modifyFrame Frame.resume
      return last
    | _ => stop

/-- The variable that a callee gets for one argument: the caller's own for a qualified slot, and a
copy on a new cell for a plain one. -/
def bindArgument (slot : Ty) (child : Exec Yield) : Exec Variable := do
  let y ← operand child
  if slot.isQualified then
    match y.handle? with
    | some (.bound x) => return x
    | some (.unbound _) => invalid
    | none => mismatch
  else
    match ← read? y with
    | some v => onStore (Variable.new v)
    | none => invalid

/-- What a node does with its children. -/
def produce (call : Callee → List Variable → Exec Yield) :
    (n : Node) → (Fin n.arity → Exec Yield) → Exec Yield
  | .const v, _ => return .value v
  | .argument ty i, _ => do access ty ((← get).frame.arguments[i]?)
  | .localVariable ty i, _ => do access ty ((← get).frame.locals[i]?)
  | .progn _ 0, _ => stop
  | .progn _ (n + 1), kid => (List.finRange (n + 1)).foldlM (fun _ i => operand (kid i)) .void
  | .nop ty, _ => return .ofType ty
  | .arithmetic op b, kid => do
    let x ← value (kid (0 : Fin 2))
    let y ← value (kid (1 : Fin 2))
    return .value (← arithmetic op b x y)
  | .comparison op _, kid => do
    let x ← value (kid (0 : Fin 2))
    let y ← value (kid (1 : Fin 2))
    if x.base ≠ y.base then note .mismatched
    return .value (.bool (op.holds (x.compare? y)))
  | .logic .not, kid => do
    let x ← expectBool (← value (kid (0 : Fin 1)))
    return .value (.bool !x)
  | .logic .and, kid => do
    let x ← expectBool (← value (kid (0 : Fin 2)))
    let y ← expectBool (← value (kid (1 : Fin 2)))
    return .value (.bool (x && y))
  | .logic .or, kid => do
    let x ← expectBool (← value (kid (0 : Fin 2)))
    let y ← expectBool (← value (kid (1 : Fin 2)))
    return .value (.bool (x || y))
  | .ifElse _, kid => do
    let x ← expectBool (← value (kid (0 : Fin 3)))
    operand (kid (if x then (1 : Fin 3) else (2 : Fin 3)))
  | .repeatTimes ty, kid => do
    let n ← expectInt (← value (kid (0 : Fin 2)))
    if n < 0 then invalid
    rounds (kid (1 : Fin 2)) n.toInt.toNat (.ofType ty)
  | .substitute _, kid => do
    let h ← handle (kid (0 : Fin 2))
    let v ← value (kid (1 : Fin 2))
    if !h.isBound then fault .invalidLeftHandValue
    if ← assign h v then return .value v else mismatch
  | .increment _, kid => do
    let h ← handle (kid (0 : Fin 1))
    match ← onStore h.get with
    | none => fault .invalidLeftHandValue
    | some (.int i) => do
      let _ ← assign h (.int (i + 1))
      return .value (.int (i + 1))
    | some (.float x) => do
      let _ ← assign h (.float (x + 1.0))
      return .value (.float (x + 1.0))
    | some _ => mismatch
  | .elementAt _, kid => do
    let xs ← expectInts (← value (kid (0 : Fin 2)))
    let i ← expectInt (← value (kid (1 : Fin 2)))
    if i < 0 then invalid
    match xs[i.toInt.toNat]? with
    | some x => return .value (.int x)
    | none => invalid
  | .size _, kid => do
    let xs ← expectInts (← value (kid (0 : Fin 1)))
    return .value (.int (Int32.ofNat xs.length))
  | .breakLoop _, _ => fault .breakCalled
  | .continueLoop _, _ => fault .continueCalled
  | .returnValue _, kid => do
    let v ← value (kid (0 : Fin 1))
    modifyFrame (·.returnWith v)
    return .value v
  | .call c, kid => do
    let xs ← (List.finRange c.arguments.length).mapM fun (i : Fin c.arguments.length) =>
      bindArgument c.arguments[i] (kid i)
    call c xs

end Exec

/-- The limits of a run and the subroutines that it may call. -/
structure World where
  limits : Limits
  registry : Registry

namespace World

open Exec

/-- Evaluates a shape in the current frame, with `call` for the calls in it. -/
def eval (w : World) (call : Callee → List Variable → Exec Yield) : Shape → Exec Yield
  | .node id n kids => do
    if ← enter w.limits id then
      let y ← orElse (produce call n fun i => w.eval call (kids i)) (.ofType n.returns)
      if ← isEvaluating then note (.yielded n y)
      return y
    else return .ofType n.returns
  | .torn id n why => do
    if ← enter w.limits id then violate why else return .ofType n.returns

/-- Runs a body in a frame of its own and goes back to the caller's. -/
def activate (inner : Shape → Exec Yield) (body : Tree) (shape : Shape) (arguments : List Variable) :
    Exec Outcome := do
  let r ← get
  match freshCells body.signature.locals r.store with
  | .error v => violate v
  | .ok (locals, s) =>
    set { r with frame := .start arguments locals, store := s, depth := r.depth + 1 }
    let outcome ← finish (← inner shape)
    modify fun after => { after with frame := r.frame, depth := after.depth - 1 }
    return outcome

/-- A call whose arguments are bound. Without `inner` there is no room for another frame. -/
def call (w : World) (inner : Option (Shape → Exec Yield)) (c : Callee)
    (arguments : List Variable) : Exec Yield := do
  match w.registry.body? c.name with
  | none => invalid
  | some body =>
    match body.shape?, inner with
    | none, _ => invalid
    | some _, none => fault .stackExceeded
    | some shape, some inner =>
      note (.called c.name ((← get).depth + 1))
      let outcome ← activate inner body shape arguments
      match outcome with
      | ⟨.valueReturned, some v⟩ => return .value v
      | ⟨.valueReturned, none⟩ => invalid
      | ⟨s, _⟩ => fault s

/-- Evaluates a shape with room for a given number of frames below its own. -/
def run (w : World) : (room : Nat) → Shape → Exec Yield
  | 0 => w.eval (w.call none)
  | room + 1 => w.eval (w.call (some (w.run room)))

/-- Evaluates the root of a tree and ends the frame. -/
def runFrame (w : World) (shape : Shape) : Exec Outcome := do
  finish (← w.run w.limits.maxDepth shape)

end World

/-- A computation without a frame to stop in. -/
def Exec.outcome {α : Type} (x : Exec α) (r : Run) : Except Violation α × Run :=
  match x.run r with
  | (.ok a, r) => (.ok a, r)
  | (.error (.violated v), r) => (.error v, r)
  | (.error .stopped, r) => (.error .endless, r)

def Tree.evaluate (w : World) (t : Tree) (arguments : List Variable) (s : Store) :
    Except Violation Outcome × Run :=
  match t.shape? with
  | none => (.error .noRootToEvaluate, .start (.start arguments []) s)
  | some shape =>
    match freshCells t.signature.locals s with
    | .error v => (.error v, .start (.start arguments []) s)
    | .ok (locals, s) => (w.runFrame shape).outcome (.start (.start arguments locals) s)

end Grove
