import Grove.Registry
import Grove.Store

/-! The state of an evaluation. A frame holds the variables of one activation and its status; the
step and depth counters and the store are shared by all frames of a run. A frame leaves `evaluating`
once: a later signal changes nothing, only a loop may resume after a break or a continue. The journal
tells, newest first, which nodes were entered and what they yielded, which cells were written, which
subroutines called, and where a node was handed something of a sort that it cannot take. -/

namespace Grove

structure Limits where
  maxSteps : Nat
  maxDepth : Nat
  deriving DecidableEq

inductive Status where
  | evaluating
  | valueReturned
  | breakCalled
  | continueCalled
  | invalidLeftHandValue
  | invalidReference
  | invalidValue
  | stepsExceeded
  | stackExceeded
  deriving DecidableEq

def Status.all : List Status :=
  [.evaluating, .valueReturned, .breakCalled, .continueCalled, .invalidLeftHandValue,
    .invalidReference, .invalidValue, .stepsExceeded, .stackExceeded]

def Status.name : Status → String
  | evaluating => "Evaluating"
  | valueReturned => "ValueReturned"
  | breakCalled => "BreakCalled"
  | continueCalled => "ContinueCalled"
  | invalidLeftHandValue => "InvalidLeftHandValue"
  | invalidReference => "InvalidReference"
  | invalidValue => "InvalidValue"
  | stepsExceeded => "StepsExceeded"
  | stackExceeded => "StackExceeded"

/-- Whether a status reports a fault, and not control flow. -/
def Status.isFault : Status → Bool
  | evaluating => false
  | valueReturned => false
  | breakCalled => false
  | continueCalled => false
  | _ => true

/-- How a frame ended; there is a value when it returned one. -/
structure Outcome where
  status : Status
  value : Option Value
  deriving DecidableEq

def Outcome.returned (v : Value) : Outcome := ⟨.valueReturned, some v⟩

structure Frame where
  arguments : List Variable
  locals : List Variable
  status : Status
  returned : Option Value
  deriving DecidableEq

namespace Frame

def start (arguments locals : List Variable) : Frame := ⟨arguments, locals, .evaluating, none⟩

def isEvaluating (f : Frame) : Bool := f.status = .evaluating

def signal (f : Frame) (s : Status) : Frame := if f.isEvaluating then { f with status := s } else f

def resume (f : Frame) : Frame := { f with status := .evaluating }

def returnWith (f : Frame) (v : Value) : Frame :=
  if f.isEvaluating then { f with status := .valueReturned, returned := some v } else f

def takeReturned (f : Frame) : Option Value × Frame := (f.returned, { f with returned := none })

theorem signal_of_not {f : Frame} (h : f.isEvaluating = false) (s : Status) : f.signal s = f := by
  simp [signal, h]

end Frame

inductive Event where
  | entered (id : NodeId)
  /-- A node was done and its frame still evaluating. -/
  | yielded (n : Node) (y : Yield)
  | wrote (cell : Nat) (v : Value)
  /-- A frame for the named subroutine was made, at the given depth. -/
  | called (name : String) (depth : Nat)
  /-- A node was handed nothing, a plain value for a handle, or a value of a base it cannot take. -/
  | mismatched
  deriving DecidableEq

structure Run where
  frame : Frame
  store : Store
  steps : Nat
  depth : Nat
  journal : List Event
  deriving DecidableEq

def Run.start (f : Frame) (s : Store) : Run := ⟨f, s, 0, 0, []⟩

/-- Why a computation has no result of its own: it stopped, its frame telling why, or its caller broke
a promise. -/
inductive Halt where
  | stopped
  | violated (v : Violation)
  deriving DecidableEq

abbrev Exec : Type → Type := ExceptT Halt (StateM Run)

namespace Exec

def stop {α : Type} : Exec α := throw .stopped

def violate {α : Type} (v : Violation) : Exec α := throw (.violated v)

def modifyFrame (f : Frame → Frame) : Exec Unit := modify fun r => { r with frame := f r.frame }

def signal (s : Status) : Exec Unit := modifyFrame (·.signal s)

/-- Signals and stops. -/
def fault {α : Type} (s : Status) : Exec α := do
  signal s
  stop

def invalid {α : Type} : Exec α := fault .invalidValue

def isEvaluating : Exec Bool := return (← get).frame.isEvaluating

def status : Exec Status := return (← get).frame.status

def onStore {α : Type} (f : Store → α × Store) : Exec α := do
  let r ← get
  let (a, s) := f r.store
  set { r with store := s }
  return a

def note (e : Event) : Exec Unit := modify fun r => { r with journal := e :: r.journal }

/-- Stops at a yield or value of the wrong sort. -/
def mismatch {α : Type} : Exec α := do
  note .mismatched
  invalid

/-- Counts a step if the frame still evaluates and the limit allows one more. -/
def enter (limits : Limits) (id : NodeId) : Exec Bool := do
  let r ← get
  if !r.frame.isEvaluating then return false
  if limits.maxSteps ≤ r.steps then
    signal .stepsExceeded
    return false
  set { r with steps := r.steps + 1, journal := .entered id :: r.journal }
  return true

/-- What a computation yields, or `other` if it stops. -/
def orElse (body : Exec Yield) (other : Yield) : Exec Yield :=
  tryCatch body fun
    | .stopped => return other
    | .violated v => violate v

/-- The yield of a child, provided that the frame still evaluates after it. -/
def operand (child : Exec Yield) : Exec Yield := do
  let y ← child
  if ← isEvaluating then return y else stop

/-- The plain value of a yield, read through handles. -/
def read? (y : Yield) : Exec (Option Value) := do
  match y with
  | .void =>
    note .mismatched
    return none
  | .value v => return some v
  | .leftHand h =>
    let v ← onStore h.get
    if v.isNone then signal .invalidLeftHandValue
    return v
  | .reference h =>
    let v ← onStore h.get
    if v.isNone then signal .invalidReference
    return v

def value (child : Exec Yield) : Exec Value := do
  let y ← operand child
  match ← read? y with
  | some v => return v
  | none => stop

def expectBool : Value → Exec Bool
  | .bool b => return b
  | _ => mismatch

def expectInt : Value → Exec Int32
  | .int i => return i
  | _ => mismatch

def expectFloat : Value → Exec Float
  | .float x => return x
  | _ => mismatch

def expectInts : Value → Exec (List Int32)
  | .ints xs => return xs
  | _ => mismatch

def handle (child : Exec Yield) : Exec Handle := do
  let y ← operand child
  match y.handle? with
  | some h => return h
  | none => mismatch

def assign (h : Handle) (v : Value) : Exec Bool := do
  let done ← onStore (h.set v)
  if done then
    match h.target? with
    | some x => note (.wrote x.cell v)
    | none => pure ()
  return done

/-- Ends a frame; one that still evaluates returns what its root yields. -/
def finish (y : Yield) : Exec Outcome := do
  match ← status with
  | .evaluating =>
    match ← read? y with
    | some v => return .returned v
    | none =>
      signal .invalidValue
      return ⟨← status, none⟩
  | .valueReturned =>
    let (v, f) := (← get).frame.takeReturned
    modifyFrame fun _ => f
    return ⟨.valueReturned, v⟩
  | s => return ⟨s, none⟩

end Exec

/-- New empty cells for the local variables of an activation. -/
def freshCells : List Ty → Store → Except Violation (List Variable × Store)
  | [], s => .ok ([], s)
  | ty :: tys, s => do
    let (x, s) ← Variable.newEmpty ty.base s
    let (xs, s) ← freshCells tys s
    return (x :: xs, s)

end Grove
