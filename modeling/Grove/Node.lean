import Grove.Error
import Grove.Signature

/-! The nodes of a tree. A node holds its own parameters; its children fill numbered slots, each
with a declared type, and `arity` is the number of slots. -/

namespace Grove

inductive Arithmetic where
  | add
  | sub
  | mult
  | div
  deriving DecidableEq

inductive Comparison where
  | greater
  | greaterEq
  | less
  | lessEq
  | equal
  | notEqual
  deriving DecidableEq

inductive Logic where
  | and
  | or
  | not
  deriving DecidableEq

inductive Node where
  | const (v : Value)
  | argument (ty : Ty) (index : Nat)
  | localVariable (ty : Ty) (index : Nat)
  /-- Runs all its children and yields what the last one yields. -/
  | progn (ty : Ty) (arity : Nat)
  | nop (ty : Ty)
  | arithmetic (op : Arithmetic) (base : Base)
  | comparison (op : Comparison) (base : Base)
  | logic (op : Logic)
  /-- Condition, then, else. -/
  | ifElse (ty : Ty)
  /-- Count and body. -/
  | repeatTimes (ty : Ty)
  /-- Location and value. -/
  | substitute (base : Base)
  | increment (base : Base)
  /-- Array and index; the base is that of the elements. -/
  | elementAt (base : Base)
  | size (base : Base)
  | breakLoop (ty : Ty)
  | continueLoop (ty : Ty)
  | returnValue (ty : Ty)
  | call (callee : Callee)
  deriving DecidableEq

inductive NodeKind where
  | normal
  | argument
  | localVariable
  | const
  | progn
  | subroutine
  deriving DecidableEq

def NodeKind.name : NodeKind → String
  | normal => "Normal"
  | argument => "Argument"
  | localVariable => "LocalVariable"
  | const => "Const"
  | progn => "Progn"
  | subroutine => "Subroutine"

def Arithmetic.all : List Arithmetic := [.add, .sub, .mult, .div]

def Comparison.all : List Comparison := [.greater, .greaterEq, .less, .lessEq, .equal, .notEqual]

namespace Node

def kind : Node → NodeKind
  | const _ => .const
  | argument .. => .argument
  | localVariable .. => .localVariable
  | progn .. => .progn
  | call _ => .subroutine
  | _ => .normal

def returns : Node → Ty
  | const v => .plain v.base
  | argument ty _ => ty
  | localVariable ty _ => ty
  | progn ty _ => ty
  | nop ty => ty
  | arithmetic _ b => .plain b
  | comparison .. => .bool
  | logic _ => .bool
  | ifElse ty => ty
  | repeatTimes ty => ty
  | substitute b => .plain b
  | increment b => .plain b
  | elementAt b => .plain b
  | size _ => .int
  | breakLoop ty => ty
  | continueLoop ty => ty
  | returnValue ty => ty
  | call c => c.returns

def arity : Node → Nat
  | const _ => 0
  | argument .. => 0
  | localVariable .. => 0
  | progn _ n => n
  | nop _ => 0
  | arithmetic .. => 2
  | comparison .. => 2
  | logic .not => 1
  | logic _ => 2
  | ifElse _ => 3
  | repeatTimes _ => 2
  | substitute _ => 2
  | increment _ => 1
  | elementAt _ => 2
  | size _ => 1
  | breakLoop _ => 0
  | continueLoop _ => 0
  | returnValue _ => 1
  | call c => c.arguments.length

def isLeaf (n : Node) : Bool := n.arity = 0

/-- The declared type of a slot; it means nothing from the arity on. -/
def slotType : Node → Nat → Ty
  | progn ty n, i => if i + 1 = n then ty else .any
  | arithmetic _ b, _ => .plain b
  | comparison _ b, _ => .plain b
  | logic _, _ => .bool
  | ifElse ty, i => if i = 0 then .bool else ty
  | repeatTimes ty, i => if i = 0 then .int else ty
  | substitute b, i => if i = 0 then (Ty.plain b).leftHand else .plain b
  | increment b, _ => (Ty.plain b).leftHand
  | elementAt b, i => if i = 0 then .plain b.arrayOf else .int
  | size b, _ => .plain b.arrayOf
  | returnValue ty, _ => ty
  | call c, i => c.arguments.getD i .any
  | _, _ => .any

def childType (n : Node) (slot : Nat) : Except Violation Ty :=
  if slot < n.arity then .ok (n.slotType slot) else .error (.slotOutOfRange slot n.arity)

def property? : Node → Option Property
  | const v => some (.literal v)
  | argument _ i => some (.index i)
  | localVariable _ i => some (.index i)
  | progn _ n => some (.arity n)
  | _ => none

/-- Whether a node that reads a variable finds a slot of its base declared. -/
def fits (n : Node) (s : Signature) : Bool :=
  match n with
  | argument ty i => Signature.declares s.arguments ty i
  | localVariable ty i => Signature.declares s.locals ty i
  | _ => true

end Node

def checkSlot (slot child : Ty) : Except Error Unit :=
  if slot.accepts child then .ok () else .error (.childTypeMismatch slot child)

end Grove
