/-! Types of values and slots. A type is a base with a qualifier: the plain value, a reference to a
cell, or a left-hand location. A plain slot also accepts qualified children of its base, and a slot
of the wildcard base accepts everything. -/

namespace Grove

inductive Base where
  | any
  | bool
  | int
  | float
  | ints
  deriving DecidableEq, Inhabited

inductive Qualifier where
  | plain
  | reference
  | leftHand
  deriving DecidableEq, Inhabited

structure Ty where
  base : Base
  qualifier : Qualifier
  deriving DecidableEq, Inhabited

namespace Base

def concrete : List Base := [.bool, .int, .float, .ints]

def element? : Base → Option Base
  | .ints => some .int
  | _ => none

/-- The base of arrays whose elements have the given base, or that base again if there is none. -/
def arrayOf : Base → Base
  | .int => .ints
  | b => b

def name : Base → String
  | .any => "any"
  | .bool => "bool"
  | .int => "int"
  | .float => "float"
  | .ints => "array[int]"

/-- The word for a base in messages about literals. -/
def word : Base → String
  | .any => "Any"
  | .bool => "Bool"
  | .int => "Int"
  | .float => "Float"
  | .ints => "IntArray"

end Base

namespace Ty

def plain (b : Base) : Ty := ⟨b, .plain⟩

def any : Ty := plain .any
def bool : Ty := plain .bool
def int : Ty := plain .int
def float : Ty := plain .float
def ints : Ty := plain .ints

def leftHand (t : Ty) : Ty := ⟨t.base, .leftHand⟩

def reference (t : Ty) : Ty := ⟨t.base, .reference⟩

def strip (t : Ty) : Ty := plain t.base

def isAny (t : Ty) : Bool := t.base = .any

def isQualified (t : Ty) : Bool := t.qualifier ≠ .plain

def forms (t : Ty) : List Ty := [t.strip, t.leftHand, t.reference]

def accepts (slot child : Ty) : Bool := slot.isAny || slot = child || child.strip = slot

def name (t : Ty) : String :=
  match t.qualifier with
  | .plain => t.base.name
  | .reference => "ref[" ++ t.base.name ++ "]"
  | .leftHand => "lvalue[" ++ t.base.name ++ "]"

@[simp] theorem accepts_self (t : Ty) : t.accepts t = true := by simp [accepts]

theorem accepts_iff {slot child : Ty} :
    slot.accepts child = true ↔ slot.base = .any ∨ slot = child ∨ child.strip = slot := by
  simp [accepts, isAny, or_assoc]

end Ty
end Grove
