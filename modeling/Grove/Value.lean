import Grove.Text.Blank
import Grove.Number.Floating
import Grove.Type

/-! Plain values and their literals. `Value.text` writes the canonical literal; `Value.parse` reads
it back, with blanks at the ends, a plus sign and leading zeros allowed besides. -/

namespace Grove

inductive Value where
  | bool (b : Bool)
  | int (i : Int32)
  | float (x : Float)
  | ints (xs : List Int32)
  deriving DecidableEq

/-- Why a literal was refused; the text is the literal without the blanks at its ends. -/
inductive LiteralError where
  | wildcard
  | invalid (text : String) (base : Base)
  | unbracketed (text : String)
  | element (text : String)
  deriving DecidableEq

def LiteralError.message : LiteralError → String
  | wildcard => "the wildcard type has no literals"
  | invalid text base => "`" ++ text ++ "` is not a valid " ++ base.word ++ " literal"
  | unbracketed text => "`" ++ text ++ "` is not a bracketed array literal"
  | element text => "`" ++ text ++ "` is not a valid int array literal"

def splitOnChar (sep : Char) : List Char → List (List Char)
  | [] => [[]]
  | c :: cs =>
    if c = sep then [] :: splitOnChar sep cs
    else match splitOnChar sep cs with
      | [] => [[c]]
      | part :: parts => (c :: part) :: parts

def minInt32 : Int := -2147483648
def maxInt32 : Int := 2147483647

def readInt32 (cs : List Char) : Option Int32 := (readInt minInt32 maxInt32 cs).map Int32.ofInt

def int32Text (i : Int32) : List Char := decimal i.toInt

def intsText : List Int32 → List Char
  | [] => []
  | [i] => int32Text i
  | i :: is => int32Text i ++ ',' :: intsText is

def unbracket? : List Char → Option (List Char)
  | '[' :: cs => if cs.getLast? = some ']' then some cs.dropLast else none
  | _ => none

def readInts (inner : List Char) : Option (List Int32) :=
  if (trim inner).isEmpty then some []
  else (splitOnChar ',' inner).mapM fun part => readInt32 (trim part)

namespace Value

def base : Value → Base
  | bool _ => .bool
  | int _ => .int
  | float _ => .float
  | ints _ => .ints

/-- The default value of a base; the wildcard has none. -/
def default? : Base → Option Value
  | .any => none
  | .bool => some (bool false)
  | .int => some (int 0)
  | .float => some (float 0.0)
  | .ints => some (ints [])

def initial (b : Base) (h : b ≠ .any) : Value :=
  match b, h with
  | .bool, _ => bool false
  | .int, _ => int 0
  | .float, _ => float 0.0
  | .ints, _ => ints []

def text : Value → List Char
  | bool true => "true".toList
  | bool false => "false".toList
  | int i => int32Text i
  | float x => floatText x
  | ints xs => '[' :: intsText xs ++ [']']

def render (v : Value) : String := String.ofList v.text

def readBool (cs : List Char) : Option Bool :=
  if cs = "true".toList then some true else if cs = "false".toList then some false else none

def parse (base : Base) (literal : String) : Except LiteralError Value :=
  let cs := trim literal.toList
  let orElse (v : Option Value) (e : LiteralError) := v.elim (.error e) .ok
  let invalid := LiteralError.invalid (String.ofList cs) base
  match base with
  | .any => .error .wildcard
  | .bool => orElse ((readBool cs).map bool) invalid
  | .int => orElse ((readInt32 cs).map int) invalid
  | .float => orElse ((readFloat cs).map float) invalid
  | .ints =>
    match unbracket? cs with
    | none => .error (.unbracketed (String.ofList cs))
    | some inner => orElse ((readInts inner).map ints) (.element (String.ofList cs))

/-- Equality of contents: floats compare as numbers, so NaN differs from itself and the two zeros
are equal. -/
def same : Value → Value → Bool
  | bool a, bool b => a = b
  | int a, int b => a = b
  | float a, float b => a == b
  | ints a, ints b => a = b
  | _, _ => false

theorem base_ne_any (v : Value) : v.base ≠ .any := by cases v <;> simp [base]

theorem default?_of_ne {b : Base} (h : b ≠ .any) : default? b = some (initial b h) := by
  cases b <;> first | exact absurd rfl h | rfl

@[simp] theorem base_initial {b : Base} (h : b ≠ .any) : (initial b h).base = b := by
  cases b <;> first | exact absurd rfl h | rfl

end Value
end Grove
