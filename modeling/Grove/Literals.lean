import Grove.Random
import Grove.Value

/-! Random literals. `LiteralRanges` bounds them; where the lower bound is not below the upper one, the
lower bound is the only number. -/

namespace Grove

structure LiteralRanges where
  intMin : Int32
  intMax : Int32
  floatMin : Float
  floatMax : Float
  maxArrayLength : Nat
  deriving DecidableEq

namespace LiteralRanges

def standard : LiteralRanges := ⟨-10, 10, -1.0, 1.0, 8⟩

/-- Equality, with the float bounds compared as numbers. -/
def same (a b : LiteralRanges) : Bool :=
  a.intMin = b.intMin && a.intMax = b.intMax && a.floatMin == b.floatMin && a.floatMax == b.floatMax
    && a.maxArrayLength = b.maxArrayLength

variable {σ : Type} [WordSource σ]

/-- The range of all words is drawn as a word, and any other from its lower end. -/
def int (r : LiteralRanges) : Draw σ Int32 := do
  if r.intMin < r.intMax then
    let n := (r.intMax.toInt - r.intMin.toInt).toNat
    let k ← Draw.uniform .single n
    return if n + 1 = words32 then Int32.ofNat k.val else Int32.ofInt (r.intMin.toInt + k.val)
  else return r.intMin

def float (r : LiteralRanges) : Draw σ Float := do
  if r.floatMin < r.floatMax then Draw.floatIn r.floatMin r.floatMax else return r.floatMin

def ints (r : LiteralRanges) : Nat → Draw σ (List Int32)
  | 0 => return []
  | n + 1 => return (← r.int) :: (← r.ints n)

def array (r : LiteralRanges) : Draw σ (List Int32) := do
  let n ← Draw.uniform .double r.maxArrayLength
  r.ints n.val

def literal (r : LiteralRanges) : Base → Draw σ Value
  | .any => Draw.violate .wildcardLiteral
  | .bool => return .bool (← Draw.bool)
  | .int => return .int (← r.int)
  | .float => return .float (← r.float)
  | .ints => return .ints (← r.array)

end LiteralRanges
end Grove
