import Grove.Number.Integer
import Grove.Number.Shortest

/-! Floating-point numbers as text. A numeral is `inf`, `infinity` or `nan` in any case, or digits
with an optional point and exponent, and a sign may stand in front; it is rounded once, to the format
asked for. Numbers are written with the fewest digits that read back, positionally from
`0.0001` up to `10 ^ 16` and else with an exponent. -/

namespace Grove

/-- A numeral as written; `decimal` is `m * 10 ^ e`. -/
inductive Numeral where
  | nan
  | infinite (negative : Bool)
  | decimal (negative : Bool) (m : Nat) (e : Int)
  deriving DecidableEq

namespace Numeral

def lower (cs : List Char) : List Char := cs.map Char.toLower

/-- The exponent part, with nothing left over. -/
def readExponent : List Char → Option Int
  | [] => some 0
  | c :: cs => if c = 'e' ∨ c = 'E' then readSigned cs else none

def readPlain (negative : Bool) (cs : List Char) : Option Numeral :=
  let whole := cs.takeWhile isDigit
  let rest := cs.dropWhile isDigit
  let (places, rest) := match rest with
    | '.' :: rest => (rest.takeWhile isDigit, rest.dropWhile isDigit)
    | rest => ([], rest)
  (readDigits (whole ++ places)).bind fun m =>
    (readExponent rest).map fun e => .decimal negative m (e - places.length)

def readUnsigned (negative : Bool) (cs : List Char) : Option Numeral :=
  let word := lower cs
  if word = "inf".toList ∨ word = "infinity".toList then some (.infinite negative)
  else if word = "nan".toList then some .nan
  else readPlain negative cs

def read : List Char → Option Numeral
  | '-' :: cs => readUnsigned true cs
  | '+' :: cs => readUnsigned false cs
  | cs => readUnsigned false cs

/-- The pattern of `f` for `m * 10 ^ e`; far outside every format's range no power is computed. -/
def magnitude (f : Format) (m : Nat) (e : Int) : Nat :=
  let size := (digits m).length + e
  if m = 0 ∨ size < -400 then 0
  else if 400 < size then f.infinity
  else f.nearest (m * Nat.pow 10 e.toNat) (Nat.pow 10 (-e).toNat)

def bits (f : Format) : Numeral → Nat
  | .nan => f.quietNaN
  | .infinite negative => (if negative then f.signBit else 0) + f.infinity
  | .decimal negative m e => (if negative then f.signBit else 0) + magnitude f m e

end Numeral

/-- How a number is laid out: the exponents written positionally (`low ≤ e ≤ high`, with the value
in `[10 ^ (e - 1), 10 ^ e)`), and the words for the values that have no digits. -/
structure FloatLayout where
  low : Int
  high : Int
  nan : String
  infinite : String

/-- Positional from `0.0001` up to `10 ^ 16`. -/
def floatLayout : FloatLayout := ⟨-3, 16, "NaN", "inf"⟩

namespace FloatLayout

def zeros (n : Nat) : List Char := List.replicate n '0'

/-- The digits `ds` times `10 ^ k`, with at least one digit on each side of the point. -/
def positional (ds : List Char) (k : Int) : List Char :=
  let point := ds.length + k
  if point ≤ 0 then '0' :: '.' :: zeros (-point).toNat ++ ds
  else if 0 ≤ k then ds ++ zeros k.toNat ++ ['.', '0']
  else ds.take point.toNat ++ '.' :: ds.drop point.toNat

def scientific (ds : List Char) (k : Int) : List Char :=
  let e := 'e' :: Grove.decimal (ds.length + k - 1)
  match ds with
  | [] => e
  | [d] => d :: e
  | d :: ds => d :: '.' :: ds ++ e

def unsigned (l : FloatLayout) (d : Nat) (k : Int) : List Char :=
  let ds := digits d
  let point := ds.length + k
  if d = 0 ∨ (l.low ≤ point ∧ point ≤ l.high) then positional ds k else scientific ds k

def sign (negative : Bool) : List Char := if negative then ['-'] else []

def render (l : FloatLayout) (f : Format) : Real2 → List Char
  | .nan => l.nan.toList
  | .infinite negative => sign negative ++ l.infinite.toList
  | .finite negative m q => sign negative ++ (let (d, k) := f.shortest m q; l.unsigned d k)

end FloatLayout

def readFloat (cs : List Char) : Option Float :=
  (Numeral.read cs).map fun n => Float.ofBits (UInt64.ofNat (n.bits binary64))

def readFloat32 (cs : List Char) : Option Float32 :=
  (Numeral.read cs).map fun n => Float32.ofBits (UInt32.ofNat (n.bits binary32))

def floatText (x : Float) : List Char :=
  floatLayout.render binary64 (binary64.decode x.toBits.toNat)

def float32Text (x : Float32) : List Char :=
  floatLayout.render binary32 (binary32.decode x.toBits.toNat)

def showFloat (x : Float) : String := String.ofList (floatText x)

def showFloat32 (x : Float32) : String := String.ofList (float32Text x)

end Grove
