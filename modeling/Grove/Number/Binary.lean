/-! Binary floating-point formats, as bit patterns. A `Format` gives the widths of the fraction and
exponent fields. `decode` splits a pattern into a sign and `m * 2 ^ q`; `nearest` rounds a positive
quotient to the closest pattern, a tie going to the even one, and anything too large to infinity. -/

namespace Grove

structure Format where
  fraction : Nat
  exponent : Nat
  deriving DecidableEq

def binary64 : Format := ⟨52, 11⟩
def binary32 : Format := ⟨23, 8⟩

/-- What a bit pattern stands for; a finite one is `m * 2 ^ q`, up to its sign. -/
inductive Real2 where
  | nan
  | infinite (negative : Bool)
  | finite (negative : Bool) (m : Nat) (q : Int)
  deriving DecidableEq

namespace Format

/-- The exponent `q` of the smallest positive pattern. -/
def minExp (f : Format) : Int := 2 - (Nat.pow 2 (f.exponent - 1) : Nat) - f.fraction

def infinity (f : Format) : Nat := (Nat.pow 2 f.exponent - 1) * Nat.pow 2 f.fraction

def signBit (f : Format) : Nat := Nat.pow 2 (f.exponent + f.fraction)

def quietNaN (f : Format) : Nat := f.infinity + Nat.pow 2 (f.fraction - 1)

def decode (f : Format) (bits : Nat) : Real2 :=
  let negative := decide (f.signBit ≤ bits)
  let magnitude := bits % f.signBit
  let field := magnitude / Nat.pow 2 f.fraction
  let m := magnitude % Nat.pow 2 f.fraction
  if f.infinity < magnitude then .nan
  else if magnitude = f.infinity then .infinite negative
  else if field = 0 then .finite negative m f.minExp
  else .finite negative (m + Nat.pow 2 f.fraction) (f.minExp + (field - 1 : Nat))

/-- Division to the nearest whole number, a half going to the even one. -/
def roundDiv (num den : Nat) : Nat :=
  let m := num / den
  let twice := 2 * (num % den)
  if twice < den then m else if den < twice then m + 1 else m + m % 2

/-- The greatest `l` with `2 ^ l ≤ num / den`. -/
def floorLog2 (num den : Nat) : Int :=
  let l : Int := Nat.log2 num - Nat.log2 den
  if num * Nat.pow 2 (-l).toNat < den * Nat.pow 2 l.toNat then l - 1 else l

/-- The pattern, without its sign, nearest to `num / den`. -/
def nearest (f : Format) (num den : Nat) : Nat :=
  if num = 0 then 0 else
    let q := max f.minExp (floorLog2 num den - f.fraction)
    let m := roundDiv (num * Nat.pow 2 (-q).toNat) (den * Nat.pow 2 q.toNat)
    min f.infinity ((q - f.minExp).toNat * Nat.pow 2 f.fraction + m)

end Format
end Grove
