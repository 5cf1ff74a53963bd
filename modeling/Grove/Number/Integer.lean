/-! Whole numbers in decimal. `digits` writes a natural number without leading zeros; `readDigits`
takes any non-empty run of digits; `readInt` adds a sign and refuses what lies outside its bounds,
and `readNat` is the same for numbers that have no minus. -/

namespace Grove

def digitChar (d : Nat) : Char := Char.ofNat (48 + d)

def digitValue? (c : Char) : Option Nat :=
  if 48 ≤ c.toNat ∧ c.toNat ≤ 57 then some (c.toNat - 48) else none

def isDigit (c : Char) : Bool := (digitValue? c).isSome

/-- Digits of `n` in front of `acc`; the first argument bounds their number. -/
def digitsOnto : Nat → Nat → List Char → List Char
  | 0, _, acc => acc
  | room + 1, n, acc =>
    if n < 10 then digitChar n :: acc else digitsOnto room (n / 10) (digitChar (n % 10) :: acc)

def digits (n : Nat) : List Char := digitsOnto (n + 1) n []

def decimal : Int → List Char
  | .ofNat n => digits n
  | .negSucc n => '-' :: digits (n + 1)

def foldDigits : Nat → List Char → Option Nat
  | n, [] => some n
  | n, c :: cs => (digitValue? c).bind fun d => foldDigits (10 * n + d) cs

def readDigits : List Char → Option Nat
  | [] => none
  | cs => foldDigits 0 cs

def readSigned : List Char → Option Int
  | '-' :: cs => (readDigits cs).map fun n => -(n : Int)
  | '+' :: cs => (readDigits cs).map Int.ofNat
  | cs => (readDigits cs).map Int.ofNat

/-- A signed number between `lo` and `hi`. -/
def readInt (lo hi : Int) (cs : List Char) : Option Int :=
  (readSigned cs).filter fun n => lo ≤ n && n ≤ hi

/-- An unsigned number below `bound`; a plus may stand in front. -/
def readNat (bound : Nat) : List Char → Option Nat
  | '+' :: cs => (readDigits cs).filter (· < bound)
  | cs => (readDigits cs).filter (· < bound)

/-- The numbers of words of 32 and of 64 bits. -/
def words32 : Nat := 4294967296

def words64 : Nat := 18446744073709551616

def showNat (n : Nat) : String := String.ofList (digits n)

def showInt (n : Int) : String := String.ofList (decimal n)

end Grove
