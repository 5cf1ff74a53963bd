import Grove.Number.Binary

/-! The fewest decimal digits that read back. The reals that round to `m * 2 ^ q` form an interval
around it, with its ends when `m` is even. On the grids of 1, 2, 3, … digits the two neighbours of the
value are tried; the first grid with a neighbour inside the interval wins, and of two neighbours
inside the nearer, a tie going up. -/

namespace Grove.Format

/-- A positive value with the ends of its rounding interval, over one denominator. -/
structure Span where
  low : Nat
  value : Nat
  high : Nat
  den : Nat
  closed : Bool

/-- Below a power of two the gap is half as wide. -/
def span (f : Format) (m : Nat) (q : Int) : Span :=
  let below := if m = Nat.pow 2 f.fraction then 1 else 2
  let up := Nat.pow 2 (q - 2).toNat
  ⟨(4 * m - below) * up, 4 * m * up, (4 * m + 2) * up, Nat.pow 2 (2 - q).toNat, m % 2 = 0⟩

namespace Span

/-- The same value in units of `10 ^ k`. -/
def scale (s : Span) (k : Int) : Span :=
  let up := Nat.pow 10 (-k).toNat
  ⟨s.low * up, s.value * up, s.high * up, s.den * Nat.pow 10 k.toNat, s.closed⟩

def holds (s : Span) (d : Nat) : Bool :=
  let x := d * s.den
  if s.closed then s.low ≤ x && x ≤ s.high else s.low < x && x < s.high

/-- The neighbour of the value that lies inside, if any. -/
def neighbour? (s : Span) : Option Nat :=
  let d := s.value / s.den
  match s.holds d, s.holds (d + 1) with
  | false, false => none
  | true, false => some d
  | false, true => some (d + 1)
  | true, true => some (if 2 * (s.value % s.den) < s.den then d else d + 1)

/-- The first grid, from `10 ^ k` downwards, that has a neighbour inside. -/
def search (s : Span) : Nat → Int → Nat × Int
  | 0, k => (s.value / s.den, k)
  | room + 1, k =>
    match (s.scale k).neighbour? with
    | some d => (d, k)
    | none => search s room (k - 1)

/-- An exponent `k` with the value below `10 ^ (k + 1)`, and not far below. -/
def topExp (s : Span) : Int :=
  ((Nat.log2 s.value : Int) - Nat.log2 s.den) * 30103 / 100000 + 1

end Span

/-- Moves factors of ten from the digits into the exponent. -/
def dropZeros : Nat → Nat → Int → Nat × Int
  | 0, d, k => (d, k)
  | room + 1, d, k => if d % 10 = 0 && d != 0 then dropZeros room (d / 10) (k + 1) else (d, k)

/-- Digits `d` and exponent `k`, with `d * 10 ^ k` the shortest form of `m * 2 ^ q`. -/
def shortest (f : Format) (m : Nat) (q : Int) : Nat × Int :=
  if m = 0 then (0, 0) else
    let s := f.span m q
    let (d, k) := s.search 40 s.topExp
    dropZeros 40 d k

end Grove.Format
