import Grove.Error

/-! Random draws from any source of words. A draw in a range multiplies a word by the size of the
range and takes the upper half of the product, drawing again where that would favour some values.
After `patience` rounds in vain a draw falls back to the lowest value of its range, so every draw ends
whatever the source. -/

namespace Grove

class WordSource (σ : Type) where
  next : σ → UInt32 × σ

/-- A computation with random draws, which may break a promise of its caller. -/
abbrev Draw (σ : Type) : Type → Type := StateT σ (Except Violation)

/-- A computation with random draws, which may also be refused. -/
abbrev Attempt (σ : Type) : Type → Type := ExceptT Error (Draw σ)

/-- How many words make up one draw. -/
inductive Width where
  | single
  | double
  deriving DecidableEq

def Width.bits : Width → Nat
  | single => 32
  | double => 64

def Width.values : Width → Nat
  | single => words32
  | double => words64

namespace Draw

variable {σ : Type} [WordSource σ] {α : Type}

def patience : Nat := 10000

def violate (v : Violation) : Draw σ α := throw v

def word : Draw σ UInt32 := fun s => .ok (WordSource.next s)

theorem toNat_lt_values (v : UInt32) : v.toNat < Width.single.values := v.toNat_lt

theorem pair_lt_values (lo hi : UInt32) :
    lo.toNat + hi.toNat * words32 < Width.double.values := by
  have := lo.toNat_lt
  have := hi.toNat_lt
  simp only [Width.values, words32, words64]
  omega

/-- One word, or two of which the first is the lower half. -/
def raw : (w : Width) → Draw σ (Fin w.values)
  | .single => do
    let v ← word
    return ⟨v.toNat, toNat_lt_values v⟩
  | .double => do
    let lo ← word
    let hi ← word
    return ⟨lo.toNat + hi.toNat * words32, pair_lt_values lo hi⟩

def bool : Draw σ Bool := return 0x80000000 ≤ (← word)

/-- Lower halves below this leave every value equally likely. -/
def zone (w : Width) (size : Nat) : Nat := size * Nat.pow 2 (w.bits - 1 - Nat.log2 size)

theorem upper_lt (w : Width) (n : Nat) (v : Fin w.values) :
    v.val * (n + 1) / w.values < n + 1 :=
  Nat.div_lt_of_lt_mul (Nat.mul_lt_mul_of_pos_right v.isLt n.succ_pos)

def uniformWithin (w : Width) (n : Nat) : Nat → Draw σ (Fin (n + 1))
  | 0 => return 0
  | tries + 1 => do
    let v ← raw w
    if v.val * (n + 1) % w.values < zone w (n + 1) then
      return ⟨v.val * (n + 1) / w.values, upper_lt w n v⟩
    else uniformWithin w n tries

/-- A number from `0` to `n`, all equally likely. -/
def uniform (w : Width) (n : Nat) : Draw σ (Fin (n + 1)) := do
  if h : w.values ≤ n + 1 then
    let v ← raw w
    return ⟨v.val, Nat.lt_of_lt_of_le v.isLt h⟩
  else uniformWithin w n patience

/-- A member of a list; nothing is drawn for an empty one. -/
def choose : List α → Draw σ (Option α)
  | [] => return none
  | x :: xs => return some (x :: xs)[← uniform .single xs.length]

def unitSteps : Float := 4503599627370496.0

/-- A multiple of `2 ^ -52` from `0` up to but not including `1`. -/
def unit : Draw σ Float := do
  let v ← raw .double
  return (UInt64.ofNat (v.val / 4096)).toFloat / unitSteps

def floatWithin (low high scale : Float) : Nat → Draw σ Float
  | 0 => return low
  | tries + 1 => do
    let x := (← unit) * scale + low
    if x < high then return x else floatWithin low high scale tries

/-- A number from `low` up to but not including `high`. -/
def floatIn (low high : Float) : Draw σ Float := do
  let scale := high - low
  if scale.isFinite then floatWithin low high scale patience else violate .rangeOverflow

/-- The sum of all weights, in front of the sums up to each but the last one, these newest first. -/
def sums : List Float → Option (Float × List Float)
  | [] => none
  | w :: ws =>
    if w ≥ 0.0 then
      ws.foldlM (fun (total, former) w =>
        if w ≥ 0.0 then some (total + w, total :: former) else none) (w, [])
    else none

/-- A factor that keeps all units below the total. -/
def fitScale (total : Float) : Nat → Float → Float
  | 0, scale => scale
  | tries + 1, scale =>
    let top := 1.0 - 1.0 / unitSteps
    if scale * top + 0.0 ≥ total then fitScale total tries (Float.ofBits (scale.toBits - 1))
    else scale

/-- An index, drawn in proportion to its weight. There is none unless all weights are numbers that
are not negative, and some weight is positive. -/
def weighted (weights : List Float) : Draw σ (Option Nat) := do
  match sums weights with
  | none => return none
  | some (total, former) =>
    if total == 0.0 then return none
    if !total.isFinite then violate .weightOverflow
    let x := (← unit) * fitScale total patience total + 0.0
    return some (former.filter (· ≤ x)).length

end Draw
end Grove
