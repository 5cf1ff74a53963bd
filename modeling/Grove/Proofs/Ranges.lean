import Grove.Proofs.Drawing
import Grove.Proofs.FloatSums
import Grove.Random.XorShift

/-! Literals in range. Between bounds that are finite every draw gives a literal of the base asked for and within the
bounds, whatever the source of words; only the width of a range of floats must not overflow. -/

namespace Grove

open FloatRounding

namespace LiteralRanges

/-- Where the lower bound is not below the upper one, it is the only number. -/
def CoversInt (r : LiteralRanges) (i : Int32) : Prop :=
  if r.intMin < r.intMax then r.intMin ≤ i ∧ i ≤ r.intMax else i = r.intMin

def CoversFloat (r : LiteralRanges) (x : Float) : Prop :=
  if r.floatMin < r.floatMax then r.floatMin ≤ x ∧ x < r.floatMax else x = r.floatMin

def Covers (r : LiteralRanges) : Value → Prop
  | .bool _ => True
  | .int i => r.CoversInt i
  | .float x => r.CoversFloat x
  | .ints is => is.length ≤ r.maxArrayLength ∧ ∀ i ∈ is, r.CoversInt i

/-- The width of the range of floats is infinite. -/
def TooWide (r : LiteralRanges) : Prop := r.floatMin < r.floatMax ∧ (r.floatMax - r.floatMin).isFinite = false

end LiteralRanges

theorem Gives.returned {ε σ α : Type} {x : StateT σ (Except ε) α} {P : α → Prop} (h : Gives (fun _ => False) x P)
    (s : σ) : ∃ a s', x s = .ok (a, s') ∧ P a := by
  cases hx : x s with
  | error e => exact (h.breaks hx).elim
  | ok r => exact ⟨r.1, r.2, rfl, h.returns hx⟩

section Floats

theorem isNaN_of_lt {x y : Float} (h : x < y) : x.isNaN = false := by
  rw [lt_iff_parts] at h
  change (parts x).isNaN = false
  cases hx : parts x with
  | notANumber =>
    rw [hx] at h
    cases h
  | _ => rfl

theorem le_refl_of_finite {x : Float} (h : x.isFinite = true) : x ≤ x := by
  obtain ⟨v, hv⟩ := exists_stands h
  exact le_iff_parts.2 ((hv.le_iff hv).2 le_rfl)

end Floats

variable {σ : Type} [WordSource σ] {broken : Violation → Prop}

namespace Draw

theorem unit_nonNeg : Gives broken (unit : Draw σ Float) fun x => NonNeg (parts x) := by
  have hsteps : parts unitSteps = .finite .positive (2 ^ 52) 0 (by decide) := rfl
  refine (raw_gives .double).bind fun v _ => .pure ?_
  rw [parts_div, hsteps]
  exact ((nonNeg_ofUInt64 _).settle.div _).settle

/-- What is drawn is tested against the upper bound, and rounding keeps it from falling below the lower one. -/
theorem floatWithin_range {low high scale : Float} (hlow : low.isFinite = true) (hlt : low < high)
    (hscale : NonNeg (parts scale)) (tries : Nat) :
    Gives broken (floatWithin low high scale tries : Draw σ Float) fun x => low ≤ x ∧ x < high := by
  induction tries with
  | zero => exact .pure ⟨le_refl_of_finite hlow, hlt⟩
  | succ tries ih =>
    refine unit_nonNeg.bind fun u hu => ?_
    dsimp only
    split_ifs with hx
    · have hproduct : NonNeg (parts (u * scale)) := by
        rw [parts_mul]
        exact (hu.mul hscale).settle
      exact .pure ⟨le_add hproduct hlow (isNaN_of_lt hx), hx⟩
    · exact ih

end Draw

namespace LiteralRanges

variable {r : LiteralRanges}

theorem float_range (hmin : r.floatMin.isFinite = true) (hmax : r.floatMax.isFinite = true) (hr : ¬ r.TooWide) :
    Gives broken (r.float : Draw σ Float) r.CoversFloat := by
  unfold float CoversFloat
  split_ifs with hlt
  · have hwidth : (r.floatMax - r.floatMin).isFinite = true := by
      by_contra hinfinite
      exact hr ⟨hlt, by simpa using hinfinite⟩
    unfold Draw.floatIn
    dsimp only
    rw [if_pos hwidth]
    exact Draw.floatWithin_range hmin hlt (nonNeg_sub hmin hmax hlt) _
  · exact .pure rfl

theorem float_tooWide (hr : r.TooWide) (s : σ) : (r.float : Draw σ Float) s = .error .rangeOverflow := by
  unfold float
  rw [if_pos hr.1, Draw.floatIn, if_neg (by simp [hr.2])]
  rfl

/-- A range of all words has every number; in any other one the draw is added to the lower bound. -/
theorem int_between {low high : Int32} (hlt : low < high) {n k : Nat} (hn : (high.toInt - low.toInt).toNat = n)
    (hk : k ≤ n) :
    let i := if n + 1 = words32 then Int32.ofNat k else Int32.ofInt (low.toInt + k)
    low ≤ i ∧ i ≤ high := by
  have hwords : words32 = 4294967296 := rfl
  rw [Int32.lt_iff_toInt_lt] at hlt
  have hlow := low.le_toInt
  have hhigh := high.toInt_lt
  simp only [Int32.le_iff_toInt_le]
  split_ifs with hall
  · have := (Int32.ofNat k).le_toInt
    have := (Int32.ofNat k).toInt_lt
    omega
  · have hsum : (Int32.ofInt (low.toInt + k)).toInt = low.toInt + k := Int32.toInt_ofInt_of_le (by omega) (by omega)
    omega

theorem int_range (r : LiteralRanges) : Gives broken (r.int : Draw σ Int32) r.CoversInt := by
  unfold int CoversInt
  split_ifs with hlt
  · exact (Draw.uniform_gives ..).bind fun k _ => .pure (int_between hlt rfl (Nat.le_of_lt_succ k.isLt))
  · exact .pure rfl

theorem ints_range (r : LiteralRanges) (n : Nat) :
    Gives broken (r.ints n : Draw σ (List Int32)) fun is => is.length = n ∧ ∀ i ∈ is, r.CoversInt i := by
  induction n with
  | zero => exact .pure ⟨rfl, nofun⟩
  | succ n ih =>
    refine r.int_range.bind fun i hi => ih.bind fun is his => .pure ⟨?_, ?_⟩
    · rw [List.length_cons, his.1]
    · exact List.forall_mem_cons.2 ⟨hi, his.2⟩

theorem array_range (r : LiteralRanges) :
    Gives broken (r.array : Draw σ (List Int32)) fun is => is.length ≤ r.maxArrayLength ∧ ∀ i ∈ is, r.CoversInt i := by
  refine (Draw.uniform_gives ..).bind fun n _ => (r.ints_range n.val).mono fun is his => ⟨?_, his.2⟩
  rw [his.1]
  exact Nat.le_of_lt_succ n.isLt

end LiteralRanges

namespace LiteralRanges

theorem literal_gives_in_range {r : LiteralRanges} (hmin : r.floatMin.isFinite = true)
    (hmax : r.floatMax.isFinite = true) {b : Base} (hb : b ≠ .any) (hr : ¬ (b = .float ∧ r.TooWide)) :
    Gives broken (r.literal b : Draw σ Value) fun v => v.base = b ∧ r.Covers v := by
  cases b with
  | any => exact absurd rfl hb
  | bool => exact Draw.bool_gives.bind fun _ _ => .pure ⟨rfl, trivial⟩
  | int => exact r.int_range.bind fun _ hi => .pure ⟨rfl, hi⟩
  | float => exact (float_range hmin hmax fun hwide => hr ⟨rfl, hwide⟩).bind fun _ hx => .pure ⟨rfl, hx⟩
  | ints => exact r.array_range.bind fun _ his => .pure ⟨rfl, his⟩

theorem literal_tooWide {r : LiteralRanges} (hr : r.TooWide) (s : σ) :
    (r.literal .float : Draw σ Value) s = .error .rangeOverflow := by
  change ((r.float : Draw σ Float) >>= _) s = _
  exact Result.bind_error.2 (.inl (float_tooWide hr s))

end LiteralRanges

/-- From finite bounds a literal is drawn of any base, within the bounds, whatever the source of words; only from floats
in a range of infinite width none is drawn, and the draw breaks off. -/
theorem literal_in_range {r : LiteralRanges} (hmin : r.floatMin.isFinite = true) (hmax : r.floatMax.isFinite = true)
    {b : Base} (hb : b ≠ .any) (s : σ) :
    (b = .float ∧ r.TooWide → (r.literal b : Draw σ Value) s = .error .rangeOverflow) ∧
    (¬ (b = .float ∧ r.TooWide) → ∃ v s', (r.literal b : Draw σ Value) s = .ok (v, s') ∧ v.base = b ∧ r.Covers v) := by
  refine ⟨?_, fun hr => (LiteralRanges.literal_gives_in_range hmin hmax hb hr).returned s⟩
  rintro ⟨rfl, hwide⟩
  exact LiteralRanges.literal_tooWide hwide s

/-- Floats from minus one up to one. -/
theorem literal_in_range_standard : LiteralRanges.standard.floatMin.isFinite = true ∧
    LiteralRanges.standard.floatMax.isFinite = true ∧ Base.float ≠ .any ∧ ¬ LiteralRanges.standard.TooWide ∧
    ∃ x s', (LiteralRanges.standard.literal .float : Draw XorShift Value) (.ofSeed 0) = .ok (.float x, s') ∧
      -1.0 ≤ x ∧ x < 1.0 := by
  have hmin : LiteralRanges.standard.floatMin.isFinite = true := by decide
  have hmax : LiteralRanges.standard.floatMax.isFinite = true := by decide
  have hlt : LiteralRanges.standard.floatMin < LiteralRanges.standard.floatMax := by decide
  have hbase : Base.float ≠ .any := by decide
  have hnarrow : ¬ LiteralRanges.standard.TooWide := fun h => absurd h.2 (by decide)
  obtain ⟨v, s', hv, hdrawn, hcovers⟩ := (literal_in_range hmin hmax hbase (XorShift.ofSeed 0)).2 fun h => hnarrow h.2
  cases v with
  | float x =>
    have hwithin : LiteralRanges.standard.CoversFloat x := hcovers
    unfold LiteralRanges.CoversFloat at hwithin
    rw [if_pos hlt] at hwithin
    exact ⟨hmin, hmax, hbase, hnarrow, x, s', hv, hwithin⟩
  | _ => cases hdrawn

namespace LiteralRanges

def widest : LiteralRanges := ⟨-10, 10, Float.ofBits 0xFFEFFFFFFFFFFFFF, Float.ofBits 0x7FEFFFFFFFFFFFFF, 8⟩

/-- Its bounds are finite and in order, but no float is drawn. -/
theorem widest_breaks : widest.floatMin.isFinite = true ∧ widest.floatMax.isFinite = true ∧
    widest.floatMin < widest.floatMax ∧
    (widest.literal .float : Draw XorShift Value) (.ofSeed 0) = .error .rangeOverflow :=
  ⟨by decide, by decide, by decide, rfl⟩

end LiteralRanges
end Grove
