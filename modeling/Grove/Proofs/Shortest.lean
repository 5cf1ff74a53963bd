import Grove.Number.Shortest
import Grove.Proofs.Rounding
import Mathlib.Algebra.Order.Field.Power
import Mathlib.Algebra.Order.Floor.Semifield

/-! The shortest form of a number rounds to it. A grid of powers of ten that is finer than the interval of a number has
a point inside, and the search ends on the first grid that has one. -/

namespace Grove.Format

variable {f : Format} {m : Nat} {q k : Int} {x : ℚ}

theorem Between.mul_iff {closed : Bool} {low high u : ℚ} (hu : 0 < u) :
    Between closed low high (x * u) ↔ Between closed (low / u) (high / u) x := by
  unfold Between
  rw [le_div_iff₀ hu, div_le_iff₀ hu, lt_div_iff₀ hu, div_lt_iff₀ hu]

namespace Span

variable {s : Span}

def Holds (s : Span) (x : ℚ) : Prop := Between s.closed (s.low / s.den) (s.high / s.den) x

theorem holds_iff (hd : 0 < s.den) (d : Nat) : s.holds d = true ↔ s.Holds d := by
  have hdq : (0 : ℚ) < s.den := Nat.cast_pos.2 hd
  unfold holds Holds Between
  rw [div_le_iff₀ hdq, le_div_iff₀ hdq, div_lt_iff₀ hdq, lt_div_iff₀ hdq]
  norm_cast
  cases s.closed
  · simp
    omega
  · simp

theorem den_scale (hd : 0 < s.den) (k : Int) : 0 < (s.scale k).den := Nat.mul_pos hd (Nat.pow_pos (by decide))

theorem scale_div (s : Span) (a : Nat) (k : Int) :
    ((a * Nat.pow 10 (-k).toNat : Nat) : ℚ) / (s.scale k).den = a / s.den / 10 ^ k := by
  exact_mod_cast cast_shifted 10 a s.den k

theorem scale_holds : (s.scale k).Holds x ↔ s.Holds (x * 10 ^ k) := by
  unfold Holds
  rw [Between.mul_iff (zpow_pos (by norm_num) k), ← scale_div, ← scale_div]
  rfl

theorem holds_of_neighbour? {d : Nat} (h : s.neighbour? = some d) : s.holds d = true := by
  unfold neighbour? at h
  dsimp only at h
  split at h
  · simp at h
  · simp_all
  · simp_all
  · split at h <;> simp_all

theorem neighbour?_isSome (h : s.holds (s.value / s.den) = true) : s.neighbour?.isSome = true := by
  unfold neighbour?
  dsimp only
  rw [h]
  split <;> simp_all

/-- On a grid finer than the lower part of the interval, the value rounded down lies inside. -/
theorem holds_floor (hd : 0 < s.den) (hlow : (10 : ℚ) ^ k < s.value / s.den - s.low / s.den)
    (hhigh : s.value < s.high) : (s.scale k).holds ((s.scale k).value / (s.scale k).den) = true := by
  have hgrid : (0 : ℚ) < 10 ^ k := zpow_pos (by norm_num) k
  have hvalue : ((s.scale k).value : ℚ) / (s.scale k).den = s.value / s.den / 10 ^ k := s.scale_div s.value k
  have hfloor := Nat.floor_le (R := ℚ) (a := (s.scale k).value / (s.scale k).den) (by positivity)
  have hceil := Nat.lt_floor_add_one (R := ℚ) ((s.scale k).value / (s.scale k).den)
  rw [Nat.floor_div_eq_div, hvalue, le_div_iff₀ hgrid] at hfloor
  rw [Nat.floor_div_eq_div, hvalue, div_lt_iff₀ hgrid, add_mul, one_mul] at hceil
  rw [holds_iff (den_scale hd k), scale_holds]
  have htop : (s.value : ℚ) / s.den < s.high / s.den := by gcongr
  exact ⟨⟨by linarith, by linarith⟩, fun _ => ⟨by linarith, by linarith⟩⟩

/-- A search that passes a grid with a neighbour inside ends on such a grid. -/
theorem search_holds {room : Nat} {k : Int} {j : Nat} (hj : j < room)
    (h : (s.scale (k - j)).neighbour?.isSome = true) :
    (s.scale (s.search room k).2).holds (s.search room k).1 = true := by
  -- `j` counts the grids that are left before the one at hand
  induction room generalizing k j with
  | zero => omega
  | succ room ih =>
    unfold search
    split
    · rename_i d hd
      exact holds_of_neighbour? hd
    · rename_i hnone
      cases j with
      | zero => simp [hnone] at h
      | succ j =>
        apply ih (j := j) (by omega)
        rwa [sub_sub, add_comm 1 (j : Int), ← Nat.cast_succ]

end Span

/-- A power of ten that is well below a power of two by the ratios `3 / 10` and `28 / 93` is below it. -/
theorem ten_zpow_le (h : 10 * k ≤ 3 * q) (h' : 93 * k ≤ 28 * q) : (10 : ℚ) ^ k ≤ 2 ^ q := by
  -- the ratios are those of 10 ^ 3 < 2 ^ 10 for positive exponents and of 2 ^ 93 < 10 ^ 28 for negative ones
  rcases Int.le_total 0 k with hk | hk
  · obtain ⟨a, rfl⟩ := Int.eq_ofNat_of_zero_le hk
    obtain ⟨b, rfl⟩ := Int.eq_ofNat_of_zero_le (by omega : 0 ≤ q)
    rw [zpow_natCast, zpow_natCast, ← pow_le_pow_iff_left₀ (by positivity) (by positivity) (by decide : 10 ≠ 0)]
    calc ((10 : ℚ) ^ a) ^ 10 = 10 ^ (10 * a) := by rw [← pow_mul, mul_comm]
      _ ≤ 10 ^ (3 * b) := by
        apply pow_le_pow_right₀ (by norm_num)
        omega
      _ = (10 ^ 3) ^ b := by rw [pow_mul]
      _ ≤ (2 ^ 10) ^ b := by
        gcongr
        norm_num
      _ = (2 ^ b) ^ 10 := by rw [← pow_mul, ← pow_mul, mul_comm]
  · obtain ⟨a, rfl⟩ := Int.exists_eq_neg_ofNat hk
    have hb : -((-q).toNat : Int) ≤ q := by omega
    refine le_trans ?_ (zpow_le_zpow_right₀ one_le_two hb)
    generalize hq : (-q).toNat = b
    rw [zpow_neg, zpow_neg, zpow_natCast, zpow_natCast, inv_le_inv₀ (by positivity) (by positivity),
      ← pow_le_pow_iff_left₀ (by positivity) (by positivity) (by decide : 93 ≠ 0)]
    calc ((2 : ℚ) ^ b) ^ 93 = (2 ^ 93) ^ b := by rw [← pow_mul, ← pow_mul, mul_comm]
      _ ≤ (10 ^ 28) ^ b := by
        gcongr
        norm_num
      _ = 10 ^ (28 * b) := by rw [pow_mul]
      _ ≤ 10 ^ (93 * a) := by
        apply pow_le_pow_right₀ (by norm_num)
        omega
      _ = (10 ^ a) ^ 93 := by rw [← pow_mul, mul_comm]

theorem span_den_pos (f : Format) (m : Nat) (q : Int) : 0 < (f.span m q).den := Nat.two_pow_pos _

theorem span_div (f : Format) (m a : Nat) (q : Int) :
    ((a * Nat.pow 2 (q - 2).toNat : Nat) : ℚ) / (f.span m q).den = a / 4 * 2 ^ q := by
  have hshift := cast_shifted 2 a 1 (2 - q)
  rw [neg_sub, one_mul, Nat.cast_two, Nat.cast_one, div_one] at hshift
  unfold span
  dsimp only
  rw [hshift, zpow_sub₀ two_ne_zero]
  field_simp
  norm_num

theorem span_value (f : Format) (m : Nat) (q : Int) : ((f.span m q).value : ℚ) / (f.span m q).den = m * 2 ^ q := by
  have hvalue := f.span_div m (4 * m) q
  rwa [Nat.cast_mul 4, Nat.cast_ofNat, mul_div_cancel_left₀ _ four_ne_zero] at hvalue

theorem span_low (hm : 0 < m) : ((f.span m q).low : ℚ) / (f.span m q).den = (m - f.reach m) * 2 ^ q := by
  have hbelow : ((4 * m - (if m = Nat.pow 2 f.fraction then 1 else 2) : Nat) : ℚ) / 4 = m - f.reach m := by
    unfold reach
    rw [Nat.cast_sub (by split_ifs <;> omega), Nat.pow_eq]
    split_ifs <;> (push_cast; ring)
  rw [← hbelow]
  exact f.span_div m _ q

theorem span_holds (hm : 0 < m) : (f.span m q).Holds x ↔ f.Rounds m q x := by
  have hhigh : ((f.span m q).high : ℚ) / (f.span m q).den = (m + 1 / 2) * 2 ^ q := by
    have habove : ((4 * m + 2 : Nat) : ℚ) / 4 = m + 1 / 2 := by
      push_cast
      ring
    rw [← habove]
    exact f.span_div m _ q
  have hx : x = x / 2 ^ q * 2 ^ q := (div_mul_cancel₀ x (zpow_pos two_pos q).ne').symm
  rw [Span.Holds, span_low hm, hhigh, Rounds]
  conv_lhs => rw [hx]
  rw [Between.mul_iff (zpow_pos two_pos q), mul_div_cancel_right₀ _ (zpow_pos two_pos q).ne',
    mul_div_cancel_right₀ _ (zpow_pos two_pos q).ne']
  rfl

/-- The search starts on a grid that is not much wider than the value. -/
theorem topExp_le {b : Nat} (hm : 0 < m) (hb : m < 2 ^ b) : (f.span m q).topExp ≤ (b + q) * 30103 / 100000 + 1 := by
  have hvalue : 0 < (f.span m q).value := Nat.mul_pos (by omega) (Nat.two_pow_pos _)
  have hlog := (log2_quotient hvalue (f.span_den_pos m q)).1
  have hlt : (m * 2 ^ q : ℚ) < 2 ^ (b + q) := by
    rw [zpow_add₀ two_ne_zero, zpow_natCast]
    exact mul_lt_mul_of_pos_right (by exact_mod_cast hb) (zpow_pos two_pos q)
  rw [span_value] at hlog
  have := (zpow_lt_zpow_iff_right₀ one_lt_two).1 (hlog.trans_lt hlt)
  unfold Span.topExp
  omega

theorem dropZeros_value (room d : Nat) (k : Int) :
    ((dropZeros room d k).1 * 10 ^ (dropZeros room d k).2 : ℚ) = d * 10 ^ k := by
  induction room generalizing d k with
  | zero => rfl
  | succ room ih =>
    unfold dropZeros
    split
    · rename_i h
      have hd : d = d / 10 * 10 := by
        simp at h
        omega
      rw [ih, zpow_add_one₀ (by norm_num)]
      conv_rhs => rw [hd]
      push_cast
      ring
    · rfl

/-- The shortest form rounds to what it is the form of: forty grids are enough to come to one that is finer than the
interval is wide. -/
theorem shortest_rounds (hc : f.Canonical m q) (hf : f.fraction ≤ 52) (hlow : -1100 ≤ q) (hhigh : q ≤ 1100) :
    f.Rounds m q ((f.shortest m q).1 * 10 ^ (f.shortest m q).2) := by
  have htop := f.topExp_le (q := q) hc.pos hc.lt
  have hfine : (10 : ℚ) ^ ((f.span m q).topExp - (39 : Nat)) < f.reach m * 2 ^ q := by
    calc (10 : ℚ) ^ ((f.span m q).topExp - (39 : Nat)) ≤ 2 ^ (q - 3) := by
          apply ten_zpow_le <;> omega
      _ < 1 / 4 * 2 ^ q := by
        rw [zpow_sub₀ two_ne_zero]
        have := zpow_pos (two_pos (α := ℚ)) q
        linarith
      _ ≤ f.reach m * 2 ^ q := by
        gcongr
        unfold reach
        split_ifs <;> norm_num
  have hneighbour : (((f.span m q).scale ((f.span m q).topExp - (39 : Nat))).neighbour?).isSome = true := by
    apply Span.neighbour?_isSome
    apply Span.holds_floor (f.span_den_pos m q)
    · rw [span_value, span_low hc.pos]
      linarith
    · exact Nat.mul_lt_mul_of_pos_right (by omega) (Nat.two_pow_pos _)
  have hroom : 39 < 40 := by decide
  have hholds := Span.search_holds hroom hneighbour
  rw [Span.holds_iff (Span.den_scale (f.span_den_pos m q) _), Span.scale_holds, span_holds hc.pos] at hholds
  unfold shortest
  rw [if_neg hc.pos.ne']
  dsimp only
  rwa [dropZeros_value]

end Grove.Format
