import Grove.Number.Binary
import Mathlib.Algebra.Order.Field.Power
import Mathlib.Data.Int.Log
import Mathlib.Data.Rat.Floor
import Mathlib.Tactic.FieldSimp
import Mathlib.Tactic.Linarith
import Mathlib.Tactic.Positivity
import Mathlib.Tactic.Ring

/-! Which numbers round to a pattern. Between its halfway points to the neighbours, the ends included if the mantissa is
even, `nearest` finds the exponent and the mantissa; a power of two has its lower neighbour at half the distance. -/

namespace Grove.Format

theorem zpow_eq_div (b : ℚ) (q : Int) : b ^ q = b ^ q.toNat / b ^ (-q).toNat := by
  rcases Int.le_total 0 q with h | h
  · obtain ⟨n, rfl⟩ := Int.eq_ofNat_of_zero_le h
    simp
  · obtain ⟨n, rfl⟩ := Int.exists_eq_neg_ofNat h
    simp

theorem cast_shifted (b num den : Nat) (q : Int) :
    ((num * Nat.pow b (-q).toNat : Nat) : ℚ) / (den * Nat.pow b q.toNat : Nat) = num / den / (b : ℚ) ^ q := by
  rw [zpow_eq_div, div_div_eq_mul_div, Nat.pow_eq, Nat.pow_eq]
  push_cast
  rw [mul_div_mul_comm, mul_div_assoc]

/-- Between two numbers, or one of them if the ends count. -/
def Between (closed : Bool) (low high x : ℚ) : Prop :=
  (low ≤ x ∧ x ≤ high) ∧ (closed = false → low < x ∧ x < high)

theorem Between.mono {closed : Bool} {low low' high high' x : ℚ} (h : Between closed low high x) (hl : low' ≤ low)
    (hh : high ≤ high') : Between closed low' high' x :=
  ⟨⟨hl.trans h.1.1, h.1.2.trans hh⟩, fun hc => ⟨hl.trans_lt (h.2 hc).1, (h.2 hc).2.trans_le hh⟩⟩

/-- A quotient is rounded to what it is at most a half away from, and less than that if it is odd. -/
theorem roundDiv_of_bounds {num den m : Nat} (hd : 0 < den) (hlow : 2 * (m * den) ≤ 2 * num + den)
    (hhigh : 2 * num ≤ 2 * (m * den) + den)
    (hodd : m % 2 = 1 → 2 * (m * den) < 2 * num + den ∧ 2 * num < 2 * (m * den) + den) : roundDiv num den = m := by
  have hdiv : num / den * den + num % den = num := Nat.div_add_mod' num den
  have hmod : num % den < den := Nat.mod_lt _ hd
  have hle : num / den ≤ m := by
    by_contra hlt
    have : (m + 1) * den ≤ num / den * den := Nat.mul_le_mul_right den (by omega)
    rw [Nat.succ_mul] at this
    omega
  have hge : m ≤ num / den + 1 := by
    by_contra hlt
    have : (num / den + 2) * den ≤ m * den := Nat.mul_le_mul_right den (by omega)
    rw [Nat.add_mul] at this
    omega
  unfold roundDiv
  dsimp only
  by_cases hm : num / den = m
  · rw [hm] at hdiv ⊢
    split_ifs <;> omega
  · have hsucc : num / den * den + den = m * den := by
      rw [← Nat.succ_mul]
      congr 1
      omega
    split_ifs <;> omega

theorem roundDiv_of_between {num den m : Nat} (hd : 0 < den)
    (h : Between (m % 2 = 0) (m - 1 / 2) (m + 1 / 2) (num / den)) : roundDiv num den = m := by
  have hdq : (0 : ℚ) < den := by exact_mod_cast hd
  obtain ⟨⟨hlow, hhigh⟩, hopen⟩ := h
  rw [le_div_iff₀ hdq] at hlow
  rw [div_le_iff₀ hdq] at hhigh
  have hlow : (2 * (m * den) : ℚ) ≤ 2 * num + den := by linarith
  have hhigh : (2 * num : ℚ) ≤ 2 * (m * den) + den := by linarith
  apply roundDiv_of_bounds hd (by exact_mod_cast hlow) (by exact_mod_cast hhigh)
  intro hm
  obtain ⟨hlow, hhigh⟩ := hopen (by simp [hm])
  rw [lt_div_iff₀ hdq] at hlow
  rw [div_lt_iff₀ hdq] at hhigh
  have hlow : (2 * (m * den) : ℚ) < 2 * num + den := by linarith
  have hhigh : (2 * num : ℚ) < 2 * (m * den) + den := by linarith
  exact ⟨by exact_mod_cast hlow, by exact_mod_cast hhigh⟩

theorem two_pow_div (a b : Nat) : (2 : ℚ) ^ a / 2 ^ b = 2 ^ ((a : Int) - b) := by
  rw [zpow_sub₀ two_ne_zero, zpow_natCast, zpow_natCast]

theorem log2_quotient {num den : Nat} (hn : 0 < num) (hd : 0 < den) :
    (2 : ℚ) ^ ((num.log2 : Int) - den.log2 - 1) ≤ num / den ∧
      (num / den : ℚ) < 2 ^ ((num.log2 : Int) - den.log2 + 1) := by
  have hnum : (2 : ℚ) ^ num.log2 ≤ num ∧ (num : ℚ) < 2 ^ (num.log2 + 1) :=
    ⟨by exact_mod_cast Nat.log2_self_le hn.ne', by exact_mod_cast Nat.lt_log2_self⟩
  have hden : (2 : ℚ) ^ den.log2 ≤ den ∧ (den : ℚ) < 2 ^ (den.log2 + 1) :=
    ⟨by exact_mod_cast Nat.log2_self_le hd.ne', by exact_mod_cast Nat.lt_log2_self⟩
  have hdq : (0 : ℚ) < den := by exact_mod_cast hd
  constructor
  · have hpow := two_pow_div num.log2 (den.log2 + 1)
    rw [Nat.cast_succ, ← sub_sub] at hpow
    rw [← hpow]
    exact div_le_div₀ (Nat.cast_nonneg num) hnum.1 hdq hden.2.le
  · have hpow := two_pow_div (num.log2 + 1) den.log2
    rw [Nat.cast_succ, add_sub_right_comm] at hpow
    rw [← hpow]
    exact div_lt_div₀ hnum.2 hden.1 (by positivity) (by positivity)

theorem le_floorLog2 {num den : Nat} (hn : 0 < num) (hd : 0 < den) (l : Int) :
    l ≤ floorLog2 num den ↔ (2 : ℚ) ^ l ≤ num / den := by
  have hpos : (0 : ℚ) < num / den := div_pos (by exact_mod_cast hn) (by exact_mod_cast hd)
  have hlog : ∀ l : Int, (2 : ℚ) ^ l ≤ num / den ↔ l ≤ Int.log 2 ((num : ℚ) / den) := fun l => by
    exact_mod_cast Int.zpow_le_iff_le_log (b := 2) (by decide) hpos
  obtain ⟨hlow, hhigh⟩ := log2_quotient hn hd
  unfold floorLog2
  dsimp only
  generalize (num.log2 : Int) - den.log2 = a at hlow hhigh ⊢
  have hlt : num * Nat.pow 2 (-a).toNat < den * Nat.pow 2 a.toNat ↔ (num : ℚ) / den < 2 ^ a := by
    have hup : 0 < den * Nat.pow 2 a.toNat := Nat.mul_pos hd (Nat.two_pow_pos _)
    have hone := div_lt_one (a := ((num * Nat.pow 2 (-a).toNat : Nat) : ℚ)) (Nat.cast_pos (α := ℚ).2 hup)
    rw [← Nat.cast_lt (α := ℚ), ← hone, cast_shifted, div_lt_one (zpow_pos (by norm_num) a), Nat.cast_two]
  rw [← not_le, hlog] at hhigh
  rw [hlog] at hlow ⊢
  simp only [hlt, ← not_le, hlog]
  split_ifs <;> omega

variable {f : Format} {m num den : Nat} {q : Int}

/-- The mantissa and the exponent of a positive pattern: only at the least exponent the leading bit may be missing. -/
structure Canonical (f : Format) (m : Nat) (q : Int) : Prop where
  pos : 0 < m
  lt : m < 2 ^ (f.fraction + 1)
  least : f.minExp ≤ q
  leading : q = f.minExp ∨ 2 ^ f.fraction ≤ m

/-- How far the numbers reach down that round to `m`; a power of two has its lower neighbour closer by. -/
def reach (f : Format) (m : Nat) : ℚ := if m = 2 ^ f.fraction then 1 / 4 else 1 / 2

/-- The numbers that round to `m * 2 ^ q`. -/
def Rounds (f : Format) (m : Nat) (q : Int) (x : ℚ) : Prop :=
  Between (m % 2 = 0) (m - f.reach m) (m + 1 / 2) (x / 2 ^ q)

theorem le_floorLog2_add (hn : 0 < num) (hd : 0 < den) (a : Nat) (q : Int) :
    a + q ≤ floorLog2 num den ↔ (2 : ℚ) ^ a ≤ num / den / 2 ^ q := by
  rw [le_floorLog2 hn hd, le_div_iff₀ (zpow_pos two_pos q), zpow_add₀ two_ne_zero, zpow_natCast]

theorem nearest_of_exponent (hn : 0 < num) (hd : 0 < den) {q : Int}
    (hq : max f.minExp (floorLog2 num den - f.fraction) = q)
    (h : Between (m % 2 = 0) (m - 1 / 2) (m + 1 / 2) (num / den / 2 ^ q)) :
    f.nearest num den = min f.infinity ((q - f.minExp).toNat * Nat.pow 2 f.fraction + m) := by
  have hround : roundDiv (num * Nat.pow 2 (-q).toNat) (den * Nat.pow 2 q.toNat) = m := by
    have hup : 0 < den * Nat.pow 2 q.toNat := Nat.mul_pos hd (Nat.two_pow_pos _)
    apply roundDiv_of_between hup
    rwa [cast_shifted]
  unfold nearest
  rw [if_neg hn.ne']
  dsimp only
  rw [hq, hround]

theorem reach_le (f : Format) (m : Nat) : f.reach m ≤ 1 / 2 := by
  unfold reach
  split <;> norm_num

section Rounds

variable (hc : f.Canonical m q) (hn : 0 < num) (hd : 0 < den) (h : f.Rounds m q (num / den))
include hc hn hd h

theorem floorLog2_lt_of_rounds : floorLog2 num den < (f.fraction + 1 : Nat) + q := by
  rw [← not_le, le_floorLog2_add hn hd]
  have hlt : (m : ℚ) + 1 ≤ 2 ^ (f.fraction + 1) := by exact_mod_cast hc.lt
  have := h.1.2
  linarith

/-- Below the least mantissa of an exponent only that mantissa is rounded to, from the exponent below. -/
theorem nearest_of_small (hsmall : num / den / 2 ^ q < (2 : ℚ) ^ f.fraction) (hq : q ≠ f.minExp) :
    f.nearest num den = min f.infinity ((q - f.minExp).toNat * Nat.pow 2 f.fraction + m) := by
  obtain ⟨hbottom, htop⟩ := h.1
  have hm : m = 2 ^ f.fraction := by
    by_contra hne
    have hlarge : (2 : ℚ) ^ f.fraction + 1 ≤ m := by
      have := hc.leading.resolve_left hq
      exact_mod_cast lt_of_le_of_ne this (Ne.symm hne)
    have := f.reach_le m
    linarith
  have hdouble : (num / den / 2 ^ (q - 1) : ℚ) = 2 * (num / den / 2 ^ q) := by
    rw [zpow_sub_one₀ two_ne_zero]
    field_simp
  have hmq : (m : ℚ) = 2 ^ f.fraction := by exact_mod_cast hm
  have hreach : f.reach m = 1 / 4 := if_pos hm
  have hone : (1 : ℚ) ≤ m := by exact_mod_cast hc.pos
  -- the exponent that is found is one less, where the mantissa is the power of two that is just too large
  have hbelow : max f.minExp (floorLog2 num den - f.fraction) = q - 1 := by
    have hleast := hc.least
    have hsmall := mt (le_floorLog2_add hn hd f.fraction q).1 (not_le.2 hsmall)
    have hlarge := (le_floorLog2_add hn hd f.fraction (q - 1)).2 (by linarith)
    omega
  have heven : 2 ^ (f.fraction + 1) % 2 = 0 := by rw [pow_succ, Nat.mul_mod_left]
  have hbetween : Between (2 ^ (f.fraction + 1) % 2 = 0) ((2 ^ (f.fraction + 1) : Nat) - 1 / 2)
      ((2 ^ (f.fraction + 1) : Nat) + 1 / 2) (num / den / 2 ^ (q - 1)) := by
    rw [hdouble]
    push_cast
    refine ⟨⟨?_, ?_⟩, fun hodd => ?_⟩
    · rw [pow_succ]
      linarith
    · rw [pow_succ]
      linarith
    · simp [heven] at hodd
  rw [nearest_of_exponent hn hd hbelow hbetween, hm]
  have hsucc : (q - f.minExp).toNat = (q - 1 - f.minExp).toNat + 1 := by
    have := hc.least
    omega
  rw [hsucc, Nat.pow_eq, pow_succ]
  ring_nf

/-- A number that rounds to a pattern is rounded to it. -/
theorem nearest_of_rounds :
    f.nearest num den = min f.infinity ((q - f.minExp).toNat * Nat.pow 2 f.fraction + m) := by
  by_cases hlow : (2 : ℚ) ^ f.fraction ≤ num / den / 2 ^ q ∨ q = f.minExp
  · have hq : max f.minExp (floorLog2 num den - f.fraction) = q := by
      have hleast := hc.least
      have hlt := floorLog2_lt_of_rounds hc hn hd h
      rw [← le_floorLog2_add hn hd] at hlow
      omega
    exact nearest_of_exponent hn hd hq (h.mono (by linarith [f.reach_le m]) le_rfl)
  · obtain ⟨hsmall, hq⟩ := not_or.1 hlow
    exact nearest_of_small hc hn hd h (not_le.1 hsmall) hq

end Rounds

end Grove.Format
