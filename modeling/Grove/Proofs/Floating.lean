import Grove.Proofs.Numerals
import Grove.Proofs.Shortest
import Mathlib

/-! Floating-point numbers read back. A finite pattern is a canonical mantissa and exponent, its shortest form rounds to
it, and the numeral of that form is rounded where the pattern is found. Numbers that are equal have one pattern, and so
there is one for what is no number. -/

namespace Grove

namespace Format

variable {f : Format} {n m : Nat} {q : Int} {negative : Bool}

/-- What a pattern stands for. The magnitude of a finite number counts the exponents from the least one on, with the
leading bit of the mantissa carried into the count. -/
inductive Decoded (f : Format) (n : Nat) : Real2 → Prop
  | nan (h : f.infinity < n % f.signBit) : Decoded f n .nan
  | infinite (h : n % f.signBit = f.infinity) : Decoded f n (.infinite (decide (f.signBit ≤ n)))
  | finite {m : Nat} {q : Int} (h : n % f.signBit = (q - f.minExp).toNat * 2 ^ f.fraction + m)
      (bounded : n % f.signBit < f.infinity) (lt : m < 2 ^ (f.fraction + 1)) (least : f.minExp ≤ q)
      (leading : q = f.minExp ∨ 2 ^ f.fraction ≤ m) : Decoded f n (.finite (decide (f.signBit ≤ n)) m q)

theorem decoded (f : Format) (n : Nat) : f.Decoded n (f.decode n) := by
  have hparts := Nat.div_add_mod (n % f.signBit) (2 ^ f.fraction)
  have hlt : n % f.signBit % 2 ^ f.fraction < 2 ^ f.fraction := Nat.mod_lt _ (by positivity)
  unfold decode
  simp only [Nat.pow_eq]
  split_ifs with hnan hinf hzero
  · exact .nan hnan
  · exact .infinite hinf
  · rw [hzero, Nat.mul_zero, Nat.zero_add] at hparts
    exact .finite (by simp [hparts]) (by omega) (by omega) le_rfl (.inl rfl)
  · obtain ⟨k, hk⟩ := Nat.exists_eq_succ_of_ne_zero hzero
    rw [hk] at hparts ⊢
    refine .finite ?_ (by omega) (by omega) (by omega) (.inr (by omega))
    have hexponent : (f.minExp + ((k.succ - 1 : Nat) : Int) - f.minExp).toNat = k := by simp
    rw [hexponent, Nat.mul_comm k]
    rw [Nat.mul_succ] at hparts
    omega

theorem sign_add_magnitude (hn : n < 2 * f.signBit) :
    (if decide (f.signBit ≤ n) then f.signBit else 0) + n % f.signBit = n := by
  by_cases h : f.signBit ≤ n
  · rw [Nat.mod_eq_sub_mod h, Nat.mod_eq_of_lt (by omega)]
    simp [h]
  · rw [Nat.mod_eq_of_lt (by omega)]
    simp [h]

end Format

namespace Numeral

open Format

variable {f : Format} {m d : Nat} {q e : Int}

theorem size_bounds (hd : 0 < d) (e : Int) :
    (10 : ℚ) ^ ((digits d).length + e - 1) ≤ d * 10 ^ e ∧ (d * 10 ^ e : ℚ) < 10 ^ ((digits d).length + e) := by
  obtain ⟨hlow, hhigh⟩ := digits_length hd
  have hpos : 0 < (digits d).length := List.length_pos_of_ne_nil (digits_ne_nil d)
  have hten : (0 : ℚ) < 10 ^ e := by positivity
  constructor
  · have hsplit : ((digits d).length + e - 1 : Int) = ((digits d).length - 1 : Nat) + e := by omega
    rw [hsplit, zpow_add₀ (by norm_num), zpow_natCast]
    gcongr
    exact_mod_cast hlow
  · rw [zpow_add₀ (by norm_num), zpow_natCast]
    gcongr
    exact_mod_cast hhigh

/-- The numbers that round to a pattern are far from the bounds beyond which no power is computed. -/
theorem bounds_of_rounds {x : ℚ} (hc : f.Canonical m q) (hf : f.fraction ≤ 52) (hlow : -1100 ≤ q) (hhigh : q ≤ 1100)
    (h : f.Rounds m q x) : (10 : ℚ) ^ (-401 : Int) ≤ x ∧ x < 10 ^ (400 : Int) := by
  obtain ⟨hbottom, htop⟩ := h.1
  have hq : (0 : ℚ) < 2 ^ q := by positivity
  have hm : (1 : ℚ) ≤ m := by exact_mod_cast hc.pos
  have hlt : (m : ℚ) + 1 ≤ 2 ^ 53 := by
    have : m + 1 ≤ 2 ^ 53 := (Nat.succ_le_of_lt hc.lt).trans (Nat.pow_le_pow_right (by decide) (by omega))
    exact_mod_cast this
  rw [le_div_iff₀ hq] at hbottom
  rw [div_le_iff₀ hq] at htop
  constructor
  · calc (10 : ℚ) ^ (-401 : Int) ≤ 2 ^ (q - 1) := by apply ten_zpow_le <;> omega
      _ = 1 / 2 * 2 ^ q := by
        rw [zpow_sub_one₀ two_ne_zero]
        ring
      _ ≤ (m - f.reach m) * 2 ^ q := by
        gcongr
        linarith [f.reach_le m]
      _ ≤ x := hbottom
  · calc x ≤ (m + 1 / 2) * 2 ^ q := htop
      _ < 2 ^ 53 * 2 ^ q := by
        gcongr
        linarith
      _ = 2 ^ (53 + q) := by
        rw [zpow_add₀ two_ne_zero]
        norm_cast
      _ ≤ 10 ^ (400 : Int) := by
        have hten : (10 : ℚ) ^ (-400 : Int) ≤ 2 ^ (-(53 + q)) := by apply ten_zpow_le <;> omega
        rw [zpow_neg, zpow_neg] at hten
        exact (inv_le_inv₀ (by positivity) (by positivity)).1 hten

/-- A number that is written in digits is read as the pattern that it rounds to. -/
theorem magnitude_of_rounds (hc : f.Canonical m q) (hf : f.fraction ≤ 52) (hlow : -1100 ≤ q) (hhigh : q ≤ 1100)
    (h : f.Rounds m q (d * 10 ^ e)) :
    magnitude f d e = min f.infinity ((q - f.minExp).toNat * Nat.pow 2 f.fraction + m) := by
  obtain ⟨hbottom, htop⟩ := bounds_of_rounds hc hf hlow hhigh h
  have hd : 0 < d := by
    rcases Nat.eq_zero_or_pos d with rfl | hd
    · have : (0 : ℚ) < 10 ^ (-401 : Int) := by positivity
      rw [Nat.cast_zero, zero_mul] at hbottom
      linarith
    · exact hd
  obtain ⟨hleast, hgreatest⟩ := size_bounds hd e
  have hsmall : ¬((digits d).length : Int) + e < -400 := by
    have := (zpow_lt_zpow_iff_right₀ (by norm_num : (1 : ℚ) < 10)).1 (hbottom.trans_lt hgreatest)
    omega
  have hlarge : ¬(400 : Int) < (digits d).length + e := by
    have := (zpow_lt_zpow_iff_right₀ (by norm_num : (1 : ℚ) < 10)).1 (hleast.trans_lt htop)
    omega
  have hquotient : ((d * Nat.pow 10 e.toNat : Nat) : ℚ) / (Nat.pow 10 (-e).toNat : Nat) = d * 10 ^ e := by
    rw [Nat.pow_eq, Nat.pow_eq, zpow_eq_div]
    push_cast
    ring
  unfold magnitude
  dsimp only
  rw [if_neg (not_or.2 ⟨hd.ne', hsmall⟩), if_neg hlarge]
  have hnum : 0 < d * Nat.pow 10 e.toNat := Nat.mul_pos hd (Nat.pow_pos (by decide))
  have hden : 0 < Nat.pow 10 (-e).toNat := Nat.pow_pos (by decide)
  exact nearest_of_rounds hc hnum hden (by rwa [hquotient])

end Numeral

/-- Any digits of the value of the shortest form are read as the pattern that the form stands for. -/
theorem magnitude_of_shortest {m d : Nat} {q e : Int} (lt : m < 2 ^ (binary64.fraction + 1))
    (least : binary64.minExp ≤ q) (leading : q = binary64.minExp ∨ 2 ^ binary64.fraction ≤ m)
    (bounded : (q - binary64.minExp).toNat * 2 ^ binary64.fraction + m < binary64.infinity)
    (hvalue : (d * 10 ^ e : ℚ) = (binary64.shortest m q).1 * 10 ^ (binary64.shortest m q).2) :
    Numeral.magnitude binary64 d e = (q - binary64.minExp).toNat * 2 ^ binary64.fraction + m := by
  rcases Nat.eq_zero_or_pos m with rfl | hm
  · have hten : (10 : ℚ) ^ e ≠ 0 := by positivity
    have hd : d = 0 := by simpa [Format.shortest, hten] using hvalue
    have hq : q = binary64.minExp := leading.resolve_right (by decide)
    rw [hd, hq]
    simp [Numeral.magnitude]
  · have hc : binary64.Canonical m q := ⟨hm, lt, least, leading⟩
    have hmin : binary64.minExp = -1074 := by decide
    have hhigh : q ≤ 1100 := by
      have hinf : binary64.infinity = 9218868437227405312 := by decide
      have hfraction : binary64.fraction = 52 := rfl
      rw [hfraction, hmin, hinf] at bounded
      omega
    have hrounds := Format.shortest_rounds hc (by decide) (by omega) hhigh
    rw [← hvalue] at hrounds
    rw [Numeral.magnitude_of_rounds hc (by decide) (by omega) hhigh hrounds]
    exact Nat.min_eq_right bounded.le

theorem read_render {n : Nat} (hn : n < 2 * binary64.signBit) (h : binary64.decode n ≠ .nan) :
    ∃ numeral, Numeral.read (floatLayout.render binary64 (binary64.decode n)) = some numeral ∧
      numeral.bits binary64 = n := by
  have hsum := Format.sign_add_magnitude hn
  have hdecoded := binary64.decoded n
  generalize binary64.decode n = x at h hdecoded
  cases hdecoded with
  | nan => exact absurd rfl h
  | infinite hinf =>
    rw [hinf] at hsum
    generalize decide (binary64.signBit ≤ n) = negative at hsum
    refine ⟨.infinite negative, ?_, hsum⟩
    cases negative <;> decide
  | @finite m q hmagnitude bounded lt least leading =>
    generalize decide (binary64.signBit ≤ n) = negative at hsum
    obtain ⟨d, e, hread, hvalue⟩ := floatLayout.read_sign_append negative (binary64.shortest m q).1
      (binary64.shortest m q).2
    rw [hmagnitude] at bounded
    refine ⟨.decimal negative d e, hread, ?_⟩
    rw [Numeral.bits, magnitude_of_shortest lt least leading bounded hvalue, ← hmagnitude, hsum]

section Pattern

open Float.Model

/-- A pattern that is valid and no number has the highest bit of its fraction alone. -/
theorem eq_of_nan {b : BitVec 64} (hvalid : Float.Model.Format.binary64.Valid b)
    (h : binary64.decode b.toNat = .nan) : b = BitVec.ofNat 64 binary64.quietNaN := by
  have hdecoded := binary64.decoded b.toNat
  rw [h] at hdecoded
  obtain ⟨hlarge⟩ := hdecoded
  have hinf : binary64.infinity = 9218868437227405312 := by decide
  have hsign : binary64.signBit = 9223372036854775808 := by decide
  rw [hinf, hsign] at hlarge
  have hpacked := hvalid.eq_packedNaN ?_ ?_
  · rw [hpacked]
    decide
  · rw [UnpackedFloat.unpackExponent_def]
    apply BitVec.eq_of_toNat_eq
    rw [BitVec.extractLsb'_toNat, Nat.shiftRight_eq_div_pow]
    change b.toNat / 2 ^ 52 % 2 ^ 11 = 2047
    have hlt : b.toNat < 18446744073709551616 := b.isLt
    norm_num
    omega
  · intro hzero
    have hzero := congrArg BitVec.toNat hzero
    rw [UnpackedFloat.unpackMantissa_def, BitVec.extractLsb'_toNat, Nat.shiftRight_zero] at hzero
    change b.toNat % 2 ^ 52 = 0 at hzero
    norm_num at hzero
    omega

end Pattern

theorem readFloat_floatText (x : Float) : readFloat (floatText x) = some x := by
  unfold readFloat floatText
  by_cases h : binary64.decode x.toBits.toNat = .nan
  · -- what is no number is read as the quiet pattern, which is the only one that is valid
    have hread : Numeral.read (floatLayout.render binary64 .nan) = some .nan := by decide
    have hbits : UInt64.ofNat binary64.quietNaN = x.toBits :=
      (UInt64.toBitVec_inj.1 (eq_of_nan x.toModel.valid h)).symm
    rw [h, hread, Option.map_some, Numeral.bits, hbits, Float.ofBits_toBits]
  · obtain ⟨numeral, hread, hbits⟩ := read_render (UInt64.toNat_lt _) h
    rw [hread, Option.map_some, hbits, UInt64.ofNat_toNat, Float.ofBits_toBits]

end Grove
