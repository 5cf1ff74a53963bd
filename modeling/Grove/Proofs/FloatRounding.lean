import Grove.Proofs.FloatOrder
import Grove.Proofs.Rounding
import Mathlib

/-! Rounding sums. A floating-point number that is not infinite stands for an integer multiple of the least positive
one. A sum of two is rounded to a number that no other one separates from the exact sum. -/

namespace Grove.FloatRounding

open Float.Model (UnpackedFloat)
open Float.Model.UnpackedFloat

variable {m m' k : Nat} {e e' : Int}

theorem canonical_iff : binary64.Canonical m e ↔ 0 < m ∧ m < 2 ^ 53 ∧ -1074 ≤ e ∧ (e = -1074 ∨ 2 ^ 52 ≤ m) :=
  ⟨fun h => ⟨h.pos, h.lt, h.least, h.leading⟩, fun h => ⟨h.1, h.2.1, h.2.2.1, h.2.2.2⟩⟩

section Mantissas

/-- The rounded quotient of a mantissa by a power of two: no integer lies between it and the exact one. -/
structure Nearby (m k R : Nat) : Prop where
  lower : ∀ B, B * 2 ^ k ≤ m → B ≤ R
  upper : ∀ B, m ≤ B * 2 ^ k → R ≤ B

theorem shifted (m k : Nat) : ∃ round sticky, ExtendedMantissa.ofMantissaAndAccuracy m .exact >>> k =
    ⟨m / 2 ^ k, round, sticky⟩ ∧ (round = false ∧ sticky = false ↔ m % 2 ^ k = 0) := by
  induction k with
  | zero => exact ⟨false, false, by simp; rfl, by simp [Nat.mod_one]⟩
  | succ k ih =>
    obtain ⟨round, sticky, hshift, hexact⟩ := ih
    have hsucc : ExtendedMantissa.ofMantissaAndAccuracy m .exact >>> (k + 1) =
        (ExtendedMantissa.ofMantissaAndAccuracy m .exact >>> k).shiftRightOne := rfl
    refine ⟨m / 2 ^ k % 2 != 0, round || sticky, ?_, ?_⟩
    · rw [hsucc, hshift, ExtendedMantissa.shiftRightOne, Nat.div_div_eq_div_mul, Nat.pow_succ]
    · have hzero : m % 2 ^ (k + 1) = 0 ↔ m % 2 ^ k = 0 ∧ m / 2 ^ k % 2 = 0 := by
        rw [Nat.mod_pow_succ, Nat.add_eq_zero_iff, Nat.mul_eq_zero, or_iff_right (Nat.two_pow_pos k).ne']
      rw [hzero, Bool.or_eq_false_iff, hexact, bne_eq_false_iff_eq, and_comm]

theorem nearby_shifted (m k : Nat) :
    Nearby m k (ExtendedMantissa.ofMantissaAndAccuracy m .exact >>> k).roundedMantissa := by
  obtain ⟨round, sticky, hshift, hexact⟩ := shifted m k
  have hpos := Nat.two_pow_pos k
  have hdiv : m / 2 ^ k * 2 ^ k + m % 2 ^ k = m := Nat.div_add_mod' m (2 ^ k)
  -- the quotient is kept, or else one is added, but not if it is exact
  have hrounded : ∀ R, R = (ExtendedMantissa.mk (m / 2 ^ k) round sticky).roundedMantissa →
      m / 2 ^ k ≤ R ∧ R ≤ m / 2 ^ k + 1 ∧ (m % 2 ^ k = 0 → R = m / 2 ^ k) := by
    rintro R rfl
    rw [← hexact]
    cases round <;> cases sticky <;>
      simp [ExtendedMantissa.roundedMantissa, ExtendedMantissa.accuracy, Accuracy.roundToNearestEven]
    omega
  rw [hshift]
  obtain ⟨hlow, hhigh, hsame⟩ := hrounded _ rfl
  refine ⟨fun B hB => ((Nat.le_div_iff_mul_le hpos).2 hB).trans hlow, fun B hB => ?_⟩
  rcases Nat.lt_or_ge (m / 2 ^ k) B with hlt | hge
  · omega
  · have hBq : B * 2 ^ k ≤ m / 2 ^ k * 2 ^ k := Nat.mul_le_mul_right _ hge
    rw [hsame (by omega)]
    exact Nat.le_of_mul_le_mul_right (by omega) hpos

end Mantissas

section Exponents

/-- A magnitude, counted in the least positive number. -/
def units (m : Nat) (e : Int) : Nat := m * 2 ^ (e + 1074).toNat

theorem units_pos (hm : 0 < m) (e : Int) : 0 < units m e := Nat.mul_pos hm (Nat.two_pow_pos _)

theorem units_eq (h : -1074 ≤ e') (hle : e' ≤ e) (m : Nat) : units m e = units (m * 2 ^ (e - e').toNat) e' := by
  have hsum : (e + 1074).toNat = (e - e').toNat + (e' + 1074).toNat := by omega
  rw [units, units, hsum, Nat.pow_add, Nat.mul_assoc]

theorem units_le_units_iff : units m e ≤ units m' e ↔ m ≤ m' := Nat.mul_le_mul_right_iff (Nat.two_pow_pos _)

theorem units_lt_units_iff : units m e < units m' e ↔ m < m' := Nat.mul_lt_mul_right (Nat.two_pow_pos _)

theorem units_double (h : -1074 ≤ e) : units (2 ^ 52) (e + 1) = units (2 ^ 53) e := by
  rw [units_eq h (Int.le_add_one le_rfl), add_sub_cancel_left]
  rfl

theorem units_lt_of_exponent (hm : m < 2 ^ 53) (he : -1074 ≤ e) (hlt : e < e') (hm' : 2 ^ 52 ≤ m') :
    units m e < units m' e' :=
  calc units m e < units (2 ^ 53) e := units_lt_units_iff.2 hm
    _ = units (2 ^ 52) (e + 1) := (units_double he).symm
    _ ≤ units (2 ^ 52 * 2 ^ (e' - (e + 1)).toNat) (e + 1) :=
      units_le_units_iff.2 (Nat.le_mul_of_pos_right _ (Nat.two_pow_pos _))
    _ = units (2 ^ 52) e' := (units_eq (by omega) hlt _).symm
    _ ≤ units m' e' := units_le_units_iff.2 hm'

theorem canonical_lt_of_exponent (h : binary64.Canonical m e) (h' : binary64.Canonical m' e') (hlt : e < e') :
    units m e < units m' e' :=
  units_lt_of_exponent h.lt h.least hlt (h'.leading.resolve_left (h.least.trans_lt hlt).ne')

/-- Canonical numbers are compared by their exponents first. -/
theorem compare_units (h : binary64.Canonical m e) (h' : binary64.Canonical m' e') :
    compare (units m e) (units m' e') = (compare e e').then (compare m m') := by
  rcases Int.lt_trichotomy e e' with hlt | rfl | hlt
  · rw [compare_lt_iff_lt.2 (canonical_lt_of_exponent h h' hlt), compare_lt_iff_lt.2 hlt]
    rfl
  · rw [compare_eq_iff_eq.2 rfl]
    rcases Nat.lt_trichotomy m m' with hlt | rfl | hlt
    · rw [compare_lt_iff_lt.2 hlt, compare_lt_iff_lt.2 (units_lt_units_iff.2 hlt)]
      rfl
    · simp
    · rw [compare_gt_iff_gt.2 hlt, compare_gt_iff_gt.2 (units_lt_units_iff.2 hlt)]
      rfl
  · rw [compare_gt_iff_gt.2 (canonical_lt_of_exponent h' h hlt), compare_gt_iff_gt.2 hlt]
    rfl

end Exponents

section Rounding

/-- No canonical number lies between a magnitude and the one to which it is rounded. -/
def Adjacent (n u : Nat) : Prop :=
  ∀ m e, binary64.Canonical m e → (units m e ≤ n → units m e ≤ u) ∧ (n ≤ units m e → u ≤ units m e)

/-- A rounded mantissa is enough, where the exponent is least or the mantissa is large. -/
theorem adjacent_of_nearby {R : Nat} {t : Int} (h : Nearby m k R) (he : -1074 ≤ e) (ht : e + k = t)
    (hlarge : t = -1074 ∨ 2 ^ 52 * 2 ^ k ≤ m) : Adjacent (units m e) (units R t) := by
  have hk : (t - e).toNat = k := by omega
  have hup : ∀ B, units B t = units (B * 2 ^ k) e := fun B => by rw [units_eq he (by omega), hk]
  intro m' e' hc
  rcases lt_or_ge e' t with hlt | hge
  · have hlarge : 2 ^ 52 * 2 ^ k ≤ m := hlarge.resolve_left (hc.least.trans_lt hlt).ne'
    have hbelow : units m' e' < units (2 ^ 52) t := units_lt_of_exponent hc.lt hc.least hlt le_rfl
    refine ⟨fun _ => hbelow.le.trans (units_le_units_iff.2 (h.lower _ hlarge)), fun hle => ?_⟩
    rw [hup] at hbelow
    exact absurd (units_lt_units_iff.1 (hle.trans_lt hbelow)) (not_lt.2 hlarge)
  · have hleast : -1074 ≤ t := he.trans (by omega)
    rw [units_eq hleast hge m', units_le_units_iff, units_le_units_iff, hup, units_le_units_iff, units_le_units_iff]
    exact ⟨h.lower _, h.upper _⟩

theorem targetExponent_eq (m : Nat) (e : Int) : Float.Model.Format.binary64.targetExponent
    (Float.Model.totalExponent m e) = max (m.log2 + 1 + e - 53) (-1074) := rfl

theorem shift_short {R : Nat} {t : Int} (hR : R < 2 ^ 53) (ht : -1074 ≤ t) :
    shiftToTargetExponent .binary64 R t .exact = (⟨R, false, false⟩, t) := by
  have hlog : R.log2 < 53 := by
    rcases R.eq_zero_or_pos with rfl | hpos
    · decide
    · exact (Nat.log2_lt hpos.ne').2 hR
  have hstay : (max ((R.log2 : Int) + 1 + t - 53) (-1074) - t).toNat = 0 := by omega
  rw [shiftToTargetExponent, targetExponent_eq, shiftToExponent, hstay]
  simp
  rfl

theorem shift_long {t : Int} (ht : -1074 ≤ t) :
    shiftToTargetExponent .binary64 (2 ^ 53) t .exact = (⟨2 ^ 52, false, false⟩, t + 1) := by
  have hlog : (2 ^ 53 : Nat).log2 = 53 := Nat.log2_two_pow
  have hone : (max ((2 ^ 53 : Nat).log2 + 1 + t - 53) (-1074) - t).toNat = 1 := by
    rw [hlog]
    omega
  rw [shiftToTargetExponent, targetExponent_eq, shiftToExponent, hone]
  rfl

/-- A mantissa is shifted, rounded and, lest it has become too long, shifted again. -/
theorem roundWithAccuracy_eq {s : Sign} {em : ExtendedMantissa} {M : Nat} {t q : Int}
    (hfirst : shiftToTargetExponent .binary64 m e .exact = (em, t))
    (hsecond : shiftToTargetExponent .binary64 em.roundedMantissa t .exact = (⟨M, false, false⟩, q)) (hM : 0 < M) :
    roundWithAccuracy .binary64 s m e .exact = .finite s M q hM := by
  unfold roundWithAccuracy
  simp only [hfirst, hsecond]
  rw [dif_neg hM.ne']

theorem roundWithAccuracy_spec (s : Sign) (hm : 0 < m) (he : -1074 ≤ e) (hle : e ≤ max (m.log2 + 1 + e - 53) (-1074)) :
    ∃ M q hM, roundWithAccuracy .binary64 s m e .exact = .finite s M q hM ∧ binary64.Canonical M q ∧
      Adjacent (units m e) (units M q) := by
  obtain ⟨t, ht⟩ : ∃ t, max ((m.log2 : Int) + 1 + e - 53) (-1074) = t := ⟨_, rfl⟩
  obtain ⟨k, hk⟩ : ∃ k : Nat, e + k = t := ⟨(t - e).toNat, by omega⟩
  have hlow : 2 ^ m.log2 ≤ m := Nat.log2_self_le hm.ne'
  have hhigh : m < 2 ^ (m.log2 + 1) := Nat.lt_log2_self
  have hnear := nearby_shifted m k
  have hlarge : t = -1074 ∨ 2 ^ 52 * 2 ^ k ≤ m := by
    refine (eq_or_ne t (-1074)).imp_right fun hne => ?_
    rwa [← Nat.pow_add, show 52 + k = m.log2 by omega]
  have hbound : m ≤ 2 ^ 53 * 2 ^ k := by
    rw [← Nat.pow_add]
    exact hhigh.le.trans (Nat.pow_le_pow_right (by decide) (by omega))
  have hfirst : shiftToTargetExponent .binary64 m e .exact =
      (ExtendedMantissa.ofMantissaAndAccuracy m .exact >>> k, t) := by
    have hshift : (t - e).toNat = k := by omega
    rw [shiftToTargetExponent, targetExponent_eq, ht, shiftToExponent, hshift, hk]
  have hpos : 0 < (ExtendedMantissa.ofMantissaAndAccuracy m .exact >>> k).roundedMantissa := by
    rcases hlarge with hleast | hlarge
    · obtain rfl : k = 0 := by omega
      exact hm.trans_le (hnear.lower m (by simp))
    · exact (Nat.two_pow_pos 52).trans_le (hnear.lower _ hlarge)
  have hadjacent := adjacent_of_nearby hnear he hk hlarge
  have hleast : -1074 ≤ t := by omega
  rcases (hnear.upper _ hbound).lt_or_eq with hR | hR
  · exact ⟨_, t, hpos, roundWithAccuracy_eq hfirst (shift_short hR hleast) hpos,
      canonical_iff.2 ⟨hpos, hR, hleast, hlarge.imp_right (hnear.lower _)⟩, hadjacent⟩
  · rw [hR, ← units_double hleast] at hadjacent
    exact ⟨2 ^ 52, t + 1, by decide, roundWithAccuracy_eq hfirst (hR ▸ shift_long hleast) (by decide),
      canonical_iff.2 ⟨by decide, by decide, by omega, .inr le_rfl⟩, hadjacent⟩

theorem log2_mul_two_pow (hm : 0 < m) (k : Nat) : (m * 2 ^ k).log2 = m.log2 + k := by
  rw [Nat.log2_eq_iff (Nat.mul_pos hm (Nat.two_pow_pos k)).ne', Nat.add_right_comm, Nat.pow_add, Nat.pow_add,
    Nat.mul_lt_mul_right (Nat.two_pow_pos k)]
  exact ⟨Nat.mul_le_mul_right _ (Nat.log2_self_le hm.ne'), Nat.lt_log2_self⟩

/-- The exponent may be too large at first, and then the mantissa is lengthened. -/
theorem round_spec (s : Sign) (hm : 0 < m) (he : -1074 ≤ e) :
    ∃ M q hM, UnpackedFloat.round .binary64 s m e = .finite s M q hM ∧ binary64.Canonical M q ∧
      Adjacent (units m e) (units M q) := by
  obtain ⟨t, ht⟩ : ∃ t, max ((m.log2 : Int) + 1 + e - 53) (-1074) = t := ⟨_, rfl⟩
  obtain ⟨k, hk⟩ : ∃ k, (e - t).toNat = k := ⟨_, rfl⟩
  have hround : UnpackedFloat.round .binary64 s m e = roundWithAccuracy .binary64 s (m * 2 ^ k) (e - k) .exact := by
    rw [UnpackedFloat.round, targetExponent_eq, ht, decreaseExponent, hk, Nat.shiftLeft_eq]
  have hunits : units (m * 2 ^ k) (e - k) = units m e := by
    rw [units_eq (show -1074 ≤ e - k by omega) (by omega) m, sub_sub_cancel, Int.toNat_natCast]
  rw [hround, ← hunits]
  exact roundWithAccuracy_spec s (Nat.mul_pos hm (Nat.two_pow_pos k)) (by omega) (by rw [log2_mul_two_pow hm]; omega)

end Rounding

/-- The number stands for an integer multiple of the least positive one. -/
inductive Stands : UnpackedFloat → Int → Prop
  | zero (s : Sign) : Stands (.zero s) 0
  | finite (s : Sign) {m : Nat} {e : Int} (hm : 0 < m) (h : binary64.Canonical m e) :
      Stands (.finite s m e hm) (s.apply (units m e))

section Standing

variable {a b : UnpackedFloat} {v w x u : Int}

theorem Stands.neg (h : Stands a v) : Stands a.neg (-v) := by
  cases h with
  | zero s => exact .zero _
  | finite s hm h =>
    cases s with
    | negative =>
      rw [Sign.apply, neg_neg]
      exact .finite .positive hm h
    | positive => exact .finite .negative hm h

theorem Stands.compare (ha : Stands a v) (hb : Stands b w) : a.compare b = some (Ord.compare v w) := by
  rcases ha with s | @⟨s, m, e, hm, hc⟩ <;> rcases hb with s' | @⟨s', m', e', hm', hc'⟩
  · rfl
  · have hpos := units_pos hm' e'
    cases s' with
    | negative => exact congrArg some (compare_gt_iff_gt.2 (by simp only [Sign.apply]; omega)).symm
    | positive => exact congrArg some (compare_lt_iff_lt.2 (by simp only [Sign.apply]; omega)).symm
  · have hpos := units_pos hm e
    cases s with
    | negative => exact congrArg some (compare_lt_iff_lt.2 (by simp only [Sign.apply]; omega)).symm
    | positive => exact congrArg some (compare_gt_iff_gt.2 (by simp only [Sign.apply]; omega)).symm
  · have hpos := units_pos hm e
    have hpos' := units_pos hm' e'
    have hunits := compare_units hc hc'
    rw [← compare_natCast] at hunits
    rcases s with _ | _ <;> rcases s' with _ | _
    · refine congrArg some ?_
      rw [Sign.apply, Sign.apply, compare_neg_neg, hunits]
    · exact congrArg some (compare_lt_iff_lt.2 (by simp only [Sign.apply]; omega)).symm
    · exact congrArg some (compare_gt_iff_gt.2 (by simp only [Sign.apply]; omega)).symm
    · exact congrArg some hunits.symm

/-- No number lies between an integer and the one to which it is rounded. -/
def Close (x u : Int) : Prop := ∀ y c, Stands y c → (c ≤ x → c ≤ u) ∧ (x ≤ c → u ≤ c)

theorem Close.refl (x : Int) : Close x x := fun _ _ _ => ⟨id, id⟩

theorem Close.neg (h : Close x u) : Close (-x) (-u) := fun y c hc => by
  obtain ⟨hlow, hhigh⟩ := h y.neg (-c) hc.neg
  exact ⟨fun hle => by have := hhigh (by omega); omega, fun hle => by have := hlow (by omega); omega⟩

theorem Adjacent.close {n u : Nat} (h : Adjacent n u) (hn : 0 < n) : Close n u := by
  rintro y c (s | @⟨s, m, e, hm, hc⟩)
  · exact ⟨fun _ => by omega, fun _ => by omega⟩
  · obtain ⟨hlow, hhigh⟩ := h m e hc
    have hpos := units_pos hm e
    cases s with
    | negative | positive =>
      simp only [Sign.apply]
      exact ⟨fun hle => by omega, fun hle => by omega⟩

theorem normalize_stands (n : Int) {e : Int} (he : -1074 ≤ e) (zeroSign : Sign) :
    ∃ u, Stands (UnpackedFloat.normalize .binary64 n e zeroSign) u ∧ Close (n * 2 ^ (e + 1074).toNat) u := by
  rcases Int.lt_trichotomy n 0 with hn | rfl | hn
  · obtain ⟨M, q, hM, hround, hc, hadjacent⟩ := round_spec .negative (m := (-n).toNat) (by omega) he
    have hunits : ((units (-n).toNat e : Nat) : Int) = -(n * 2 ^ (e + 1074).toNat) := by
      rw [units, Nat.cast_mul, Int.toNat_of_nonneg (by omega)]
      push_cast
      ring
    have hclose := (hadjacent.close (units_pos (by omega) e)).neg
    rw [hunits, neg_neg] at hclose
    refine ⟨_, ?_, hclose⟩
    rw [UnpackedFloat.normalize, compare_lt_iff_lt.2 hn]
    exact hround ▸ .finite .negative hM hc
  · rw [Int.zero_mul]
    exact ⟨0, .zero zeroSign, .refl 0⟩
  · obtain ⟨M, q, hM, hround, hc, hadjacent⟩ := round_spec .positive (m := n.toNat) (by omega) he
    have hunits : ((units n.toNat e : Nat) : Int) = n * 2 ^ (e + 1074).toNat := by
      rw [units, Nat.cast_mul, Int.toNat_of_nonneg hn.le]
      push_cast
      rfl
    have hclose := hadjacent.close (units_pos (by omega) e)
    rw [hunits] at hclose
    refine ⟨_, ?_, hclose⟩
    rw [UnpackedFloat.normalize, compare_gt_iff_gt.2 hn]
    exact hround ▸ .finite .positive hM hc

theorem apply_units (s : Sign) (m : Nat) {e t : Int} (ht : -1074 ≤ t) (hle : t ≤ e) :
    s.apply (m <<< (e - t).toNat : Nat) * 2 ^ (t + 1074).toNat = s.apply (units m e) := by
  rw [units_eq ht hle, units, Nat.shiftLeft_eq]
  cases s <;> simp [Sign.apply]

theorem add_stands (ha : Stands a v) (hb : Stands b w) : ∃ u, Stands (add .binary64 a b) u ∧ Close (v + w) u := by
  rcases ha with s | @⟨s, m, e, hm, hc⟩ <;> rcases hb with s' | @⟨s', m', e', hm', hc'⟩
  · refine ⟨0, ?_, .refl 0⟩
    cases s <;> cases s' <;> exact .zero _
  · rw [Int.zero_add]
    exact ⟨_, .finite s' hm' hc', .refl _⟩
  · rw [Int.add_zero]
    exact ⟨_, .finite s hm hc, .refl _⟩
  · have hleast : -1074 ≤ min e e' := le_min hc.least hc'.least
    have hsum := apply_units s m hleast (min_le_left e e')
    have hsum' := apply_units s' m' hleast (min_le_right e e')
    rw [← hsum, ← hsum', ← Int.add_mul]
    exact normalize_stands _ hleast .positive

theorem sub_eq_add_neg (a b : UnpackedFloat) : sub .binary64 a b = add .binary64 a b.neg := by
  rcases a with s | _ | s | ⟨s, m, e, hm⟩ <;> rcases b with s' | _ | s' | ⟨s', m', e', hm'⟩
  case finite.finite =>
    have happly : ∀ n : Nat, (-s').apply n = -s'.apply n := fun n => by
      cases s'
      · exact (Int.neg_neg n).symm
      · rfl
    simp only [sub, UnpackedFloat.neg, add, happly, Int.sub_eq_add_neg]
  all_goals rfl

theorem sub_stands (ha : Stands a v) (hb : Stands b w) : ∃ u, Stands (sub .binary64 a b) u ∧ Close (v - w) u := by
  rw [sub_eq_add_neg, Int.sub_eq_add_neg]
  exact add_stands ha hb.neg

end Standing

end Grove.FloatRounding
