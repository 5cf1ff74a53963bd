import Grove.Evaluation
import Mathlib.Data.Prod.Lex

/-! The order of floating-point numbers. Each that is not NaN has a place among the others: by its sign first, with
the infinities at both ends, then by its exponent and its mantissa. Comparing two numbers is comparing their places,
so that these numbers are totally ordered. -/

namespace Grove

theorem compare_toLex (a b c a' b' c' : Int) : compare (toLex (a, toLex (b, c))) (toLex (a', toLex (b', c'))) =
    (compare a a').then ((compare b b').then (compare c c')) := by
  simp only [Prod.Lex.compare_def, compareLex, compareOn, ofLex_toLex]

theorem compare_neg_neg (a b : Int) : compare (-a) (-b) = (compare a b).swap := by
  rcases Int.lt_trichotomy a b with h | rfl | h
  · rw [compare_lt_iff_lt.2 h, compare_gt_iff_gt.2 (Int.neg_lt_neg h)]
    rfl
  · simp
  · rw [compare_gt_iff_gt.2 h, compare_lt_iff_lt.2 (Int.neg_lt_neg h)]
    rfl

theorem compare_natCast (m n : Nat) : compare (m : Int) n = compare m n := by
  rcases Nat.lt_trichotomy m n with h | rfl | h
  · rw [compare_lt_iff_lt.2 h, compare_lt_iff_lt.2 (Int.ofNat_lt.2 h)]
  · simp
  · rw [compare_gt_iff_gt.2 h, compare_gt_iff_gt.2 (Int.ofNat_lt.2 h)]

namespace FloatOrder

open Float.Model (UnpackedFloat)

/-- Where a number stands; both zeros stand at one place. -/
def placeOf : UnpackedFloat → Int ×ₗ Int ×ₗ Int
  | .infinity .negative => toLex (-2, toLex (0, 0))
  | .finite .negative m e _ => toLex (-1, toLex (-e, -m))
  | .zero _ => toLex (0, toLex (0, 0))
  | .finite .positive m e _ => toLex (1, toLex (e, m))
  | .infinity .positive => toLex (2, toLex (0, 0))
  | .notANumber => toLex (0, toLex (0, 0))

def place (x : Float) : Int ×ₗ Int ×ₗ Int := placeOf x.toModel.unpack

/-- Signs and infinities decide at once; only two finite numbers of one sign are left to compare. -/
theorem compare_placeOf {a b : UnpackedFloat} (ha : a ≠ .notANumber) (hb : b ≠ .notANumber) :
    a.compare b = some (compare (placeOf a) (placeOf b)) := by
  rcases a with (_ | _) | _ | _ | ⟨_ | _, m, e, hm⟩
  all_goals rcases b with (_ | _) | _ | _ | ⟨_ | _, m', e', hm'⟩
  all_goals first
    | exact absurd rfl ha
    | exact absurd rfl hb
    | refine Eq.trans ?_ (congrArg some (compare_toLex ..).symm)
  all_goals try rfl
  · change some ((compare e e').then (compare m m')).swap =
      some ((compare (-e) (-e')).then (compare (-(m : Int)) (-m')))
    rw [compare_neg_neg, compare_neg_neg, compare_natCast, Ordering.swap_then]
  · change some ((compare e e').then (compare m m')) = some ((compare e e').then (compare (m : Int) m'))
    rw [compare_natCast]

theorem isNaN_eq_false {x : Float} : x.isNaN = false ↔ x.toModel.unpack ≠ .notANumber := by
  change x.toModel.unpack.isNaN = false ↔ _
  cases x.toModel.unpack with
  | notANumber => exact iff_of_false nofun (absurd rfl)
  | _ => exact iff_of_true rfl nofun

variable {a b : Float}

theorem lt_iff (ha : a.isNaN = false) (hb : b.isNaN = false) : a < b ↔ place a < place b := by
  have hcompare := compare_placeOf (isNaN_eq_false.1 ha) (isNaN_eq_false.1 hb)
  change decide (a.toModel.unpack.lt b.toModel.unpack = true) = true ↔ _
  rw [UnpackedFloat.lt, hcompare]
  simp [place, compare_lt_iff_lt]

theorem le_iff (ha : a.isNaN = false) (hb : b.isNaN = false) : a ≤ b ↔ place a ≤ place b := by
  have hcompare := compare_placeOf (isNaN_eq_false.1 ha) (isNaN_eq_false.1 hb)
  change decide (a.toModel.unpack.le b.toModel.unpack = true) = true ↔ _
  rw [UnpackedFloat.le, hcompare]
  simp [place, ← Ordering.ne_gt_iff_isLE, compare_le_iff_le]

theorem beq_iff (ha : a.isNaN = false) (hb : b.isNaN = false) : (a == b) = true ↔ place a = place b := by
  have hcompare := compare_placeOf (isNaN_eq_false.1 ha) (isNaN_eq_false.1 hb)
  change (a.toModel.unpack.compare b.toModel.unpack == some .eq) = true ↔ _
  rw [hcompare]
  simp [place, compare_eq_iff_eq]

theorem compareFloats_eq (ha : a.isNaN = false) (hb : b.isNaN = false) :
    compareFloats a b = some (compare (place a) (place b)) := by
  unfold compareFloats
  simp only [lt_iff ha hb, beq_iff ha hb, lt_iff hb ha]
  rcases lt_trichotomy (place a) (place b) with h | h | h
  · rw [if_pos h, compare_lt_iff_lt.2 h]
  · rw [if_neg h.not_lt, if_pos h, compare_eq_iff_eq.2 h]
  · rw [if_neg h.not_gt, if_neg h.ne', if_pos h, compare_gt_iff_gt.2 h]

end FloatOrder
end Grove
