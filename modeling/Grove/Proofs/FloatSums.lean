import Grove.Proofs.FloatRounding

/-! Floats that are not negative. They are sums, products and quotients of such, and a number to which one is added does
not get less, however the sum is rounded. -/

namespace Grove.FloatRounding

open Float.Model (UnpackedFloat)
open Float.Model.UnpackedFloat

section Patterns

variable {s : Sign} {m : Nat} {e : Int}

theorem toNat_leading (fraction : BitVec 52) : (1#1 ++ fraction).toNat = 2 ^ 52 + fraction.toNat := by
  rw [BitVec.toNat_append, ← Nat.shiftLeft_add_eq_or_of_lt fraction.isLt]
  rfl

theorem finite_congr {m' : Nat} {e' : Int} {hm : 0 < m} (hm' : 0 < m') (h : m = m') (he : e = e') :
    UnpackedFloat.finite s m e hm = .finite s m' e' hm' := by
  subst h he
  rfl

theorem unpack_normal {field : BitVec 11} (hmax : field ≠ -1#11) (hzero : field ≠ 0#11) (fraction : BitVec 52) :
    unpack .binary64 (packComponents .binary64 s field fraction) =
      .finite s (2 ^ 52 + fraction.toNat) (field.toNat - 1075) (by omega) := by
  unfold unpack
  simp only [unpackMantissa_packComponents, unpackExponent_packComponents, unpackSign_packComponents,
    Sign.ofBitVec_toBitVec]
  rw [if_neg hmax, if_neg hzero]
  exact finite_congr _ (toNat_leading fraction) rfl

theorem unpack_subnormal {fraction : BitVec 52} (h : 0 < fraction.toNat) :
    unpack .binary64 (packComponents .binary64 s 0#11 fraction) = .finite s fraction.toNat (-1074) h := by
  have hzero : fraction ≠ 0#52 := fun heq => by
    rw [heq] at h
    cases h
  unfold unpack
  simp only [unpackMantissa_packComponents, unpackExponent_packComponents, unpackSign_packComponents,
    Sign.ofBitVec_toBitVec]
  rw [if_neg (by decide), if_pos trivial, dif_neg hzero]
  exact finite_congr _ rfl rfl

theorem field_bounds {field : BitVec 11} : field ≠ -1#11 ∧ field ≠ 0#11 ↔ 0 < field.toNat ∧ field.toNat < 2047 := by
  have hmax : field = -1#11 ↔ field.toNat = 2047 := ⟨fun h => h ▸ rfl, fun h => BitVec.eq_of_toNat_eq h⟩
  have hzero : field = 0#11 ↔ field.toNat = 0 := ⟨fun h => h ▸ rfl, fun h => BitVec.eq_of_toNat_eq h⟩
  rw [Ne, Ne, hmax, hzero]
  have := field.isLt
  omega

/-- The numbers that have patterns. -/
inductive Packed : UnpackedFloat → Prop
  | infinity (s : Sign) : Packed (.infinity s)
  | notANumber : Packed .notANumber
  | zero (s : Sign) : Packed (.zero s)
  | finite (s : Sign) {m : Nat} {e : Int} (hm : 0 < m) (h : binary64.Canonical m e) (he : e ≤ 971) :
      Packed (.finite s m e hm)

theorem packed_unpack (b : BitVec 64) : Packed (unpack .binary64 b) := by
  have hfraction : (@unpackMantissa .binary64 b).toNat < 2 ^ 52 := BitVec.isLt _
  unfold unpack
  dsimp only
  split_ifs with hmax hinfinite hzero hnone
  · exact .infinity _
  · exact .notANumber
  · exact .zero _
  · have hpos : 0 < (@unpackMantissa .binary64 b).toNat := by
      simpa [BitVec.toNat_pos, BitVec.pos_iff_ne_zero] using hnone
    have hleast : ((@unpackExponent .binary64 b).toNat : Int) - (1023 + 52) + 1 = -1074 := by
      rw [hzero]
      rfl
    change Packed (.finite _ _ (_ - (1023 + 52) + 1) _)
    rw [finite_congr hpos rfl hleast]
    exact .finite _ hpos (canonical_iff.2 ⟨hpos, by omega, le_rfl, .inl rfl⟩) (by decide)
  · have hm := toNat_leading (@unpackMantissa .binary64 b)
    obtain ⟨hlow, hhigh⟩ := field_bounds.1 ⟨hmax, hzero⟩
    rw [finite_congr (by omega) hm rfl]
    refine .finite _ _ (canonical_iff.2 ⟨by omega, by omega, ?_, .inr (by omega)⟩) ?_
    · change (-1074 : Int) ≤ _ - (1023 + 52)
      omega
    · change _ - (1023 + 52) ≤ (971 : Int)
      omega

/-- What a number becomes in its pattern. -/
def settle (z : UnpackedFloat) : UnpackedFloat := unpack .binary64 (pack .binary64 z)

theorem settle_finite {hm : 0 < m} (h : binary64.Canonical m e) (he : e ≤ 971) :
    settle (.finite s m e hm) = .finite s m e hm := by
  obtain ⟨-, hlt, hleast, hleading⟩ := canonical_iff.1 h
  obtain ⟨n, hn⟩ : ∃ n : Nat, e + 1023 + 52 = n := ⟨_, (Int.toNat_of_nonneg (by omega)).symm⟩
  have hfield : ¬ 2 ^ 11 ≤ (e + 1023 + 52).toNat + 1 := by
    rw [hn, Int.toNat_natCast]
    omega
  have hpack : pack .binary64 (.finite s m e hm) =
      if m.log2 + 1 = 53 then packComponents .binary64 s (BitVec.ofNat 11 (e + 1023 + 52).toNat) (BitVec.ofNat 52 m)
      else packComponents .binary64 s 0#11 (BitVec.ofNat 52 m) := if_neg hfield
  rw [settle, hpack, hn, Int.toNat_natCast]
  by_cases hlarge : 2 ^ 52 ≤ m
  · have hlog : m.log2 = 52 := (Nat.log2_eq_iff hm.ne').2 ⟨hlarge, hlt⟩
    have hfield : (BitVec.ofNat 11 n).toNat = n := Nat.mod_eq_of_lt (by omega)
    have hfraction : (BitVec.ofNat 52 m).toNat = m - 2 ^ 52 := by
      rw [BitVec.toNat_ofNat]
      omega
    obtain ⟨hmax, hzero⟩ := field_bounds.2 (show 0 < (BitVec.ofNat 11 n).toNat ∧ _ by omega)
    rw [if_pos (by rw [hlog]), unpack_normal hmax hzero]
    exact finite_congr _ (by omega) (by omega)
  · obtain rfl : e = -1074 := hleading.resolve_right hlarge
    have hlog : m.log2 < 52 := (Nat.log2_lt hm.ne').2 (not_le.1 hlarge)
    have hfraction : (BitVec.ofNat 52 m).toNat = m := Nat.mod_eq_of_lt (not_le.1 hlarge)
    rw [if_neg (by omega), unpack_subnormal (by rwa [hfraction])]
    exact finite_congr _ hfraction rfl

theorem settle_large {hm : 0 < m} (he : 971 < e) : settle (.finite s m e hm) = .infinity s := by
  have hfield : 2 ^ 11 ≤ (e + 1023 + 52).toNat + 1 := by
    norm_num
    omega
  have hpack : pack .binary64 (.finite s m e hm) = packedInfinity .binary64 s := if_pos hfield
  rw [settle, hpack]
  cases s <;> rfl

theorem settle_zero (s : Sign) : settle (.zero s) = .zero s := by cases s <;> rfl

theorem settle_infinity (s : Sign) : settle (.infinity s) = .infinity s := by cases s <;> rfl

end Patterns

section Settling

variable {a b z : UnpackedFloat} {v w u : Int}

/-- A number becomes infinite only beyond all those that have patterns. -/
theorem settle_stands (h : Stands z u) : Stands (settle z) u ∨
    settle z = .infinity .positive ∧ (∀ b w, Packed b → Stands b w → w < u) ∨
      settle z = .infinity .negative ∧ ∀ b w, Packed b → Stands b w → u < w := by
  cases h with
  | zero s =>
    rw [settle_zero]
    exact .inl (.zero s)
  | @finite s m e hm h =>
    rcases le_or_gt e 971 with he | he
    · rw [settle_finite h he]
      exact .inl (.finite s hm h)
    · rw [settle_large he]
      have hpos := units_pos hm e
      have hbelow : ∀ b w, Packed b → Stands b w → w.natAbs < units m e := by
        rintro b w hb (_ | @⟨s', m', e', hm', h'⟩)
        · exact hpos
        · cases hb with
          | finite _ _ _ he' =>
            have hlt := canonical_lt_of_exponent h' h (he'.trans_lt he)
            cases s' <;> simpa [Sign.apply] using hlt
      refine .inr ?_
      cases s with
      | positive => exact .inl ⟨rfl, fun b w hb hw => by have := hbelow b w hb hw; simp only [Sign.apply]; omega⟩
      | negative => exact .inr ⟨rfl, fun b w hb hw => by have := hbelow b w hb hw; simp only [Sign.apply]; omega⟩

theorem Stands.le_iff (ha : Stands a v) (hb : Stands b w) : a.le b = true ↔ v ≤ w := by
  rw [UnpackedFloat.le, ha.compare hb, Option.any_some, ← compare_le_iff_le]
  exact Ordering.ne_gt_iff_isLE.symm

theorem Stands.lt_iff (ha : Stands a v) (hb : Stands b w) : a.lt b = true ↔ v < w := by
  rw [UnpackedFloat.lt, ha.compare hb, ← compare_lt_iff_lt]
  simp

theorem Stands.le_infinity (h : Stands b w) : b.le (.infinity .positive) = true := by
  rcases h with s | ⟨_ | _, hm, h⟩ <;> rfl

theorem Packed.stands (h : Packed b) (hf : b.isFinite = true) : ∃ w, Stands b w := by
  cases h with
  | zero s => exact ⟨0, .zero s⟩
  | finite s hm h => exact ⟨_, .finite s hm h⟩
  | _ => cases hf

end Settling

/-- A number from zero on, infinity, or no number. -/
inductive NonNeg : UnpackedFloat → Prop
  | infinity : NonNeg (.infinity .positive)
  | notANumber : NonNeg .notANumber
  | zero (s : Sign) : NonNeg (.zero s)
  | finite {m : Nat} {e : Int} (hm : 0 < m) : NonNeg (.finite .positive m e hm)

section Signs

variable {a b z : UnpackedFloat} {v w u : Int}

theorem Stands.nonNeg (h : Stands z u) (hu : 0 ≤ u) : NonNeg z := by
  rcases h with s | @⟨_ | _, m, e, hm, h⟩
  · exact .zero s
  · have := units_pos hm e
    simp only [Sign.apply] at hu
    omega
  · exact .finite hm

theorem nonNeg_unpack (field : BitVec 11) (fraction : BitVec 52) :
    NonNeg (unpack .binary64 (packComponents .binary64 .positive field fraction)) := by
  unfold unpack
  simp only [unpackSign_packComponents, Sign.ofBitVec_toBitVec]
  split_ifs
  exacts [.infinity, .notANumber, .zero _, .finite _, .finite _]

theorem NonNeg.settle (h : NonNeg z) : NonNeg (settle z) := by
  cases h with
  | infinity =>
    rw [settle_infinity]
    exact .infinity
  | notANumber => exact .notANumber
  | zero s =>
    rw [settle_zero]
    exact .zero s
  | finite hm =>
    rw [FloatRounding.settle, pack]
    dsimp only
    split_ifs <;> exact nonNeg_unpack _ _

theorem nonNeg_roundWithAccuracy (m : Nat) (e : Int) (accuracy : Accuracy) :
    NonNeg (roundWithAccuracy .binary64 .positive m e accuracy) := by
  unfold roundWithAccuracy
  dsimp only
  split_ifs
  exacts [.zero _, .finite _]

theorem NonNeg.mul (ha : NonNeg a) (hb : NonNeg b) : NonNeg (mul .binary64 a b) := by
  cases ha <;> cases hb
  case finite.finite => exact nonNeg_roundWithAccuracy _ _ _
  all_goals first | exact .infinity | exact .notANumber | exact .zero _

theorem NonNeg.div {m : Nat} {e : Int} (ha : NonNeg a) (hm : 0 < m) :
    NonNeg (div .binary64 a (.finite .positive m e hm)) := by
  cases ha
  case finite => exact nonNeg_roundWithAccuracy _ _ _
  all_goals first | exact .infinity | exact .notANumber | exact .zero _

theorem nonNeg_ofUInt64 (n : UInt64) : NonNeg (ofUInt64 .binary64 n) := by
  unfold ofUInt64 ofNat ofInt UnpackedFloat.normalize
  split
  · rename_i hneg
    exact absurd (compare_lt_iff_lt.1 hneg) (not_lt.2 (Int.natCast_nonneg _))
  · exact .zero _
  · exact nonNeg_roundWithAccuracy _ _ _

theorem NonNeg.cases (h : NonNeg a) (hp : Packed a) :
    a = .infinity .positive ∨ a = .notANumber ∨ ∃ v, Stands a v ∧ 0 ≤ v := by
  cases h with
  | infinity => exact .inl rfl
  | notANumber => exact .inr (.inl rfl)
  | zero s => exact .inr (.inr ⟨0, .zero s, le_rfl⟩)
  | finite hm =>
    cases hp with
    | finite _ _ h => exact .inr (.inr ⟨_, .finite .positive hm h, by simp [Sign.apply]⟩)

end Signs

section Floats

/-- The sign, mantissa and exponent of a float, if it has any. -/
def parts (x : Float) : UnpackedFloat := x.toModel.unpack

variable {x y low high : Float}

theorem packed_parts (x : Float) : Packed (parts x) := packed_unpack _

theorem parts_add (x y : Float) : parts (x + y) = settle (add .binary64 (parts x) (parts y)) := rfl

theorem parts_sub (x y : Float) : parts (x - y) = settle (sub .binary64 (parts x) (parts y)) := rfl

theorem parts_mul (x y : Float) : parts (x * y) = settle (mul .binary64 (parts x) (parts y)) := rfl

theorem parts_div (x y : Float) : parts (x / y) = settle (div .binary64 (parts x) (parts y)) := rfl

theorem le_iff_parts : x ≤ y ↔ (parts x).le (parts y) = true := decide_eq_true_iff

theorem lt_iff_parts : x < y ↔ (parts x).lt (parts y) = true := decide_eq_true_iff

theorem exists_stands (h : x.isFinite = true) : ∃ v, Stands (parts x) v := (packed_parts x).stands h

theorem add_infinity {b : UnpackedFloat} {w : Int} (h : Stands b w) :
    add .binary64 (.infinity .positive) b = .infinity .positive := by
  cases h <;> rfl

theorem add_notANumber (b : UnpackedFloat) : add .binary64 .notANumber b = .notANumber := by cases b <;> rfl

theorem le_add (hx : NonNeg (parts x)) (hy : y.isFinite = true) (hn : (x + y).isNaN = false) : y ≤ x + y := by
  obtain ⟨w, hw⟩ := exists_stands hy
  rw [le_iff_parts, parts_add]
  change (parts (x + y)).isNaN = false at hn
  rw [parts_add] at hn
  rcases hx.cases (packed_parts x) with hinfinite | hnan | ⟨v, hv, hpos⟩
  · rw [hinfinite, add_infinity hw, settle_infinity]
    exact hw.le_infinity
  · rw [hnan, add_notANumber] at hn
    cases hn
  · obtain ⟨u, hu, hclose⟩ := add_stands hv hw
    have hle : w ≤ u := (hclose _ w hw).1 (by omega)
    rcases settle_stands hu with hsum | ⟨hinfinite, -⟩ | ⟨-, hbelow⟩
    · exact (hw.le_iff hsum).2 hle
    · rw [hinfinite]
      exact hw.le_infinity
    · exact absurd (hbelow _ w (packed_parts y) hw) (not_lt.2 hle)

theorem nonNeg_sub (hlow : low.isFinite = true) (hhigh : high.isFinite = true) (h : low < high) :
    NonNeg (parts (high - low)) := by
  obtain ⟨v, hv⟩ := exists_stands hlow
  obtain ⟨w, hw⟩ := exists_stands hhigh
  obtain ⟨u, hu, hclose⟩ := sub_stands hw hv
  have hlt : v < w := (hv.lt_iff hw).1 (lt_iff_parts.1 h)
  have hpos : 0 ≤ u := (hclose _ 0 (.zero .positive)).1 (by omega)
  rw [parts_sub]
  exact (hu.nonNeg hpos).settle

end Floats

end Grove.FloatRounding
