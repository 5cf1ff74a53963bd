import Grove.Fitness
import Grove.Proofs.FloatSums

/-! Floats at zero, where both zeros are one. The distance of two finite floats is zero only if they are equal, since
what is not zero is never rounded to it, and ints lose nothing when they become floats. A sum of floats from zero on is
zero only if all of them are. -/

namespace Grove.FloatRounding

open Float.Model (UnpackedFloat)
open Float.Model.UnpackedFloat

section Standing

variable {z a b y : UnpackedFloat} {v w x u : Int}

theorem Packed.settle_eq (h : Packed z) : settle z = z := by
  cases h with
  | infinity s => exact settle_infinity s
  | notANumber => rfl
  | zero s => exact settle_zero s
  | finite s hm h he => exact settle_finite h he

theorem Packed.neg (h : Packed z) : Packed z.neg := by
  cases h with
  | infinity s => exact .infinity _
  | notANumber => exact .notANumber
  | zero s => exact .zero _
  | finite s hm h he => exact .finite _ hm h he

theorem Packed.abs (h : Packed z) : Packed z.abs := by
  cases h with
  | infinity s => exact .infinity _
  | notANumber => exact .notANumber
  | zero s => exact .zero _
  | finite s hm h he => exact .finite _ hm h he

theorem Packed.cases (h : Packed z) : z = .notANumber ∨ (∃ s, z = .infinity s) ∨ ∃ v, Stands z v := by
  cases h with
  | infinity s => exact .inr (.inl ⟨s, rfl⟩)
  | notANumber => exact .inl rfl
  | zero s => exact .inr (.inr ⟨0, .zero s⟩)
  | finite s hm h => exact .inr (.inr ⟨_, .finite s hm h⟩)

theorem Stands.eq (h : Stands z u) (h' : Stands z v) : u = v := by
  cases h <;> cases h' <;> rfl

theorem Stands.of_neg (h : Stands z.neg u) : Stands z (-u) := by
  have htwice : z.neg.neg = z := by rcases z with (_ | _) | _ | (_ | _) | ⟨_ | _, m, e, hm⟩ <;> rfl
  exact htwice ▸ h.neg

theorem Stands.abs (h : Stands z u) : Stands z.abs |u| := by
  cases h with
  | zero s => exact .zero _
  | @finite s m e hm h =>
    have habs : |s.apply (units m e : Nat)| = (units m e : Nat) := by cases s <;> simp [Sign.apply]
    rw [habs]
    exact .finite .positive hm h

theorem Stands.beq_iff (ha : Stands a v) (hb : Stands b w) : a.beq b = true ↔ v = w := by
  rw [UnpackedFloat.beq, ha.compare hb, ← compare_eq_iff_eq]
  simp

theorem Stands.isInf (h : Stands z u) : z.isInf = false := by cases h <;> rfl

theorem Stands.isNaN (h : Stands z u) : z.isNaN = false := by cases h <;> rfl

theorem Stands.isFinite (h : Stands z u) : z.isFinite = true := by cases h <;> rfl

theorem finite_of_beq (h : a.beq b = true) (hb : b.isInf = false) :
    a.isFinite = true ∧ b.isFinite = true := by
  rcases b with s | _ | s | ⟨s, m, e, hm⟩
  · cases hb
  all_goals rcases a with (_ | _) | _ | _ | _
  all_goals first | exact ⟨rfl, rfl⟩ | cases h

theorem sub_missing (h : ¬ (a.isFinite = true ∧ b.isFinite = true)) :
    (∃ s, UnpackedFloat.sub .binary64 a b = .infinity s) ∨ UnpackedFloat.sub .binary64 a b = .notANumber := by
  rcases a with (_ | _) | _ | (_ | _) | _ <;> rcases b with (_ | _) | _ | (_ | _) | _ <;>
    first | exact absurd ⟨rfl, rfl⟩ h | exact .inr rfl | exact .inl ⟨_, rfl⟩

theorem stands_one : Stands (.finite .positive 1 (-1074) Nat.one_pos) 1 :=
  .finite .positive Nat.one_pos (canonical_iff.2 ⟨by decide, by decide, le_rfl, .inl rfl⟩)

/-- Nothing else is rounded to zero. -/
theorem Close.eq_zero_iff (h : Close x u) : u = 0 ↔ x = 0 := by
  have hzero := h _ 0 (.zero .positive)
  have hone := h _ 1 stands_one
  have hminus := h _ (-1) stands_one.neg
  omega

theorem Close.eq (h : Close x u) (hy : Stands y x) : u = x := by
  have hsame := h y x hy
  omega

end Standing

section Ints

/-- The number one, counted in the least positive number. -/
def whole : Int := (units 1 0 : Nat)

theorem whole_pos : 0 < whole := Int.ofNat_lt.2 (units_pos Nat.one_pos 0)

theorem units_natural (n : Nat) : ((units n 0 : Nat) : Int) = n * whole := by
  rw [whole, units, units, Nat.one_mul, Nat.cast_mul]

theorem exists_stands_natural {n : Nat} (hn : n < 2 ^ 53) : ∃ y, Packed y ∧ Stands y (n * whole) := by
  rcases n.eq_zero_or_pos with rfl | hpos
  · rw [Nat.cast_zero, Int.zero_mul]
    exact ⟨.zero .positive, .zero .positive, .zero .positive⟩
  · -- the mantissa is brought to its full length
    obtain ⟨l, hl⟩ : ∃ l, n.log2 = l := ⟨_, rfl⟩
    have hlong : l < 53 := hl ▸ (Nat.log2_lt hpos.ne').2 hn
    have hm : 0 < n * 2 ^ (52 - l) := Nat.mul_pos hpos (Nat.two_pow_pos _)
    have hlog : (n * 2 ^ (52 - l)).log2 = 52 := by
      rw [log2_mul_two_pow hpos, hl]
      omega
    obtain ⟨hleading, hlt⟩ := (Nat.log2_eq_iff hm.ne').1 hlog
    have hcanonical : binary64.Canonical (n * 2 ^ (52 - l)) (l - 52) :=
      canonical_iff.2 ⟨hm, hlt, by omega, .inr hleading⟩
    have hunits : units (n * 2 ^ (52 - l)) (l - 52) = units n 0 := by
      rw [units_eq (show -1074 ≤ (l : Int) - 52 by omega) (show (l : Int) - 52 ≤ 0 by omega) n]
      congr 3
      omega
    refine ⟨.finite .positive _ _ hm, .finite _ hm hcanonical (by omega), ?_⟩
    rw [← units_natural, ← hunits]
    exact .finite .positive hm hcanonical

theorem exists_stands_integer {i : Int} (hi : i.natAbs < 2 ^ 53) : ∃ y, Packed y ∧ Stands y (i * whole) := by
  obtain ⟨y, hp, hy⟩ := exists_stands_natural hi
  rcases i.natAbs_eq with h | h
  · exact ⟨y, hp, by rwa [h]⟩
  · refine ⟨y.neg, hp.neg, ?_⟩
    rw [h, Int.neg_mul]
    exact hy.neg

theorem settle_normalize {i : Int} (hi : i.natAbs < 2 ^ 53) (zeroSign : Sign) :
    Stands (settle (UnpackedFloat.normalize .binary64 i 0 zeroSign)) (i * whole) := by
  obtain ⟨y, hp, hy⟩ := exists_stands_integer hi
  obtain ⟨u, hu, hclose⟩ := normalize_stands i (show -1074 ≤ (0 : Int) by decide) zeroSign
  have hwhole : i * 2 ^ ((0 : Int) + 1074).toNat = i * whole := by
    rw [whole, units, Nat.one_mul, Nat.cast_pow, Nat.cast_ofNat]
  rw [hwhole] at hclose
  obtain rfl : u = i * whole := hclose.eq hy
  -- it is no larger than a number that has a pattern
  rcases settle_stands hu with h | ⟨-, habove⟩ | ⟨-, hbelow⟩
  · exact h
  · exact absurd (habove y _ hp hy) (lt_irrefl _)
  · exact absurd (hbelow y _ hp hy) (lt_irrefl _)

end Ints

/-- A float from zero on has a weight: the natural number for which it stands, or infinity. -/
inductive Weighs : UnpackedFloat → ℕ∞ → Prop
  | infinity : Weighs (.infinity .positive) ⊤
  | number {z : UnpackedFloat} {n : ℕ} (h : Stands z n) : Weighs z n

section Weights

variable {z a b : UnpackedFloat} {m n : ℕ∞} {v : Int}

theorem Stands.lt_infinity (h : Stands z v) : z.lt (.infinity .positive) = true := by
  rcases h with s | ⟨_ | _, hm, h⟩ <;> rfl

theorem Stands.infinity_lt (h : Stands z v) : (UnpackedFloat.infinity .positive).lt z = false := by
  rcases h with s | ⟨_ | _, hm, h⟩ <;> rfl

theorem Stands.weighs (h : Stands z v) (hv : 0 ≤ v) : Weighs z v.toNat :=
  .number (by rwa [Int.toNat_of_nonneg hv])

theorem Weighs.zero_iff (h : Weighs z n) : n = 0 ↔ Stands z 0 := by
  cases h with
  | infinity => exact ⟨nofun, nofun⟩
  | @number _ n h =>
    rw [Nat.cast_eq_zero]
    exact ⟨fun hn => by rwa [hn] at h, fun h0 => Int.ofNat_eq_zero.1 (h.eq h0)⟩

theorem add_infinity_right (h : Stands a v) :
    UnpackedFloat.add .binary64 a (.infinity .positive) = .infinity .positive := by
  cases h <;> rfl

theorem Weighs.lt_iff (ha : Weighs a m) (hb : Weighs b n) : a.lt b = true ↔ m < n := by
  cases ha with
  | infinity =>
    cases hb with
    | infinity => exact ⟨nofun, fun h => absurd h (lt_irrefl _)⟩
    | number hb =>
      rw [hb.infinity_lt]
      exact ⟨nofun, fun h => absurd h not_top_lt⟩
  | number ha =>
    cases hb with
    | infinity => exact ⟨fun _ => ENat.natCast_lt_top _, fun _ => ha.lt_infinity⟩
    | number hb => rw [ha.lt_iff hb, Nat.cast_lt, Nat.cast_lt]

theorem Weighs.zero_le (h : Weighs z n) : (UnpackedFloat.zero .positive).le z = true := by
  cases h with
  | infinity => rfl
  | number h => exact ((Stands.zero .positive).le_iff h).2 (Int.natCast_nonneg _)

theorem Weighs.neg_le_zero (h : Weighs z n) : z.neg.le (UnpackedFloat.zero .positive) = true := by
  cases h with
  | infinity => rfl
  | number h => exact (h.neg.le_iff (.zero .positive)).2 (by omega)

theorem Packed.weighs (h : Packed z) (hz : (UnpackedFloat.zero .positive).le z = true) : ∃ n, Weighs z n := by
  rcases h.cases with rfl | ⟨_ | _, rfl⟩ | ⟨v, hv⟩
  · cases hz
  · cases hz
  · exact ⟨⊤, .infinity⟩
  · exact ⟨_, hv.weighs (((Stands.zero .positive).le_iff hv).1 hz)⟩

/-- The sum weighs nothing only if both parts do, and it may become infinite. -/
theorem Weighs.add (ha : Weighs a m) (hb : Weighs b n) :
    ∃ k, Weighs (settle (UnpackedFloat.add .binary64 a b)) k ∧ (k = 0 ↔ m = 0 ∧ n = 0) := by
  cases ha with
  | infinity =>
    refine ⟨⊤, ?_, by simp⟩
    cases hb with
    | infinity => exact .infinity
    | number hb =>
      rw [add_infinity hb, settle_infinity]
      exact .infinity
  | @number _ m ha =>
    cases hb with
    | infinity =>
      refine ⟨⊤, ?_, by simp⟩
      rw [add_infinity_right ha, settle_infinity]
      exact .infinity
    | @number _ n hb =>
      obtain ⟨u, hu, hclose⟩ := add_stands ha hb
      have hpos : 0 ≤ u := (hclose _ 0 (.zero .positive)).1 (by omega)
      have hzero : u = 0 ↔ m = 0 ∧ n = 0 := hclose.eq_zero_iff.trans (by omega)
      rw [Nat.cast_eq_zero, Nat.cast_eq_zero, ← hzero]
      rcases settle_stands hu with h | ⟨hinfinite, habove⟩ | ⟨-, hbelow⟩
      · refine ⟨_, h.weighs hpos, ?_⟩
        rw [Nat.cast_eq_zero]
        omega
      · have hne : u ≠ 0 := (habove _ 0 (.zero .positive) (.zero .positive)).ne'
        exact ⟨⊤, hinfinite ▸ .infinity, nofun, fun h0 => absurd h0 hne⟩
      · exact absurd (hbelow _ 0 (.zero .positive) (.zero .positive)) (not_lt.2 hpos)

end Weights

section Floats

variable {x y : Float}

theorem parts_neg (x : Float) : parts (-x) = (parts x).neg := (packed_parts x).neg.settle_eq

theorem parts_abs (x : Float) : parts x.abs = (parts x).abs := (packed_parts x).abs.settle_eq

theorem beq_iff_parts : (x == y) = true ↔ (parts x).beq (parts y) = true := Iff.rfl

theorem parts_zero : parts 0.0 = .zero .positive := rfl

theorem beq_zero_iff : (x == 0.0) = true ↔ Stands (parts x) 0 := by
  rw [beq_iff_parts, parts_zero]
  rcases (packed_parts x).cases with hx | ⟨s, hx⟩ | ⟨v, hv⟩
  · rw [hx]
    exact ⟨nofun, nofun⟩
  · rw [hx]
    cases s <;> exact ⟨nofun, nofun⟩
  · rw [hv.beq_iff (.zero .positive)]
    exact ⟨fun h => h ▸ hv, fun h => hv.eq h⟩

theorem zero_le_iff : 0.0 ≤ x ↔ ∃ n, Weighs (parts x) n := by
  rw [le_iff_parts, parts_zero]
  exact ⟨(packed_parts x).weighs, fun ⟨_, h⟩ => h.zero_le⟩

theorem neg_at_zero (hx : 0.0 ≤ x) : -x ≤ 0.0 ∧ ((-x == 0.0) = true ↔ (x == 0.0) = true) := by
  obtain ⟨n, h⟩ := zero_le_iff.1 hx
  rw [le_iff_parts, parts_zero, beq_zero_iff, beq_zero_iff, parts_neg]
  exact ⟨h.neg_le_zero, Stands.of_neg, Stands.neg⟩

theorem add_at_zero (hx : 0.0 ≤ x) (hy : 0.0 ≤ y) :
    0.0 ≤ x + y ∧ ((x + y == 0.0) = true ↔ (x == 0.0) = true ∧ (y == 0.0) = true) := by
  obtain ⟨m, hm⟩ := zero_le_iff.1 hx
  obtain ⟨n, hn⟩ := zero_le_iff.1 hy
  obtain ⟨k, hk, hzero⟩ := hm.add hn
  rw [zero_le_iff, beq_zero_iff, beq_zero_iff, beq_zero_iff, ← hm.zero_iff, ← hn.zero_iff, parts_add, ← hk.zero_iff]
  exact ⟨⟨k, hk⟩, hzero⟩

theorem sum_at_zero {ps : List Float} (hps : ∀ p ∈ ps, 0.0 ≤ p) (hx : 0.0 ≤ x) :
    0.0 ≤ ps.foldl (· + ·) x ∧
      ((ps.foldl (· + ·) x == 0.0) = true ↔ (x == 0.0) = true ∧ ∀ p ∈ ps, (p == 0.0) = true) := by
  induction ps generalizing x with
  | nil => exact ⟨hx, by simp⟩
  | cons p ps ih =>
    obtain ⟨hp, hps⟩ := List.forall_mem_cons.1 hps
    obtain ⟨hsum, hzero⟩ := add_at_zero hx hp
    rw [List.foldl_cons, List.forall_mem_cons, ← and_assoc, ← hzero]
    exact ih hps hsum

theorem at_zero_of_not_lt (hx : (x == 0.0) = true) (hy : 0.0 ≤ y) (h : ¬ x < y) : (y == 0.0) = true := by
  obtain ⟨n, hn⟩ := zero_le_iff.1 hy
  rw [beq_zero_iff] at hx
  rw [lt_iff_parts, (Weighs.number (n := 0) hx).lt_iff hn, Nat.cast_zero, pos_iff_ne_zero, not_not] at h
  rwa [beq_zero_iff, ← hn.zero_iff]

theorem not_lt_at_zero (hx : 0.0 ≤ x) (hy : (y == 0.0) = true) : ¬ x < y := by
  obtain ⟨n, hn⟩ := zero_le_iff.1 hx
  rw [beq_zero_iff] at hy
  rw [lt_iff_parts, hn.lt_iff (Weighs.number (n := 0) hy)]
  exact not_lt_zero

theorem isFinite_at_zero (hx : (x == 0.0) = true) : x.isFinite = true := by
  rw [beq_zero_iff] at hx
  exact hx.isFinite

theorem isNaN_of_le (h : x ≤ y) : x.isNaN = false := by
  rw [le_iff_parts] at h
  change (parts x).isNaN = false
  cases hx : parts x with
  | notANumber =>
    rw [hx] at h
    cases h
  | _ => rfl

theorem le_at_zero (hx : x ≤ 0.0) (hy : (y == 0.0) = true) : x ≤ y := by
  have hnan := isNaN_of_le hx
  have hnan' : y.isNaN = false := (beq_zero_iff.1 hy).isNaN
  rw [FloatOrder.beq_iff hnan' rfl] at hy
  rw [FloatOrder.le_iff hnan rfl] at hx
  rwa [FloatOrder.le_iff hnan hnan', hy]

theorem abs_from_zero (hx : x.abs.isFinite = true) : 0.0 ≤ x.abs := by
  change (parts x.abs).isFinite = true at hx
  rw [zero_le_iff]
  rw [parts_abs] at hx ⊢
  rcases (packed_parts x).cases with h | ⟨s, h⟩ | ⟨v, hv⟩
  · rw [h] at hx
    cases hx
  · rw [h] at hx
    cases hx
  · exact ⟨_, hv.abs.weighs (abs_nonneg v)⟩

/-- The distance of two floats is zero only if they are equal, and there is none between infinities. -/
theorem abs_sub_at_zero : ((x - y).abs == 0.0) = true ↔ (x == y) = true ∧ y.isInf = false := by
  rw [beq_zero_iff, parts_abs, parts_sub]
  by_cases hfinite : x.isFinite = true ∧ y.isFinite = true
  · obtain ⟨v, hv⟩ := exists_stands hfinite.1
    obtain ⟨w, hw⟩ := exists_stands hfinite.2
    obtain ⟨u, hu, hclose⟩ := sub_stands hv hw
    have hzero : u = 0 ↔ v = w := hclose.eq_zero_iff.trans sub_eq_zero
    rw [beq_iff_parts, hv.beq_iff hw, ← hzero, and_iff_left (show y.isInf = false from hw.isInf)]
    rcases settle_stands hu with h | ⟨hsum, habove⟩ | ⟨hsum, hbelow⟩
    · exact ⟨fun h0 => abs_eq_zero.1 (h.abs.eq h0), fun h0 => by simpa [h0] using h.abs⟩
    · have hne := (habove _ 0 (.zero .positive) (.zero .positive)).ne'
      rw [hsum]
      exact ⟨nofun, fun h0 => absurd h0 hne⟩
    · have hne := (hbelow _ 0 (.zero .positive) (.zero .positive)).ne
      rw [hsum]
      exact ⟨nofun, fun h0 => absurd h0 hne⟩
  · refine ⟨fun h => ?_, fun h => absurd (finite_of_beq h.1 h.2) hfinite⟩
    have hmissing : (∃ s, UnpackedFloat.sub .binary64 (parts x) (parts y) = .infinity s) ∨
        UnpackedFloat.sub .binary64 (parts x) (parts y) = .notANumber := sub_missing hfinite
    rcases hmissing with ⟨s, hsub⟩ | hsub
    · rw [hsub, settle_infinity] at h
      cases h
    · rw [hsub] at h
      cases h

theorem int32Float_stands (i : Int32) : Stands (parts (int32Float i)) (i.toInt * whole) := by
  have hlow := i.le_toInt
  have hhigh := i.toInt_lt
  exact settle_normalize (by omega) .positive

end Floats

end Grove.FloatRounding
