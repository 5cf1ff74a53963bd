import Grove.Number.Floating
import Grove.Proofs.Decimal
import Mathlib.Algebra.Order.Field.Power
import Mathlib.Data.Rat.Floor
import Mathlib.Tactic.Ring

/-! What is written for `d * 10 ^ k`, positionally or with an exponent, is read as a numeral of that value. Reading
splits a text where its digits end, so each layout is put in the form digits, point, digits, exponent first. -/

namespace Grove

theorem digits_length {n : Nat} (hn : 0 < n) : 10 ^ ((digits n).length - 1) ≤ n ∧ n < 10 ^ (digits n).length := by
  induction n using Nat.strongRecOn with
  | ind n ih =>
    by_cases h : n < 10
    · simp [digits_small h]
      omega
    · obtain ⟨hlow, hhigh⟩ := ih (n / 10) (by omega) (by omega)
      have hpos : 0 < (digits (n / 10)).length := List.length_pos_of_ne_nil (digits_ne_nil _)
      rw [digits_large h, List.length_append, List.length_singleton, Nat.add_sub_cancel]
      obtain ⟨k, hk⟩ := Nat.exists_eq_add_of_lt hpos
      rw [hk] at hlow hhigh ⊢
      simp only [Nat.zero_add, Nat.add_sub_cancel, pow_succ] at hlow hhigh ⊢
      omega

def Digital (cs : List Char) : Prop := ∀ c ∈ cs, isDigit c = true

def Stops (cs : List Char) : Prop := ∀ c ∈ cs.head?, isDigit c = false

theorem digital_digits (n : Nat) : Digital (digits n) := fun _ hc => isDigit_of_mem_digits n hc

theorem digital_zeros (n : Nat) : Digital (FloatLayout.zeros n) := fun c hc => by
  rw [List.eq_of_mem_replicate hc]
  decide

theorem Digital.append {cs ds : List Char} (h : Digital cs) (h' : Digital ds) : Digital (cs ++ ds) := fun c hc =>
  (List.mem_append.1 hc).elim (h c) (h' c)

theorem takeWhile_isDigit {front back : List Char} (h : Digital front) (hb : Stops back) :
    (front ++ back).takeWhile isDigit = front := by
  rw [List.takeWhile_append_of_pos h]
  cases back with
  | nil => simp
  | cons c back => simp [hb c rfl]

theorem dropWhile_isDigit {front back : List Char} (h : Digital front) (hb : Stops back) :
    (front ++ back).dropWhile isDigit = back := by
  rw [List.dropWhile_append_of_pos h]
  cases back with
  | nil => rfl
  | cons c back => simp [hb c rfl]

theorem foldDigits_zeros (n k : Nat) : foldDigits n (FloatLayout.zeros k) = some (n * 10 ^ k) := by
  induction k generalizing n with
  | zero => simp [FloatLayout.zeros, foldDigits]
  | succ k ih =>
    have hzero : digitValue? '0' = some 0 := by decide
    rw [FloatLayout.zeros, List.replicate_succ, foldDigits, hzero, Option.bind_some]
    rw [show List.replicate k '0' = FloatLayout.zeros k from rfl, ih, pow_succ]
    congr 1
    ring

namespace Numeral

variable {negative : Bool} {whole places rest : List Char}

theorem readPlain_point {m : Nat} {e : Int} (hw : Digital whole) (hp : Digital places) (hr : Stops rest)
    (hm : readDigits (whole ++ places) = some m) (he : readExponent rest = some e) :
    readPlain negative (whole ++ '.' :: (places ++ rest)) = some (.decimal negative m (e - places.length)) := by
  have hpoint : Stops ('.' :: (places ++ rest)) := fun c hc => by
    obtain rfl := Option.some.inj hc
    decide
  unfold readPlain
  rw [takeWhile_isDigit hw hpoint, dropWhile_isDigit hw hpoint]
  simp only [takeWhile_isDigit hp hr, dropWhile_isDigit hp hr, hm, he, Option.bind_some, Option.map_some]

theorem readPlain_whole {m : Nat} {e : Int} (hw : Digital whole) (hr : Stops rest) (hp : rest.head? ≠ some '.')
    (hm : readDigits whole = some m) (he : readExponent rest = some e) :
    readPlain negative (whole ++ rest) = some (.decimal negative m e) := by
  unfold readPlain
  rw [takeWhile_isDigit hw hr, dropWhile_isDigit hw hr]
  dsimp only
  split
  · simp at hp
  · simp [hm, he]

theorem toLower_of_isDigit {c : Char} (h : isDigit c = true) : c.toLower = c := by
  have hc : c.val.toNat ≤ 57 := by
    by_contra hlt
    have hvalue : ¬(48 ≤ c.toNat ∧ c.toNat ≤ 57) := fun hc => hlt hc.2
    simp [isDigit, digitValue?, hvalue] at h
  unfold Char.toLower
  rw [dif_neg]
  rintro ⟨hA, -⟩
  have hA : 65 ≤ c.val.toNat := UInt32.le_iff_toNat_le.1 hA
  omega

theorem readUnsigned_of_digit {c : Char} {cs : List Char} (h : isDigit c = true) :
    readUnsigned negative (c :: cs) = readPlain negative (c :: cs) := by
  have hword : ∀ {w ws}, isDigit w = false → lower (c :: cs) ≠ w :: ws := by
    rintro w ws hw heq
    obtain ⟨rfl, -⟩ := List.cons.inj heq
    rw [toLower_of_isDigit h, h] at hw
    cases hw
  have hinf : "inf".toList = ['i', 'n', 'f'] := rfl
  have hinfinity : "infinity".toList = ['i', 'n', 'f', 'i', 'n', 'i', 't', 'y'] := rfl
  have hnan : "nan".toList = ['n', 'a', 'n'] := rfl
  unfold readUnsigned
  dsimp only
  rw [hinf, hinfinity, hnan, if_neg (not_or.2 ⟨hword (by decide), hword (by decide)⟩), if_neg (hword (by decide))]

end Numeral

namespace FloatLayout

open Numeral

variable {ds : List Char} {d : Nat} {k : Int} {negative : Bool}

/-- What is written for `d * 10 ^ k` is read as that number. -/
def ReadsAs (cs : List Char) (d : Nat) (k : Int) : Prop :=
  ∀ negative, ∃ m e, readPlain negative cs = some (.decimal negative m e) ∧ (m * 10 ^ e : ℚ) = d * 10 ^ k

theorem readDigits_zeros (n d : Nat) : readDigits (zeros n ++ digits d) = some d := by
  have hne : zeros n ++ digits d ≠ [] := List.append_ne_nil_of_right_ne_nil _ (digits_ne_nil d)
  rw [readDigits_of_ne_nil hne, foldDigits_append, foldDigits_zeros, Option.bind_some, Nat.zero_mul, foldDigits_digits]

theorem readDigits_scaled (n d : Nat) : readDigits (digits d ++ zeros n) = some (d * 10 ^ n) := by
  have hne : digits d ++ zeros n ≠ [] := List.append_ne_nil_of_left_ne_nil (digits_ne_nil d) _
  rw [readDigits_of_ne_nil hne, foldDigits_append, foldDigits_digits, Option.bind_some, foldDigits_zeros]

theorem positional_reads (d : Nat) (k : Int) : ReadsAs (positional (digits d) k) d k := by
  intro negative
  have hend : Stops [] := nofun
  have hdigits := digital_digits d
  unfold positional
  dsimp only
  split_ifs with hpoint hwhole
  · generalize hn : (-((digits d).length + k)).toNat = n
    -- the zero in front of the point is one more leading zero
    have htext : '0' :: '.' :: zeros n ++ digits d = zeros 1 ++ '.' :: (zeros n ++ digits d ++ []) := by simp [zeros]
    have hm : readDigits (zeros 1 ++ (zeros n ++ digits d)) = some d := by
      rw [← List.append_assoc, zeros, zeros, List.replicate_append_replicate]
      exact readDigits_zeros _ d
    rw [htext, readPlain_point (digital_zeros 1) ((digital_zeros n).append hdigits) hend hm rfl]
    refine ⟨_, _, rfl, ?_⟩
    congr 2
    simp [zeros]
    omega
  · obtain ⟨n, rfl⟩ := Int.eq_ofNat_of_zero_le hwhole
    have htext : digits d ++ zeros n ++ ['.', '0'] = digits d ++ zeros n ++ '.' :: (zeros 1 ++ []) := rfl
    have hm : readDigits (digits d ++ zeros n ++ zeros 1) = some (d * 10 ^ (n + 1)) := by
      rw [List.append_assoc, zeros, zeros, List.replicate_append_replicate]
      exact readDigits_scaled _ d
    rw [Int.toNat_natCast, htext, readPlain_point (hdigits.append (digital_zeros n)) (digital_zeros 1) hend hm rfl]
    refine ⟨_, _, rfl, ?_⟩
    push_cast
    simp [zeros, pow_succ]
    ring
  · generalize hn : ((digits d).length + k).toNat = n
    have htext : (digits d).take n ++ '.' :: (digits d).drop n =
        (digits d).take n ++ '.' :: ((digits d).drop n ++ []) := by rw [List.append_nil]
    have hm : readDigits ((digits d).take n ++ (digits d).drop n) = some d := by
      rw [List.take_append_drop, readDigits_digits]
    have htake : Digital ((digits d).take n) := fun c hc => hdigits c (List.mem_of_mem_take hc)
    have hdrop : Digital ((digits d).drop n) := fun c hc => hdigits c (List.mem_of_mem_drop hc)
    rw [htext, readPlain_point htake hdrop hend hm rfl]
    refine ⟨_, _, rfl, ?_⟩
    congr 2
    simp
    omega

theorem scientific_reads (d : Nat) (k : Int) : ReadsAs (scientific (digits d) k) d k := by
  intro negative
  have hdigits := digital_digits d
  have hread := readDigits_digits d
  generalize he : ((digits d).length + k - 1 : Int) = e
  have hexponent : readExponent ('e' :: Grove.decimal e) = some e := by
    simp [readExponent, readSigned_decimal]
  have hstops : Stops ('e' :: Grove.decimal e) := fun c hc => by
    obtain rfl := Option.some.inj hc
    decide
  unfold scientific
  dsimp only
  rw [he]
  cases hds : digits d with
  | nil => exact absurd hds (digits_ne_nil d)
  | cons c ds =>
    rw [hds] at he hdigits hread
    cases ds with
    | nil =>
      have hplain := @readPlain_whole negative [c] _ _ _ hdigits hstops (by simp) hread hexponent
      refine ⟨_, _, hplain, ?_⟩
      congr 2
      simp at he
      omega
    | cons c' ds =>
      obtain ⟨hfirst, hplaces⟩ := List.forall_mem_cons.1 hdigits
      have hwhole : Digital [c] := List.forall_mem_singleton.2 hfirst
      refine ⟨_, _, readPlain_point hwhole hplaces hstops hread hexponent, ?_⟩
      congr 2
      simp at he ⊢
      omega

theorem unsigned_reads (l : FloatLayout) (d : Nat) (k : Int) : ReadsAs (l.unsigned d k) d k := by
  unfold unsigned
  dsimp only
  split_ifs
  · exact positional_reads d k
  · exact scientific_reads d k

theorem unsigned_cons (l : FloatLayout) (d : Nat) (k : Int) : ∃ c cs, l.unsigned d k = c :: cs ∧ isDigit c = true := by
  obtain ⟨c, cs, hds⟩ := List.exists_cons_of_ne_nil (digits_ne_nil d)
  have hc : isDigit c = true := isDigit_of_mem_digits d (by simp [hds])
  unfold unsigned positional scientific
  dsimp only
  rw [hds]
  split_ifs with hlayout hpoint hwhole
  · exact ⟨'0', _, rfl, by decide⟩
  · exact ⟨c, _, rfl, hc⟩
  · obtain ⟨n, hn⟩ : ∃ n, ((c :: cs).length + k).toNat = n + 1 := ⟨((c :: cs).length + k).toNat - 1, by omega⟩
    rw [hn]
    exact ⟨c, _, rfl, hc⟩
  · cases cs with
    | nil => exact ⟨c, _, rfl, hc⟩
    | cons c' cs => exact ⟨c, _, rfl, hc⟩

theorem read_sign_append (l : FloatLayout) (negative : Bool) (d : Nat) (k : Int) :
    ∃ m e, Numeral.read (sign negative ++ l.unsigned d k) = some (.decimal negative m e) ∧
      (m * 10 ^ e : ℚ) = d * 10 ^ k := by
  obtain ⟨c, cs, htext, hc⟩ := l.unsigned_cons d k
  have hread := l.unsigned_reads d k negative
  rw [htext, ← readUnsigned_of_digit hc] at hread
  rw [htext]
  cases negative with
  | true => exact hread
  | false =>
    have hminus : c ≠ '-' := by
      rintro rfl
      exact absurd hc (by decide)
    have hplus : c ≠ '+' := by
      rintro rfl
      exact absurd hc (by decide)
    rw [sign, if_neg (by decide), List.nil_append, Numeral.read]
    · exact hread
    · simp [hminus]
    · simp [hplus]

end FloatLayout

end Grove
