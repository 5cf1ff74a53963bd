import Grove.Value

/-! Whole numbers in decimal read back. The digits of a number are those of its tenth part and its last one. -/

namespace Grove

theorem toNat_digitChar {d : Nat} (h : d < 10) : (digitChar d).toNat = 48 + d := by
  have : ∀ d < 10, (digitChar d).toNat = 48 + d := by decide
  exact this d h

theorem digitValue?_digitChar {d : Nat} (h : d < 10) : digitValue? (digitChar d) = some d := by
  rw [digitValue?, toNat_digitChar h, if_pos ⟨by omega, by omega⟩, Nat.add_sub_cancel_left]

theorem isDigit_digitChar {d : Nat} (h : d < 10) : isDigit (digitChar d) = true := by
  rw [isDigit, digitValue?_digitChar h]
  rfl

theorem digitsOnto_eq (n : Nat) : ∀ {room : Nat} (acc : List Char), n < room →
    digitsOnto room n acc = digits n ++ acc := by
  induction n using Nat.strongRecOn with
  | ind n ih =>
    intro room acc h
    obtain ⟨room, rfl⟩ : ∃ k, room = k + 1 := ⟨room - 1, by omega⟩
    by_cases hn : n < 10
    · simp [digits, digitsOnto, hn]
    · have hlt : n / 10 < n := Nat.div_lt_self (by omega) (by omega)
      simp only [digits, digitsOnto, hn, if_false]
      rw [ih _ hlt _ (by omega), ih _ hlt _ hlt]
      simp

theorem digits_small {n : Nat} (h : n < 10) : digits n = [digitChar n] := by simp [digits, digitsOnto, h]

theorem digits_large {n : Nat} (h : ¬n < 10) : digits n = digits (n / 10) ++ [digitChar (n % 10)] := by
  have hlt : n / 10 < n := Nat.div_lt_self (by omega) (by omega)
  rw [digits, digitsOnto, if_neg h, digitsOnto_eq _ _ hlt]

theorem digits_ne_nil (n : Nat) : digits n ≠ [] := by
  by_cases h : n < 10
  · simp [digits_small h]
  · simp [digits_large h]

theorem decimal_ne_nil (i : Int) : decimal i ≠ [] := by
  cases i with
  | ofNat n => exact digits_ne_nil n
  | negSucc n => simp [decimal]

theorem isDigit_of_mem_digits (n : Nat) : ∀ {c}, c ∈ digits n → isDigit c = true := by
  induction n using Nat.strongRecOn with
  | ind n ih =>
    intro c hc
    by_cases h : n < 10
    · rw [digits_small h, List.mem_singleton] at hc
      exact hc ▸ isDigit_digitChar h
    · rw [digits_large h, List.mem_append, List.mem_singleton] at hc
      rcases hc with hc | rfl
      · exact ih _ (Nat.div_lt_self (by omega) (by omega)) hc
      · exact isDigit_digitChar (Nat.mod_lt _ (by omega))

theorem foldDigits_append (n : Nat) (cs ds : List Char) :
    foldDigits n (cs ++ ds) = (foldDigits n cs).bind fun m => foldDigits m ds := by
  induction cs generalizing n with
  | nil => rfl
  | cons c cs ih =>
    simp only [List.cons_append, foldDigits, Option.bind_assoc]
    exact Option.bind_congr fun d _ => ih _

theorem foldDigits_digits (n : Nat) : foldDigits 0 (digits n) = some n := by
  induction n using Nat.strongRecOn with
  | ind n ih =>
    by_cases h : n < 10
    · simp [digits_small h, foldDigits, digitValue?_digitChar h]
    · rw [digits_large h, foldDigits_append, ih _ (Nat.div_lt_self (by omega) (by omega))]
      simp only [Option.bind_some, foldDigits, digitValue?_digitChar (Nat.mod_lt n (by omega : 10 > 0))]
      rw [Nat.div_add_mod]

theorem readDigits_of_ne_nil {cs : List Char} (h : cs ≠ []) : readDigits cs = foldDigits 0 cs := by
  cases cs with
  | nil => exact absurd rfl h
  | cons c cs => rfl

theorem readDigits_digits (n : Nat) : readDigits (digits n) = some n := by
  rw [readDigits_of_ne_nil (digits_ne_nil n), foldDigits_digits]

theorem exists_digits_cons (n : Nat) : ∃ c cs, digits n = c :: cs ∧ c ≠ '-' ∧ c ≠ '+' := by
  obtain ⟨c, cs, h⟩ := List.exists_cons_of_ne_nil (digits_ne_nil n)
  have hd : isDigit c = true := isDigit_of_mem_digits n (by simp [h])
  refine ⟨c, cs, h, ?_, ?_⟩
  · rintro rfl
    exact absurd hd (by decide)
  · rintro rfl
    exact absurd hd (by decide)

theorem readSigned_digits (n : Nat) : readSigned (digits n) = some (n : Int) := by
  obtain ⟨c, cs, h, hm, hp⟩ := exists_digits_cons n
  have := readDigits_digits n
  rw [h] at this ⊢
  rw [readSigned, this]
  · rfl
  · rintro _ ⟨rfl, -⟩
    exact hm rfl
  · rintro _ ⟨rfl, -⟩
    exact hp rfl

theorem readSigned_decimal (i : Int) : readSigned (decimal i) = some i := by
  cases i with
  | ofNat n => exact readSigned_digits n
  | negSucc n => simp [decimal, readSigned, readDigits_digits, Int.negSucc_eq]

theorem readNat_digits {n bound : Nat} (h : n < bound) : readNat bound (digits n) = some n := by
  obtain ⟨c, cs, hc, -, hp⟩ := exists_digits_cons n
  have := readDigits_digits n
  rw [hc] at this ⊢
  rw [readNat, this]
  · simp [h]
  · rintro _ ⟨rfl, -⟩
    exact hp rfl

theorem readInt32_int32Text (i : Int32) : readInt32 (int32Text i) = some i := by
  have hlo : minInt32 ≤ i.toInt := i.le_toInt
  have hhi : i.toInt ≤ maxInt32 := Int.le_of_lt_add_one i.toInt_lt
  rw [readInt32, readInt, int32Text, readSigned_decimal, Option.map_eq_some_iff]
  exact ⟨_, Option.filter_eq_some_iff.2 ⟨rfl, by simp [hlo, hhi]⟩, Int32.ofInt_toInt i⟩

end Grove
