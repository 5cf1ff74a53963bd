import Grove.Node.Name
import Grove.Reader

/-! Texts taken apart. A text whose ends are not blank is not changed by trimming, and a separator that does
not occur in the front of a text cuts it there. -/

namespace Grove

/-- A text whose first and last characters are not blank. -/
structure Clean (cs : List Char) : Prop where
  first : ∀ c ∈ cs.head?, isBlank c = false
  last : ∀ c ∈ cs.getLast?, isBlank c = false

theorem clean_of_all {cs : List Char} (h : ∀ c ∈ cs, isBlank c = false) : Clean cs :=
  ⟨fun c hc => h c (List.mem_of_head? hc), fun c hc => h c (List.mem_of_getLast? hc)⟩

theorem dropWhile_eq_self_iff {α : Type} {p : α → Bool} {l : List α} :
    l.dropWhile p = l ↔ ∀ a ∈ l.head?, p a = false := by
  cases l with
  | nil => simp
  | cons a l =>
    cases ha : p a
    · simp [ha]
    · simp only [List.dropWhile_cons, ha, if_true, List.head?_cons, Option.mem_def, Option.some.injEq, forall_eq',
        Bool.true_eq_false, iff_false]
      intro h
      have := (List.dropWhile_sublist p (l := l)).length_le
      rw [h] at this
      exact absurd this (Nat.not_succ_le_self _)

theorem trimStart_eq_self_iff {cs : List Char} : trimStart cs = cs ↔ ∀ c ∈ cs.head?, isBlank c = false :=
  dropWhile_eq_self_iff

theorem trimEnd_eq_self_iff {cs : List Char} : trimEnd cs = cs ↔ ∀ c ∈ cs.getLast?, isBlank c = false := by
  rw [trimEnd, List.reverse_eq_iff, dropWhile_eq_self_iff, List.head?_reverse]

theorem trim_eq_self_iff {cs : List Char} : trim cs = cs ↔ Clean cs := by
  constructor
  · intro h
    have hs : trimStart cs = cs := by
      have h₁ : (trim cs).length ≤ (trimStart cs).length := by
        simpa [trim, trimEnd] using (List.dropWhile_sublist isBlank (l := (trimStart cs).reverse)).length_le
      rw [h] at h₁
      exact (List.dropWhile_sublist isBlank).eq_of_length_le h₁
    refine ⟨trimStart_eq_self_iff.1 hs, trimEnd_eq_self_iff.1 ?_⟩
    rwa [trim, hs] at h
  · intro h
    rw [trim, trimStart_eq_self_iff.2 h.first, trimEnd_eq_self_iff.2 h.last]

theorem Clean.trim {cs : List Char} (h : Clean cs) : trim cs = cs := trim_eq_self_iff.2 h

theorem trimmed_eq_self_iff {s : String} : trimmed s = s ↔ Clean s.toList := by
  rw [trimmed, ← trim_eq_self_iff]
  constructor
  · intro h
    simpa using congrArg String.toList h
  · intro h
    rw [h, String.ofList_toList]

section Separators

variable {sep : Char} {front : List Char}

theorem splitOnChar_front (h : sep ∉ front) : splitOnChar sep front = [front] := by
  induction front with
  | nil => rfl
  | cons c cs ih =>
    obtain ⟨hc, hcs⟩ := not_or.1 (mt List.mem_cons.2 h)
    simp [splitOnChar, Ne.symm hc, ih hcs]

theorem splitOnChar_append (h : sep ∉ front) (back : List Char) :
    splitOnChar sep (front ++ sep :: back) = front :: splitOnChar sep back := by
  induction front with
  | nil => simp [splitOnChar]
  | cons c cs ih =>
    obtain ⟨hc, hcs⟩ := not_or.1 (mt List.mem_cons.2 h)
    simp [splitOnChar, Ne.symm hc, ih hcs]

theorem takeWhile_ne (h : sep ∉ front) (back : List Char) : (front ++ sep :: back).takeWhile (· ≠ sep) = front := by
  rw [List.takeWhile_append_of_pos]
  · simp
  · intro c hc
    simpa using fun he : c = sep => h (he ▸ hc)

theorem dropWhile_ne (h : sep ∉ front) (back : List Char) :
    (front ++ sep :: back).dropWhile (· ≠ sep) = sep :: back := by
  rw [List.dropWhile_append_of_pos]
  · simp
  · intro c hc
    simpa using fun he : c = sep => h (he ▸ hc)

theorem cutAt_append (h : sep ∉ front) (back : List Char) :
    cutAt sep (front ++ sep :: back) = (front, some back) := by
  rw [cutAt, takeWhile_ne h, dropWhile_ne h]

theorem cutAt_front (h : sep ∉ front) : cutAt sep front = (front, none) := by
  have hp : ∀ c ∈ front, (decide (c ≠ sep)) = true := fun c hc => by simpa using fun he : c = sep => h (he ▸ hc)
  have ht : front.takeWhile (· ≠ sep) = front := by simpa using @List.takeWhile_append_of_pos _ _ front [] hp
  have hd : front.dropWhile (· ≠ sep) = [] := by simpa using @List.dropWhile_append_of_pos _ _ front [] hp
  rw [cutAt, ht, hd]

end Separators
end Grove
