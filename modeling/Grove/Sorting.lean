/-! A stable sort by a strict order. The part sorted so far is kept largest first, and each new
element moves past those it comes before. -/

namespace Grove

variable {α : Type}

def insertLast (less : α → α → Bool) (x : α) : List α → List α
  | [] => [x]
  | y :: ys => if less x y then y :: insertLast less x ys else x :: y :: ys

def sortBy (less : α → α → Bool) (xs : List α) : List α :=
  (xs.foldl (fun sorted x => insertLast less x sorted) []).reverse

theorem insertLast_perm (less : α → α → Bool) (x : α) (ys : List α) :
    (insertLast less x ys).Perm (x :: ys) := by
  induction ys with
  | nil => exact .refl _
  | cons y ys ih =>
    unfold insertLast
    split
    · exact (ih.cons y).trans (.swap x y ys)
    · exact .refl _

theorem foldl_insertLast_perm (less : α → α → Bool) (xs ys : List α) :
    (xs.foldl (fun sorted x => insertLast less x sorted) ys).Perm (xs ++ ys) := by
  induction xs generalizing ys with
  | nil => exact .refl _
  | cons x xs ih =>
    exact (ih _).trans (((insertLast_perm less x ys).append_left xs).trans List.perm_middle)

theorem sortBy_perm (less : α → α → Bool) (xs : List α) : (sortBy less xs).Perm xs := by
  have h := foldl_insertLast_perm less xs []
  rw [List.append_nil] at h
  exact (List.reverse_perm _).trans h

end Grove
