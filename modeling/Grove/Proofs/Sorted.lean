import Grove.Sorting
import Mathlib.Data.List.Nodup
import Mathlib.Data.Nat.Basic
import Mathlib.Order.Lattice

/-! Sorting. Where an order ranks the members of a list, the sorted list never has one before another that comes
before it. Members with keys of their own are sorted into the one list in which the keys ascend, however they stood
before. -/

namespace Grove

variable {α : Type} {less : α → α → Bool} {P : α → Prop}

/-- A strict order among some elements, in which those that it does not tell apart are as good as equal. -/
structure Ranks (less : α → α → Bool) (P : α → Prop) : Prop where
  asymm : ∀ {a b}, P a → P b → less a b = true → less b a = false
  trans : ∀ {a b c}, P a → P b → P c → less a b = false → less b c = false → less a c = false

theorem Ranks.insertLast (h : Ranks less P) {x : α} {ys : List α} (hx : P x) (hys : ∀ y ∈ ys, P y)
    (hs : ys.Pairwise fun a b => less a b = false) : (insertLast less x ys).Pairwise fun a b => less a b = false := by
  induction ys with
  | nil => exact List.pairwise_singleton _ x
  | cons y ys ih =>
    obtain ⟨hy, hys⟩ := List.forall_mem_cons.1 hys
    obtain ⟨hbelow, hs⟩ := List.pairwise_cons.1 hs
    unfold Grove.insertLast
    split
    · rename_i hlt
      refine List.pairwise_cons.2 ⟨fun z hz => ?_, ih hys hs⟩
      rcases List.mem_cons.1 ((insertLast_perm less x ys).mem_iff.1 hz) with rfl | hz
      · exact h.asymm hx hy hlt
      · exact hbelow z hz
    · rename_i hge
      have hxy : less x y = false := by simpa using hge
      refine List.pairwise_cons.2 ⟨fun z hz => ?_, List.pairwise_cons.2 ⟨hbelow, hs⟩⟩
      rcases List.mem_cons.1 hz with rfl | hz
      · exact hxy
      · exact h.trans hx hy (hys z hz) hxy (hbelow z hz)

theorem Ranks.foldl_insertLast (h : Ranks less P) {xs ys : List α} (hxs : ∀ x ∈ xs, P x) (hys : ∀ y ∈ ys, P y)
    (hs : ys.Pairwise fun a b => less a b = false) :
    (xs.foldl (fun sorted x => Grove.insertLast less x sorted) ys).Pairwise fun a b => less a b = false := by
  induction xs generalizing ys with
  | nil => exact hs
  | cons x xs ih =>
    obtain ⟨hx, hxs⟩ := List.forall_mem_cons.1 hxs
    refine ih hxs (fun y hy => ?_) (h.insertLast hx hys hs)
    rcases List.mem_cons.1 ((insertLast_perm less x ys).mem_iff.1 hy) with rfl | hy
    · exact hx
    · exact hys y hy

theorem Ranks.sortBy (h : Ranks less P) {xs : List α} (hxs : ∀ x ∈ xs, P x) :
    (sortBy less xs).Pairwise fun a b => less b a = false :=
  List.pairwise_reverse.2 (h.foldl_insertLast hxs nofun .nil)

theorem forall_mem_drop {p : α → Bool} {xs : List α} (hs : xs.Pairwise fun a b => p a = true → p b = true) {k : Nat}
    (hk : k ≤ xs.countP p) : ∀ x ∈ xs.drop (xs.length - k), p x = true := by
  induction xs with
  | nil => simp
  | cons a xs ih =>
    obtain ⟨hup, hs⟩ := List.pairwise_cons.1 hs
    cases ha : p a with
    | true =>
      intro x hx
      rcases List.mem_cons.1 (List.mem_of_mem_drop hx) with rfl | hx
      · exact ha
      · exact hup x hx ha
    | false =>
      rw [List.countP_cons_of_neg (by simp [ha])] at hk
      have hlen : k ≤ xs.length := Nat.le_trans hk List.countP_le_length
      rw [List.length_cons, Nat.succ_sub hlen, List.drop_succ_cons]
      exact ih hs hk

section Keys

variable {κ : Type} [LinearOrder κ] (key : α → κ)

theorem ranks_key (P : α → Prop) : Ranks (fun a b => key a < key b) P where
  asymm _ _ h := by simpa using le_of_lt (by simpa using h)
  trans _ _ _ h h' := by simpa using le_trans (by simpa using h') (by simpa using h)

theorem sortBy_ascending {xs : List α} (hn : (xs.map key).Nodup) :
    (sortBy (fun a b => key a < key b) xs).Pairwise fun a b => key a < key b := by
  have hperm := sortBy_perm (fun a b => key a < key b) xs
  have hle := (ranks_key key (· ∈ xs)).sortBy fun _ h => h
  have hne := List.pairwise_map.1 ((hperm.map key).nodup_iff.2 hn)
  exact (hle.and hne).imp fun h => lt_of_le_of_ne (by simpa using h.1) h.2

theorem sortBy_eq_of_perm {xs ys : List α} (hys : ys.Pairwise fun a b => key a < key b) (hp : xs.Perm ys) :
    sortBy (fun a b => key a < key b) xs = ys := by
  have hn : (ys.map key).Nodup := List.pairwise_map.2 (hys.imp ne_of_lt)
  refine ((sortBy_perm _ xs).trans hp).eq_of_pairwise (fun a b _ _ hab hba => ?_)
    (sortBy_ascending key ((hp.map key).nodup_iff.2 hn)) hys
  exact absurd hba (lt_asymm hab)

end Keys

end Grove
