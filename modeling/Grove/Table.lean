/-! Finite tables as lists of pairs. `put` replaces what was stored under a key and `drop` forgets
it; both are described by what `List.lookup` finds afterwards. -/

namespace Grove.Table

variable {κ α : Type} [DecidableEq κ]

def drop (k : κ) (t : List (κ × α)) : List (κ × α) := t.filter fun e => e.1 ≠ k

def put (k : κ) (v : α) (t : List (κ × α)) : List (κ × α) := (k, v) :: drop k t

theorem lookup_cons_eq (i j : κ) (v : α) (t : List (κ × α)) :
    ((i, v) :: t).lookup j = if j = i then some v else t.lookup j := by
  by_cases h : j = i
  · simp [h]
  · have : (j == i) = false := by simpa using h
    simp [List.lookup_cons, h, this]

theorem lookup_drop (k j : κ) (t : List (κ × α)) :
    (drop k t).lookup j = if j = k then none else t.lookup j := by
  induction t with
  | nil => simp [drop]
  | cons e t ih =>
    obtain ⟨i, v⟩ := e
    by_cases hi : i = k
    · have : drop k ((i, v) :: t) = drop k t := by simp [drop, hi]
      rw [this, ih, lookup_cons_eq]
      by_cases hj : j = k <;> simp [hj, hi]
    · have : drop k ((i, v) :: t) = (i, v) :: drop k t := by simp [drop, hi]
      rw [this, lookup_cons_eq, lookup_cons_eq, ih]
      by_cases hj : j = i <;> simp [hj, hi]

theorem lookup_put (k j : κ) (v : α) (t : List (κ × α)) :
    (put k v t).lookup j = if j = k then some v else t.lookup j := by
  rw [put, lookup_cons_eq, lookup_drop]
  by_cases h : j = k <;> simp [h]

/-- Nothing is forgotten under a key that was never stored. -/
theorem drop_of_lookup {k : κ} {t : List (κ × α)} (h : t.lookup k = none) : drop k t = t := by
  refine List.filter_eq_self.2 fun e he => ?_
  have : k ≠ e.1 := by simpa using List.lookup_eq_none_iff.1 h e he
  simpa using this.symm

theorem mem_drop {k : κ} {t : List (κ × α)} {e : κ × α} : e ∈ drop k t ↔ e ∈ t ∧ e.1 ≠ k := by
  simp [drop]

theorem nodup_drop {k : κ} {t : List (κ × α)} (h : (t.map (·.1)).Nodup) : ((drop k t).map (·.1)).Nodup :=
  List.Pairwise.sublist (List.filter_sublist.map _) h

theorem nodup_put {k : κ} {v : α} {t : List (κ × α)} (h : (t.map (·.1)).Nodup) : ((put k v t).map (·.1)).Nodup := by
  refine List.nodup_cons.2 ⟨fun hk => ?_, nodup_drop h⟩
  obtain ⟨e, he, heq⟩ := List.mem_map.1 hk
  exact (mem_drop.1 he).2 heq

/-- Where no key is stored twice, what is found under a key is what the table holds. -/
theorem lookup_eq_some {k : κ} {v : α} {t : List (κ × α)} (h : (t.map (·.1)).Nodup) :
    t.lookup k = some v ↔ (k, v) ∈ t := by
  induction t with
  | nil => simp
  | cons e t ih =>
    obtain ⟨i, w⟩ := e
    obtain ⟨hi, ht⟩ := List.nodup_cons.1 h
    rw [lookup_cons_eq, List.mem_cons, ← ih ht]
    by_cases hk : k = i
    · subst hk
      have hnone : t.lookup k = none := List.lookup_eq_none_iff.2 fun e he => by
        have : e.1 ≠ k := fun heq => hi (List.mem_map.2 ⟨e, he, heq⟩)
        simpa using this.symm
      simp [hnone, eq_comm]
    · simp [hk]

theorem put_put (k : κ) (v w : α) (t : List (κ × α)) : put k v (put k w t) = put k v t := by
  simp [put, drop]

theorem drop_put (k : κ) (v : α) (t : List (κ × α)) : drop k (put k v t) = drop k t := by
  simp [put, drop]

end Grove.Table
