import Grove.Proofs.Isomorphism
import Grove.Selection
import Mathlib.Data.Fin.Tuple.Basic
import Mathlib.Data.Fintype.BigOperators
import Mathlib.Data.Nat.Factorial.BigOperators

/-! Uniform selection. What node of a tree is drawn depends on one draw for each of its nodes, the `i`-th one between
`0` and `i`. Of all such draws equally many lead to each node. -/

namespace Grove

open scoped Nat

/-- One draw for each of so many members. -/
abbrev Draws (n : Nat) : Type := (i : Fin n) → Fin (i + 1)

/-- The member whose draw is the last zero. -/
def pick {α : Type} {n : Nat} (f : Fin n → α) (d : Draws n) : Option α := lastZero (List.ofFn fun i => (f i, (d i).val))

/-- The node that is drawn from a tree. -/
def Tree.chosen (t : Tree) (d : Draws t.nodes.length) : Option NodeId := pick t.nodes.get d

/-- All the draws, one after the other. -/
def Draw.ranks {σ : Type} [WordSource σ] : (n : Nat) → Draw σ (Draws n)
  | 0 => return nofun
  | n + 1 => do
    let d ← ranks n
    let r ← uniform .double n
    return Fin.snoc (α := fun i : Fin (n + 1) => Fin (i + 1)) d r

section Picking

variable {α : Type} {n : Nat}

theorem lastZero_append_singleton (draws : List (α × Nat)) (x : α) (r : Nat) :
    lastZero (draws ++ [(x, r)]) = if r = 0 then some x else lastZero draws := by
  rw [lastZero, List.foldl_append]
  rfl

theorem pick_succ (f : Fin (n + 1) → α) (d : Draws (n + 1)) : pick f d =
    if d (.last n) = 0 then some (f (.last n)) else pick (fun i => f i.castSucc) fun i => d i.castSucc := by
  rw [pick, List.ofFn_succ', List.concat_eq_append, lastZero_append_singleton]
  exact if_congr (Fin.val_eq_zero_iff) rfl rfl

/-- The first draw is zero, so there is always a last zero. -/
theorem exists_pick (f : Fin n → α) (d : Draws n) (hn : 0 < n) : ∃ k, pick f d = some (f k) := by
  induction n with
  | zero => cases hn
  | succ n ih =>
    rw [pick_succ]
    by_cases hr : d (.last n) = 0
    · exact ⟨.last n, if_pos hr⟩
    · have hpos : 0 < n := Nat.pos_of_ne_zero fun hn => by
        subst hn
        exact hr (Fin.fin_one_eq_zero _)
      obtain ⟨k, hk⟩ := ih (fun i => f i.castSucc) (fun i => d i.castSucc) hpos
      exact ⟨k.castSucc, (if_neg hr).trans hk⟩

theorem exists_of_pick {f : Fin n → α} {d : Draws n} {x : α} (h : pick f d = some x) : ∃ k, f k = x := by
  rcases n.eq_zero_or_pos with rfl | hn
  · cases h
  · obtain ⟨k, hk⟩ := exists_pick f d hn
    exact ⟨k, Option.some.inj (hk.symm.trans h)⟩

theorem card_draws (n : Nat) : Fintype.card (Draws n) = n ! := by
  simp only [Fintype.card_pi, Fintype.card_fin]
  rw [Fin.prod_univ_eq_prod_range (fun i => i + 1) n, Finset.prod_range_add_one_eq_factorial]

/-- The draws of all but the last member, with its own. -/
def Draws.split (n : Nat) : Draws (n + 1) ≃ Fin (n + 1) × Draws n :=
  (Fin.snocEquiv fun i : Fin (n + 1) => Fin (i + 1)).symm

variable [DecidableEq α]

/-- The draws that lead to a member, by the last one and those before. -/
theorem card_pick_succ (f : Fin (n + 1) → α) (x : α) : Fintype.card { d : Draws (n + 1) // pick f d = some x } =
    Fintype.card { p : Fin (n + 1) × Draws n //
      (if p.1 = 0 then some (f (.last n)) else pick (fun i => f i.castSucc) p.2) = some x } :=
  Fintype.card_congr ((Draws.split n).subtypeEquiv fun d => by rw [pick_succ]; rfl)

theorem card_nonzero (n : Nat) : Fintype.card { r : Fin (n + 1) // r ≠ 0 } = n := by
  rw [Fintype.card_subtype_compl, Fintype.card_fin, Fintype.card_subtype_eq, Nat.add_sub_cancel]

/-- By induction on the members: the last one is chosen by a zero, whatever was drawn before, and an earlier one by any
other draw, if it was chosen before. -/
theorem card_pick {f : Fin n → α} (hf : Function.Injective f) (k : Fin n) :
    Fintype.card { d : Draws n // pick f d = some (f k) } = (n - 1)! := by
  induction n with
  | zero => exact k.elim0
  | succ n ih =>
    rw [card_pick_succ, Nat.add_sub_cancel]
    cases k using Fin.lastCases with
    | last =>
      have hzero : ∀ p : Fin (n + 1) × Draws n,
          (if p.1 = 0 then some (f (.last n)) else pick (fun i => f i.castSucc) p.2) = some (f (.last n)) ↔
            p.1 = 0 := by
        refine fun p => ⟨fun h => ?_, fun h => if_pos h⟩
        by_contra hp
        rw [if_neg hp] at h
        obtain ⟨j, hj⟩ := exists_of_pick h
        exact (Fin.castSucc_lt_last j).ne (hf hj)
      calc _ = Fintype.card ({ r : Fin (n + 1) // r = 0 } × Draws n) :=
            Fintype.card_congr
              ((Equiv.subtypeEquivRight hzero).trans
                (Equiv.prodSubtypeFstEquivSubtypeProd (p := fun r : Fin (n + 1) => r = 0)))
        _ = n ! := by rw [Fintype.card_prod, Fintype.card_subtype_eq, one_mul, card_draws]
    | cast k =>
      have hrest : ∀ p : Fin (n + 1) × Draws n,
          (if p.1 = 0 then some (f (.last n)) else pick (fun i => f i.castSucc) p.2) = some (f k.castSucc) ↔
            p.1 ≠ 0 ∧ pick (fun i => f i.castSucc) p.2 = some (f k.castSucc) := by
        intro p
        by_cases hp : p.1 = 0
        · rw [if_pos hp]
          exact iff_of_false (fun h => (Fin.castSucc_lt_last k).ne' (hf (Option.some.inj h))) fun h => h.1 hp
        · rw [if_neg hp, and_iff_right hp]
      have hpos : n ≠ 0 := (Nat.zero_lt_of_lt k.isLt).ne'
      calc _ = Fintype.card ({ r : Fin (n + 1) // r ≠ 0 } ×
              { d : Draws n // pick (fun i => f i.castSucc) d = some (f k.castSucc) }) :=
            Fintype.card_congr ((Equiv.subtypeEquivRight hrest).trans
              (Equiv.subtypeProdEquivProd (p := fun r : Fin (n + 1) => r ≠ 0) (q := fun d : Draws n => _ = _)))
        _ = n * (n - 1)! := by
            rw [Fintype.card_prod, card_nonzero]
            exact congrArg (n * ·) (ih (hf.comp (Fin.castSucc_injective n)) k)
        _ = n ! := Nat.mul_factorial_pred hpos

end Picking

section Drawing

variable {σ : Type} [WordSource σ] {α : Type}

theorem drawPositions_append_singleton {position n : Nat} {xs : List α} (h : position + xs.length = n) (x : α) :
    (drawPositions position (xs ++ [x]) : Draw σ (List (α × Nat))) = do
      let ds ← drawPositions position xs
      let r ← Draw.uniform .double n
      return ds ++ [(x, r.val)] := by
  induction xs generalizing position with
  | nil =>
    subst h
    simp [drawPositions]
  | cons y xs ih =>
    have hrest : position + 1 + xs.length = n := by rw [← h, List.length_cons, Nat.add_right_comm, Nat.add_assoc]
    simp [drawPositions, ih hrest]

theorem ofFn_snoc {n : Nat} (f : Fin (n + 1) → α) (d : Draws n) (r : Fin (n + 1)) :
    (List.ofFn fun i => (f i, (Fin.snoc (α := fun i : Fin (n + 1) => Fin (i + 1)) d r i).val)) =
      (List.ofFn fun i => (f i.castSucc, (d i).val)) ++ [(f (.last n), r.val)] := by
  rw [List.ofFn_succ', List.concat_eq_append]
  simp only [Fin.snoc_castSucc, Fin.snoc_last]

theorem drawPositions_ofFn {n : Nat} (f : Fin n → α) : (drawPositions 0 (List.ofFn f) : Draw σ (List (α × Nat))) =
    (fun d => List.ofFn fun i => (f i, (d i).val)) <$> Draw.ranks n := by
  induction n with
  | zero => rfl
  | succ n ih =>
    have hlength : 0 + (List.ofFn fun i : Fin n => f i.castSucc).length = n := by rw [List.length_ofFn, Nat.zero_add]
    rw [List.ofFn_succ', List.concat_eq_append, drawPositions_append_singleton hlength, ih]
    simp [Draw.ranks, ofFn_snoc, -List.ofFn_succ]

theorem selectNode_eq (t : Tree) :
    (t.selectNode : Draw σ (Option NodeId)) = t.chosen <$> Draw.ranks t.nodes.length := by
  have hnodes : drawPositions 0 t.nodes = _ := congrArg (drawPositions (σ := σ) 0) (List.ofFn_get t.nodes).symm
  rw [Tree.selectNode, hnodes, drawPositions_ofFn, bind_pure_comp, Functor.map_map]
  rfl

end Drawing

section Nodes

variable {t : Tree}

theorem Forest.Placed.reached_mem {g : Forest} {i j : NodeId} (h : g.Placed) (hi : i ∈ g.nodes.map (·.1))
    (hr : g.Reaches i j) : j ∈ g.nodes.map (·.1) := by
  obtain ⟨k, hk⟩ := hr
  rcases hk.last with ⟨-, rfl⟩ | ⟨-, e, -, he, rfl, -⟩
  · exact hi
  · exact h.live e he

theorem Tree.Placed.nodes (h : t.Placed) :
    t.nodes.Nodup ∧ ∀ i, i ∈ t.nodes ↔ ∃ r ∈ t.root, t.forest.Reaches r i := by
  rw [Tree.nodes]
  cases hroot : t.root with
  | none => exact ⟨List.nodup_nil, by simp⟩
  | some r =>
    obtain ⟨hnodup, hmem⟩ := h.forest.unshared.preorder (Forest.not_loops_of_top (h.top r hroot)) fun _ =>
      h.forest.reached_mem (h.root r hroot)
    exact ⟨hnodup, fun i => by simp [hmem]⟩

end Nodes

/-- Of a tree with `n` nodes that the root reaches: the draws determine which of them is selected, and of the `n!`
sequences of draws `(n - 1)!` lead to each. Without a root nothing is drawn or selected. -/
theorem selection_uniform {t : Tree} (h : t.Placed) :
    (t.nodes.Nodup ∧ ∀ i, i ∈ t.nodes ↔ ∃ r ∈ t.root, t.forest.Reaches r i) ∧
    (∀ (σ : Type) [WordSource σ],
      (t.selectNode : Draw σ (Option NodeId)) = t.chosen <$> Draw.ranks t.nodes.length) ∧
    Fintype.card (Draws t.nodes.length) = t.nodes.length ! ∧
    (∀ r ∈ t.root, (∀ d, ∃ i, t.chosen d = some i ∧ t.forest.Reaches r i) ∧
      ∀ i, t.forest.Reaches r i → Fintype.card { d // t.chosen d = some i } = (t.nodes.length - 1)!) ∧
    (t.root = none → ∀ (σ : Type) [WordSource σ], (t.selectNode : Draw σ (Option NodeId)) = pure none) := by
  obtain ⟨hnodup, hmem⟩ := h.nodes
  refine ⟨⟨hnodup, hmem⟩, fun σ _ => selectNode_eq t, card_draws _, fun r hr => ⟨fun d => ?_, fun i hi => ?_⟩,
    fun hroot σ _ => ?_⟩
  · have hpos : 0 < t.nodes.length := List.length_pos_of_mem ((hmem r).2 ⟨r, hr, .refl _ r⟩)
    obtain ⟨k, hk⟩ := exists_pick t.nodes.get d hpos
    obtain ⟨r', hr', hreach⟩ := (hmem _).1 (List.get_mem t.nodes k)
    exact ⟨_, hk, Option.mem_unique hr' hr ▸ hreach⟩
  · obtain ⟨k, rfl⟩ := List.get_of_mem ((hmem i).2 ⟨r, hr, hi⟩)
    exact card_pick (List.nodup_iff_injective_get.1 hnodup) k
  · rw [Tree.selectNode, Tree.nodes, hroot]
    rfl

/-- A sum and its two operands: each is selected for two of the six sequences of draws. -/
theorem selection_uniform_pair : pairTree.Placed ∧ pairTree.nodes = [0, 1, 3] ∧
    ∀ i ∈ [0, 1, 3], Fintype.card { d // pairTree.chosen d = some i } = 2 := by
  have hplaced : pairTree.Placed :=
    ⟨⟨by decide, by decide, by unfold Forest.Unshared; decide⟩, by rintro _ ⟨⟩; decide, by rintro _ ⟨⟩; decide⟩
  obtain ⟨⟨-, hmem⟩, -, -, hroot, -⟩ := selection_uniform hplaced
  have hnodes : pairTree.nodes = [0, 1, 3] := by decide
  refine ⟨hplaced, hnodes, fun i hi => ?_⟩
  obtain ⟨r, ⟨⟩, hreach⟩ := (hmem i).1 (hnodes ▸ hi)
  exact (hroot 0 rfl).2 i hreach

end Grove
