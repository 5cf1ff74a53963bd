import Grove.Proofs.Lockstep
import Grove.Proofs.Result

/-! The cells that an evaluation may touch. A frame whose variables lie within a set of cells, to which all
cells still to be made belong, changes none outside: it is in lockstep with itself where every variable within
the set is paired with itself. -/

namespace Grove

/-- The cells that were there are still there, and those outside the set are as they were. -/
structure Store.SameOutside (P : Nat → Prop) (s s' : Store) : Prop where
  size : s.cells.size ≤ s'.cells.size
  content : ∀ cell, ¬ P cell → s'.content cell = s.content cell

namespace Store

variable {P : Nat → Prop} {s s' s'' : Store}

theorem SameOutside.refl (s : Store) : s.SameOutside P s := ⟨Nat.le_refl _, fun _ _ => rfl⟩

theorem SameOutside.trans (h : s.SameOutside P s') (h' : s'.SameOutside P s'') : s.SameOutside P s'' :=
  ⟨Nat.le_trans h.size h'.size, fun cell hc => (h'.content cell hc).trans (h.content cell hc)⟩

theorem sameOutside_write {cell : Nat} (h : P cell) (v : Value) : s.SameOutside P (s.write cell v) :=
  ⟨Nat.le_of_eq (size_write s cell v).symm, fun _ hc => content_write_of_ne fun he => hc (he ▸ h)⟩

theorem sameOutside_get {x : Variable} (h : P x.cell) : s.SameOutside P (x.get s).2 := by
  unfold Variable.get
  cases x.content s with
  | none => exact sameOutside_write h _
  | some v => exact .refl s

theorem sameOutside_alloc (h : ∀ cell, s.cells.size ≤ cell → P cell) (c : Option Value) :
    s.SameOutside P (s.alloc c).2 :=
  ⟨by simp [alloc], fun _ hc => content_alloc_of_lt (Nat.lt_of_not_le fun hle => hc (h _ hle))⟩

end Store

theorem freshCells_ok {tys : List Ty} {s s' : Store} {xs : List Variable} (h : freshCells tys s = .ok (xs, s')) :
    xs.map (·.base) = tys.map (·.base) ∧ xs.map (·.cell) = List.range' s.cells.size tys.length ∧
      s'.cells = s.cells ++ Array.replicate tys.length none := by
  induction tys generalizing s s' xs with
  | nil =>
    obtain ⟨rfl, rfl⟩ := Prod.mk.inj (Except.ok.inj h)
    simp
  | cons ty tys ih =>
    unfold freshCells Variable.newEmpty at h
    by_cases hb : ty.base = .any
    · simp [hb, bind, Except.bind] at h
    · simp only [hb, dite_false] at h
      obtain ⟨a, ha, hrest⟩ := Result.bind_ok.1 h
      obtain rfl := Except.ok.inj ha
      obtain ⟨⟨xs', s''⟩, hf, hx⟩ := Result.bind_ok.1 hrest
      obtain ⟨rfl, rfl⟩ := Prod.mk.inj (Except.ok.inj hx)
      obtain ⟨hbase, hcell, hs⟩ := ih hf
      refine ⟨by simp [hbase], by simp [hcell, Store.alloc, List.range'_succ], ?_⟩
      rw [hs]
      simp only [Store.alloc, List.length_cons, Array.push_eq_append, Array.append_assoc]
      congr 1
      rw [Nat.add_comm, ← Array.replicate_append_replicate]
      rfl

/-- Each variable within the set is paired with itself, and what was outside at the start is as it was. -/
def footprint (P : Nat → Prop) (start : Store) (hfresh : ∀ cell, start.cells.size ≤ cell → P cell) : Lockstep where
  pair x x' := x' = x ∧ P x.cell
  store s s' := s' = s ∧ start.SameOutside P s
  breach := Eq
  base h := congrArg _ h.1
  reads := by
    rintro _ _ _ _ ⟨rfl, hx⟩ ⟨rfl, hs⟩
    exact ⟨rfl, rfl, hs.trans (Store.sameOutside_get hx)⟩
  writes := by
    rintro _ _ _ _ v ⟨rfl, hx⟩ - ⟨rfl, hs⟩
    exact ⟨rfl, hs.trans (Store.sameOutside_write hx v)⟩
  makes := by
    rintro _ _ ⟨rfl, hs⟩ c
    have hmade := fun cell hc => hfresh cell (Nat.le_trans hs.size hc)
    exact ⟨⟨rfl, hs.trans (Store.sameOutside_alloc hmade c)⟩, fun _ _ => ⟨rfl, hmade _ (Nat.le_refl _)⟩⟩
  breach_refl _ := rfl

namespace Exec

variable {P : Nat → Prop} {w : World} {c : Callee} {xs locals : List Variable} {r : Run} {s : Store}

theorem body_sameOutside (hxs : ∀ x ∈ xs, P x.cell) (hfresh : ∀ cell, r.store.cells.size ≤ cell → P cell)
    {tys : List Ty}
    (hf : freshCells tys r.store = .ok (locals, s)) (k : Nat) (shape : Shape) :
    r.store.SameOutside P ((w.run k shape >>= finish).runFrom (r.callee c xs locals s)).2.store := by
  let L := footprint P r.store hfresh
  have hself : ∀ x ∈ xs, L.pair x x := fun x hx => ⟨rfl, hxs x hx⟩
  rcases Lockstep.freshCells_alike (L := L) tys ⟨rfl, .refl r.store⟩ with ⟨ls, _, u, _, h, h', hls, hu⟩ | ⟨v, h, -⟩
  · cases hf.symm.trans h
    cases hf.symm.trans h'
    have hcallee : L.State (r.callee c xs locals s) (r.callee c xs locals s) :=
      ⟨⟨List.forall₂_same.2 hself, hls, rfl, rfl⟩, hu, rfl, rfl⟩
    have hrun := (Lockstep.Runs.run rfl (.refl (fun _ => rfl) w.registry) k (.refl (fun _ => rfl) shape)).bind
      (fun _ _ => Lockstep.Runs.finish) _ _ hcallee
    exact hrun.state.store.2
  · cases hf.symm.trans h

theorem call_sameOutside (hxs : ∀ x ∈ xs, P x.cell) (hfresh : ∀ cell, r.store.cells.size ≤ cell → P cell) {room : Nat}
    {res : Except Halt Yield × Run} (h : CallEnds w c xs room r res) : r.store.SameOutside P res.2.store := by
  cases h with
  | missing h => exact h ▸ .refl _
  | refused _ h => exact h ▸ .refl _
  | wild _ _ _ _ h => exact h ▸ .refl _
  | @broken k _ shape _ _ _ _ _ _ _ hf hrun h =>
    have hbody := body_sameOutside (w := w) (c := c) hxs hfresh hf k shape
    rw [runFrom_bind_error hrun] at hbody
    exact h ▸ hbody
  | @back k _ shape _ _ _ _ _ _ _ _ _ hf hrun hfin h =>
    have hbody := body_sameOutside (w := w) (c := c) hxs hfresh hf k shape
    rw [runFrom_bind_ok hrun, hfin] at hbody
    rw [h, hand_store]
    exact hbody

end Exec
end Grove
