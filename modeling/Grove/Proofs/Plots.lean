import Grove.Forest.Plot
import Grove.Proofs.Joining
import Mathlib.Data.List.Perm.Basic

/-! Plots in order. Every number below the bound is in use or free, and what each operation does to the forest in the
plot is said once: it is what the forest's own operation does, but for the number that a new node gets. -/

namespace Grove

/-- Each number below the bound is that of an entry, or is free. -/
def Slab.Sound {α : Type} (s : Slab α) : Prop := (s.entries.map (·.1) ++ s.spare).Perm (List.range s.bound)

structure Plot.Tidy (a : Plot) : Prop where
  nodes : a.nodes.Sound
  edges : a.edges.Sound

/-- A plot in order, with a forest in order that has no loops. -/
structure Plot.Sound (a : Plot) : Prop extends a.Tidy where
  proper : a.forest.Proper

namespace Slab

variable {α : Type} {s : Slab α} {i : Nat} {x : α}

theorem insert_entries (s : Slab α) (x : α) : (s.insert x).2.entries = ((s.insert x).1, x) :: s.entries := by
  unfold insert
  cases s.spare <;> rfl

theorem remove_entries (s : Slab α) (i : Nat) : (s.remove i).entries = s.entries.filter (·.1 ≠ i) := by
  unfold remove
  split
  · rfl
  · rename_i hi
    exact (Table.drop_of_lookup (Option.not_isSome_iff_eq_none.1 hi)).symm

theorem remove_bound (s : Slab α) (i : Nat) : (s.remove i).bound = s.bound := by
  unfold remove
  split <;> rfl

theorem foldl_remove_entries (s : Slab α) (l : List Nat) :
    (l.foldl remove s).entries = s.entries.filter (·.1 ∉ l) := by
  induction l generalizing s with
  | nil => simp
  | cons i l ih =>
    rw [List.foldl_cons, ih, remove_entries, List.filter_filter]
    refine List.filter_congr fun e _ => ?_
    simp [Bool.and_comm]

namespace Sound

variable (h : s.Sound)
include h

theorem numbers : (s.entries.map (·.1)).Nodup :=
  (List.nodup_append.1 (h.nodup_iff.2 List.nodup_range)).1

theorem lt (hi : i ∈ s.entries.map (·.1)) : i < s.bound :=
  List.mem_range.1 (h.mem_iff.1 (List.mem_append_left _ hi))

theorem insert (x : α) : (s.insert x).2.Sound := by
  obtain ⟨entries, spare, bound⟩ := s
  cases spare with
  | nil =>
    have hall : (entries.map (·.1)).Perm (List.range bound) := by simpa [Sound] using h
    rw [Sound, Slab.insert, List.append_nil, List.range_succ]
    exact (hall.cons bound).trans (List.perm_append_singleton _ _).symm
  | cons i spare => exact List.perm_middle.symm.trans h

theorem remove (i : Nat) : (s.remove i).Sound := by
  unfold Slab.remove
  split
  · rename_i hi
    obtain ⟨x, hx⟩ := Option.isSome_iff_exists.1 hi
    have hmem : (i, x) ∈ s.entries := (Table.lookup_eq_some h.numbers).1 hx
    have hrest : (Table.drop i s.entries).map (·.1) = (s.entries.map (·.1)).erase i := by
      rw [h.numbers.erase_eq_filter, List.filter_map]
      exact congrArg _ (List.filter_congr fun e _ => by by_cases he : e.1 = i <;> simp [he])
    have hperm := List.perm_cons_erase (List.mem_map_of_mem (f := (·.1)) hmem)
    rw [← hrest] at hperm
    exact List.perm_middle.trans ((hperm.symm.append_right _).trans h)
  · exact h

theorem foldl_remove (l : List Nat) : (l.foldl Slab.remove s).Sound := by
  induction l generalizing s with
  | nil => exact h
  | cons i l ih => exact ih (h.remove i)

end Sound
end Slab

namespace Plot

variable {a a' : Plot} {g : Forest} {i p c new : NodeId} {slot : Nat} {n : Node}

theorem nodes_add (a : Plot) (n : Node) : (a.add n).2.forest.nodes = ((a.add n).1, n) :: a.forest.nodes :=
  a.nodes.insert_entries n

theorem forest_link (a : Plot) (parent : NodeId) (slot : Nat) (child : NodeId) :
    (a.link parent slot child).forest = a.forest.link parent slot child := by
  rw [forest, link, Slab.insert_entries]
  rfl

theorem Tidy.empty : Plot.empty.Tidy := ⟨.refl _, .refl _⟩

theorem edges_filter {p : Nat → Bool} {q : Edge → Bool} (hq : ∀ k e, (k, e) ∈ a.edges.entries → p k = q e) :
    (a.edges.entries.filter fun e => p e.1).map (·.2) = a.forest.edges.filter q := by
  rw [forest, List.filter_map, List.filter_congr fun e he => hq e.1 e.2 he]
  rfl

namespace Tidy

variable (h : a.Tidy)
include h

theorem add (n : Node) : (a.add n).2.Tidy := ⟨h.nodes.insert n, h.edges⟩

theorem link (parent : NodeId) (slot : Nat) (child : NodeId) : (a.link parent slot child).Tidy :=
  ⟨h.nodes, h.edges.insert _⟩

theorem number_eq {k : Nat} {e e' : Edge} (he : (k, e) ∈ a.edges.entries) (he' : (k, e') ∈ a.edges.entries) : e = e' :=
  congrArg Prod.snd (List.inj_on_of_nodup_map h.edges.numbers he he' rfl)

theorem mem_incident {k : Nat} {e : Edge} (he : (k, e) ∈ a.edges.entries) :
    k ∈ a.incident i ↔ e.parent = i ∨ e.child = i := by
  simp only [incident, List.mem_append, List.mem_map, List.mem_filter, decide_eq_true_eq]
  constructor
  · rintro (⟨⟨_, e'⟩, ⟨he', hp⟩, rfl⟩ | ⟨⟨_, e'⟩, ⟨he', -, hc⟩, rfl⟩)
    · exact .inl (h.number_eq he he' ▸ hp)
    · exact .inr (h.number_eq he he' ▸ hc)
  · intro hi
    by_cases hp : e.parent = i
    · exact .inl ⟨_, ⟨he, hp⟩, rfl⟩
    · exact .inr ⟨_, ⟨he, hp, hi.resolve_left hp⟩, rfl⟩

theorem remove (hr : a.remove i = some (n, a')) :
    a'.Tidy ∧ a.forest.node? i = some n ∧ a'.forest = a.forest.without [i] := by
  obtain ⟨m, hm, heq⟩ := Option.map_eq_some_iff.1 hr
  obtain ⟨rfl, rfl⟩ := Prod.mk.inj heq
  refine ⟨⟨h.nodes.remove i, h.edges.foldl_remove _⟩, hm, ?_⟩
  have hnodes : (a.nodes.remove i).entries = a.forest.nodes.filter fun e => e.1 ∉ [i] := by
    rw [Slab.remove_entries]
    exact List.filter_congr fun e _ => by simp
  have hedges : (((a.incident i).foldl Slab.remove a.edges).entries).map (·.2) =
      a.forest.edges.filter fun e => e.parent ∉ [i] ∧ e.child ∉ [i] := by
    rw [Slab.foldl_remove_entries]
    exact edges_filter (p := fun k => k ∉ a.incident i) fun k e he => by simp [h.mem_incident he]
  rw [forest, hnodes, hedges, Slab.remove_bound]
  rfl

end Tidy

theorem forest_ofForest (g : Forest) : (ofForest g).forest = g := by
  simp [forest, ofForest, Function.comp_def]

/-- Every forest in order stands in a plot in order. -/
theorem Sound.ofForest (hg : g.Proper) : (ofForest g).Sound where
  nodes := by
    have hlive : (g.nodes.map (·.1)).Perm ((List.range g.fresh).filter (· ∈ g.nodes.map (·.1))) := by
      refine (List.perm_ext_iff_of_nodup hg.sound.numbers (List.nodup_range.filter _)).2 fun i => ?_
      simpa using fun n hn => hg.sound.fresh i (List.mem_map.2 ⟨_, hn, rfl⟩)
    have hall := List.filter_append_perm (· ∈ g.nodes.map (·.1)) (List.range g.fresh)
    simp only [← decide_not] at hall
    exact (hlive.append_right _).trans hall
  edges := by
    rw [Slab.Sound, Plot.ofForest]
    simp [Function.comp_def, List.range_eq_range', List.zipIdx_map_snd]
  proper := (forest_ofForest g).symm ▸ hg

/-- What stands in a slot is found among the numbered edges, and is taken out of it with the number. -/
theorem Tidy.vacate (h : a.Tidy) (hu : a.forest.Unshared) (i : NodeId) (slot : Nat) :
    let old := a.edges.entries.find? fun e => e.2.parent = i && e.2.slot = slot
    let rest : Plot := old.elim a fun e => { a with edges := a.edges.remove e.1 }
    old.map (·.2.child) = a.forest.child? i slot ∧ rest.Tidy ∧ rest.forest = a.forest.vacate i slot := by
  intro old rest
  have hold : a.forest.child? i slot = old.map (·.2.child) := by
    rw [Forest.child?, forest, List.find?_map, Option.map_map]
    rfl
  rw [Forest.vacate, hold]
  cases heq : old with
  | none =>
    refine ⟨rfl, ?_⟩
    simp only [rest, heq]
    exact ⟨h, rfl⟩
  | some e =>
    refine ⟨rfl, ?_⟩
    simp only [rest, heq, Option.elim_some, Option.map_some]
    refine ⟨⟨h.nodes, h.edges.remove e.1⟩, ?_⟩
    have he : e ∈ a.edges.entries := List.mem_of_find?_eq_some heq
    have hchildren : (a.edges.entries.map fun e => e.2.child).Nodup := by
      simpa [Forest.Unshared, forest, Function.comp_def] using hu
    have hedges : (a.edges.remove e.1).entries.map (·.2) = (a.forest.unlink e.2.child).edges := by
      rw [hu.unlink_edges, Slab.remove_entries]
      refine edges_filter (p := (· ≠ e.1)) fun k e' he' => decide_eq_decide.2 (not_congr ⟨fun hk => ?_, fun hc => ?_⟩)
      · exact congrArg Edge.child (h.number_eq (hk ▸ he') he)
      · exact congrArg Prod.fst (List.inj_on_of_nodup_map hchildren he' he hc)
    rw [forest, hedges]
    rfl

theorem Sound.setChild (h : a.Sound) {old : Option NodeId} {r : Forest}
    (hset : a.forest.setChild i slot new = .ok (old, r)) :
    ∃ a', a.setChild i slot new = .ok (old, a') ∧ a'.Tidy ∧ a'.forest = r := by
  obtain ⟨⟨m, k, hm, hk, hslot, ha⟩, htop, heq⟩ := Forest.setChild_ok.1 hset
  obtain ⟨rfl, rfl⟩ := Prod.mk.inj heq
  obtain ⟨hold, htidy, hrest⟩ := h.toTidy.vacate h.proper.sound.unshared i slot
  refine ⟨_, ?_, htidy.link i slot new, ?_⟩
  · have hty : m.childType slot = .ok (m.slotType slot) := Node.childType_ok.2 ⟨hslot, rfl⟩
    have haccept : checkSlot (m.slotType slot) k.returns = .ok () := checkSlot_ok.2 ha
    have hparent : a.forest.hasParent new = false := Forest.hasParent_eq_false.2 htop
    rw [Plot.setChild, show a.nodes.get? i = some m from hm, show a.nodes.get? new = some k from hk, ← hold]
    dsimp only
    rw [hty, hparent]
    change ((liftM (checkSlot (m.slotType slot) k.returns) : Except Failure Unit) >>= _) = _
    rw [haccept]
    rfl
  · rw [forest_link, hrest]

end Plot
end Grove
