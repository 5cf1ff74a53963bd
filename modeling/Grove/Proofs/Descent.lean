import Grove.Proofs.Denotation
import Mathlib.Data.List.Nodup
import Mathlib.Data.List.Perm.Subperm

/-! Ways down through a forest. Where no node has two parents, a node that is not below itself reaches every
node below it in one way only, and so in fewer steps than there are nodes. A traversal that goes on from each
node to its children then lists what is below the node, each once, and comes to an end. -/

namespace Grove

/-- As many edges lead down from one node to another. -/
inductive Forest.Steps (g : Forest) (i : NodeId) : Nat → NodeId → Prop
  | here : Steps g i 0 i
  | down {k : Nat} {e : Edge} (h : Steps g i k e.parent) (he : e ∈ g.edges) : Steps g i (k + 1) e.child

def Forest.Reaches (g : Forest) (i j : NodeId) : Prop := ∃ k, g.Steps i k j

/-- Every way down from the node comes to an end. -/
inductive Forest.Ends (g : Forest) : NodeId → Prop
  | node {i : NodeId} (h : ∀ e ∈ g.edges, e.parent = i → Ends g e.child) : Ends g i

/-- The node is below itself. -/
def Forest.Loops (g : Forest) (i : NodeId) : Prop := ∃ k, g.Steps i (k + 1) i

def Forest.Unshared (g : Forest) : Prop := (g.edges.map (·.child)).Nodup

namespace Forest

variable {g : Forest} {i j : NodeId} {k m : Nat}

theorem Steps.trans (h : g.Steps i k j) {l : NodeId} (h' : g.Steps j m l) : g.Steps i (k + m) l := by
  induction h' with
  | here => exact h
  | down _ he ih => exact .down ih he

theorem Steps.head {e : Edge} (he : e ∈ g.edges) (h : g.Steps e.child k j) : g.Steps e.parent (k + 1) j := by
  have := (Steps.down .here he).trans h
  rwa [Nat.zero_add, Nat.add_comm] at this

theorem Steps.last (h : g.Steps i k j) :
    (k = 0 ∧ j = i) ∨ ∃ m e, k = m + 1 ∧ e ∈ g.edges ∧ e.child = j ∧ g.Steps i m e.parent := by
  cases h with
  | here => exact .inl ⟨rfl, rfl⟩
  | down h he => exact .inr ⟨_, _, rfl, he, rfl, h⟩

theorem Steps.first (h : g.Steps i (k + 1) j) : ∃ e ∈ g.edges, e.parent = i ∧ g.Steps e.child k j := by
  induction k generalizing j with
  | zero =>
    cases h with
    | down h he =>
      cases h with
      | here => exact ⟨_, he, rfl, .here⟩
  | succ k ih =>
    cases h with
    | down h he =>
      obtain ⟨e, hm, hp, hs⟩ := ih h
      exact ⟨e, hm, hp, .down hs he⟩

theorem Reaches.refl (g : Forest) (i : NodeId) : g.Reaches i i := ⟨0, .here⟩

theorem Reaches.trans {l : NodeId} (h : g.Reaches i j) (h' : g.Reaches j l) : g.Reaches i l := by
  obtain ⟨k, hk⟩ := h
  obtain ⟨m, hm⟩ := h'
  exact ⟨k + m, hk.trans hm⟩

theorem Reaches.down {e : Edge} (h : g.Reaches i e.parent) (he : e ∈ g.edges) : g.Reaches i e.child := by
  obtain ⟨k, hk⟩ := h
  exact ⟨k + 1, hk.down he⟩

theorem Reaches.edge {e : Edge} (he : e ∈ g.edges) : g.Reaches e.parent e.child := (Reaches.refl g _).down he

theorem steps_congr {g' : Forest} (h : ∀ e : Edge, g.Reaches i e.parent → (e ∈ g'.edges ↔ e ∈ g.edges)) :
    g'.Steps i k j ↔ g.Steps i k j := by
  constructor
  · intro hs
    induction hs with
    | here => exact .here
    | down _ he ih => exact .down ih ((h _ ⟨_, ih⟩).1 he)
  · intro hs
    induction hs with
    | here => exact .here
    | down hs he ih => exact .down ih ((h _ ⟨_, hs⟩).2 he)

theorem reaches_congr {g' : Forest} (h : ∀ e : Edge, g.Reaches i e.parent → (e ∈ g'.edges ↔ e ∈ g.edges)) :
    g'.Reaches i j ↔ g.Reaches i j :=
  exists_congr fun _ => steps_congr h

theorem Reaches.eq_of_top (h : g.Reaches i j) (hj : ∀ e ∈ g.edges, e.child ≠ j) : j = i := by
  obtain ⟨k, hk⟩ := h
  rcases hk.last with ⟨-, rfl⟩ | ⟨-, e, -, he, hc, -⟩
  · rfl
  · exact absurd hc (hj e he)

theorem not_loops_of_top (hi : ∀ e ∈ g.edges, e.child ≠ i) : ¬ g.Loops i := by
  rintro ⟨k, h⟩
  rcases h.last with ⟨h, -⟩ | ⟨-, e, -, he, hc, -⟩
  · cases h
  · exact hi e he hc

theorem Ends.not_loops (h : g.Ends i) : ¬ g.Loops i := by
  induction h with
  | node _ ih =>
    rintro ⟨k, hs⟩
    obtain ⟨e, he, rfl, hs⟩ := hs.first
    exact ih e he rfl ⟨k, hs.down he⟩

theorem Ends.of_reaches (h : g.Ends i) (hr : g.Reaches i j) : g.Ends j := by
  obtain ⟨k, hk⟩ := hr
  induction hk with
  | here => exact h
  | down _ he ih =>
    cases ih with
    | node h => exact h _ he rfl

theorem ends_of_bounded {bound : Nat} (hb : ∀ k j, g.Steps i k j → k < bound) : g.Ends i := by
  have below : ∀ n k j, bound - k ≤ n → g.Steps i k j → g.Ends j := by
    intro n
    induction n with
    | zero =>
      intro k j hn hs
      have := hb k j hs
      omega
    | succ n ih =>
      intro k j hn hs
      refine .node fun e he hp => ?_
      exact ih (k + 1) e.child (by omega) (.down (hp ▸ hs) he)
  exact below bound 0 i (Nat.sub_le _ _) .here

section Unshared

variable (hu : g.Unshared)
include hu

theorem Unshared.edge_eq {e e' : Edge} (he : e ∈ g.edges) (he' : e' ∈ g.edges) (h : e.child = e'.child) : e = e' :=
  List.inj_on_of_nodup_map hu he he' h

theorem Unshared.steps_unique (hi : ¬ g.Loops i) (h : g.Steps i k j) (h' : g.Steps i m j) : k = m := by
  induction h generalizing m with
  | here =>
    cases m with
    | zero => rfl
    | succ m => exact absurd ⟨m, h'⟩ hi
  | @down k e h he ih =>
    rcases h'.last with ⟨-, hc⟩ | ⟨m, e', rfl, he', hc, hm⟩
    · exact absurd ⟨k, hc ▸ h.down he⟩ hi
    · obtain rfl := hu.edge_eq he he' hc.symm
      rw [ih hm]

theorem Unshared.start_unique {i' : NodeId} (h : g.Steps i k j) (h' : g.Steps i' k j) : i = i' := by
  induction k generalizing j with
  | zero =>
    cases h
    cases h'
    rfl
  | succ k ih =>
    rcases h.last with ⟨h, -⟩ | ⟨_, e, hk, he, hc, hs⟩
    · cases h
    rcases h'.last with ⟨h, -⟩ | ⟨_, e', hk', he', hc', hs'⟩
    · cases h
    obtain rfl := hu.edge_eq he he' (hc.trans hc'.symm)
    cases hk
    cases hk'
    exact ih hs hs'

theorem Unshared.not_loops_child {e : Edge} (he : e ∈ g.edges) (hi : ¬ g.Loops e.parent) : ¬ g.Loops e.child := by
  rintro ⟨k, hs⟩
  rcases hs.last with ⟨h, -⟩ | ⟨m, e', hk, he', hc, hs⟩
  · cases h
  · obtain rfl := hu.edge_eq he he' hc.symm
    exact hi ⟨m, hs.head he⟩

theorem Unshared.path (hi : ¬ g.Loops i) (h : g.Steps i k j) :
    ∃ l : List NodeId, l.Nodup ∧ l.length = k + 1 ∧ ∀ x ∈ l, ∃ m ≤ k, g.Steps i m x := by
  induction h with
  | here => exact ⟨[i], List.nodup_singleton i, rfl, by simpa using Steps.here⟩
  | @down k e h he ih =>
    obtain ⟨l, hl, hlen, hx⟩ := ih
    refine ⟨e.child :: l, List.nodup_cons.2 ⟨fun hm => ?_, hl⟩, by simp [hlen], fun x hx' => ?_⟩
    · obtain ⟨m, hm, hs⟩ := hx _ hm
      have := hu.steps_unique hi (h.down he) hs
      omega
    · rcases List.mem_cons.1 hx' with rfl | hx'
      · exact ⟨k + 1, Nat.le_refl _, h.down he⟩
      · obtain ⟨m, hm, hs⟩ := hx x hx'
        exact ⟨m, Nat.le_succ_of_le hm, hs⟩

theorem Unshared.steps_lt (hi : ¬ g.Loops i) (hlive : ∀ j, g.Reaches i j → j ∈ g.nodes.map (·.1)) (h : g.Steps i k j) :
    k < g.size := by
  obtain ⟨l, hl, hlen, hx⟩ := hu.path hi h
  have hsub : l ⊆ g.nodes.map (·.1) := fun x hm => by
    obtain ⟨m, -, hs⟩ := hx x hm
    exact hlive x ⟨m, hs⟩
  have := (hl.subperm hsub).length_le
  simp only [List.length_map] at this
  rw [size]
  omega

end Unshared

/-- The nodes that are met from one on, going on from each to its children, so many times. -/
def traverse (kids : NodeId → List NodeId) : Nat → NodeId → List NodeId
  | 0, i => [i]
  | room + 1, i => i :: (kids i).flatMap (traverse kids room)

/-- For every node its children, each once. -/
structure ListsChildren (g : Forest) (kids : NodeId → List NodeId) : Prop where
  mem : ∀ i c, c ∈ kids i ↔ ∃ e ∈ g.edges, e.parent = i ∧ e.child = c
  nodup : ∀ i, (kids i).Nodup

section Traversal

variable {kids : NodeId → List NodeId} (hk : g.ListsChildren kids)
include hk

theorem ListsChildren.mem_traverse {room : Nat} : j ∈ traverse kids room i ↔ ∃ k ≤ room, g.Steps i k j := by
  induction room generalizing i with
  | zero =>
    rw [traverse, List.mem_singleton]
    constructor
    · rintro rfl
      exact ⟨0, Nat.le_refl 0, .here⟩
    · rintro ⟨k, hk, hs⟩
      obtain rfl := Nat.le_zero.1 hk
      cases hs
      rfl
  | succ room ih =>
    rw [traverse, List.mem_cons, List.mem_flatMap]
    constructor
    · rintro (rfl | ⟨c, hc, hj⟩)
      · exact ⟨0, Nat.zero_le _, .here⟩
      · obtain ⟨e, he, rfl, rfl⟩ := (hk.mem i c).1 hc
        obtain ⟨k, hle, hs⟩ := ih.1 hj
        exact ⟨k + 1, Nat.succ_le_succ hle, hs.head he⟩
    · rintro ⟨_ | k, hle, hs⟩
      · cases hs
        exact .inl rfl
      · obtain ⟨e, he, rfl, hs'⟩ := hs.first
        exact .inr ⟨e.child, (hk.mem _ _).2 ⟨e, he, rfl, rfl⟩, ih.2 ⟨k, Nat.le_of_succ_le_succ hle, hs'⟩⟩

theorem ListsChildren.nodup_traverse (hu : g.Unshared) (hi : ¬ g.Loops i) (room : Nat) :
    (traverse kids room i).Nodup := by
  induction room generalizing i with
  | zero => exact List.nodup_singleton i
  | succ room ih =>
    rw [traverse, List.nodup_cons, List.mem_flatMap, List.nodup_flatMap]
    refine ⟨?_, fun c hc => ?_, (hk.nodup i).imp_of_mem fun {c c'} hc hc' hne => ?_⟩
    · rintro ⟨c, hc, hm⟩
      obtain ⟨e, he, rfl, rfl⟩ := (hk.mem i c).1 hc
      obtain ⟨k, -, hs⟩ := hk.mem_traverse.1 hm
      exact hi ⟨k, hs.head he⟩
    · obtain ⟨e, he, rfl, rfl⟩ := (hk.mem i c).1 hc
      exact ih (hu.not_loops_child he hi)
    · intro x hx hx'
      obtain ⟨e, he, rfl, rfl⟩ := (hk.mem i c).1 hc
      obtain ⟨e', he', hp, rfl⟩ := (hk.mem _ c').1 hc'
      obtain ⟨k, -, hs⟩ := hk.mem_traverse.1 hx
      obtain ⟨k', -, hs'⟩ := hk.mem_traverse.1 hx'
      obtain rfl := Nat.succ.inj (hu.steps_unique hi (hs.head he) (hp ▸ hs'.head he'))
      exact hne (hu.start_unique hs hs')

end Traversal

theorem preorderTo_succ (g : Forest) (room : Nat) (i : NodeId) :
    g.preorderTo (room + 1) i = i :: ((g.slotsInOrder i).map (·.child)).flatMap (g.preorderTo room) := by
  rw [preorderTo, List.flatMap_map]

theorem preorderTo_eq (g : Forest) (room : Nat) (i : NodeId) :
    g.preorderTo room i = traverse (fun i => (g.slotsInOrder i).map (·.child)) room i := by
  induction room generalizing i with
  | zero => rfl
  | succ room ih => simp only [preorderTo, traverse, List.flatMap_map, ih]

theorem slotsInOrder_perm (g : Forest) (i : NodeId) : (g.slotsInOrder i).Perm (g.outgoing i) :=
  (sortBy_perm _ _).trans (List.reverse_perm _)

theorem Unshared.listsChildren (hu : g.Unshared) : g.ListsChildren fun i => (g.slotsInOrder i).map (·.child) where
  mem i c := by
    simp only [List.mem_map, (g.slotsInOrder_perm i).mem_iff, outgoing, List.mem_filter, decide_eq_true_eq, and_assoc]
  nodup i := by
    refine ((g.slotsInOrder_perm i).map _).nodup_iff.2 (hu.sublist ?_)
    exact List.filter_sublist.map _

theorem Unshared.reaches_of_mem_preorder (hu : g.Unshared) (h : j ∈ g.preorder i) : g.Reaches i j := by
  rw [Forest.preorder, preorderTo_eq, hu.listsChildren.mem_traverse] at h
  obtain ⟨k, -, hs⟩ := h
  exact ⟨k, hs⟩

theorem Unshared.preorder (hu : g.Unshared) (hi : ¬ g.Loops i) (hlive : ∀ j, g.Reaches i j → j ∈ g.nodes.map (·.1)) :
    (g.preorder i).Nodup ∧ ∀ j, j ∈ g.preorder i ↔ g.Reaches i j := by
  rw [Forest.preorder, preorderTo_eq]
  refine ⟨hu.listsChildren.nodup_traverse hu hi _, fun j => ?_⟩
  rw [hu.listsChildren.mem_traverse]
  exact ⟨fun ⟨k, _, hs⟩ => ⟨k, hs⟩, fun ⟨k, hs⟩ => ⟨k, Nat.le_of_lt (hu.steps_lt hi hlive hs), hs⟩⟩

end Forest
end Grove
