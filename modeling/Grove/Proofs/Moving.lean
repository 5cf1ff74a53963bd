import Grove.Proofs.Ascent
import Grove.Proofs.Measuring
import Grove.Proofs.Swapping
import Mathlib.Data.Set.Function

/-! Subtrees that are moved. What is cut out of a forest, or copied from it, is the subtree once more, and the rest is
the forest without it. Grafted into any forest it stands beside what was there; and hung back into the slot it was taken
from, it makes up the forest that there was, but for the numbers of its nodes. -/

namespace Grove

namespace Forest

/-- A forest in order, and without loops. -/
structure Proper (g : Forest) : Prop where
  sound : g.Sound
  loopless : g.Loopless

def live (g : Forest) : Set NodeId := {i | g.node? i ≠ none}

def below (g : Forest) (i : NodeId) : Set NodeId := {j | g.Reaches i j}

/-- The forest is the part of another one on these nodes: it has just those of the nodes, and of the edges those that
are among them. -/
structure IsPart (g' g : Forest) (part : Set NodeId) : Prop where
  nodes : ∀ i n, g'.node? i = some n ↔ i ∈ part ∧ g.node? i = some n
  edges : ∀ e, e ∈ g'.edges ↔ e ∈ g.edges ∧ e.parent ∈ part ∧ e.child ∈ part

/-- With the numbers changed, the part of a forest on these nodes is that of another forest on those. -/
structure Corresponds (g : Forest) (part : Set NodeId) (f : NodeId → NodeId) (g' : Forest) (part' : Set NodeId) :
    Prop where
  numbers : Set.BijOn f part part'
  nodes : ∀ i ∈ part, g'.node? (f i) = g.node? i
  edges : ∀ p ∈ part, ∀ c ∈ part, ∀ slot, ⟨f p, slot, f c⟩ ∈ g'.edges ↔ ⟨p, slot, c⟩ ∈ g.edges

/-- The subtrees at the two nodes are the same but for the numbers, root to root. -/
def SameBelow (g : Forest) (i : NodeId) (g' : Forest) (i' : NodeId) : Prop :=
  ∃ f, f i = i' ∧ g.Corresponds (g.below i) f g' (g'.below i')

end Forest

open Classical in
/-- The numbers of the nodes once a copy of the subtree, numbered by `f`, was grafted in its place. -/
noncomputable def Forest.renumber (g : Forest) (i : NodeId) (f : NodeId → NodeId) (j : NodeId) : NodeId :=
  if j ∈ g.below i then f j + g.fresh else j

/-- The subtree at a node and nothing besides, in a forest of its own. -/
structure Subtree.Copies (s : Subtree) (g : Forest) (i : NodeId) : Prop where
  proper : s.forest.Proper
  top : ∀ e ∈ s.forest.edges, e.child ≠ s.root
  spans : s.forest.live = s.forest.below s.root
  same : g.SameBelow i s.forest s.root

namespace Forest

variable {g g' : Forest} {s : Subtree} {i j : NodeId} {k : Nat}

theorem mem_live : i ∈ g.live ↔ i ∈ g.nodes.map (·.1) := by
  rw [mem_numbers, ← Option.ne_none_iff_exists']
  rfl

theorem Corresponds.trans {f f' : NodeId → NodeId} {g'' : Forest} {part part' part'' : Set NodeId}
    (h : g.Corresponds part f g' part') (h' : g'.Corresponds part' f' g'' part'') :
    g.Corresponds part (f' ∘ f) g'' part'' where
  numbers := h'.numbers.comp h.numbers
  nodes i hi := (h'.nodes _ (h.numbers.mapsTo hi)).trans (h.nodes i hi)
  edges p hp c hc slot := (h'.edges _ (h.numbers.mapsTo hp) _ (h.numbers.mapsTo hc) slot).trans (h.edges p hp c hc slot)

theorem SameBelow.trans {g'' : Forest} {i' i'' : NodeId} (h : g.SameBelow i g' i') (h' : g'.SameBelow i' g'' i'') :
    g.SameBelow i g'' i'' := by
  obtain ⟨f, rfl, hf⟩ := h
  obtain ⟨f', rfl, hf'⟩ := h'
  exact ⟨f' ∘ f, rfl, hf.trans hf'⟩

theorem loopless_of_ascending (h : ∀ e ∈ g.edges, e.parent < e.child) : g.Loopless := by
  have hlate : ∀ {i k j}, g.Steps i k j → i + k ≤ j := fun hk => by
    induction hk with
    | here => exact Nat.le_refl _
    | down _ he ih => exact Nat.lt_of_le_of_lt ih (h _ he)
  rintro i ⟨k, hk⟩
  exact Nat.not_succ_le_self (i + k) (Nat.le_trans (hlate hk) (Nat.le_add_right i k))

theorem Proper.severable (h : g.Proper) (hi : g.node? i ≠ none) : g.Severable i :=
  ⟨h.sound, mem_live.1 hi, h.loopless i⟩

section Cutting

namespace Severable

variable (h : g.Severable i)
include h

/-- It makes no difference whether a node is first cut loose from its parent. -/
theorem preorder_unlink_eq : (g.unlink i).preorder i = g.preorder i :=
  h.sound.placed.preorderTo_congr (h.sound.unlink i).placed rfl (fun _ he => h.unlink_iff he) g.size

theorem mem_preorder : j ∈ g.preorder i ↔ g.Reaches i j := by
  rw [← h.preorder_unlink_eq]
  exact h.preorder_unlink.2 j

theorem outgoing_unlink (hj : g.Reaches i j) : (g.unlink i).outgoing j = g.outgoing j := by
  rw [outgoing, outgoing, h.sound.unshared.unlink_edges, List.filter_filter]
  refine List.filter_congr fun e he => ?_
  by_cases hp : e.parent = j
  · subst hp
    simpa using (h.sound.unshared.mem_unlink.1 ((h.unlink_iff hj).2 he)).2
  · simp [hp]

theorem without_unlink : (g.unlink i).without (g.preorder i) = g.without (g.preorder i) := by
  have hi : i ∈ g.preorder i := h.mem_preorder.2 (.refl g i)
  have hedges : (g.unlink i).edges.filter (fun e => e.parent ∉ g.preorder i ∧ e.child ∉ g.preorder i) =
      g.edges.filter fun e => e.parent ∉ g.preorder i ∧ e.child ∉ g.preorder i := by
    rw [h.sound.unshared.unlink_edges, List.filter_filter]
    refine List.filter_congr fun e _ => ?_
    by_cases hc : e.child = i <;> simp [hc, hi]
  rw [without, without, hedges]
  rfl

theorem cutting_eq : g.cutting i = g.severed i := by
  have hcut : (g.unlink i).restrict (g.preorder i) = g.restrict (g.preorder i) := by
    rw [restrict, restrict, List.flatMap_congr fun j hj => h.outgoing_unlink (h.mem_preorder.1 hj)]
    rfl
  rw [Forest.severed, cutting, cutting, h.preorder_unlink_eq, hcut]

theorem rest_eq : (g.take i).2 = g.uprooted i := by
  rw [take, Forest.uprooted, h.preorder_unlink_eq, h.without_unlink]

theorem preorder_perm : (g.preorder i).Perm ((g.severed i).forest.nodes.map (·.1)) := by
  obtain ⟨hnodup, -⟩ := h.preorder_unlink
  obtain ⟨hsound, hlive, -⟩ := h.severed
  rw [h.preorder_unlink_eq] at hnodup
  refine (List.perm_ext_iff_of_nodup hnodup hsound.numbers).2
    fun j => h.mem_preorder.trans ⟨fun ⟨k, hk⟩ => ?_, fun hj => ?_⟩
  · exact hsound.reached_mem hlive ⟨k, h.steps_severed.2 hk⟩
  · obtain ⟨k, hk⟩ := h.spans_severed hj
    exact ⟨k, h.steps_severed.1 hk⟩

theorem isPart_uprooted : (g.uprooted i).IsPart g (g.below i)ᶜ where
  nodes j n := by
    by_cases hj : g.Reaches i j
    · rw [h.node?_uprooted_gone hj]
      exact ⟨nofun, fun hm => absurd hj hm.1⟩
    · rw [h.node?_uprooted hj]
      exact (and_iff_right hj).symm
  edges e := by
    rw [h.mem_uprooted]
    refine and_congr_right fun he => ⟨fun hc => ⟨fun hp => hc (hp.down he), hc⟩, And.right⟩

theorem copies_severed (hl : g.Loopless) : (g.severed i).Copies g i := by
  obtain ⟨hsound, hlive, htop⟩ := h.severed
  refine ⟨⟨hsound, hl.of_subset fun e he => (h.mem_severed.1 he).1⟩, htop, ?_, id, rfl, ?_⟩
  · ext j
    exact mem_live.trans ⟨h.spans_severed, hsound.reached_mem hlive⟩
  · have hbelow : (g.severed i).forest.below i = g.below i := Set.ext fun j => exists_congr fun k => h.steps_severed
    refine ⟨?_, fun j hj => ?_, fun p hp c _ slot => ?_⟩
    · rw [show (g.severed i).root = i from rfl, hbelow]
      exact Set.bijOn_id _
    · exact Option.ext fun n => h.node?_severed.trans (and_iff_right hj)
    · exact h.mem_severed.trans (and_iff_left hp)

end Severable

end Cutting

section Grafting

theorem Severable.proper_uprooted (h : g.Severable i) (hl : g.Loopless) : (g.uprooted i).Proper :=
  ⟨h.sound.uprooted i, hl.of_subset fun _ he => (h.mem_uprooted.1 he).1⟩

theorem Proper.graft (hg : g.Proper) (hs : s.forest.Proper) : (g.graft s).2.Proper :=
  ⟨hg.sound.graft hs.sound, hg.loopless.graft hg.sound hs.loopless⟩

end Grafting

section Returning

variable {p c : NodeId} {slot : Nat} {f : NodeId → NodeId}

theorem SameBelow.suits (h : g.SameBelow i s.forest s.root) : g.Suits i s := by
  obtain ⟨f, hroot, hf⟩ := h
  intro n m hn hm
  have hsame : s.forest.node? s.root = some n := hroot ▸ (hf.nodes i (.refl g i)).trans hn
  obtain rfl := Option.some.inj (hsame.symm.trans hm)
  exact Ty.accepts_self _

theorem renumber_below (hj : j ∈ g.below i) : g.renumber i f j = f j + g.fresh := if_pos hj

theorem renumber_beside (hj : j ∉ g.below i) : g.renumber i f j = j := if_neg hj

theorem beside_of_renumber_lt (hj : g.renumber i f j < g.fresh) : j ∉ g.below i := fun hb => by
  rw [renumber_below hb] at hj
  exact Nat.not_lt_of_le (Nat.le_add_left _ _) hj

theorem below_of_renumber_eq {j' : NodeId} (hj : j < g.fresh) (heq : g.renumber i f j = j' + g.fresh) :
    j ∈ g.below i ∧ f j = j' := by
  by_cases hb : j ∈ g.below i
  · rw [renumber_below hb] at heq
    exact ⟨hb, Nat.add_right_cancel heq⟩
  · rw [renumber_beside hb] at heq
    exact absurd hj (heq ▸ Nat.not_lt_of_le (Nat.le_add_left _ _))

theorem Sound.live_lt (h : g.Sound) (hj : j ∈ g.live) : j < g.fresh := h.fresh j (mem_live.1 hj)

section

variable (ht : g.Transplanted i s g') (h : g.Severable i)
    (hf : g.Corresponds (g.below i) f s.forest (s.forest.below s.root))
include ht h hf

theorem Transplanted.node?_renumber (hj : j ∈ g.live) : g'.node? (g.renumber i f j) = g.node? j := by
  by_cases hb : j ∈ g.below i
  · rw [renumber_below hb, ht.moved, hf.nodes j hb]
  · rw [renumber_beside hb, ht.kept j (h.sound.live_lt hj) hb]

theorem Transplanted.bijOn_renumber (hspans : s.forest.live = s.forest.below s.root) :
    Set.BijOn (g.renumber i f) g.live g'.live := by
  refine ⟨fun j hj => ?_, fun j hj j' hj' heq => ?_, fun j hj => ?_⟩
  · change g'.node? (g.renumber i f j) ≠ none
    rwa [ht.node?_renumber h hf hj]
  · by_cases hb : j ∈ g.below i
    · obtain ⟨hb', hf'⟩ := below_of_renumber_eq (h.sound.live_lt hj') (heq.symm.trans (renumber_below hb))
      exact hf.numbers.injOn hb hb' hf'.symm
    · rw [renumber_beside hb] at heq
      rw [heq, renumber_beside (beside_of_renumber_lt (heq ▸ h.sound.live_lt hj))]
  · obtain ⟨n, hn⟩ := Option.ne_none_iff_exists'.1 hj
    rcases ht.nodes hn with ⟨-, hb, hold⟩ | ⟨j', rfl, hmoved⟩
    · exact ⟨j, by simp [live, hold], renumber_beside hb⟩
    · have hj' : j' ∈ s.forest.below s.root := hspans ▸ (by simp [live, hmoved])
      obtain ⟨j, hb, rfl⟩ := hf.numbers.surjOn hj'
      exact ⟨j, mem_live.2 (h.sound.reached_mem h.live hb), renumber_below hb⟩

theorem Transplanted.mem_renumber (hroot : f i = s.root) (hp : p ∈ g.live) (hc : c ∈ g.live) :
    ⟨g.renumber i f p, slot, g.renumber i f c⟩ ∈ g'.edges ↔ ⟨p, slot, c⟩ ∈ g.edges := by
  have hu := h.sound
  rw [ht.edges]
  constructor
  · -- the edge was there before, or was moved with the subtree, or leads to its root
    rintro (⟨hold, -⟩ | ⟨⟨q, slot', d⟩, he, heq⟩ | ⟨q, slot', hold, heq⟩)
    · rwa [renumber_beside (beside_of_renumber_lt (hu.fresh _ (hu.parent_mem hold))),
        renumber_beside (beside_of_renumber_lt (hu.fresh _ (hu.child_mem hold)))] at hold
    · obtain ⟨hq, rfl, hd⟩ := Edge.mk.inj heq
      obtain ⟨hbp, rfl⟩ := below_of_renumber_eq (hu.live_lt hp) hq.symm
      obtain ⟨hbc, rfl⟩ := below_of_renumber_eq (hu.live_lt hc) hd.symm
      exact (hf.edges p hbp c hbc _).1 he
    · obtain ⟨rfl, rfl, hd⟩ := Edge.mk.inj heq
      obtain ⟨hbc, hroot'⟩ := below_of_renumber_eq (hu.live_lt hc) hd
      obtain rfl := hf.numbers.injOn hbc (Reaches.refl g i) (hroot'.trans hroot.symm)
      rwa [renumber_beside (beside_of_renumber_lt (hu.fresh _ (hu.parent_mem hold)))] at hold
  · intro he
    by_cases hbp : p ∈ g.below i
    · have hbc : c ∈ g.below i := Reaches.down (e := ⟨p, slot, c⟩) hbp he
      rw [renumber_below hbp, renumber_below hbc]
      exact .inr (.inl ⟨_, (hf.edges p hbp c hbc slot).2 he, rfl⟩)
    · rw [renumber_beside hbp]
      by_cases hbc : c ∈ g.below i
      · obtain rfl : c = i := (hu.unshared.reaches_child he hbc).resolve_right hbp
        rw [renumber_below hbc, hroot]
        exact .inr (.inr ⟨p, slot, he, rfl⟩)
      · rw [renumber_beside hbc]
        exact .inl ⟨he, hbc⟩

end

/-- With a copy in the place of a subtree the forest is the same but for the numbers, and no node beside the subtree
has got another one. -/
theorem Transplanted.corresponds (ht : g.Transplanted i s g') (h : g.Severable i) (hs : s.Copies g i) :
    ∃ f, (∀ j, j ∉ g.below i → f j = j) ∧ g.Corresponds g.live f g' g'.live := by
  obtain ⟨f, hroot, hf⟩ := hs.same
  exact ⟨g.renumber i f, fun _ => renumber_beside, ht.bijOn_renumber h hf hs.spans,
    fun _ => ht.node?_renumber h hf, fun _ hp _ hc _ => ht.mem_renumber h hf hroot hp hc⟩

/-- In the slot that the subtree was taken from a copy is taken in. -/
theorem Proper.returned (hg : g.Proper) (hs : s.Copies g i) (he : ⟨p, slot, i⟩ ∈ g.edges) :
    ∃ g', ((g.uprooted i).graft s).2.setChild p slot (s.root + g.fresh) = .ok (none, g') ∧ g'.Proper ∧
      ∃ f, (∀ j, j ∉ g.below i → f j = j) ∧ g.Corresponds g.live f g' g'.live := by
  have h : g.Severable i := ⟨hg.sound, hg.sound.child_mem he, hg.loopless i⟩
  have hlive : s.root ∈ s.forest.nodes.map (·.1) := mem_live.1 (hs.spans ▸ Reaches.refl _ _)
  obtain ⟨g', hset, ht⟩ := h.transplanted_slot hs.proper.sound hlive hs.top he (h.sound.welcomes hs.same.suits)
  have hrest := h.proper_uprooted hg.loopless
  have hgrafted := hrest.graft hs.proper
  -- the slot's node is older than all that is below the copy
  have hold : ¬ ((g.uprooted i).graft s).2.Reaches (s.root + g.fresh) p := fun ⟨k, hk⟩ =>
    Nat.not_lt_of_le ((hrest.sound.steps_graft hk).2 (Nat.le_add_left _ _)).1 (h.sound.fresh p (h.sound.parent_mem he))
  have hloopless : g'.Loopless := (hgrafted.sound.loopless_setChild_iff hgrafted.loopless hset).2 hold
  exact ⟨g', hset, ⟨ht.sound, hloopless⟩, ht.corresponds h hs⟩

end Returning

end Forest

theorem Nested.proper : tree.forest.Proper :=
  ⟨upright.full.sound, Forest.loopless_of_ascending (by decide +kernel)⟩

end Grove
