import Grove.Mutation
import Grove.Proofs.Transplant

/-! Terms in the place of subtrees. To plant a term is to graft it as a tree of its own, and so the tree in which a
term has taken the place of a node is a transplant. -/

namespace Grove

def Term.subtree (e : Term) : Subtree := ⟨(Forest.empty.plant e).2, (Forest.empty.plant e).1⟩

namespace Term

variable {e : Term}

theorem shape_subtree (e : Term) : e.subtree.forest.shape e.subtree.root = e.numbered 0 :=
  Option.some.inj (Tree.shape?_planted ⟨none, .any, [], []⟩ e)

theorem denotes_subtree (e : Term) : (e.subtree.forest.shape e.subtree.root).Denotes e := by
  rw [shape_subtree]
  exact e.denotes_numbered 0

theorem size_subtree (e : Term) : e.subtree.forest.size = e.size := by
  have := congrArg List.length (Forest.plant_spec e Forest.bounded_empty).2.nodes
  simpa [Term.subtree, Forest.size, Forest.empty] using this

theorem label_subtree (e : Term) : e.subtree.forest.node? e.subtree.root = some e.label :=
  Forest.label_of_denotes e.denotes_subtree

theorem within_subtree {sig : Signature} {height : Nat} (ht : e.WellTyped) (hd : ∀ n ∈ e.nodes, n.fits sig = true)
    (hh : e.height ≤ height) : e.subtree.Within sig height := by
  have hs := e.denotes_subtree
  have htight : (Tree.planted sig e).Tight (e.subtree.forest.shape e.subtree.root) := by
    rw [shape_subtree]
    exact Tree.tight_planted sig e
  have hbounded := (Forest.plant_spec e Forest.bounded_empty).2.bounded
  have hwhole := Forest.whole_of_denotes hs ht htight.nodup htight.nodes htight.edges hbounded
  refine ⟨hwhole, fun j n hn => hd n ?_, (hwhole.sound.noDeeper_iff hs).2 hh⟩
  exact Forest.mem_nodes_of_denotes hs (htight.nodes.mem_iff.1 (Forest.mem_numbers.2 ⟨n, hn⟩)) hn

end Term

namespace Forest

variable {g h g' : Forest} {s : Subtree} {r i j p : NodeId} {slot k d : Nat} {e : Edge}

/-- One forest on top of another, under the numbers after those in use. -/
def stack (g h : Forest) : Forest := (g.graft ⟨h, 0⟩).2

theorem stack_empty (g : Forest) : g.stack .empty = g := by
  simp [stack, graft, shift, empty]

theorem stack_add (g h : Forest) (n : Node) : (g.stack h).add n = (h.fresh + g.fresh, g.stack (h.add n).2) := by
  simp [stack, graft, shift, add, Nat.add_right_comm]

theorem plantSlots_stack {root : NodeId} {ts : List Term}
    (ht : ∀ t ∈ ts, ∀ h, plant t (g.stack h) = ((plant t h).1 + g.fresh, g.stack (plant t h).2)) (slot : Nat)
    (h : Forest) :
    plantSlots (root + g.fresh) slot ts (g.stack h) = g.stack (plantSlots root slot ts h) := by
  induction ts generalizing slot h with
  | nil => rfl
  | cons t ts ih =>
    rw [plantSlots, plantSlots, ht t List.mem_cons_self]
    exact ih (fun t' ht' => ht t' (List.mem_cons_of_mem t ht')) (slot + 1) ((plant t h).2.link root slot (plant t h).1)

theorem plant_stack (e : Term) : ∀ h, plant e (g.stack h) = ((plant e h).1 + g.fresh, g.stack (plant e h).2) := by
  induction e with
  | node n kids ih =>
    intro h
    have hkids : ∀ t ∈ List.ofFn kids, ∀ h, plant t (g.stack h) = ((plant t h).1 + g.fresh, g.stack (plant t h).2) := by
      intro t ht
      obtain ⟨slot, rfl⟩ := List.mem_ofFn.1 ht
      exact ih slot
    have hfresh : (g.stack h).fresh = h.fresh + g.fresh := rfl
    rw [plant_node, plant_node, stack_add, hfresh, plantSlots_stack hkids]

theorem plant_eq_graft (g : Forest) (e : Term) : g.plant e = g.graft e.subtree := by
  have := plant_stack (g := g) e .empty
  rw [stack_empty] at this
  exact this

/-- The subtree hangs in the place of the node, and the node hangs nowhere with all that is below it. -/
structure Hung (g : Forest) (i : NodeId) (s : Subtree) (g' : Forest) : Prop where
  sound : g'.Sound
  moved : ∀ j, g'.node? (j + g.fresh) = s.forest.node? j
  kept : ∀ j < g.fresh, g'.node? j = g.node? j
  edges : ∀ e, e ∈ g'.edges ↔ (e ∈ g.edges ∧ e.child ≠ i) ∨ (∃ e' ∈ s.forest.edges, e'.shift g.fresh = e) ∨
    ∃ p slot, ⟨p, slot, i⟩ ∈ g.edges ∧ e = ⟨p, slot, s.root + g.fresh⟩

namespace Hung

variable (hc : g.Severable i) (hh : g.Hung i s g')
include hc hh

theorem top : ∀ e ∈ g'.edges, e.child ≠ i := by
  intro e he hi
  rcases (hh.edges e).1 he with ⟨-, hold⟩ | ⟨e', -, rfl⟩ | ⟨p, slot, -, rfl⟩
  · exact hold hi
  · exact hc.sound.ne_moved hc.live _ hi
  · exact hc.sound.ne_moved hc.live _ hi

theorem same (hp : g.Reaches i e.parent) : e ∈ g'.edges ↔ e ∈ g.edges := by
  rw [hh.edges]
  constructor
  · rintro (⟨he, -⟩ | ⟨e', -, rfl⟩ | ⟨p, slot, he, rfl⟩)
    · exact he
    · exact absurd hp (hc.not_reaches_new e'.parent)
    · exact absurd hp (hc.not_reaches_parent he)
  · intro he
    refine .inl ⟨he, fun hi => ?_⟩
    obtain ⟨k, hk⟩ := hp
    exact hc.not_loops ⟨k, hi ▸ hk.down he⟩

theorem mem_preorder : j ∈ g'.preorder i ↔ g.Reaches i j := by
  have hi' : i ∈ g'.nodes.map (·.1) := by
    rw [mem_numbers, hh.kept i (hc.sound.fresh i hc.live)]
    exact mem_numbers.1 hc.live
  have hends := hh.sound.ends_of_top hi' (top hc hh)
  have hpre := (hh.sound.preorder (Option.ne_none_iff_exists'.2 (mem_numbers.1 hi')) hends).2 j
  exact hpre.trans (reaches_congr fun _ hp => same hc hh hp)

theorem transplanted : g.Transplanted i s (g'.without (g'.preorder i)) := by
  have hpre := fun j => mem_preorder (j := j) hc hh
  have hnew := hc.not_reaches_new
  refine ⟨hh.sound.without _, fun j => ?_, fun j hj hreach => ?_, fun j hj hreach => ?_, fun e => ?_⟩
  · rw [node?_without, if_neg fun hm => hnew j ((hpre _).1 hm), hh.moved]
  · rw [node?_without, if_neg fun hm => hreach ((hpre j).1 hm), hh.kept j hj]
  · rw [node?_without, if_pos ((hpre j).2 hreach)]
  · rw [mem_without, hh.edges, hpre, hpre]
    constructor
    · rintro ⟨⟨he, -⟩ | he | he, -, hout⟩
      · exact .inl ⟨he, hout⟩
      · exact .inr (.inl he)
      · exact .inr (.inr he)
    · rintro (⟨he, hout⟩ | ⟨e', he', rfl⟩ | ⟨p, slot, he, rfl⟩)
      · exact ⟨.inl ⟨he, fun heq => hout (heq ▸ .refl g i)⟩, fun hp => hout (hp.down he), hout⟩
      · exact ⟨.inr (.inl ⟨e', he', rfl⟩), hnew e'.parent, hnew e'.child⟩
      · exact ⟨.inr (.inr ⟨p, slot, he, rfl⟩), hc.not_reaches_parent he, hnew s.root⟩

end Hung

namespace Whole

variable (hw : g.Whole r)
include hw

theorem hung_top (hs : s.forest.Sound) (hr : i = r) : g.Hung i s (g.graft s).2 := by
  refine ⟨hw.sound.graft hs, hw.sound.node?_graft_moved s, fun j hj => hw.sound.node?_graft_old s hj, fun e => ?_⟩
  rw [mem_graft, and_iff_left_of_imp fun he hc => hw.top e he (hc.trans hr), ← or_assoc]
  exact (or_iff_left fun ⟨p, slot, he, _⟩ => hw.top _ he hr).symm

/-- Where the node hangs in a slot, what was grafted is put into that slot. -/
theorem hung_child (hs : s.forest.Whole s.root) (he : ⟨p, slot, i⟩ ∈ g.edges) (hsuits : g.Suits i s) :
    ∃ h, (g.graft s).2.setChild p slot (s.root + g.fresh) = .ok (some i, h) ∧ g.Hung i s h := by
  have hg := hw.sound.graft hs.sound
  have hp := hw.sound.fresh p (hw.sound.parent_mem he)
  have hfits : (g.graft s).2.Fits ⟨p, slot, s.root + g.fresh⟩ :=
    hw.sound.fits_place he hs.root (hw.sound.welcomes hsuits) (hw.sound.node?_graft_old s hp)
      (hw.sound.node?_graft_moved s s.root)
  have hold : (g.graft s).2.child? p slot = some i := hg.child?_eq_some.2 (mem_graft.2 (.inl he))
  have hset := setChild_ok.2 ⟨hfits, hw.sound.graft_loose hs.top, rfl⟩
  have hsound := hg.setChild hset
  rw [hold] at hset
  have hnode : ∀ j, (((g.graft s).2.vacate p slot).link p slot (s.root + g.fresh)).node? j = (g.graft s).2.node? j :=
    congrFun (node?_vacate _ p slot)
  refine ⟨_, hset, hsound, fun j => ?_, fun j hj => ?_, fun e => ?_⟩
  · rw [hnode, hw.sound.node?_graft_moved]
  · rw [hnode, hw.sound.node?_graft_old s hj]
  · -- the slot is that of the node, and none of those that were moved
    have hslot : ∀ e ∈ g.edges, ¬ (e.parent = p ∧ e.slot = slot) ↔ e.child ≠ i := by
      intro e hm
      refine not_congr ⟨fun hs => ?_, fun hc => ?_⟩
      · rw [hw.sound.edge_eq_of_slot hm he hs.1 hs.2]
      · rw [hw.sound.unshared.edge_eq hm he hc]
        exact ⟨rfl, rfl⟩
    have hmoved : ∀ e' : Edge, ¬ ((e'.shift g.fresh).parent = p ∧ (e'.shift g.fresh).slot = slot) := fun e' hs =>
      hw.sound.ne_moved (hw.sound.parent_mem he) _ hs.1
    change e ∈ (_ :: _) ↔ _
    rw [List.mem_cons, hg.mem_vacate, mem_graft]
    constructor
    · rintro (rfl | ⟨hm | ⟨e', he', rfl⟩, hs⟩)
      · exact .inr (.inr ⟨p, slot, he, rfl⟩)
      · exact .inl ⟨hm, (hslot e hm).1 hs⟩
      · exact .inr (.inl ⟨e', he', rfl⟩)
    · rintro (⟨hm, hc⟩ | ⟨e', he', rfl⟩ | ⟨p', slot', he', rfl⟩)
      · exact .inr ⟨.inl hm, (hslot e hm).2 hc⟩
      · exact .inr ⟨.inr ⟨e', he', rfl⟩, hmoved e'⟩
      · cases hw.sound.unshared.edge_eq he' he rfl
        exact .inl rfl

end Whole

theorem parent?_graft (hi : i < g.fresh) : (g.graft s).2.parent? i = g.parent? i := by
  have hnone : (s.forest.edges.map (·.shift g.fresh)).find? (·.child = i) = none := by
    rw [List.find?_eq_none]
    intro e he
    obtain ⟨e', -, rfl⟩ := List.mem_map.1 he
    have hne : e'.child + g.fresh ≠ i := (Nat.ne_of_lt (Nat.lt_add_left e'.child hi)).symm
    exact fun hd => hne (of_decide_eq_true hd)
  change Option.map _ (List.find? _ (s.forest.edges.map (·.shift g.fresh) ++ g.edges)) = _
  rw [List.find?_append, hnone, Option.none_or]
  rfl

end Forest

namespace Tree

variable {t t' : Tree} {e : Term} {r i : NodeId}

/-- A tree with a term planted in its forest that nothing leads to yet. -/
def grown (t : Tree) (e : Term) : Tree := ⟨t.signature, (t.forest.graft e.subtree).2, t.root⟩

/-- The tree with a term planted in the place of a node. -/
def regrow (t : Tree) (i : NodeId) (e : Term) : Tree × Except Failure Unit :=
  substitute { t with forest := (t.forest.plant e).2 } i (t.forest.plant e).1

theorem regrow_of_supplant (h : (t.grown e).supplant i (e.subtree.root + t.forest.fresh) = .ok (some i, t')) :
    t.regrow i e = (t'.prune i, .ok ()) := by
  unfold regrow substitute
  rw [Forest.plant_eq_graft]
  unfold grown at h
  rw [show (t.forest.graft e.subtree).1 = e.subtree.root + t.forest.fresh from rfl, h]
  rfl

theorem parent?_grown (hi : i < t.forest.fresh) : (t.grown e).forest.parent? i = t.forest.parent? i :=
  Forest.parent?_graft hi

theorem Standing.regrow_root (h : t.Standing r) (hs : e.subtree.forest.Whole e.subtree.root)
    (hsuits : t.forest.Suits r e.subtree) : ∃ g', t.forest.Transplanted r e.subtree g' ∧
      t.regrow r e = (⟨t.signature, g', some (t.forest.rootAfter r r e.subtree)⟩, .ok ()) := by
  have hr := h.whole.root
  have ht := (h.whole.hung_top hs.sound rfl).transplanted (h.whole.severable hr)
  obtain ⟨n, hn⟩ := Forest.mem_numbers.1 hr
  obtain ⟨m, hm⟩ := Forest.mem_numbers.1 hs.root
  have hset : (t.grown e).setRoot (e.subtree.root + t.forest.fresh) = .ok _ := setRoot_ok.2
    ⟨m, (h.whole.sound.node?_graft_moved _ _).trans hm, Ty.accepts_trans (h.accepted n hn) (hsuits n m hn hm),
      h.whole.sound.graft_loose hs.top, rfl⟩
  have hsupplant : (t.grown e).supplant r (e.subtree.root + t.forest.fresh) =
      .ok (some r, { t.grown e with root := some (e.subtree.root + t.forest.fresh) }) := by
    rw [supplant, parent?_grown (h.whole.sound.fresh r hr), (h.whole.full.parent?_eq_none_iff (.refl _ r)).2 rfl]
    dsimp only
    rw [hset, grown, h.root]
  have hnew := h.whole.sound.ne_moved hr e.subtree.root
  refine ⟨_, ht, ?_⟩
  rw [regrow_of_supplant hsupplant, Forest.rootAfter, if_pos rfl]
  simp [Tree.prune, rootWithout, Forest.prune, grown, hnew]

theorem Standing.regrow_slot {p slot : Nat} (h : t.Standing r) (hs : e.subtree.forest.Whole e.subtree.root)
    (he : ⟨p, slot, i⟩ ∈ t.forest.edges) (hsuits : t.forest.Suits i e.subtree) :
    ∃ g', t.forest.Transplanted i e.subtree g' ∧
      t.regrow i e = (⟨t.signature, g', some (t.forest.rootAfter r i e.subtree)⟩, .ok ()) := by
  have hi := h.whole.sound.child_mem he
  have hir : i ≠ r := h.whole.top _ he
  obtain ⟨g', hslot, hhung⟩ := h.whole.hung_child hs he hsuits
  have hnew : (t.grown e).root ≠ some (e.subtree.root + t.forest.fresh) := by
    rw [grown, h.root]
    intro heq
    exact h.whole.sound.ne_moved h.whole.root _ (Option.some.inj heq).symm
  have hsupplant : (t.grown e).supplant i (e.subtree.root + t.forest.fresh) =
      .ok (some i, { t.grown e with forest := g' }) := by
    rw [supplant, parent?_grown (h.whole.sound.fresh i hi), (Forest.parent?_eq_some h.whole.sound.unshared).2 he]
    exact setChild_ok.2 ⟨hnew, _, hslot, rfl⟩
  refine ⟨_, hhung.transplanted (h.whole.severable hi), ?_⟩
  rw [regrow_of_supplant hsupplant, Forest.rootAfter, if_neg hir]
  simp [Tree.prune, rootWithout, Forest.prune, grown, h.root, Ne.symm hir]

theorem Standing.regrow (h : t.Standing r) (hi : i ∈ t.forest.nodes.map (·.1))
    (hs : e.subtree.forest.Whole e.subtree.root)
    (hsuits : t.forest.Suits i e.subtree) : ∃ g', t.forest.Transplanted i e.subtree g' ∧
      t.regrow i e = (⟨t.signature, g', some (t.forest.rootAfter r i e.subtree)⟩, .ok ()) := by
  cases hp : t.forest.parent? i with
  | none =>
    obtain rfl := (h.whole.full.parent?_eq_none_iff (h.whole.spans i hi)).1 hp
    exact h.regrow_root hs hsuits
  | some place => exact h.regrow_slot hs ((Forest.parent?_eq_some h.whole.sound.unshared).1 hp) hsuits

end Tree
end Grove
