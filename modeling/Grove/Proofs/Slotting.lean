import Grove.Proofs.Isomorphism

/-! One place at a time. A child that is put into a slot changes that slot and nothing else, and a node that is made the
root changes the root and nothing else. Either is refused just for the type of the node, and then there is no change. A
node that is displaced stays, with all that is below it, and hangs nowhere. -/

namespace Grove

/-- The node hangs nowhere, with what was below it. If the ways down from it end, nothing else is below it. -/
structure Tree.Displaced (t : Tree) (i : NodeId) (t' : Tree) : Prop where
  live : ∃ n, t'.forest.node? i = some n
  parentless : t'.forest.parent? i = none
  below : ∀ j, t.forest.Reaches i j → t'.forest.Reaches i j
  noMore : t.forest.Ends i → ∀ j, t'.forest.Reaches i j → t.forest.Reaches i j
  edges : t.forest.Ends i → ∀ e : Edge, t.forest.Reaches i e.parent → (e ∈ t'.forest.edges ↔ e ∈ t.forest.edges)
  listed : t.forest.Ends i → t'.forest.preorder i = t.forest.preorder i

/-- The child stands in the slot, and nowhere else has anything changed. -/
structure Tree.Slotted (t : Tree) (p : NodeId) (slot : Nat) (c : NodeId) (t' : Tree) : Prop where
  sound : t'.Sound
  signature : t'.signature = t.signature
  root : t'.root = t.root
  nodes : t'.forest.node? = t.forest.node?
  edges : ∀ e, e ∈ t'.forest.edges ↔ e = ⟨p, slot, c⟩ ∨ e ∈ t.forest.edges ∧ ¬ (e.parent = p ∧ e.slot = slot)
  child : t'.forest.child? p slot = some c
  parent : t'.forest.parent? c = some (p, slot)
  otherSlots : ∀ i s, ¬ (i = p ∧ s = slot) → t'.forest.child? i s = t.forest.child? i s
  otherNodes : ∀ i, i ≠ c → t.forest.child? p slot ≠ some i → t'.forest.parent? i = t.forest.parent? i
  displaced : ∀ i, t.forest.child? p slot = some i → t.Displaced i t'

namespace Forest

variable {g : Forest} {i c : NodeId} {slot : Nat}

theorem Sound.mem_fill {e : Edge} (h : g.Sound) : e ∈ ((g.vacate i slot).link i slot c).edges ↔
    e = ⟨i, slot, c⟩ ∨ e ∈ g.edges ∧ ¬ (e.parent = i ∧ e.slot = slot) := by
  change e ∈ _ :: _ ↔ _
  rw [List.mem_cons, h.mem_vacate]

end Forest

namespace Tree

variable {t t' : Tree} {p c i : NodeId} {slot : Nat} {n m : Node}

theorem Sound.child?_iff_parent? (h : t.Sound) :
    t.forest.child? p slot = some c ↔ t.forest.parent? c = some (p, slot) := by
  rw [h.forest.child?_eq_some, Forest.parent?_eq_some h.forest.unshared]

section Filling

variable (h : t.Sound) (h' : t'.Sound) (hc : ∀ e ∈ t.forest.edges, e.child ≠ c)
    (hnode : t'.forest.node? = t.forest.node?)
  (hsize : t'.forest.size = t.forest.size)
  (hedges : ∀ e, e ∈ t'.forest.edges ↔ e = ⟨p, slot, c⟩ ∨ e ∈ t.forest.edges ∧ ¬ (e.parent = p ∧ e.slot = slot))
include h h' hc hnode hsize hedges

theorem Sound.displaced (hi : t.forest.child? p slot = some i) : t.Displaced i t' := by
  have he := Forest.child?_mem hi
  have hsame : t.forest.Ends i → ∀ e : Edge, t.forest.Reaches i e.parent →
      (e ∈ t'.forest.edges ↔ e ∈ t.forest.edges) := by
    intro hends e hr
    have hp : e.parent ≠ p := by
      rintro rfl
      obtain ⟨k, hk⟩ := hr
      exact hends.not_loops ⟨k, hk.down (e := ⟨e.parent, slot, i⟩) he⟩
    rw [hedges]
    exact ⟨fun hm => hm.elim (fun heq => absurd (congrArg Edge.parent heq) hp) And.left,
      fun hm => .inr ⟨hm, fun hs => hp hs.1⟩⟩
  refine ⟨?_, ?_, fun j hj => ?_, fun hends j => ?_, hsame, fun hends => ?_⟩
  · rw [hnode]
    exact Forest.mem_numbers.1 (h.forest.child_mem he)
  · refine Forest.parent?_eq_none.2 fun e hm hei => ?_
    rcases (hedges e).1 hm with rfl | ⟨hold, hne⟩
    · exact hc _ he hei.symm
    · obtain rfl := h.forest.unshared.edge_eq hold he hei
      exact hne ⟨rfl, rfl⟩
  · -- a way that comes back through the slot starts over at the node
    obtain ⟨k, hk⟩ := hj
    induction hk with
    | here => exact .refl _ i
    | @down k e _ hm ih =>
      by_cases hs : e.parent = p ∧ e.slot = slot
      · obtain rfl := h.forest.edge_eq_of_slot hm he hs.1 hs.2
        exact .refl _ _
      · exact ih.down ((hedges e).2 (.inr ⟨hm, hs⟩))
  · exact (Forest.reaches_congr (hsame hends)).1
  · rw [Forest.preorder, Forest.preorder, hsize]
    exact h.placed.forest.preorderTo_congr h'.placed.forest hnode (hsame hends) _

end Filling

theorem Sound.slotted (h : t.Sound) (hf : t.forest.Fits ⟨p, slot, c⟩) (hc : ∀ e ∈ t.forest.edges, e.child ≠ c)
    (hroot : t.root ≠ some c) :
    ∃ t', t.setChild p slot c = .ok (t.forest.child? p slot, t') ∧ t.Slotted p slot c t' := by
  have hset : t.setChild p slot c = .ok (t.forest.child? p slot,
      { t with forest := (t.forest.vacate p slot).link p slot c }) :=
    setChild_ok.2 ⟨hroot, _, Forest.setChild_ok.2 ⟨hf, hc, rfl⟩, rfl⟩
  refine ⟨_, hset, ?_⟩
  have h' := h.setChild hset
  have hedges := fun e => @Forest.Sound.mem_fill t.forest p c slot e h.forest
  have hnode : ((t.forest.vacate p slot).link p slot c).node? = t.forest.node? := Forest.node?_vacate t.forest p slot
  have hchild : ⟨p, slot, c⟩ ∈ ((t.forest.vacate p slot).link p slot c).edges := List.mem_cons_self
  refine ⟨h', rfl, rfl, hnode, hedges, h'.forest.child?_eq_some.2 hchild,
    (Forest.parent?_eq_some h'.forest.unshared).2 hchild, fun i s hs => ?_, fun i hic hold => ?_, fun i hi => ?_⟩
  · refine Option.ext fun j => ?_
    rw [h'.forest.child?_eq_some, h.forest.child?_eq_some]
    refine (hedges _).trans ⟨fun hm => ?_, fun hm => .inr ⟨hm, hs⟩⟩
    rcases hm with heq | hm
    · cases heq
      exact absurd ⟨rfl, rfl⟩ hs
    · exact hm.1
  · refine Option.ext fun ⟨q, s⟩ => ?_
    rw [Forest.parent?_eq_some h'.forest.unshared, Forest.parent?_eq_some h.forest.unshared]
    refine (hedges _).trans ⟨fun hm => ?_, fun hm => .inr ⟨hm, ?_⟩⟩
    · rcases hm with heq | hm
      · cases heq
        exact absurd rfl hic
      · exact hm.1
    · rintro ⟨rfl, rfl⟩
      exact hold (h.forest.child?_eq_some.2 hm)
  · have hsize : ((t.forest.vacate p slot).link p slot c).size = t.forest.size := by
      unfold Forest.vacate
      cases t.forest.child? p slot <;> rfl
    exact h.displaced h' hc hnode hsize hedges hi

theorem setChild_refused (hroot : t.root ≠ some c) (hp : t.forest.node? p = some n) (hc : t.forest.node? c = some m)
    (hslot : slot < n.arity) (ha : (n.slotType slot).accepts m.returns = false) :
    t.setChild p slot c = .error (.refused (.childTypeMismatch (n.slotType slot) m.returns)) := by
  rw [setChild, if_neg (Ne.symm hroot)]
  change (t.forest.setChild p slot c >>= _) = _
  rw [Forest.setChild_refused hp hc hslot (checkSlot_refused ha)]
  rfl

theorem setRoot_refused (hn : t.forest.node? i = some n) (ha : t.signature.returns.accepts n.returns = false) :
    t.setRoot i = .error (.refused (.childTypeMismatch t.signature.returns n.returns)) := by
  rw [setRoot, hn]
  dsimp only
  rw [checkSlot_refused ha]
  rfl

/-- A child that hangs nowhere and is not the root is refused by a slot just when the slot does not accept its type, and
then the tree is as it was. Else it takes the place of what stood there, which is handed back and keeps all that was
below it; no other node, edge or root changes, even if the child should be above the slot. In the same way a node that
hangs nowhere is refused as the root or becomes it, and nothing else changes. Children and parents always agree. -/
theorem one_place_changes (h : t.Sound) :
    (∀ p slot c n m, t.forest.node? p = some n → t.forest.node? c = some m → slot < n.arity →
      t.forest.parent? c = none → t.root ≠ some c →
      (t.setChild p slot c = .error (.refused (.childTypeMismatch (n.slotType slot) m.returns)) ↔
        (n.slotType slot).accepts m.returns = false) ∧
      ((n.slotType slot).accepts m.returns = false → t.after (t.setChild p slot c) = some t) ∧
      ((n.slotType slot).accepts m.returns = true →
        ∃ t', t.setChild p slot c = .ok (t.forest.child? p slot, t') ∧ t.Slotted p slot c t')) ∧
    (∀ i n, t.forest.node? i = some n → t.forest.parent? i = none →
      (t.setRoot i = .error (.refused (.childTypeMismatch t.signature.returns n.returns)) ↔
        t.signature.returns.accepts n.returns = false) ∧
      (t.signature.returns.accepts n.returns = false → t.after (t.setRoot i) = some t) ∧
      (t.signature.returns.accepts n.returns = true →
        t.setRoot i = .ok (t.root, { t with root := some i }) ∧ Tree.Sound { t with root := some i })) ∧
    ∀ p slot c, t.forest.child? p slot = some c ↔ t.forest.parent? c = some (p, slot) := by
  refine ⟨fun p slot c n m hp hm hslot hc hroot => ?_, fun i n hn hi => ?_, fun p slot c => h.child?_iff_parent?⟩
  · have htop := Forest.parent?_eq_none.1 hc
    have taken : (n.slotType slot).accepts m.returns = true →
        ∃ t', t.setChild p slot c = .ok (t.forest.child? p slot, t') ∧ t.Slotted p slot c t' := fun ha =>
      h.slotted ⟨n, m, hp, hm, hslot, ha⟩ htop hroot
    refine ⟨⟨fun he => ?_, setChild_refused hroot hp hm hslot⟩, fun ha => ?_, taken⟩
    · by_contra ha
      obtain ⟨t', hok, -⟩ := taken (by simpa using ha)
      rw [hok] at he
      cases he
    · rw [setChild_refused hroot hp hm hslot ha]
      rfl
  · have taken : t.signature.returns.accepts n.returns = true → t.setRoot i = .ok (t.root, { t with root := some i }) :=
      fun ha => setRoot_ok.2 ⟨n, hn, ha, Forest.parent?_eq_none.1 hi, rfl⟩
    refine ⟨⟨fun he => ?_, setRoot_refused hn⟩, fun ha => ?_, fun ha => ⟨taken ha, h.setRoot (taken ha)⟩⟩
    · by_contra ha
      rw [taken (by simpa using ha)] at he
      cases he
    · rw [setRoot_refused hn ha]
      rfl

/-- A sum over a difference with one operand, and beside it a number and a truth value that hang nowhere. -/
def spares : Tree where
  signature := ⟨none, .int, [], []⟩
  forest := ⟨[(4, .const (.bool true)), (3, .const (.int 5)), (2, .const (.int 1)), (1, .arithmetic .sub .int),
    (0, .arithmetic .add .int)], [⟨0, 1, 1⟩, ⟨1, 0, 2⟩], 5⟩
  root := some 0

/-- The number takes the place of the difference, and the truth value is refused there, and as the root. -/
theorem one_place_changes_spares : spares.Sound ∧
    (∃ t', spares.setChild 0 1 3 = .ok (some 1, t') ∧ spares.Slotted 0 1 3 t' ∧ t'.forest.preorder 1 = [1, 2]) ∧
    spares.setChild 0 1 4 = .error (.refused (.childTypeMismatch .int .bool)) ∧
    spares.after (spares.setChild 0 1 4) = some spares ∧
    spares.setRoot 3 = .ok (some 0, { spares with root := some 3 }) ∧
    spares.setRoot 4 = .error (.refused (.childTypeMismatch .int .bool)) ∧
    (spares.forest.child? 1 0 = some 2 ↔ spares.forest.parent? 2 = some (1, 0)) := by
  have hgrown : spares.Grown := by
    have nodes := (((((Grown.new ⟨none, .int, [], []⟩).add (.arithmetic .add .int)).add (.arithmetic .sub .int)).add
      (.const (.int 1))).add (.const (.int 5))).add (.const (.bool true))
    have inner := nodes.setChild (show Tree.after _ (Tree.setChild _ 1 0 2) = some _ from rfl)
    have outer := inner.setChild (show Tree.after _ (Tree.setChild _ 0 1 1) = some _ from rfl)
    exact outer.setRoot (i := 0) rfl
  have hsound := hgrown.sound
  obtain ⟨hchild, hroot, hagree⟩ := one_place_changes hsound
  obtain ⟨-, -, htaken⟩ := hchild 0 1 3 _ _ rfl rfl (by decide) rfl (by decide)
  obtain ⟨hrefused, hafter, -⟩ := hchild 0 1 4 _ _ rfl rfl (by decide) rfl (by decide)
  obtain ⟨t', hset, hslotted⟩ := htaken rfl
  have hends : spares.forest.Ends 1 := (hsound.forest.ends_of_top (i := 0) (by decide) (by decide)).of_reaches
    (.edge (e := ⟨0, 1, 1⟩) (by decide))
  refine ⟨hsound, ⟨t', hset, hslotted, ?_⟩, hrefused.2 rfl, hafter rfl, ((hroot 3 _ rfl rfl).2.2 rfl).1,
    (hroot 4 _ rfl rfl).1.2 rfl, hagree 1 0 2⟩
  rw [(hslotted.displaced 1 rfl).listed hends]
  decide

end Tree
end Grove
