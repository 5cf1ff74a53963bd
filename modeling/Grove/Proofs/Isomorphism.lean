import Grove.Proofs.Lockstep
import Grove.Proofs.Sorted
import Grove.Proofs.Validity

/-! Isomorphic trees. Two trees are isomorphic when the nodes that their roots reach can be paired so that a pair is
the same node twice and has paired children in the same slots; how the nodes are numbered, in which order edges were
made and what else is in the arenas does not count. Every traversal then sees the same in both. -/

namespace Grove

/-- What every tree keeps to, even one in which nodes were replaced by others: edges lead to nodes that are there, a
slot holds one child, and no node has two parents. -/
structure Forest.Placed (g : Forest) : Prop where
  live : ∀ e ∈ g.edges, e.child ∈ g.nodes.map (·.1)
  slots : (g.edges.map fun e => (e.parent, e.slot)).Nodup
  unshared : g.Unshared

structure Tree.Placed (t : Tree) : Prop where
  forest : t.forest.Placed
  root : ∀ i, t.root = some i → i ∈ t.forest.nodes.map (·.1)
  top : ∀ i, t.root = some i → ∀ e ∈ t.forest.edges, e.child ≠ i

/-- Paired nodes are the same, and their children in the same slots are paired. -/
def Forest.Matches (g g' : Forest) (R : NodeId → NodeId → Prop) : Prop :=
  ∀ i i', R i i' → g'.node? i' = g.node? i ∧ ∀ slot, Option.Rel R (g.child? i slot) (g'.child? i' slot)

structure Tree.Isomorphic (t t' : Tree) : Prop where
  signature : t'.signature = t.signature
  parts : ∃ R, t.forest.Matches t'.forest R ∧ Option.Rel R t.root t'.root

/-- The same promise broken. Where several edges lead beyond the slots of a node, any one of them may be named. -/
inductive Violation.Alike : Violation → Violation → Prop
  | refl (v : Violation) : Alike v v
  | beyond (slots slot slot' : Nat) : Alike (.edgeBeyondSlots slots slot) (.edgeBeyondSlots slots slot')

theorem Forest.Placed.steps_lt {g : Forest} (h : g.Placed) {i j : NodeId} {k : Nat} (hi : ¬ g.Loops i)
    (hlive : i ∈ g.nodes.map (·.1)) (hk : g.Steps i k j) : k < g.size := by
  refine h.unshared.steps_lt hi (fun j ⟨m, hm⟩ => ?_) hk
  rcases hm.last with ⟨-, rfl⟩ | ⟨-, e, -, he, rfl, -⟩
  · exact hlive
  · exact h.live e he

theorem Forest.Sound.placed {g : Forest} (h : g.Sound) : g.Placed := ⟨fun _ he => h.child_mem he, h.slots, h.unshared⟩

namespace Tree

variable {t t' : Tree}

theorem Sound.placed (h : t.Sound) : t.Placed where
  forest := h.forest.placed
  root _ hi := h.root_mem hi
  top i hi := by
    obtain ⟨-, -, -, htop⟩ := h.root i hi
    exact htop

theorem Placed.noDeeper (h : t.Placed) {i : NodeId} (hi : t.root = some i) :
    ∃ d < t.forest.size, t.forest.NoDeeper i d := by
  have hlt : ∀ k j, t.forest.Steps i k j → k < t.forest.size := fun _ _ =>
    h.forest.steps_lt (Forest.not_loops_of_top (h.top i hi)) (h.root i hi)
  exact ⟨_, Nat.sub_one_lt_of_lt (hlt 0 i .here), fun k j hs => Nat.le_sub_one_of_lt (hlt k j hs)⟩

end Tree

namespace Forest

variable {g g' : Forest} {R : NodeId → NodeId → Prop} {i i' : NodeId} {d room room' : Nat}

section Depth

/-- With room for the longest way down, more room shows nothing more. -/
theorem NoDeeper.shapeTo (h : g.NoDeeper i d) (hd : d < room) (hd' : d < room') :
    g.shapeTo room' i = g.shapeTo room i := by
  induction room generalizing i d room' with
  | zero => cases hd
  | succ room ih =>
    obtain ⟨room', rfl⟩ := Nat.exists_eq_add_one.2 (Nat.zero_lt_of_lt hd')
    cases hn : g.node? i with
    | none => rw [Forest.shapeTo, Forest.shapeTo, hn]
    | some n =>
      cases hf : g.flaw? i with
      | some why => simp only [Forest.shapeTo, hn, hf]
      | none =>
        rw [shapeTo_filled hn hf, shapeTo_filled hn hf]
        congr 1
        funext slot
        obtain ⟨c, hc⟩ := (flaw?_eq_none.1 hf).2 slot (by simp [Forest.arity, hn])
        have he := child?_mem hc
        obtain ⟨d, rfl⟩ := h.pos he
        rw [hc]
        exact ih (h.child he) (Nat.lt_of_succ_lt_succ hd) (Nat.lt_of_succ_lt_succ hd')

theorem mem_slotsInOrder {e : Edge} : e ∈ g.slotsInOrder i ↔ e ∈ g.edges ∧ e.parent = i := by
  rw [(g.slotsInOrder_perm i).mem_iff, mem_outgoing]

theorem NoDeeper.preorderTo (h : g.NoDeeper i d) (hd : d < room) (hd' : d < room') :
    g.preorderTo room' i = g.preorderTo room i := by
  induction room generalizing i d room' with
  | zero => cases hd
  | succ room ih =>
    obtain ⟨room', rfl⟩ := Nat.exists_eq_add_one.2 (Nat.zero_lt_of_lt hd')
    rw [Forest.preorderTo, Forest.preorderTo]
    congr 1
    refine List.flatMap_congr fun e he => ?_
    obtain ⟨hmem, rfl⟩ := mem_slotsInOrder.1 he
    obtain ⟨d, rfl⟩ := h.pos hmem
    exact ih (h.child hmem) (Nat.lt_of_succ_lt_succ hd) (Nat.lt_of_succ_lt_succ hd')

end Depth

section Slots

variable (h : g.Placed)
include h

theorem Placed.child?_eq_some {slot : Nat} {c : NodeId} : g.child? i slot = some c ↔ ⟨i, slot, c⟩ ∈ g.edges := by
  refine ⟨child?_mem, fun he => ?_⟩
  rw [child?, find?_eq_some_of_unique (a := ⟨i, slot, c⟩) (by simp) he fun e' he' hs => ?_]
  · rfl
  · obtain ⟨hp, hs⟩ : e'.parent = i ∧ e'.slot = slot := by simpa using hs
    exact List.inj_on_of_nodup_map h.slots he' he (Prod.ext hp hs)

theorem Placed.mem_slotsInOrder {e : Edge} :
    e ∈ g.slotsInOrder i ↔ e.parent = i ∧ g.child? i e.slot = some e.child := by
  rw [Forest.mem_slotsInOrder, h.child?_eq_some]
  constructor
  · rintro ⟨he, rfl⟩
    exact ⟨rfl, he⟩
  · rintro ⟨rfl, he⟩
    exact ⟨he, rfl⟩

theorem Placed.slotsInOrder_ascending (i : NodeId) : (g.slotsInOrder i).Pairwise fun a b => a.slot < b.slot := by
  refine sortBy_ascending Edge.slot ?_
  rw [List.map_reverse, List.nodup_reverse]
  have hslots : ((g.outgoing i).map fun e => (e.parent, e.slot)).Nodup := h.slots.sublist (List.filter_sublist.map _)
  have heq : ((g.outgoing i).map fun e => (e.parent, e.slot)) = ((g.outgoing i).map Edge.slot).map fun s => (i, s) := by
    rw [List.map_map]
    exact List.map_congr_left fun e he => Prod.ext (mem_outgoing.1 he).2 rfl
  exact (heq ▸ hslots).of_map

theorem Placed.mem_slots {slot : Nat} : slot ∈ (g.slotsInOrder i).map Edge.slot ↔ (g.child? i slot).isSome := by
  rw [List.mem_map, Option.isSome_iff_exists]
  constructor
  · rintro ⟨e, he, rfl⟩
    exact ⟨_, (h.mem_slotsInOrder.1 he).2⟩
  · rintro ⟨c, hc⟩
    exact ⟨⟨i, slot, c⟩, h.mem_slotsInOrder.2 ⟨rfl, hc⟩, rfl⟩

end Slots

section Matching

variable (hR : g.Matches g' R)
include hR

theorem Matches.arity (h : R i i') : g'.arity i' = g.arity i := by
  rw [Forest.arity, Forest.arity, (hR i i' h).1]

theorem Matches.child_isNone (h : R i i') (slot : Nat) : (g'.child? i' slot).isNone = (g.child? i slot).isNone := by
  have hc := (hR i i' h).2 slot
  generalize g.child? i slot = c at hc
  generalize g'.child? i' slot = c' at hc
  cases hc <;> rfl

omit hR in
theorem stray?_isNone : (g.stray? i).isNone ↔ ∀ slot, g.arity i ≤ slot → (g.child? i slot).isNone := by
  simp only [stray?, Option.isNone_iff_eq_none, List.find?_eq_none, mem_outgoing, child?_eq_none, decide_eq_true_eq]
  constructor
  · rintro h slot hs e he hp rfl
    exact h e ⟨he, hp⟩ hs
  · intro h e he hs
    exact h e.slot hs e he.1 he.2 rfl

/-- What keeps a traversal from going below a node does so in both forests. -/
theorem Matches.flaw? (h : R i i') : Option.Rel Violation.Alike (g.flaw? i) (g'.flaw? i') := by
  have hstray : (g'.stray? i').isNone = (g.stray? i).isNone := by
    rw [Bool.eq_iff_iff, stray?_isNone, stray?_isNone]
    simp only [hR.arity h, hR.child_isNone h]
  unfold Forest.flaw?
  rw [hR.arity h]
  cases hs : g.stray? i with
  | some e =>
    obtain ⟨e', hs'⟩ : ∃ e', g'.stray? i' = some e' := Option.isSome_iff_exists.1 (by simpa [hs] using hstray)
    rw [hs']
    exact .some (.beyond _ _ _)
  | none =>
    obtain hs' : g'.stray? i' = none := by simpa [hs] using hstray
    rw [hs']
    simp only [hR.child_isNone h]
    generalize (List.range (g.arity i)).find? _ = o
    cases o with
    | none => exact .none
    | some slot => exact .some (.refl _)

theorem Matches.shapeTo (h : R i i') (room : Nat) :
    (g.shapeTo room i).Alike Violation.Alike (g'.shapeTo room i') := by
  induction room generalizing i i' with
  | zero =>
    rw [Forest.shapeTo, Forest.shapeTo, (hR i i' h).1]
    exact .torn (.refl _)
  | succ room ih =>
    unfold Forest.shapeTo
    rw [(hR i i' h).1]
    cases hn : g.node? i with
    | none => exact .torn (.refl _)
    | some n =>
      have hflaw := hR.flaw? h
      dsimp only
      rcases hf : g.flaw? i with _ | why <;> rcases hf' : g'.flaw? i' with _ | why' <;> rw [hf, hf'] at hflaw <;>
        cases hflaw
      · simp only [tabulate_eq]
        refine .node fun slot => ih ?_
        have hchild := (hR i i' h).2 slot
        obtain ⟨c, hc⟩ := (flaw?_eq_none.1 hf).2 slot (by simp [Forest.arity, hn])
        rcases hc' : g'.child? i' slot with _ | c' <;> rw [hc, hc'] at hchild <;> cases hchild
        rwa [hc]
      · exact .torn ‹_›

theorem Matches.slots (hg : g.Placed) (hg' : g'.Placed) (h : R i i') :
    (g'.slotsInOrder i').map Edge.slot = (g.slotsInOrder i).map Edge.slot := by
  have ascending : ∀ {g : Forest} (_ : g.Placed) (i : NodeId), ((g.slotsInOrder i).map Edge.slot).Pairwise (· < ·) :=
    fun hg i => List.pairwise_map.2 (hg.slotsInOrder_ascending i)
  have nodup : ∀ {g : Forest} (_ : g.Placed) (i : NodeId), ((g.slotsInOrder i).map Edge.slot).Nodup :=
    fun hg i => (ascending hg i).imp Nat.ne_of_lt
  refine ((List.perm_ext_iff_of_nodup (nodup hg' i') (nodup hg i)).2 fun slot => ?_).eq_of_pairwise
    (fun a b _ _ hab hba => absurd hba (Nat.lt_asymm hab)) (ascending hg' i') (ascending hg i)
  rw [hg'.mem_slots, hg.mem_slots, ← Option.not_isNone, ← Option.not_isNone, hR.child_isNone h]

theorem Matches.slotsInOrder (hg : g.Placed) (hg' : g'.Placed) (h : R i i') :
    List.Forall₂ (fun e e' => R e.child e'.child) (g.slotsInOrder i) (g'.slotsInOrder i') := by
  have hslots := hR.slots hg hg' h
  have hsame : List.Forall₂ (fun e e' => e'.slot = e.slot) (g.slotsInOrder i) (g'.slotsInOrder i') := by
    rw [← List.forall₂_eq_eq_eq, List.forall₂_map_left_iff, List.forall₂_map_right_iff] at hslots
    exact hslots.flip
  obtain ⟨hlen, hzip⟩ := List.forall₂_iff_zip.1 hsame
  refine List.forall₂_iff_zip.2 ⟨hlen, fun {e e'} hz => ?_⟩
  have heq : e'.slot = e.slot := hzip hz
  obtain ⟨-, hc⟩ := hg.mem_slotsInOrder.1 (List.of_mem_zip hz).1
  obtain ⟨-, hc'⟩ := hg'.mem_slotsInOrder.1 (List.of_mem_zip hz).2
  have hchild := (hR i i' h).2 e.slot
  rw [hc, ← heq, hc'] at hchild
  cases hchild with
  | some h => exact h

theorem Matches.preorderTo (hg : g.Placed) (hg' : g'.Placed) (h : R i i') (room : Nat) :
    List.Forall₂ R (g.preorderTo room i) (g'.preorderTo room i') := by
  induction room generalizing i i' with
  | zero => exact .cons h .nil
  | succ room ih =>
    exact .cons h (List.rel_flatMap (hR.slotsInOrder hg hg' h) fun _ _ hc => ih hc)

end Matching

/-- Where the edges below a node are the same, and the nodes too, so is its pre-order. -/
theorem Placed.preorderTo_congr (hg : g.Placed) (hg' : g'.Placed) (hnode : g'.node? = g.node?)
    (hedges : ∀ e : Edge, g.Reaches i e.parent → (e ∈ g'.edges ↔ e ∈ g.edges)) (room : Nat) :
    g'.preorderTo room i = g.preorderTo room i := by
  have hmatch : g.Matches g' fun j j' => j = j' ∧ g.Reaches i j := by
    rintro j _ ⟨rfl, hj⟩
    refine ⟨congrFun hnode j, fun slot => ?_⟩
    have hsame : g'.child? j slot = g.child? j slot := Option.ext fun c => by
      rw [hg'.child?_eq_some, hg.child?_eq_some, hedges ⟨j, slot, c⟩ hj]
    rw [hsame]
    cases hc : g.child? j slot with
    | none => exact .none
    | some c => exact .some ⟨rfl, hj.down (child?_mem hc)⟩
  have hlists := hmatch.preorderTo hg hg' ⟨rfl, .refl g i⟩ room
  have heq : List.Forall₂ (· = ·) (g.preorderTo room i) (g'.preorderTo room i) := hlists.imp fun _ _ h => h.1
  rw [List.forall₂_eq_eq_eq] at heq
  exact heq.symm

end Forest

namespace Tree.Isomorphic

variable {t t' : Tree} (h : t.Isomorphic t') (ht : t.Placed) (ht' : t'.Placed)
include h

theorem roots : t.root = none ∧ t'.root = none ∨
    ∃ R i i', t.root = some i ∧ t'.root = some i' ∧ t.forest.Matches t'.forest R ∧ R i i' := by
  obtain ⟨R, hR, hroot⟩ := h.parts
  rcases hi : t.root with _ | i <;> rcases hi' : t'.root with _ | i' <;> rw [hi, hi'] at hroot <;> cases hroot
  · exact .inl ⟨rfl, rfl⟩
  · exact .inr ⟨R, i, i', rfl, rfl, hR, ‹_›⟩

include ht ht'

theorem shape? : Option.Rel (Shape.Alike Violation.Alike) t.shape? t'.shape? := by
  unfold Tree.shape?
  obtain ⟨hi, hi'⟩ | ⟨R, i, i', hi, hi', hR, hii'⟩ := h.roots <;> rw [hi, hi']
  · exact .none
  · obtain ⟨d, hd, hdeep⟩ := ht.noDeeper hi
    obtain ⟨d', hd', hdeep'⟩ := ht'.noDeeper hi'
    -- both forests are seen with room for either
    have hroom := hR.shapeTo hii' (max t.forest.size t'.forest.size)
    rw [hdeep.shapeTo hd (Nat.lt_of_lt_of_le hd (Nat.le_max_left _ _)),
      hdeep'.shapeTo hd' (Nat.lt_of_lt_of_le hd' (Nat.le_max_right _ _))] at hroom
    exact .some hroom

theorem nodes : t'.nodes.map t'.forest.node? = t.nodes.map t.forest.node? := by
  unfold Tree.nodes
  obtain ⟨hi, hi'⟩ | ⟨R, i, i', hi, hi', hR, hii'⟩ := h.roots <;> rw [hi, hi']
  · rfl
  · obtain ⟨d, hd, hdeep⟩ := ht.noDeeper hi
    obtain ⟨d', hd', hdeep'⟩ := ht'.noDeeper hi'
    have hroom := hR.preorderTo ht.forest ht'.forest hii' (max t.forest.size t'.forest.size)
    rw [hdeep.preorderTo hd (Nat.lt_of_lt_of_le hd (Nat.le_max_left _ _)),
      hdeep'.preorderTo hd' (Nat.lt_of_lt_of_le hd' (Nat.le_max_right _ _))] at hroom
    rw [Option.elim_some, Option.elim_some, Forest.preorder, Forest.preorder, ← List.forall₂_eq_eq_eq,
      List.forall₂_map_left_iff, List.forall₂_map_right_iff]
    exact (hroom.imp fun i i' hii' => (hR i i' hii').1).flip

theorem sameProgram : t.SameProgram Violation.Alike t' := ⟨by rw [h.signature], h.shape? ht ht'⟩

end Tree.Isomorphic

theorem Tree.Alike.isomorphic {t t' : Tree} (h : t.Alike t') : t.Isomorphic t' := by
  obtain ⟨hsig, e, ⟨s, hs, hd⟩, ⟨s', hs', hd'⟩⟩ := h
  obtain ⟨i, hi, rfl⟩ := Option.map_eq_some_iff.1 hs
  obtain ⟨i', hi', rfl⟩ := Option.map_eq_some_iff.1 hs'
  refine ⟨hsig.symm, fun i i' => ∃ e room room', (t.forest.shapeTo room i).Denotes e ∧
    (t'.forest.shapeTo room' i').Denotes e, fun i i' ⟨e, room, room', hd, hd'⟩ => ⟨?_, fun slot => ?_⟩,
    by rw [hi, hi']; exact .some ⟨e, _, _, hd, hd'⟩⟩
  · rw [Forest.label_of_denotes hd, Forest.label_of_denotes hd']
  · obtain ⟨_, n, kids, rfl, rfl, -, hout, -, hkids⟩ := Forest.shapeTo_denotes hd
    obtain ⟨_, n', kids', rfl, heq, -, hout', -, hkids'⟩ := Forest.shapeTo_denotes hd'
    cases heq
    by_cases hslot : slot < n.arity
    · obtain ⟨c, hc, hkid⟩ := hkids ⟨slot, hslot⟩
      obtain ⟨c', hc', hkid'⟩ := hkids' ⟨slot, hslot⟩
      rw [show t.forest.child? i slot = some c from hc, show t'.forest.child? i' slot = some c' from hc']
      exact .some ⟨_, _, _, hkid, hkid'⟩
    · have none : ∀ {g : Forest} {i : NodeId}, (∀ e ∈ g.edges, e.parent = i → e.slot < n.arity) →
          g.child? i slot = Option.none := fun hb => Forest.child?_eq_none.2 fun e he hp hs => hslot (hs ▸ hb e he hp)
      rw [none hout, none hout']
      exact .none

end Grove
