import Grove.Crossover
import Grove.Proofs.Transplant

/-! Subtrees that change places. What is cut out below a complete root is whole, and where it hung another subtree can
be put that is accepted there. So two trees can exchange subtrees that are accepted in each other's place; between
trees of one signature nothing has to be adapted. -/

namespace Grove

/-- The subtree at a node, cut loose from its parent. -/
def Forest.severed (g : Forest) (i : NodeId) : Subtree := (g.unlink i).cutting i

def Forest.uprooted (g : Forest) (i : NodeId) : Forest := (g.unlink i).without ((g.unlink i).preorder i)

namespace Forest

variable {g g' : Forest} {s : Subtree} {r i j p : NodeId} {slot k d : Nat} {e : Edge}

theorem Sound.uprooted (h : g.Sound) (i : NodeId) : (g.uprooted i).Sound := (h.unlink i).without _

namespace Severable

variable (h : g.Severable i)
include h

theorem unlink_iff (he : g.Reaches i e.parent) : e ∈ (g.unlink i).edges ↔ e ∈ g.edges := by
  rw [h.sound.unshared.mem_unlink, and_iff_left_of_imp]
  rintro hm rfl
  obtain ⟨k, hk⟩ := he
  exact h.not_loops ⟨k, hk.down hm⟩

theorem preorder_unlink : ((g.unlink i).preorder i).Nodup ∧ ∀ j, j ∈ (g.unlink i).preorder i ↔ g.Reaches i j := by
  have hs := h.sound.unlink i
  have htop : ∀ e ∈ (g.unlink i).edges, e.child ≠ i := fun e he => (h.sound.unshared.mem_unlink.1 he).2
  have hlive : (g.unlink i).node? i ≠ none := Option.ne_none_iff_exists'.2 (mem_numbers.1 h.live)
  obtain ⟨hnodup, hmem⟩ := hs.preorder hlive (hs.ends_of_top h.live htop)
  exact ⟨hnodup, fun j => (hmem j).trans (reaches_congr fun e he => h.unlink_iff he)⟩

theorem mem_severed : e ∈ (g.severed i).forest.edges ↔ e ∈ g.edges ∧ g.Reaches i e.parent := by
  rw [severed, Forest.cutting, mem_restrict, h.preorder_unlink.2]
  exact and_congr_left fun he => h.unlink_iff he

theorem node?_severed {n : Node} :
    (g.severed i).forest.node? j = some n ↔ g.Reaches i j ∧ g.node? j = some n := by
  rw [severed, Forest.cutting, node?_restrict]
  by_cases hj : g.Reaches i j
  · rw [if_pos ((h.preorder_unlink.2 j).2 hj)]
    exact (and_iff_right hj).symm
  · rw [if_neg fun hm => hj ((h.preorder_unlink.2 j).1 hm)]
    exact ⟨nofun, fun hm => absurd hm.1 hj⟩

theorem steps_severed : (g.severed i).forest.Steps i k j ↔ g.Steps i k j :=
  steps_congr fun _ he => h.mem_severed.trans (and_iff_left he)

theorem noDeeper_severed (hd : g.NoDeeper i d) : (g.severed i).forest.NoDeeper i d :=
  fun k j hs => hd k j (h.steps_severed.1 hs)

theorem mem_uprooted :
    e ∈ (g.uprooted i).edges ↔ e ∈ g.edges ∧ ¬ g.Reaches i e.child := by
  rw [uprooted, mem_without, h.sound.unshared.mem_unlink, h.preorder_unlink.2, h.preorder_unlink.2]
  constructor
  · rintro ⟨⟨he, -⟩, -, hc⟩
    exact ⟨he, hc⟩
  · rintro ⟨he, hc⟩
    exact ⟨⟨he, fun heq => hc (heq ▸ .refl g i)⟩, fun hp => hc (hp.down he), hc⟩

theorem node?_uprooted (hj : ¬ g.Reaches i j) : (g.uprooted i).node? j = g.node? j := by
  rw [uprooted, node?_without, if_neg fun hm => hj ((h.preorder_unlink.2 j).1 hm)]
  rfl

theorem node?_uprooted_gone (hj : g.Reaches i j) : (g.uprooted i).node? j = none := by
  rw [uprooted, node?_without, if_pos ((h.preorder_unlink.2 j).2 hj)]

theorem mem_uprooted_graft : e ∈ ((g.uprooted i).graft s).2.edges ↔
    (e ∈ g.edges ∧ ¬ g.Reaches i e.child) ∨ ∃ e' ∈ s.forest.edges, e'.shift g.fresh = e := by
  rw [mem_graft, h.mem_uprooted]
  rfl

theorem transplanted_of_nodes (hg' : g'.Sound) (hnode : g'.node? = ((g.uprooted i).graft s).2.node?)
    (hedges : ∀ e, e ∈ g'.edges ↔ (e ∈ g.edges ∧ ¬ g.Reaches i e.child) ∨
      (∃ e' ∈ s.forest.edges, e'.shift g.fresh = e) ∨
      ∃ p slot, ⟨p, slot, i⟩ ∈ g.edges ∧ e = ⟨p, slot, s.root + g.fresh⟩) :
    g.Transplanted i s g' := by
  have hu := h.sound.uprooted i
  refine ⟨hg', fun j => ?_, fun j hj hreach => ?_, fun j hj hreach => ?_, hedges⟩
  · rw [hnode]
    exact hu.node?_graft_moved s j
  · rw [hnode, hu.node?_graft_old s hj, h.node?_uprooted hreach]
  · rw [hnode, hu.node?_graft_old s hj, h.node?_uprooted_gone hreach]

theorem transplanted_top (hs : s.forest.Sound) (htop : ∀ e ∈ g.edges, e.child ≠ i) :
    g.Transplanted i s ((g.uprooted i).graft s).2 := by
  refine h.transplanted_of_nodes ((h.sound.uprooted i).graft hs) rfl fun e => ?_
  rw [h.mem_uprooted_graft, ← or_assoc]
  exact (or_iff_left fun ⟨p, slot, he, _⟩ => htop _ he rfl).symm

/-- The slot of an inner node that was uprooted is free, and a subtree that is grafted does not fill it. -/
theorem slot_free (he : ⟨p, slot, i⟩ ∈ g.edges) (hm : e ∈ ((g.uprooted i).graft s).2.edges) :
    ¬ (e.parent = p ∧ e.slot = slot) := by
  rintro ⟨hep, hes⟩
  rcases h.mem_uprooted_graft.1 hm with ⟨hold, hout⟩ | ⟨e', -, rfl⟩
  · obtain rfl := h.sound.edge_eq_of_slot hold he hep hes
    exact hout (.refl g _)
  · exact h.sound.ne_moved (h.sound.parent_mem he) _ hep

theorem transplanted_slot (hs : s.forest.Sound) (hroot : s.root ∈ s.forest.nodes.map (·.1))
    (htop : ∀ e ∈ s.forest.edges, e.child ≠ s.root) (he : ⟨p, slot, i⟩ ∈ g.edges) (hwelcome : g.Welcomes i s) :
    ∃ g', ((g.uprooted i).graft s).2.setChild p slot (s.root + g.fresh) = .ok (none, g') ∧ g.Transplanted i s g' := by
  have hu := h.sound.uprooted i
  have hg := hu.graft hs
  have hp := h.sound.fresh p (h.sound.parent_mem he)
  have hfits : ((g.uprooted i).graft s).2.Fits ⟨p, slot, s.root + g.fresh⟩ := by
    refine h.sound.fits_place he hroot hwelcome ?_ (hu.node?_graft_moved s s.root)
    rw [hu.node?_graft_old s hp, h.node?_uprooted (h.not_reaches_parent he)]
  have hnone : ((g.uprooted i).graft s).2.child? p slot = none :=
    child?_eq_none.2 fun e hm hp hs => h.slot_free he hm ⟨hp, hs⟩
  have hset := setChild_ok.2 ⟨hfits, hu.graft_loose htop, rfl⟩
  have hsound := hg.setChild hset
  rw [hnone] at hset
  refine ⟨_, hset, h.transplanted_of_nodes hsound (node?_vacate _ p slot) fun e => ?_⟩
  have hlast : (∃ p' slot', ⟨p', slot', i⟩ ∈ g.edges ∧ e = ⟨p', slot', s.root + g.fresh⟩) ↔
      e = ⟨p, slot, s.root + g.fresh⟩ := by
    constructor
    · rintro ⟨p', slot', he', rfl⟩
      cases h.sound.unshared.edge_eq he' he rfl
      rfl
    · exact fun heq => ⟨p, slot, he, heq⟩
  change e ∈ (_ :: _) ↔ _
  rw [List.mem_cons, hg.mem_vacate, and_iff_left_of_imp (h.slot_free he), h.mem_uprooted_graft, hlast, or_comm,
    or_assoc]

end Severable

theorem Severable.severed (h : g.Severable i) : (g.severed i).forest.Sound ∧ i ∈ (g.severed i).forest.nodes.map (·.1) ∧
    ∀ e ∈ (g.severed i).forest.edges, e.child ≠ i := by
  obtain ⟨hnodup, hmem⟩ := h.preorder_unlink
  refine ⟨(h.sound.unlink i).restrict hnodup fun e he hp => ?_, ?_, fun e he hc => ?_⟩
  · rw [hmem] at hp ⊢
    exact hp.down ((h.unlink_iff hp).1 he)
  · obtain ⟨n, hn⟩ := mem_numbers.1 h.live
    exact mem_numbers.2 ⟨n, h.node?_severed.2 ⟨.refl g i, hn⟩⟩
  · obtain ⟨he, k, hk⟩ := h.mem_severed.1 he
    exact h.not_loops ⟨k, hc ▸ hk.down he⟩

theorem Severable.spans_severed (h : g.Severable i) (hj : j ∈ (g.severed i).forest.nodes.map (·.1)) :
    (g.severed i).forest.Reaches i j := by
  obtain ⟨n, hn⟩ := mem_numbers.1 hj
  obtain ⟨⟨k, hk⟩, -⟩ := h.node?_severed.1 hn
  exact ⟨k, h.steps_severed.2 hk⟩

theorem Full.severed (hf : g.Full r) (hr : g.Reaches r i) : (g.severed i).forest.Whole i := by
  have h := hf.severable hr
  obtain ⟨hsound, hlive, htop⟩ := h.severed
  refine ⟨hsound, hlive, htop, fun j hj => h.spans_severed hj, fun j n hn slot hslot => ?_⟩
  obtain ⟨hreach, hn⟩ := h.node?_severed.1 hn
  obtain ⟨c, hc⟩ := hf.filled j n (hr.trans hreach) hn slot hslot
  exact ⟨c, h.mem_severed.2 ⟨hc, hreach⟩⟩

end Forest

section Adapting

variable {s : Subtree} {sig : Signature}

theorem Node.adapt_remap {n : Node} (h : n.fits sig = true) : n.adapt Node.remap sig = n := by
  cases n with
  | localVariable ty index => exact if_pos h
  | _ => rfl

/-- What the adapter does to a local variable is to give it another number. -/
def Adapter.Renumbers (f : Adapter) : Prop :=
  ∀ sig ty index, ∃ index', f sig (.localVariable ty index) = .localVariable ty index'

theorem Adapter.remap_renumbers : Adapter.Renumbers Node.remap := by
  intro sig ty index
  unfold Node.remap
  dsimp only
  split
  · exact ⟨_, rfl⟩
  · exact ⟨_, rfl⟩

theorem Adapter.Renumbers.adapt {f : Adapter} (hf : Adapter.Renumbers f) (sig : Signature) (n : Node) :
    (n.adapt f sig).returns = n.returns ∧ (n.adapt f sig).arity = n.arity ∧ (n.adapt f sig).slotType = n.slotType := by
  cases n with
  | localVariable ty index =>
    obtain ⟨index', h⟩ := hf sig ty index
    rw [Node.adapt, h]
    exact ⟨rfl, rfl, rfl⟩
  | _ => exact ⟨rfl, rfl, rfl⟩

theorem lookup_map_values {α β : Type} [BEq α] (f : β → β) (l : List (α × β)) (i : α) :
    (l.map fun e => (e.1, f e.2)).lookup i = (l.lookup i).map f := by
  induction l with
  | nil => rfl
  | cons e l ih =>
    rw [List.map_cons, List.lookup_cons, List.lookup_cons, ih]
    split <;> rfl

theorem Forest.Whole.nodes_adapt (h : s.forest.Whole s.root) (f : Adapter) (sig : Signature) :
    (s.adapt f sig).forest.nodes = s.forest.nodes.map fun e => (e.1, e.2.adapt f sig) :=
  List.map_congr_left fun _ he => if_pos (h.mem_preorder.2 (List.mem_map_of_mem he))

theorem Forest.Whole.node?_adapt (h : s.forest.Whole s.root) (f : Adapter) (sig : Signature) (i : NodeId) :
    (s.adapt f sig).forest.node? i = (s.forest.node? i).map (·.adapt f sig) := by
  rw [Forest.node?, h.nodes_adapt, lookup_map_values, Forest.node?]

theorem Subtree.numbers_adapt (s : Subtree) (f : Adapter) (sig : Signature) :
    (s.adapt f sig).forest.nodes.map (·.1) = s.forest.nodes.map (·.1) := by
  rw [Subtree.adapt, List.map_map]
  refine List.map_congr_left fun e _ => ?_
  simp only [Function.comp_apply]
  split <;> rfl

theorem Subtree.steps_adapt (s : Subtree) (f : Adapter) (sig : Signature) {i j : NodeId} {k : Nat} :
    (s.adapt f sig).forest.Steps i k j ↔ s.forest.Steps i k j :=
  Forest.steps_congr fun _ _ => Iff.rfl

theorem Forest.Whole.adapt {f : Adapter} (h : s.forest.Whole s.root) (hf : f.Renumbers) (sig : Signature) :
    (s.adapt f sig).forest.Whole (s.adapt f sig).root := by
  have hnumbers := s.numbers_adapt f sig
  have hsound : (s.adapt f sig).forest.Sound := by
    refine ⟨hnumbers ▸ h.sound.numbers, hnumbers ▸ h.sound.fresh, fun e he => ?_, h.sound.slots, h.sound.unshared⟩
    obtain ⟨p, c, hp, hc, hslot, ha⟩ := h.sound.fits e he
    obtain ⟨-, harity, hslots⟩ := hf.adapt sig p
    refine ⟨p.adapt f sig, c.adapt f sig, ?_, ?_, ?_, ?_⟩
    · rw [h.node?_adapt, hp, Option.map_some]
    · rw [h.node?_adapt, hc, Option.map_some]
    · rwa [harity]
    · rwa [hslots, (hf.adapt sig c).1]
  refine ⟨hsound, hnumbers ▸ h.root, h.top, fun i hi => ?_, fun i n hn slot hslot => ?_⟩
  · obtain ⟨k, hk⟩ := h.spans i (hnumbers ▸ hi)
    exact ⟨k, (s.steps_adapt f sig).2 hk⟩
  · rw [h.node?_adapt, Option.map_eq_some_iff] at hn
    obtain ⟨m, hm, rfl⟩ := hn
    rw [(hf.adapt sig m).2.1] at hslot
    exact h.filled i m hm slot hslot

theorem Subtree.Within.adapt_remap {height : Nat} (h : s.Within sig height) : s.adapt Node.remap sig = s := by
  have hnodes : (s.forest.nodes.map fun e =>
      if e.1 ∈ s.forest.preorder s.root then (e.1, e.2.adapt Node.remap sig) else e) = s.forest.nodes := by
    refine (List.map_congr_left fun e he => ?_).trans (List.map_id _)
    rw [Node.adapt_remap (h.declared e.1 e.2 (h.whole.sound.mem_nodes.1 he)), ite_self]
    rfl
  rw [Subtree.adapt, hnodes]

end Adapting

namespace Tree

variable {a b t : Tree} {sig : Signature} {maxDepth : Nat} {s : Subtree} {r i j : NodeId} {m n : Node}

/-- The root is complete below, and nothing leads to it. Other nodes may hang nowhere. -/
structure Upright (t : Tree) (r : NodeId) : Prop where
  root : t.root = some r
  full : t.forest.Full r

theorem Standing.upright (h : t.Standing r) : t.Upright r := ⟨h.root, h.whole.full⟩

/-- A node's subtree, cut out and put in the terms of a signature. -/
def cutFor (f : Adapter) (sig : Signature) (t : Tree) (i : NodeId) : Subtree := (t.forest.severed i).adapt f sig

section Upright

variable {f : Adapter} {ra rb : NodeId} {ty tyA tyB : Ty}

theorem landing_total (h : t.forest.Sound) (i : NodeId) : ∃ ty, t.landing i = .ok ty := by
  unfold Tree.landing
  cases hp : t.forest.parent? i with
  | none => exact ⟨_, rfl⟩
  | some place =>
    obtain ⟨p, slot⟩ := place
    obtain ⟨parent, c, hparent, hc, hslot, ha⟩ :=
      h.fits _ ((Forest.parent?_eq_some h.unshared).1 hp)
    dsimp only at hparent hslot ⊢
    rw [hparent]
    exact ⟨_, Node.childType_ok.2 ⟨hslot, rfl⟩⟩

theorem landing_slot {p slot : Nat} {parent : Node} (hu : t.forest.Unshared) (he : ⟨p, slot, i⟩ ∈ t.forest.edges)
    (hp : t.forest.node? p = some parent) (hty : t.landing i = .ok ty) : parent.slotType slot = ty := by
  unfold Tree.landing at hty
  rw [(Forest.parent?_eq_some hu).2 he] at hty
  dsimp only at hty
  rw [hp] at hty
  exact (Node.childType_ok.1 hty).2

theorem Standing.landing (h : t.Standing r) (hn : t.forest.node? i = some n) :
    ∃ ty, t.landing i = .ok ty ∧ ty.accepts n.returns = true := by
  have hi := h.whole.spans i (Forest.mem_numbers.2 ⟨n, hn⟩)
  obtain ⟨ty, hty⟩ := landing_total h.whole.sound i
  refine ⟨ty, hty, ?_⟩
  cases hp : t.forest.parent? i with
  | none =>
    obtain rfl := (h.whole.full.parent?_eq_none_iff hi).1 hp
    rw [Tree.landing, hp] at hty
    exact Except.ok.inj hty ▸ h.accepted n hn
  | some place =>
    obtain ⟨p, slot⟩ := place
    have he := (Forest.parent?_eq_some h.whole.sound.unshared).1 hp
    obtain ⟨parent, c, hparent, hc, -, ha⟩ := h.whole.sound.fits _ he
    obtain rfl := Option.some.inj (hn.symm.trans hc)
    rwa [landing_slot h.whole.sound.unshared he hparent hty] at ha

theorem uproot_eq (t : Tree) (i : NodeId) : t.uproot i =
    (t.forest.parent? i, t.forest.severed i, ⟨t.signature, t.forest.uprooted i, t.rootWithout i⟩) := rfl

/-- A tree where a node was uprooted, with a subtree grafted to it that nothing leads to yet. -/
def grafted (t : Tree) (i : NodeId) (s : Subtree) : Tree :=
  ⟨t.signature, ((t.forest.uprooted i).graft s).2, t.rootWithout i⟩

theorem Upright.welcomes (h : t.Upright r) (hm : s.forest.node? s.root = some m) (hty : t.landing i = .ok ty)
    (ha : ty.accepts m.returns = true) : t.forest.Welcomes i s := by
  intro p slot parent m' he hparent hm'
  obtain rfl := Option.some.inj (hm.symm.trans hm')
  rwa [landing_slot h.full.sound.unshared he hparent hty]

theorem Upright.attach_root (h : t.Upright r) (hs : s.forest.Whole s.root) (hm : s.forest.node? s.root = some m)
    (ha : t.signature.returns.accepts m.returns = true) : ∃ g', t.forest.Transplanted r s g' ∧
      (t.grafted r s).attach none (s.root + t.forest.fresh) =
        .ok ⟨t.signature, g', some (t.forest.rootAfter r r s)⟩ := by
  have ht := (h.full.severable (.refl _ r)).transplanted_top hs.sound h.full.top
  have htop := ht.top h.full hs
  rw [Forest.rootAfter, if_pos rfl] at htop
  have hset : (t.grafted r s).setRoot (s.root + t.forest.fresh) = .ok _ :=
    setRoot_ok.2 ⟨m, (ht.moved s.root).trans hm, ha, htop, rfl⟩
  refine ⟨_, ht, ?_⟩
  change ((t.grafted r s).setRoot (s.root + t.forest.fresh) >>= fun x => pure x.2) = _
  rw [hset, Forest.rootAfter, if_pos rfl]
  rfl

theorem Upright.attach_slot {p slot : Nat} (h : t.Upright r) (hi : t.forest.Reaches r i) (hs : s.forest.Whole s.root)
    (he : ⟨p, slot, i⟩ ∈ t.forest.edges) (hw : t.forest.Welcomes i s) : ∃ g', t.forest.Transplanted i s g' ∧
      (t.grafted i s).attach (some (p, slot)) (s.root + t.forest.fresh) =
        .ok ⟨t.signature, g', some (t.forest.rootAfter r i s)⟩ := by
  obtain ⟨g', hslot, ht⟩ := (h.full.severable hi).transplanted_slot hs.sound hs.root hs.top he hw
  have hir : i ≠ r := h.full.top _ he
  have hroot : (t.grafted i s).root = some r := by
    simp [grafted, rootWithout, h.root, Ne.symm hir]
  have hnew : (t.grafted i s).root ≠ some (s.root + t.forest.fresh) := by
    rw [hroot]
    intro heq
    exact h.full.sound.ne_moved h.full.root _ (Option.some.inj heq).symm
  have hset : (t.grafted i s).setChild p slot (s.root + t.forest.fresh) = .ok _ := setChild_ok.2 ⟨hnew, _, hslot, rfl⟩
  refine ⟨_, ht, ?_⟩
  change ((t.grafted i s).setChild p slot (s.root + t.forest.fresh) >>= fun x => pure x.2) = _
  rw [hset, Forest.rootAfter, if_neg hir, hroot]
  rfl

theorem Upright.attach (h : t.Upright r) (hi : t.forest.Reaches r i) (hs : s.forest.Whole s.root)
    (hm : s.forest.node? s.root = some m) (hty : t.landing i = .ok ty) (ha : ty.accepts m.returns = true) :
    ∃ g', t.forest.Transplanted i s g' ∧
      ((t.uproot i).2.2.graft s).2.attach (t.uproot i).1 ((t.uproot i).2.2.graft s).1 =
        .ok ⟨t.signature, g', some (t.forest.rootAfter r i s)⟩ := by
  rw [uproot_eq]
  cases hp : t.forest.parent? i with
  | none =>
    obtain rfl := (h.full.parent?_eq_none_iff hi).1 hp
    rw [Tree.landing, hp] at hty
    exact h.attach_root hs hm (Except.ok.inj hty ▸ ha)
  | some place =>
    exact h.attach_slot hi hs ((Forest.parent?_eq_some h.full.sound.unshared).1 hp) (h.welcomes hm hty ha)

theorem Upright.whole_cutFor (h : t.Upright r) (hi : t.forest.Reaches r i) (hf : f.Renumbers) (sig : Signature) :
    (t.cutFor f sig i).forest.Whole (t.cutFor f sig i).root :=
  (h.full.severed hi).adapt hf sig

theorem Upright.node?_cutFor (h : t.Upright r) (hi : t.forest.Reaches r i) (f : Adapter) (sig : Signature)
    {j : NodeId} :
    (t.cutFor f sig i).forest.node? j = some n ↔
      t.forest.Reaches i j ∧ ∃ m, t.forest.node? j = some m ∧ m.adapt f sig = n := by
  rw [cutFor, (h.full.severed hi).node?_adapt, Option.map_eq_some_iff]
  simp only [(h.full.severable hi).node?_severed, and_assoc, exists_and_left]

theorem checkLanding_ok (hty : t.landing i = .ok ty) (ha : ty.accepts n.returns = true) : t.checkLanding i n = .ok () :=
  Result.bind_ok.2 ⟨ty, Result.liftViolation_ok.2 hty, Result.liftError_ok.2 (checkSlot_ok.2 ha)⟩

/-- Two trees exchange subtrees that are accepted in each other's place, each in the terms of its new tree. -/
theorem Upright.exchange (hta : a.Upright ra) (htb : b.Upright rb) (hi : a.forest.Reaches ra i)
    (hj : b.forest.Reaches rb j) (hf : f.Renumbers) (hm : a.forest.node? i = some m) (hn : b.forest.node? j = some n)
    (htyA : a.landing i = .ok tyA) (htyB : b.landing j = .ok tyB) (hA : tyA.accepts n.returns = true)
    (hB : tyB.accepts m.returns = true) : ∃ ga gb,
      a.forest.Transplanted i (b.cutFor f a.signature j) ga ∧ b.forest.Transplanted j (a.cutFor f b.signature i) gb ∧
      a.exchange f i b j = (.ok (), ⟨a.signature, ga, some (a.forest.rootAfter ra i (b.cutFor f a.signature j))⟩,
        ⟨b.signature, gb, some (b.forest.rootAfter rb j (a.cutFor f b.signature i))⟩) := by
  have hcutB : (b.cutFor f a.signature j).forest.node? j = some (n.adapt f a.signature) :=
    (htb.node?_cutFor hj f _).2 ⟨.refl _ j, n, hn, rfl⟩
  have hcutA : (a.cutFor f b.signature i).forest.node? i = some (m.adapt f b.signature) :=
    (hta.node?_cutFor hi f _).2 ⟨.refl _ i, m, hm, rfl⟩
  obtain ⟨ga, htA, hattachA⟩ := hta.attach hi (htb.whole_cutFor hj hf _) hcutB htyA (by rwa [(hf.adapt _ n).1])
  obtain ⟨gb, htB, hattachB⟩ := htb.attach hj (hta.whole_cutFor hi hf _) hcutA htyB (by rwa [(hf.adapt _ m).1])
  refine ⟨ga, gb, htA, htB, ?_⟩
  unfold Tree.exchange
  rw [hm, hn]
  dsimp only
  rw [checkLanding_ok htyA hA, checkLanding_ok htyB hB]
  dsimp only
  simp only [uproot_eq, cutFor] at hattachA hattachB ⊢
  rw [hattachA]
  dsimp only
  rw [hattachB]

end Upright

theorem Rooted.severed {height : Nat} (h : t.Rooted sig maxDepth r) (hi : i ∈ t.forest.nodes.map (·.1))
    (hheight : t.forest.NoDeeper i height) : (t.forest.severed i).Within sig height where
  whole := h.whole.full.severed (h.whole.spans i hi)
  declared j n hn := h.declared j n ((h.whole.severable hi).node?_severed.1 hn).2
  shallow := (h.whole.severable hi).noDeeper_severed hheight

theorem Standing.noDeeper_cutFor {height : Nat} (h : t.Standing r) (hi : i ∈ t.forest.nodes.map (·.1))
    (hheight : t.forest.NoDeeper i height) (f : Adapter) (sig : Signature) :
    (t.cutFor f sig i).forest.NoDeeper (t.cutFor f sig i).root height :=
  fun k j hs => (h.whole.severable hi).noDeeper_severed hheight k j ((Subtree.steps_adapt _ _ _).1 hs)

theorem Standing.suits_cutFor {f : Adapter} (hb : b.Standing r) (hf : f.Renumbers) (hm : a.forest.node? i = some m)
    (hn : b.forest.node? j = some n) (hret : n.returns = m.returns) (sig : Signature) :
    a.forest.Suits i (b.cutFor f sig j) := by
  intro m' n' hm' hn'
  obtain rfl := Option.some.inj (hm.symm.trans hm')
  have hj := hb.whole.spans j (Forest.mem_numbers.2 ⟨n, hn⟩)
  obtain ⟨-, n₀, hn₀, rfl⟩ := (hb.upright.node?_cutFor hj f sig).1 hn'
  obtain rfl := Option.some.inj (hn.symm.trans hn₀)
  rw [(hf.adapt sig n).1, hret, Ty.accepts_self]

theorem Standing.swap {f : Adapter} {ra rb : NodeId} (hta : a.Standing ra) (htb : b.Standing rb) (hf : f.Renumbers)
    (hm : a.forest.node? i = some m) (hn : b.forest.node? j = some n) (hret : n.returns = m.returns) : ∃ ga gb,
      a.forest.Transplanted i (b.cutFor f a.signature j) ga ∧ b.forest.Transplanted j (a.cutFor f b.signature i) gb ∧
      a.swap f i b j = .ok (⟨a.signature, ga, some (a.forest.rootAfter ra i (b.cutFor f a.signature j))⟩,
        ⟨b.signature, gb, some (b.forest.rootAfter rb j (a.cutFor f b.signature i))⟩) := by
  obtain ⟨tyA, htyA, hA⟩ := hta.landing hm
  obtain ⟨tyB, htyB, hB⟩ := htb.landing hn
  obtain ⟨ga, gb, htA, htB, hswap⟩ := hta.upright.exchange htb.upright
    (hta.whole.spans i (Forest.mem_numbers.2 ⟨m, hm⟩)) (htb.whole.spans j (Forest.mem_numbers.2 ⟨n, hn⟩)) hf hm hn
    htyA htyB (hret ▸ hA) (hret ▸ hB)
  refine ⟨ga, gb, htA, htB, ?_⟩
  rw [Tree.swap, hswap]
  rfl

/-- Two trees for one signature exchange subtrees of one type that are not too high for their new places, and stay
within the height. -/
theorem Rooted.swap {ra rb : NodeId} {da db ha hb : Nat} (hta : a.Rooted sig maxDepth ra)
    (htb : b.Rooted sig maxDepth rb) (hm : a.forest.node? i = some m) (hn : b.forest.node? j = some n)
    (hret : n.returns = m.returns) (hda : a.forest.Steps ra da i) (hdb : b.forest.Steps rb db j)
    (hha : a.forest.NoDeeper i ha) (hhb : b.forest.NoDeeper j hb) (hle : da + hb ≤ maxDepth)
    (hle' : db + ha ≤ maxDepth) :
    ∃ a' b', a.swap Node.remap i b j = .ok (a', b') ∧ (∃ r, a'.Rooted sig maxDepth r) ∧
      ∃ r, b'.Rooted sig maxDepth r := by
  have hi := Forest.mem_numbers.2 ⟨m, hm⟩
  have hj := Forest.mem_numbers.2 ⟨n, hn⟩
  have hcutA : (a.cutFor Node.remap sig i).Within sig ha := by
    have h := hta.severed hi hha
    rwa [cutFor, h.adapt_remap]
  have hcutB : (b.cutFor Node.remap sig j).Within sig hb := by
    have h := htb.severed hj hhb
    rwa [cutFor, h.adapt_remap]
  obtain ⟨ga, gb, htA, htB, hswap⟩ := hta.toStanding.swap htb.toStanding Adapter.remap_renumbers hm hn hret
  have hsuitsA := htb.suits_cutFor Adapter.remap_renumbers hm hn hret sig
  have hsuitsB := hta.suits_cutFor Adapter.remap_renumbers hn hm hret.symm sig
  rw [hta.signature] at htA hswap
  rw [htb.signature] at htB hswap
  refine ⟨_, _, hswap, ?_, ?_⟩
  · exact ⟨_, hta.signature ▸ hta.transplant htA hi hsuitsA hcutB hda hle⟩
  · exact ⟨_, htb.signature ▸ htb.transplant htB hj hsuitsB hcutA hdb hle'⟩

end Tree
end Grove
