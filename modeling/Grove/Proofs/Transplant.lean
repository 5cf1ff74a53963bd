import Grove.Proofs.Validity

/-! Transplants. A subtree takes the place of a node and of all that is below it, under numbers that come after
those in use. If both were complete, so is the result, and its ways down are those of the one up to the place, and
from there on those of the other. -/

namespace Grove

theorem Ty.accepts_trans {slot ty child : Ty} (h : slot.accepts ty = true) (h' : ty.accepts child = true) :
    slot.accepts child = true := by
  rcases accepts_iff.1 h with h | rfl | rfl
  · exact accepts_iff.2 (.inl h)
  · exact h'
  · rcases accepts_iff.1 h' with h' | rfl | rfl
    · exact accepts_iff.2 (.inl h')
    · exact h
    · exact accepts_iff.2 (.inr (.inr rfl))

/-- The root of the subtree may stand wherever the node may. -/
def Forest.Suits (g : Forest) (i : NodeId) (s : Subtree) : Prop :=
  ∀ n m, g.node? i = some n → s.forest.node? s.root = some m → n.returns.accepts m.returns = true

/-- The root of the subtree may stand in the slot that the node stands in. -/
def Forest.Welcomes (g : Forest) (i : NodeId) (s : Subtree) : Prop :=
  ∀ p slot parent m, ⟨p, slot, i⟩ ∈ g.edges → g.node? p = some parent → s.forest.node? s.root = some m →
    (parent.slotType slot).accepts m.returns = true

/-- The subtree is one whole tree, for the signature and within the height. -/
structure Subtree.Within (sig : Signature) (height : Nat) (s : Subtree) : Prop where
  whole : s.forest.Whole s.root
  declared : ∀ j n, s.forest.node? j = some n → n.fits sig = true
  shallow : s.forest.NoDeeper s.root height

/-- The subtree stands in the place of the node and of all that was below it. -/
structure Forest.Transplanted (g : Forest) (i : NodeId) (s : Subtree) (g' : Forest) : Prop where
  sound : g'.Sound
  moved : ∀ j, g'.node? (j + g.fresh) = s.forest.node? j
  kept : ∀ j < g.fresh, ¬ g.Reaches i j → g'.node? j = g.node? j
  gone : ∀ j < g.fresh, g.Reaches i j → g'.node? j = none
  edges : ∀ e, e ∈ g'.edges ↔ (e ∈ g.edges ∧ ¬ g.Reaches i e.child) ∨
    (∃ e' ∈ s.forest.edges, e'.shift g.fresh = e) ∨
    ∃ p slot, ⟨p, slot, i⟩ ∈ g.edges ∧ e = ⟨p, slot, s.root + g.fresh⟩

/-- Nothing leads to the node, and every slot below it is filled. Other nodes may hang nowhere. -/
structure Forest.Full (g : Forest) (r : NodeId) : Prop where
  sound : g.Sound
  root : r ∈ g.nodes.map (·.1)
  top : ∀ e ∈ g.edges, e.child ≠ r
  filled : ∀ i n, g.Reaches r i → g.node? i = some n → ∀ slot < n.arity, ∃ c, ⟨i, slot, c⟩ ∈ g.edges

/-- A node that can be cut out with all that is below it. -/
structure Forest.Severable (g : Forest) (i : NodeId) : Prop where
  sound : g.Sound
  live : i ∈ g.nodes.map (·.1)
  not_loops : ¬ g.Loops i

/-- The root once a subtree stands in the place of a node. -/
def Forest.rootAfter (g : Forest) (r i : NodeId) (s : Subtree) : NodeId := if i = r then s.root + g.fresh else r

namespace Forest

variable {g g' : Forest} {s : Subtree} {r i j : NodeId} {k d : Nat}

theorem Whole.full (h : g.Whole r) : g.Full r := ⟨h.sound, h.root, h.top, fun i n _ hn => h.filled i n hn⟩

theorem Whole.severable (h : g.Whole r) (hi : i ∈ g.nodes.map (·.1)) : g.Severable i := ⟨h.sound, hi, h.not_loops hi⟩

theorem Full.severable (h : g.Full r) (hi : g.Reaches r i) : g.Severable i :=
  ⟨h.sound, h.sound.reached_mem h.root hi, ((h.sound.ends_of_top h.root h.top).of_reaches hi).not_loops⟩

theorem Severable.not_reaches_parent {e : Edge} (h : g.Severable e.child) (he : e ∈ g.edges) :
    ¬ g.Reaches e.child e.parent := by
  rintro ⟨k, hk⟩
  exact h.not_loops ⟨k, hk.down he⟩

theorem Severable.not_reaches_new (h : g.Severable i) (j : NodeId) : ¬ g.Reaches i (j + g.fresh) :=
  fun hr => h.sound.ne_moved (h.sound.reached_mem h.live hr) j rfl

theorem Full.parent?_eq_none_iff (h : g.Full r) (hi : g.Reaches r i) : g.parent? i = none ↔ i = r := by
  constructor
  · intro hp
    obtain ⟨k, hk⟩ := hi
    rcases hk.last with ⟨-, rfl⟩ | ⟨-, e, -, he, rfl, -⟩
    · rfl
    · have hsome : g.parent? e.child = some (e.parent, e.slot) := (parent?_eq_some h.sound.unshared).2 he
      rw [hsome] at hp
      cases hp
  · rintro rfl
    exact parent?_eq_none.2 h.top

theorem Unshared.reaches_child (hu : g.Unshared) {e : Edge} (he : e ∈ g.edges) (h : g.Reaches i e.child) :
    e.child = i ∨ g.Reaches i e.parent := by
  obtain ⟨k, hk⟩ := h
  rcases hk.last with ⟨-, hc⟩ | ⟨m, e', -, he', hc, hm⟩
  · exact .inl hc
  · obtain rfl := hu.edge_eq he he' hc.symm
    exact .inr ⟨m, hm⟩

theorem Sound.welcomes (h : g.Sound) (hsuits : g.Suits i s) : g.Welcomes i s := by
  intro p slot parent m he hp hm
  obtain ⟨parent', n, hp', hn, -, ha⟩ := h.fits _ he
  obtain rfl := Option.some.inj (hp.symm.trans hp')
  exact Ty.accepts_trans ha (hsuits n m hn hm)

theorem Sound.fits_place {p slot new : Nat} (h : g.Sound) (he : ⟨p, slot, i⟩ ∈ g.edges)
    (hs : s.root ∈ s.forest.nodes.map (·.1)) (hwelcome : g.Welcomes i s) (hp : g'.node? p = g.node? p)
    (hnew : g'.node? new = s.forest.node? s.root) :
    g'.Fits ⟨p, slot, new⟩ := by
  obtain ⟨parent, n, hparent, hn, hslot, ha⟩ := h.fits _ he
  obtain ⟨m, hm⟩ := mem_numbers.1 hs
  exact ⟨parent, m, hp.trans hparent, hnew.trans hm, hslot, hwelcome p slot parent m he hparent hm⟩

theorem Sound.graft_loose (h : g.Sound) (htop : ∀ e ∈ s.forest.edges, e.child ≠ s.root) :
    ∀ e ∈ (g.graft s).2.edges, e.child ≠ s.root + g.fresh := by
  intro e he hc
  rcases mem_graft.1 he with hold | ⟨e', he', rfl⟩
  · exact h.ne_moved (h.child_mem hold) _ hc.symm
  · exact htop e' he' (Nat.add_right_cancel hc)

namespace Transplanted

variable (h : g.Full r) (hs : s.forest.Whole s.root) (hi : g.Reaches r i) (ht : g.Transplanted i s g')

section
include ht

theorem steps_old (hj : ¬ g.Reaches i j) (hk : g.Steps r k j) : g'.Steps r k j := by
  induction hk with
  | here => exact .here
  | down _ he ih => exact .down (ih fun hp => hj (hp.down he)) ((ht.edges _).2 (.inl ⟨he, hj⟩))

theorem steps_moved {a : NodeId} (hk : s.forest.Steps a k j) : g'.Steps (a + g.fresh) k (j + g.fresh) := by
  induction hk with
  | here => exact .here
  | down _ he ih => exact .down ih ((ht.edges _).2 (.inr (.inl ⟨_, he, rfl⟩)))

theorem nodes {n : Node} (hn : g'.node? j = some n) :
    (j < g.fresh ∧ ¬ g.Reaches i j ∧ g.node? j = some n) ∨ ∃ j', j = j' + g.fresh ∧ s.forest.node? j' = some n := by
  rcases Nat.lt_or_ge j g.fresh with hlt | hge
  · have hr : ¬ g.Reaches i j := fun hr => by
      rw [ht.gone j hlt hr] at hn
      cases hn
    exact .inl ⟨hlt, hr, (ht.kept j hlt hr) ▸ hn⟩
  · refine .inr ⟨j - g.fresh, (Nat.sub_add_cancel hge).symm, ?_⟩
    rw [← ht.moved, Nat.sub_add_cancel hge]
    exact hn

end

section
include h ht

theorem parent_mem {e : Edge} (he : e ∈ g'.edges) :
    e.parent ∈ g.nodes.map (·.1) ∨ ∃ e' ∈ s.forest.edges, e'.shift g.fresh = e := by
  rcases (ht.edges e).1 he with ⟨hold, -⟩ | hmoved | ⟨p, slot, hold, rfl⟩
  · exact .inl (h.sound.parent_mem hold)
  · exact .inr hmoved
  · exact .inl (h.sound.parent_mem (e := ⟨p, slot, i⟩) hold)

theorem steps_within {a : NodeId} (hk : g'.Steps (a + g.fresh) k j) :
    ∃ j', j = j' + g.fresh ∧ s.forest.Steps a k j' := by
  generalize ha : a + g.fresh = b at hk
  induction hk with
  | here => exact ⟨a, ha.symm, .here⟩
  | down _ he ih =>
    obtain ⟨j', hj', hs'⟩ := ih
    rcases parent_mem h ht he with hold | ⟨e', he', rfl⟩
    · exact absurd hj'.symm (h.sound.ne_moved hold j')
    · obtain rfl : e'.parent = j' := Nat.add_right_cancel hj'
      exact ⟨e'.child, rfl, .down hs' he'⟩

theorem root_kept (hr : i ≠ r) : g'.node? r = g.node? r :=
  ht.kept r (h.sound.fresh r h.root) fun hreach => hr (hreach.eq_of_top h.top).symm

/-- A way down ends above the place, or leads through it. -/
theorem steps_split (hd : g.Steps r d i) (hk : g'.Steps r k j) :
    (j ∈ g.nodes.map (·.1) ∧ g.Steps r k j) ∨ ∃ m j', j = j' + g.fresh ∧ k = d + m ∧ s.forest.Steps s.root m j' := by
  induction hk with
  | here => exact .inl ⟨h.root, .here⟩
  | @down k e _ he ih =>
    rcases (ht.edges e).1 he with ⟨hold, -⟩ | ⟨e', he', rfl⟩ | ⟨p, slot, hold, rfl⟩
    · rcases ih with ⟨-, hs'⟩ | ⟨m, j', hj', -⟩
      · exact .inl ⟨h.sound.child_mem hold, .down hs' hold⟩
      · exact absurd hj'.symm (h.sound.ne_moved (h.sound.parent_mem hold) j')
    · rcases ih with ⟨hold, -⟩ | ⟨m, j', hj', rfl, hs'⟩
      · exact absurd rfl (h.sound.ne_moved hold e'.parent)
      · obtain rfl : e'.parent = j' := Nat.add_right_cancel hj'
        exact .inr ⟨m + 1, e'.child, rfl, rfl, .down hs' he'⟩
    · rcases ih with ⟨-, hs'⟩ | ⟨m, j', hj', -⟩
      · have hu := h.sound.unshared.steps_unique (not_loops_of_top h.top) hd (.down (e := ⟨p, slot, i⟩) hs' hold)
        exact .inr ⟨0, s.root, rfl, hu.symm, .here⟩
      · exact absurd hj'.symm (h.sound.ne_moved (h.sound.parent_mem hold) j')

theorem noDeeper {bound height : Nat} (hdeep : g.NoDeeper r bound) (hd : g.Steps r d i)
    (hheight : s.forest.NoDeeper s.root height) (hle : d + height ≤ bound) : g'.NoDeeper (g.rootAfter r i s) bound := by
  intro k j hk
  unfold rootAfter at hk
  split at hk
  · obtain ⟨j', -, hs'⟩ := steps_within h ht hk
    have := hheight k j' hs'
    omega
  · rcases steps_split h ht hd hk with ⟨-, hs'⟩ | ⟨m, j', -, rfl, hs'⟩
    · exact hdeep k j hs'
    · have := hheight m j' hs'
      omega

end

section
include h hi ht

theorem reaches_place (hr : i ≠ r) : g'.Reaches r (s.root + g.fresh) := by
  have hcut := h.severable hi
  obtain ⟨k, hk⟩ := hi
  rcases hk.last with ⟨-, hir⟩ | ⟨m, e, -, he, rfl, hm⟩
  · exact absurd hir hr
  · have hp := ht.steps_old (hcut.not_reaches_parent he) hm
    have hlink : ⟨e.parent, e.slot, s.root + g.fresh⟩ ∈ g'.edges := (ht.edges _).2 (.inr (.inr ⟨_, _, he, rfl⟩))
    exact ⟨m + 1, .down (e := ⟨e.parent, e.slot, s.root + g.fresh⟩) hp hlink⟩

/-- The root reaches what it reached before beside the place, and there the subtree. -/
theorem reaches_iff : g'.Reaches (g.rootAfter r i s) j ↔ (g.Reaches r j ∧ ¬ g.Reaches i j) ∨
    ∃ j', j = j' + g.fresh ∧ s.forest.Reaches s.root j' := by
  by_cases hr : i = r
  · rw [rootAfter, if_pos hr]
    constructor
    · rintro ⟨k, hk⟩
      obtain ⟨j', rfl, hs'⟩ := steps_within h ht hk
      exact .inr ⟨j', rfl, k, hs'⟩
    · rintro (⟨hj, hout⟩ | ⟨j', rfl, k, hk⟩)
      · exact absurd (hr ▸ hj) hout
      · exact ⟨k, ht.steps_moved hk⟩
  · rw [rootAfter, if_neg hr]
    have hroot : r ∈ g'.nodes.map (·.1) := by
      rw [mem_numbers, root_kept h ht hr]
      exact mem_numbers.1 h.root
    constructor
    · intro hj
      obtain ⟨n, hn⟩ := mem_numbers.1 (ht.sound.reached_mem hroot hj)
      obtain ⟨d, hd⟩ := hi
      obtain ⟨k, hk⟩ := hj
      rcases steps_split h ht hd hk with ⟨hold, hk'⟩ | ⟨m, j', rfl, -, hm⟩
      · refine .inl ⟨⟨k, hk'⟩, fun hout => ?_⟩
        rw [ht.gone j (h.sound.fresh j hold) hout] at hn
        cases hn
      · exact .inr ⟨j', rfl, m, hm⟩
    · rintro (⟨⟨k, hk⟩, hout⟩ | ⟨j', rfl, k, hk⟩)
      · exact ⟨k, ht.steps_old hout hk⟩
      · exact (reaches_place h hi ht hr).trans ⟨k, ht.steps_moved hk⟩

include hs

omit hi in
theorem top : ∀ e ∈ g'.edges, e.child ≠ g.rootAfter r i s := by
  intro e he hc
  unfold rootAfter at hc
  rcases (ht.edges e).1 he with ⟨hold, -⟩ | ⟨e', he', rfl⟩ | ⟨p, slot, hold, rfl⟩ <;> split at hc
  · exact h.sound.ne_moved (h.sound.child_mem hold) _ hc.symm
  · exact h.top e hold hc
  · exact hs.top e' he' (Nat.add_right_cancel hc)
  · exact h.sound.ne_moved h.root _ hc
  · rename_i hr
    exact h.top _ hold hr
  · exact h.sound.ne_moved h.root _ hc

theorem full : g'.Full (g.rootAfter r i s) := by
  refine ⟨ht.sound, ?_, top h hs ht, fun j n hreach hn slot hslot => ?_⟩
  · rw [mem_numbers, rootAfter]
    split
    · rw [ht.moved]
      exact mem_numbers.1 hs.root
    · rename_i hr
      rw [root_kept h ht hr]
      exact mem_numbers.1 h.root
  · rcases (reaches_iff h hi ht).1 hreach with ⟨hold, hout⟩ | ⟨j', rfl, -⟩
    · have hj := h.sound.fresh j (h.sound.reached_mem h.root hold)
      rw [ht.kept j hj hout] at hn
      obtain ⟨c, hc⟩ := h.filled j n hold hn slot hslot
      by_cases hreach' : g.Reaches i c
      · obtain rfl : c = i := (h.sound.unshared.reaches_child hc hreach').resolve_right hout
        exact ⟨_, (ht.edges _).2 (.inr (.inr ⟨j, slot, hc, rfl⟩))⟩
      · exact ⟨c, (ht.edges _).2 (.inl ⟨hc, hreach'⟩)⟩
    · rw [ht.moved] at hn
      obtain ⟨c, hc⟩ := hs.filled j' n hn slot hslot
      exact ⟨c + g.fresh, (ht.edges _).2 (.inr (.inl ⟨_, hc, rfl⟩))⟩

end

theorem whole (h : g.Whole r) (hs : s.forest.Whole s.root) (hi : i ∈ g.nodes.map (·.1)) (ht : g.Transplanted i s g') :
    g'.Whole (g.rootAfter r i s) := by
  have hplace := h.spans i hi
  have hfull := full h.full hs hplace ht
  have hspans : ∀ j ∈ g'.nodes.map (·.1), g'.Reaches (g.rootAfter r i s) j := by
    intro j hj
    obtain ⟨n, hn⟩ := mem_numbers.1 hj
    rw [reaches_iff h.full hplace ht]
    rcases ht.nodes hn with ⟨-, hout, hold⟩ | ⟨j', rfl, hmoved⟩
    · exact .inl ⟨h.spans j (mem_numbers.2 ⟨n, hold⟩), hout⟩
    · exact .inr ⟨j', rfl, hs.spans j' (mem_numbers.2 ⟨n, hmoved⟩)⟩
  exact ⟨hfull.sound, hfull.root, hfull.top, hspans,
    fun j n hn => hfull.filled j n (hspans j (mem_numbers.2 ⟨n, hn⟩)) hn⟩

end Transplanted
end Forest

namespace Tree

variable {t : Tree} {g' : Forest} {s : Subtree} {r i : NodeId} (ht : t.forest.Transplanted i s g')
  (hi : i ∈ t.forest.nodes.map (·.1)) (hsuits : t.forest.Suits i s)
include ht hi hsuits

theorem Standing.transplant (h : t.Standing r) (hs : s.forest.Whole s.root) :
    Standing ⟨t.signature, g', some (t.forest.rootAfter r i s)⟩ (t.forest.rootAfter r i s) where
  root := rfl
  whole := ht.whole h.whole hs hi
  accepted n hn := by
    unfold Forest.rootAfter at hn
    split at hn
    · rename_i hr
      obtain ⟨m, hm⟩ := Forest.mem_numbers.1 hi
      exact Ty.accepts_trans (h.accepted m (hr ▸ hm)) (hsuits m n hm ((ht.moved s.root).symm.trans hn))
    · rename_i hr
      exact h.accepted n ((ht.root_kept h.whole.full hr).symm.trans hn)

theorem Standing.transplant_low {maxDepth height : Nat} (h : t.Standing r) (hs : s.forest.Whole s.root)
    (hshallow : s.forest.NoDeeper s.root height) (hle : t.forest.depth i + height ≤ maxDepth) (hlow : t.Low maxDepth) :
    Low maxDepth ⟨t.signature, g', some (t.forest.rootAfter r i s)⟩ :=
  (h.transplant ht hi hsuits hs).low_iff.2
    (ht.noDeeper h.whole.full (h.low_iff.1 hlow) (h.whole.steps_depth hi) hshallow hle)

theorem Standing.transplant_valid (h : t.Standing r) (hs : s.forest.Whole s.root)
    (hdeclared : ∀ j n, s.forest.node? j = some n → n.fits t.signature = true) (hv : t.ValidFor t.signature) :
    ValidFor ⟨t.signature, g', some (t.forest.rootAfter r i s)⟩ t.signature := by
  refine (h.transplant ht hi hsuits hs).validFor_iff.2 fun j n hn => ?_
  rcases ht.nodes hn with ⟨-, -, hold⟩ | ⟨j', -, hmoved⟩
  · exact h.validFor_iff.1 hv j n hold
  · exact hdeclared j' n hmoved

/-- A tree stays for its signature and within a height if the subtree is for that signature, and not too high for
its place. -/
theorem Rooted.transplant {sig : Signature} {maxDepth depth height : Nat} (h : t.Rooted sig maxDepth r)
    (hs : s.Within sig height) (hdepth : t.forest.Steps r depth i) (hle : depth + height ≤ maxDepth) :
    Rooted sig maxDepth ⟨t.signature, g', some (t.forest.rootAfter r i s)⟩ (t.forest.rootAfter r i s) where
  toStanding := h.toStanding.transplant ht hi hsuits hs.whole
  signature := h.signature
  declared j n hn := by
    rcases ht.nodes hn with ⟨-, -, hold⟩ | ⟨j', -, hmoved⟩
    · exact h.declared j n hold
    · exact hs.declared j' n hmoved
  shallow := ht.noDeeper h.whole.full h.shallow hdepth hs.shallow hle

end Tree
end Grove
