import Grove.Proofs.Growing
import Grove.Proofs.Isomorphism

/-! Ways up through a forest. No operation but one makes a loop of parent edges, in the tree or in what hangs beside
it: a child that is put into a slot closes one just when the slot's node is below it. Where that was never done, every
way up ends at a node without a parent, and the traversals down, which keep no record of where they were, end too. -/

namespace Grove

/-- Going from a node to its parent, from there to its parent, and so on, up to a node that has none. -/
inductive Forest.Climbs (g : Forest) : NodeId → Nat → NodeId → Prop
  | top {i : NodeId} (h : g.parent? i = none) : Climbs g i 0 i
  | up {i p top : NodeId} {slot k : Nat} (h : g.parent? i = some (p, slot)) (hp : Climbs g p k top) :
      Climbs g i (k + 1) top

/-- Listing what is below the nodes of a stack: the first one is listed, and its children take its place. -/
inductive Forest.Walks (g : Forest) : (stack listed : List NodeId) → Prop
  | done : Walks g [] []
  | next {i : NodeId} {stack listed : List NodeId}
      (h : Walks g ((g.slotsInOrder i).map (·.child) ++ stack) listed) : Walks g (i :: stack) (i :: listed)

/-- Copying what is below the nodes of a level: all of them are copied, and their children make up the next one. -/
inductive Forest.Spreads (g : Forest) : (level copied : List NodeId) → Prop
  | done : Spreads g [] []
  | next {i : NodeId} {level copied : List NodeId}
      (h : Spreads g ((i :: level).flatMap fun j => (g.outgoing j).map (·.child)) copied) :
      Spreads g (i :: level) (i :: level ++ copied)

def Forest.Loopless (g : Forest) : Prop := ∀ i, ¬ g.Loops i

namespace Forest

variable {g g' : Forest} {i j c new top : NodeId} {slot k m : Nat}

section Loops

theorem Steps.mono (h : g'.Steps i k j) (hs : ∀ e ∈ g'.edges, e ∈ g.edges) : g.Steps i k j := by
  induction h with
  | here => exact .here
  | down _ he ih => exact .down ih (hs _ he)

theorem Loopless.of_subset (h : g.Loopless) (hs : ∀ e ∈ g'.edges, e ∈ g.edges) : g'.Loopless :=
  fun i ⟨k, hk⟩ => h i ⟨k, hk.mono hs⟩

theorem Steps.of_link (h : (g.link i slot c).Steps j k m) :
    g.Reaches j m ∨ g.Reaches j i ∧ g.Reaches c m := by
  induction h with
  | here => exact .inl (.refl g _)
  | down _ he ih =>
    rcases List.mem_cons.1 he with rfl | he
    · exact .inr ⟨ih.elim id And.left, .refl g _⟩
    · exact ih.imp (·.down he) fun hr => ⟨hr.1, hr.2.down he⟩

theorem Loopless.link (h : g.Loopless) (hc : ¬ g.Reaches c i) : (g.link i slot c).Loopless := by
  rintro j ⟨k, hk⟩
  rcases hk.last with ⟨h0, -⟩ | ⟨_, e, -, he, rfl, hs⟩
  · cases h0
  rcases List.mem_cons.1 he with rfl | he
  · exact hc (hs.of_link.elim id And.right)
  · rcases hs.of_link with ⟨m, hm⟩ | ⟨hi, hm⟩
    · exact h _ ⟨m, hm.down he⟩
    · exact hc ((hm.down he).trans hi)

theorem Steps.avoids_below (h : g.Steps j k i) (hi : ¬ g.Loops i)
    (hs : ∀ e ∈ g.edges, e.parent ≠ i → e ∈ g'.edges) : g'.Steps j k i := by
  induction k generalizing j with
  | zero =>
    cases h
    exact .here
  | succ k ih =>
    obtain ⟨e, he, rfl, hrest⟩ := h.first
    refine Steps.head (hs e he ?_) (ih hrest)
    rintro rfl
    exact hi ⟨k, h⟩

/-- Putting a child into a slot makes a loop just when the slot's node is below the child. -/
theorem Sound.loopless_setChild_iff (h : g.Sound) (hl : g.Loopless) {r : Option NodeId × Forest}
    (hr : g.setChild i slot new = .ok r) : r.2.Loopless ↔ ¬ g.Reaches new i := by
  obtain ⟨-, -, rfl⟩ := setChild_ok.1 hr
  constructor
  · rintro hloopless ⟨k, hk⟩
    have hold : ∀ e ∈ g.edges, e.parent ≠ i → e ∈ ((g.vacate i slot).link i slot new).edges := fun e he hp =>
      List.mem_cons_of_mem _ (h.mem_vacate.2 ⟨he, fun hs => hp hs.1⟩)
    have hnew : (⟨i, slot, new⟩ : Edge) ∈ ((g.vacate i slot).link i slot new).edges := List.mem_cons_self
    exact hloopless i ⟨k, Steps.head hnew (hk.avoids_below (hl i) hold)⟩
  · intro hreach
    have hsub : ∀ e ∈ (g.vacate i slot).edges, e ∈ g.edges := fun e he => (h.mem_vacate.1 he).1
    exact (hl.of_subset hsub).link fun ⟨k, hk⟩ => hreach ⟨k, hk.mono hsub⟩

theorem Sound.steps_graft (h : g.Sound) {s : Subtree} (hk : (g.graft s).2.Steps i k j) :
    (i < g.fresh → j < g.fresh ∧ g.Steps i k j) ∧
      (g.fresh ≤ i → g.fresh ≤ j ∧ s.forest.Steps (i - g.fresh) k (j - g.fresh)) := by
  induction hk with
  | here => exact ⟨fun hi => ⟨hi, .here⟩, fun hi => ⟨hi, .here⟩⟩
  | @down k e _ he ih =>
    rcases mem_graft.1 he with he | ⟨e, he', rfl⟩
    · have hp := h.fresh _ (h.parent_mem he)
      refine ⟨fun hi => ⟨h.fresh _ (h.child_mem he), (ih.1 hi).2.down he⟩, fun hi => ?_⟩
      exact absurd hp (Nat.not_lt_of_le (ih.2 hi).1)
    · have hmoved : ∀ x, x + g.fresh - g.fresh = x := fun x => Nat.add_sub_cancel ..
      refine ⟨fun hi => absurd (ih.1 hi).1 (Nat.not_lt_of_le (Nat.le_add_left _ _)),
        fun hi => ⟨Nat.le_add_left _ _, ?_⟩⟩
      have hs := (ih.2 hi).2
      simp only [Edge.shift, hmoved] at hs ⊢
      exact hs.down he'

theorem Loopless.graft (hl : g.Loopless) (h : g.Sound) {s : Subtree} (hs : s.forest.Loopless) :
    (g.graft s).2.Loopless := by
  rintro i ⟨k, hk⟩
  have hsplit := h.steps_graft hk
  rcases Nat.lt_or_ge i g.fresh with hi | hi
  · exact hl i ⟨k, (hsplit.1 hi).2⟩
  · exact hs _ ⟨k, (hsplit.2 hi).2⟩

theorem Loopless.ends (hl : g.Loopless) (h : g.Sound) (i : NodeId) : g.Ends i := by
  by_cases hi : i ∈ g.nodes.map (·.1)
  · exact ends_of_bounded fun _ _ => h.unshared.steps_lt (hl i) fun _ => h.reached_mem hi
  · exact .node fun e he hp => absurd (hp ▸ h.parent_mem he) hi

end Loops

section Climbing

theorem Climbs.parentless (h : g.Climbs i k top) : g.parent? top = none := by
  induction h with
  | top h => exact h
  | up _ _ ih => exact ih

theorem Climbs.steps (hu : g.Unshared) (h : g.Climbs i k top) : g.Steps top k i := by
  induction h with
  | top _ => exact .here
  | up h _ ih => exact .down (e := ⟨_, _, _⟩) ih ((parent?_eq_some hu).1 h)

theorem Steps.climbs (hu : g.Unshared) (hi : ∀ e ∈ g.edges, e.child ≠ i) (h : g.Steps i k j) : g.Climbs j k i := by
  induction h with
  | here => exact .top (parent?_eq_none.2 hi)
  | down _ he ih => exact .up ((parent?_eq_some hu).2 he) ih

theorem Climbs.depthWithin (h : g.Climbs i k top) {room : Nat} (hk : k ≤ room) : g.depthWithin room i = k := by
  induction h generalizing room with
  | top h =>
    cases room with
    | zero => rfl
    | succ room => rw [Forest.depthWithin, h]
  | up h _ ih =>
    obtain ⟨room, rfl⟩ := Nat.exists_eq_add_of_le' (Nat.lt_of_lt_of_le (Nat.succ_pos _) hk)
    rw [Forest.depthWithin, h]
    exact congrArg (· + 1) (ih (Nat.le_of_succ_le_succ hk))

theorem Placed.depth_eq (h : g.Placed) (hlive : i ∈ g.nodes.map (·.1)) (htop : ∀ e ∈ g.edges, e.child ≠ i)
    (hk : g.Steps i k j) : g.depth j = k := by
  have hlt := h.steps_lt (not_loops_of_top htop) hlive hk
  exact (hk.climbs h.unshared htop).depthWithin (Nat.le_of_lt hlt)

/-- From a node that is below itself there is no end to the climb. -/
theorem Climbs.not_loops (hu : g.Unshared) (h : g.Climbs i k top) : ¬ g.Loops i := by
  induction h with
  | top h =>
    rintro ⟨_, hs⟩
    rcases hs.last with ⟨h0, -⟩ | ⟨-, e, -, he, hc, -⟩
    · cases h0
    · exact parent?_eq_none.1 h e he hc
  | up h _ ih =>
    rintro ⟨_, hs⟩
    rcases hs.last with ⟨h0, -⟩ | ⟨m, e, hm, he, hc, hs⟩
    · cases h0
    · obtain rfl := hu.edge_eq he ((parent?_eq_some hu).1 h) hc
      exact ih ⟨m, Steps.head he hs⟩

theorem Sound.size_bound (h : g.Sound) (hi : i ∈ g.nodes.map (·.1)) (hl : ¬ g.Loops i) (hk : g.Steps i k j) :
    k < g.size :=
  h.unshared.steps_lt hl (fun _ => h.reached_mem hi) hk

/-- Every climb ends in a forest without loops, since each step leads to a longer way down. -/
theorem Loopless.climbs (hl : g.Loopless) (h : g.Sound) (hi : i ∈ g.nodes.map (·.1)) : ∃ k top, g.Climbs i k top := by
  suffices hclimb : ∀ n j k, j ∈ g.nodes.map (·.1) → g.Steps j k i → g.size - k ≤ n → ∃ m top, g.Climbs j m top from
    hclimb g.size i 0 hi .here (Nat.sub_le _ _)
  intro n
  induction n with
  | zero =>
    intro j k hj hk hn
    have := h.size_bound hj (hl j) hk
    omega
  | succ n ih =>
    intro j k hj hk hn
    cases hp : g.parent? j with
    | none => exact ⟨0, j, .top hp⟩
    | some place =>
      obtain ⟨p, slot⟩ := place
      have he : (⟨p, slot, j⟩ : Edge) ∈ g.edges := (parent?_eq_some h.unshared).1 hp
      obtain ⟨m, top, hm⟩ := ih p (k + 1) (h.parent_mem he) (Steps.head he hk) (by omega)
      exact ⟨m + 1, top, .up hp hm⟩

theorem Loopless.climbs_depth (hl : g.Loopless) (h : g.Sound) (hi : i ∈ g.nodes.map (·.1)) :
    g.depth i < g.size ∧ ∃ top, g.Climbs i (g.depth i) top := by
  obtain ⟨k, top, hk⟩ := hl.climbs h hi
  have hsteps := hk.steps h.unshared
  have htop : top ∈ g.nodes.map (·.1) := by
    cases k with
    | zero => cases hsteps; exact hi
    | succ k =>
      obtain ⟨e, he, rfl, -⟩ := hsteps.first
      exact h.parent_mem he
  have hlt := h.size_bound htop (hl top) hsteps
  rw [depth, hk.depthWithin (Nat.le_of_lt hlt)]
  exact ⟨hlt, top, hk⟩

end Climbing

section Walking

theorem Walks.ends {stack listed : List NodeId} (h : g.Walks stack listed) : ∀ i ∈ stack, g.Ends i := by
  induction h with
  | done => nofun
  | @next i stack listed _ ih =>
    refine List.forall_mem_cons.2 ⟨.node fun e he hp => ih _ ?_, fun j hj => ih j (List.mem_append_right _ hj)⟩
    exact List.mem_append_left _ (List.mem_map_of_mem (mem_slotsInOrder.2 ⟨he, hp⟩))

theorem Walks.children {room : Nat} {kids : List NodeId} {stack listed : List NodeId} (h : g.Walks stack listed)
    (hkids : ∀ c ∈ kids, ∀ {stack listed}, g.Walks stack listed →
      g.Walks (c :: stack) (g.preorderTo room c ++ listed)) :
    g.Walks (kids ++ stack) (kids.flatMap (g.preorderTo room) ++ listed) := by
  induction kids with
  | nil => exact h
  | cons c kids ih =>
    obtain ⟨hc, hkids⟩ := List.forall_mem_cons.1 hkids
    rw [List.flatMap_cons, List.append_assoc]
    exact hc (ih hkids)

theorem Walks.preorderTo {d room : Nat} (hdeep : g.NoDeeper i d) (hd : d < room) {stack listed : List NodeId}
    (h : g.Walks stack listed) : g.Walks (i :: stack) (g.preorderTo room i ++ listed) := by
  induction room generalizing i d stack listed with
  | zero => cases hd
  | succ room ih =>
    rw [preorderTo_succ]
    refine .next (h.children fun c hc stack listed hrest => ?_)
    obtain ⟨e, he, rfl⟩ := List.mem_map.1 hc
    obtain ⟨hmem, rfl⟩ := mem_slotsInOrder.1 he
    obtain ⟨d, rfl⟩ := hdeep.pos hmem
    exact ih (hdeep.child hmem) (Nat.lt_of_succ_lt_succ hd) hrest

theorem Loopless.noDeeper (hl : g.Loopless) (h : g.Sound) (hi : i ∈ g.nodes.map (·.1)) :
    ∃ d < g.size, g.NoDeeper i d :=
  ⟨g.size - 1, Nat.sub_one_lt_of_lt (h.size_bound hi (hl i) .here),
    fun _ _ hk => Nat.le_sub_one_of_lt (h.size_bound hi (hl i) hk)⟩

theorem Loopless.walks (hl : g.Loopless) (h : g.Sound) (hi : i ∈ g.nodes.map (·.1)) : g.Walks [i] (g.preorder i) := by
  obtain ⟨d, hd, hdeep⟩ := hl.noDeeper h hi
  have := Walks.preorderTo hdeep hd .done
  rwa [List.append_nil] at this

end Walking

section Spreading

theorem mem_children {level : List NodeId} :
    c ∈ level.flatMap (fun j => (g.outgoing j).map (·.child)) ↔ ∃ e ∈ g.edges, e.parent ∈ level ∧ e.child = c := by
  simp only [List.mem_flatMap, List.mem_map, mem_outgoing]
  constructor
  · rintro ⟨_, hj, e, ⟨he, rfl⟩, rfl⟩
    exact ⟨e, he, hj, rfl⟩
  · rintro ⟨e, he, hp, rfl⟩
    exact ⟨e.parent, hp, e, ⟨he, rfl⟩, rfl⟩

/-- Where ways down are bounded, there are as many levels at most. -/
theorem spreads_of_bounded {level : List NodeId} {bound : Nat} (hb : ∀ i ∈ level, ∀ k j, g.Steps i k j → k < bound) :
    ∃ copied, g.Spreads level copied := by
  induction bound generalizing level with
  | zero =>
    cases level with
    | nil => exact ⟨[], .done⟩
    | cons i level => cases hb i List.mem_cons_self 0 i .here
  | succ bound ih =>
    cases level with
    | nil => exact ⟨[], .done⟩
    | cons i level =>
      obtain ⟨copied, h⟩ := @ih ((i :: level).flatMap fun j => (g.outgoing j).map (·.child)) fun c hc k j hk => by
        obtain ⟨e, he, hp, rfl⟩ := mem_children.1 hc
        exact Nat.lt_of_succ_lt_succ (hb _ hp _ _ (Steps.head he hk))
      exact ⟨_, .next h⟩

/-- What is copied is the level and all that is below it. -/
theorem Spreads.mem {level copied : List NodeId} (h : g.Spreads level copied) :
    j ∈ copied ↔ ∃ i ∈ level, g.Reaches i j := by
  induction h with
  | done => simp
  | @next i level copied _ ih =>
    rw [List.mem_append, ih]
    constructor
    · rintro (hj | ⟨c, hc, k, hk⟩)
      · exact ⟨j, hj, .refl g j⟩
      · obtain ⟨e, he, hp, rfl⟩ := mem_children.1 hc
        exact ⟨e.parent, hp, k + 1, Steps.head he hk⟩
    · rintro ⟨a, ha, k, hk⟩
      cases k with
      | zero =>
        cases hk
        exact .inl ha
      | succ k =>
        obtain ⟨e, he, rfl, hrest⟩ := hk.first
        exact .inr ⟨e.child, mem_children.2 ⟨e, he, ha, rfl⟩, k, hrest⟩

theorem Unshared.nodup_children (hu : g.Unshared) {level : List NodeId} (h : level.Nodup) :
    (level.flatMap fun j => (g.outgoing j).map (·.child)).Nodup := by
  refine List.nodup_flatMap.2 ⟨fun j _ => hu.sublist (List.filter_sublist.map _), h.imp fun hne c hc hc' => ?_⟩
  obtain ⟨e, he, rfl⟩ := List.mem_map.1 hc
  obtain ⟨e', he', heq⟩ := List.mem_map.1 hc'
  obtain ⟨hmem, rfl⟩ := mem_outgoing.1 he
  obtain ⟨hmem', rfl⟩ := mem_outgoing.1 he'
  exact hne (congrArg Edge.parent (hu.edge_eq hmem hmem' heq.symm))

theorem Spreads.nodup (hu : g.Unshared) (hi : ¬ g.Loops i) {level copied : List NodeId} (h : g.Spreads level copied)
    (hlevel : level.Nodup) (hk : ∀ j ∈ level, g.Steps i k j) : copied.Nodup := by
  induction h generalizing k with
  | done => exact .nil
  | @next a level copied hnext ih =>
    have hbelow : ∀ c ∈ (a :: level).flatMap (fun j => (g.outgoing j).map (·.child)), g.Steps i (k + 1) c := by
      intro c hc
      obtain ⟨e, he, hp, rfl⟩ := mem_children.1 hc
      exact (hk _ hp).down he
    refine List.nodup_append.2 ⟨hlevel, ih (hu.nodup_children hlevel) hbelow, fun x hx y hy hxy => ?_⟩
    subst hxy
    obtain ⟨c, hc, m, hm⟩ := hnext.mem.1 hy
    have := hu.steps_unique hi (hk x hx) ((hbelow c hc).trans hm)
    omega

theorem Loopless.spreads (hl : g.Loopless) (h : g.Sound) (hi : i ∈ g.nodes.map (·.1)) :
    ∃ copied, g.Spreads [i] copied ∧ copied.Perm (g.preorder i) := by
  obtain ⟨copied, hcopied⟩ := @spreads_of_bounded g [i] g.size fun a ha k j hk => by
    obtain rfl := List.mem_singleton.1 ha
    exact h.size_bound hi (hl a) hk
  obtain ⟨hnodup, hmem⟩ := h.unshared.preorder (hl i) fun _ => h.reached_mem hi
  have hlevel : ∀ j ∈ [i], g.Steps i 0 j := by simpa using Steps.here
  refine ⟨copied, hcopied, (List.perm_ext_iff_of_nodup ?_ hnodup).2 fun j => ?_⟩
  · exact hcopied.nodup h.unshared (hl i) (List.nodup_singleton i) hlevel
  · rw [hcopied.mem, hmem]
    simp

end Spreading

end Forest

/-- Trees that come from an empty one by steps that returned, none of which put a node below itself. -/
inductive Tree.Raised : Tree → Prop
  | new (sig : Signature) : Raised (.new sig)
  | add {t : Tree} (h : Raised t) (n : Node) : Raised (t.add n).2
  | setChild {t t' : Tree} {i new : NodeId} {slot : Nat} (h : Raised t) (hn : ¬ t.forest.Reaches new i)
      (hr : t.after (t.setChild i slot new) = some t') : Raised t'
  | setRoot {t t' : Tree} {i : NodeId} (h : Raised t) (hr : t.after (t.setRoot i) = some t') : Raised t'
  | detach {t : Tree} (h : Raised t) (i : NodeId) : Raised (t.detach i).2
  | take {t : Tree} {i : NodeId} (h : Raised t) (hi : t.forest.node? i ≠ none) : Raised (t.take i).2
  | prune {t : Tree} (h : Raised t) (i : NodeId) : Raised (t.prune i)
  | graft {t u : Tree} {i : NodeId} {s : Subtree} (h : Raised t) (hu : Raised u) (hi : u.forest.node? i ≠ none)
      (hs : s = (u.take i).1 ∨ s = u.forest.cutting i) : Raised (t.graft s).2

namespace Tree

variable {t : Tree} {i new : NodeId} {slot : Nat}

theorem Raised.grown_loopless (h : t.Raised) : t.Grown ∧ t.forest.Loopless := by
  induction h with
  | new sig =>
    refine ⟨.new sig, fun i ⟨k, hk⟩ => ?_⟩
    obtain ⟨e, he, -⟩ := hk.first
    cases he
  | add _ n ih => exact ⟨ih.1.add n, ih.2.of_subset fun _ he => he⟩
  | setChild _ hn hr ih =>
    refine ⟨ih.1.setChild hr, after_some (P := fun t => t.forest.Loopless) hr ih.2 fun r hr => ?_⟩
    obtain ⟨-, r', hr', rfl⟩ := setChild_ok.1 hr
    exact (ih.1.sound.forest.loopless_setChild_iff ih.2 hr').2 hn
  | setRoot _ hr ih =>
    refine ⟨ih.1.setRoot hr, after_some (P := fun t => t.forest.Loopless) hr ih.2 fun r hr => ?_⟩
    obtain ⟨_, -, -, -, rfl⟩ := setRoot_ok.1 hr
    exact ih.2
  | detach _ i ih => exact ⟨ih.1.detach i, ih.2.of_subset fun _ he => List.eraseP_sublist.subset he⟩
  | take _ hi ih =>
    exact ⟨ih.1.take hi (ih.2.ends ih.1.sound.forest _), ih.2.of_subset fun _ he => (Forest.mem_without.1 he).1⟩
  | prune _ i ih =>
    exact ⟨ih.1.prune (ih.2.ends ih.1.sound.forest i), ih.2.of_subset fun _ he => (Forest.mem_without.1 he).1⟩
  | graft _ _ hi hs ih ihu =>
    refine ⟨ih.1.graft ihu.1 hi (ihu.2.ends ihu.1.sound.forest _) hs, ih.2.graft ih.1.sound.forest ?_⟩
    obtain rfl := hs.elim id id
    exact ihu.2.of_subset fun _ he => (Forest.mem_restrict.1 he).1

end Tree

/-- Where no node was ever put below itself, every way up from a node, attached or not, ends after fewer steps than
there are nodes, as many as `depth` counts; the walk that lists what is below it ends with its pre-order, and a copy
goes through the same nodes. It takes only one child put below itself to lose this: then some node has no end above
it, and none below. -/
theorem raised_climbs {t : Tree} (h : t.Raised) :
    (∀ i, t.forest.node? i ≠ none →
      t.forest.depth i < t.forest.size ∧
      (∃ top, t.forest.Climbs i (t.forest.depth i) top ∧ t.forest.parent? top = none) ∧
      t.forest.Walks [i] (t.forest.preorder i) ∧
      ∃ copied, t.forest.Spreads [i] copied ∧ copied.Perm (t.forest.preorder i)) ∧
    (∀ i, t.root = some i → t.forest.Walks [i] t.nodes) ∧
    ∀ i slot new r, t.setChild i slot new = .ok r →
      ((∃ j, r.2.forest.node? j ≠ none ∧ (∀ k top, ¬ r.2.forest.Climbs j k top) ∧
        ∀ listed, ¬ r.2.forest.Walks [j] listed) ↔ t.forest.Reaches new i) := by
  obtain ⟨hgrown, hl⟩ := h.grown_loopless
  have hs := hgrown.sound
  have live : ∀ {g : Forest} {i : NodeId}, g.node? i ≠ none → i ∈ g.nodes.map (·.1) := fun hi =>
    Forest.mem_numbers.2 (Option.ne_none_iff_exists'.1 hi)
  refine ⟨fun i hi => ?_, fun i hi => ?_, fun i slot new r hr => ?_⟩
  · obtain ⟨hlt, top, hclimb⟩ := hl.climbs_depth hs.forest (live hi)
    exact ⟨hlt, ⟨top, hclimb, hclimb.parentless⟩, hl.walks hs.forest (live hi), hl.spreads hs.forest (live hi)⟩
  · rw [Tree.nodes, hi]
    exact hl.walks hs.forest (hs.root_mem hi)
  · have hsound := (hs.setChild hr).forest
    obtain ⟨-, r', hr', rfl⟩ := Tree.setChild_ok.1 hr
    refine Iff.trans ?_ ((not_congr (hs.forest.loopless_setChild_iff hl hr')).trans Classical.not_not)
    constructor
    · rintro ⟨j, hj, hclimb, -⟩ hloopless
      obtain ⟨k, top, hk⟩ := Forest.Loopless.climbs hloopless hsound (live hj)
      exact hclimb k top hk
    · intro hloop
      obtain ⟨j, hj⟩ := not_forall_not.1 hloop
      obtain ⟨k, hk⟩ := id hj
      obtain ⟨e, he, rfl, -⟩ := hk.first
      refine ⟨e.parent, ?_, fun k top hclimb => hclimb.not_loops hsound.unshared hj, fun listed hwalk => ?_⟩
      · obtain ⟨n, hn⟩ := Forest.mem_numbers.1 (hsound.parent_mem he)
        simp [hn]
      · exact (hwalk.ends _ List.mem_cons_self).not_loops hj

namespace Knotted

/-- One node below another, and no root. -/
def chain : Tree where
  signature := ⟨none, .int, [], []⟩
  forest := ⟨[(1, .progn .int 2), (0, .progn .int 2)], [⟨0, 1, 1⟩], 2⟩
  root := none

def knot : Tree := { chain with forest := { chain.forest with edges := [⟨1, 0, 0⟩, ⟨0, 1, 1⟩] } }

theorem raised_chain : chain.Raised := by
  have nodes := ((Tree.Raised.new chain.signature).add (.progn .int 2)).add (.progn .int 2)
  refine @Tree.Raised.setChild _ _ 0 1 1 nodes ?_ rfl
  rintro ⟨k, hk⟩
  rcases hk.last with ⟨-, h⟩ | ⟨-, _, -, he, -⟩
  · cases h
  · cases he

theorem setChild_knot : chain.setChild 1 0 0 = .ok (none, knot) := rfl

theorem loops_knot (i : NodeId) (hi : i < 2) : knot.forest.Loops i := by
  have down : knot.forest.Steps 0 1 1 := .down (e := ⟨0, 1, 1⟩) .here (by decide)
  have back : knot.forest.Steps 1 1 0 := .down (e := ⟨1, 0, 0⟩) .here (by decide)
  match i, hi with
  | 0, _ => exact ⟨1, down.trans back⟩
  | 1, _ => exact ⟨1, back.trans down⟩

end Knotted

/-- The one node is found in one step, and from either of them there is no way out once the other is below it. -/
theorem raised_climbs_chain : Knotted.chain.Raised ∧ Knotted.chain.forest.node? 1 ≠ none ∧
    Knotted.chain.forest.depth 1 = 1 ∧ (∃ top, Knotted.chain.forest.Climbs 1 1 top) ∧
    Knotted.chain.forest.Walks [0] [0, 1] ∧ Knotted.chain.setChild 1 0 0 = .ok (none, Knotted.knot) ∧
    ∃ j, Knotted.knot.forest.node? j ≠ none ∧ (∀ k top, ¬ Knotted.knot.forest.Climbs j k top) ∧
      ∀ listed, ¬ Knotted.knot.forest.Walks [j] listed := by
  obtain ⟨hup, -, hdown⟩ := raised_climbs Knotted.raised_chain
  obtain ⟨-, ⟨top, hclimb, -⟩, -⟩ := hup 1 (by decide)
  obtain ⟨-, -, hwalk, -⟩ := hup 0 (by decide)
  have hbelow : Knotted.chain.forest.Reaches 0 1 := ⟨1, .down (e := ⟨0, 1, 1⟩) .here (by decide)⟩
  exact ⟨Knotted.raised_chain, by decide, rfl, ⟨top, hclimb⟩, hwalk, Knotted.setChild_knot,
    (hdown 1 0 0 _ Knotted.setChild_knot).2 hbelow⟩

/-- A tree that was grown by steps that returned, and in which no way up ends. -/
theorem knot_without_top : Knotted.knot.Grown ∧ (∀ i, Knotted.knot.forest.node? i ≠ none ↔ i < 2) ∧
    ∀ i < 2, ∀ k top, ¬ Knotted.knot.forest.Climbs i k top := by
  have hset : Knotted.chain.after (Knotted.chain.setChild 1 0 0) = some Knotted.knot := rfl
  have hgrown : Knotted.knot.Grown := .setChild Knotted.raised_chain.grown_loopless.1 hset
  refine ⟨hgrown, fun i => ?_, fun i hi k top hclimb => ?_⟩
  · match i with
    | 0 | 1 => decide
    | i + 2 => simp [Knotted.knot, Knotted.chain, Forest.node?, List.lookup_cons]
  · exact hclimb.not_loops hgrown.sound.forest.unshared (Knotted.loops_knot i hi)

end Grove
