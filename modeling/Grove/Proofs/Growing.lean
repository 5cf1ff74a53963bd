import Grove.Proofs.Arena

/-! Trees that are grown step by step. Each operation on a tree that returns leaves the arena in order and the
root on top, and therefore what the root reaches is a finite tree, however the tree was grown. -/

namespace Grove

/-- The tree after a step that returned. One that was refused changes nothing, and one that broke a promise did
not return. -/
def Tree.after {α : Type} (t : Tree) : Except Failure (α × Tree) → Option Tree
  | .ok (_, t') => some t'
  | .error (.refused _) => some t
  | .error (.violated _) => none

/-- Trees that come from an empty one by steps that returned. Going through a subtree returns if every way down
comes to an end. -/
inductive Tree.Grown : Tree → Prop
  | new (sig : Signature) : Grown (.new sig)
  | add {t : Tree} (h : Grown t) (n : Node) : Grown (t.add n).2
  | setChild {t t' : Tree} {i new : NodeId} {slot : Nat} (h : Grown t)
      (hr : t.after (t.setChild i slot new) = some t') : Grown t'
  | setRoot {t t' : Tree} {i : NodeId} (h : Grown t) (hr : t.after (t.setRoot i) = some t') : Grown t'
  | detach {t : Tree} (h : Grown t) (i : NodeId) : Grown (t.detach i).2
  | take {t : Tree} {i : NodeId} (h : Grown t) (hi : t.forest.node? i ≠ none) (he : t.forest.Ends i) :
      Grown (t.take i).2
  | prune {t : Tree} {i : NodeId} (h : Grown t) (he : t.forest.Ends i) : Grown (t.prune i)
  | graft {t u : Tree} {i : NodeId} {s : Subtree} (h : Grown t) (hu : Grown u) (hi : u.forest.node? i ≠ none)
      (he : u.forest.Ends i) (hs : s = (u.take i).1 ∨ s = u.forest.cutting i) : Grown (t.graft s).2

/-- The arena is in order, and the root is a node on top that the signature accepts. -/
structure Tree.Sound (t : Tree) : Prop where
  forest : t.forest.Sound
  root : ∀ i, t.root = some i → ∃ n, t.forest.node? i = some n ∧ t.signature.returns.accepts n.returns = true ∧
    ∀ e ∈ t.forest.edges, e.child ≠ i

namespace Forest

variable {g : Forest} {i j : NodeId}

theorem Sound.empty : Forest.empty.Sound :=
  ⟨List.nodup_nil, nofun, nofun, List.nodup_nil, List.nodup_nil⟩

theorem Sound.preorder (h : g.Sound) (hi : g.node? i ≠ none) (he : g.Ends i) :
    (g.preorder i).Nodup ∧ ∀ j, j ∈ g.preorder i ↔ g.Reaches i j :=
  h.unshared.preorder he.not_loops fun _ => h.reached_mem (mem_numbers.2 (Option.ne_none_iff_exists'.1 hi))

theorem Sound.cutting (h : g.Sound) (hi : g.node? i ≠ none) (he : g.Ends i) : (g.cutting i).forest.Sound := by
  obtain ⟨hnodup, hmem⟩ := h.preorder hi he
  refine h.restrict hnodup fun e he hp => ?_
  rw [hmem] at hp ⊢
  exact hp.down he

theorem Sound.ends_of_top (h : g.Sound) (hi : i ∈ g.nodes.map (·.1)) (ht : ∀ e ∈ g.edges, e.child ≠ i) : g.Ends i :=
  ends_of_bounded fun _ _ => h.unshared.steps_lt (not_loops_of_top ht) fun _ => h.reached_mem hi

end Forest

namespace Tree

variable {t : Tree} {i new : NodeId} {slot : Nat}

theorem setRoot_ok {r : Option NodeId × Tree} : t.setRoot i = .ok r ↔ ∃ n, t.forest.node? i = some n ∧
    t.signature.returns.accepts n.returns = true ∧ (∀ e ∈ t.forest.edges, e.child ≠ i) ∧
      r = (t.root, { t with root := some i }) := by
  unfold setRoot
  cases hn : t.forest.node? i with
  | none => exact ⟨nofun, fun ⟨_, h, _⟩ => by cases h⟩
  | some n =>
    rw [← Forest.hasParent_eq_false]
    simp only [Result.bind_ok, Result.liftError_ok, Option.some.injEq]
    constructor
    · rintro ⟨_, ha, h⟩
      cases hpar : t.forest.hasParent i <;> rw [hpar] at h
      · exact ⟨n, rfl, checkSlot_ok.1 ha, rfl, (Except.ok.inj h).symm⟩
      · cases h
    · rintro ⟨_, rfl, ha, hpar, rfl⟩
      rw [hpar]
      exact ⟨(), checkSlot_ok.2 ha, rfl⟩

theorem setChild_ok {r : Option NodeId × Tree} : t.setChild i slot new = .ok r ↔
    t.root ≠ some new ∧ ∃ r', t.forest.setChild i slot new = .ok r' ∧ r = (r'.1, { t with forest := r'.2 }) := by
  unfold setChild
  by_cases hr : some new = t.root
  · rw [if_pos hr]
    exact ⟨nofun, fun h => absurd hr.symm h.1⟩
  · rw [if_neg hr]
    change (t.forest.setChild i slot new >>= _) = _ ↔ _
    rw [Result.bind_ok]
    exact ⟨fun ⟨r', h, hr'⟩ => ⟨Ne.symm hr, r', h, (Except.ok.inj hr').symm⟩,
      fun ⟨_, r', h, hr'⟩ => ⟨r', h, hr' ▸ rfl⟩⟩

theorem after_some {α : Type} {P : Tree → Prop} {x : Except Failure (α × Tree)} {t' : Tree}
    (h : t.after x = some t') (hold : P t) (hnew : ∀ r, x = .ok r → P r.2) : P t' := by
  match x, h with
  | .ok r, h =>
    obtain rfl : r.2 = t' := Option.some.inj h
    exact hnew r rfl
  | .error (.refused _), h =>
    obtain rfl : t = t' := Option.some.inj h
    exact hold

theorem Sound.of_forest (h : t.Sound) {t' : Tree} (hsig : t'.signature = t.signature) (hf : t'.forest.Sound)
    (hroot : ∀ i, t'.root = some i → t.root = some i ∧ t'.forest.node? i = t.forest.node? i ∧
      ∀ e ∈ t'.forest.edges, e.child = i → ∃ e' ∈ t.forest.edges, e'.child = i) : t'.Sound where
  forest := hf
  root i hi := by
    obtain ⟨hr, hn, he⟩ := hroot i hi
    obtain ⟨n, hnode, ha, htop⟩ := h.root i hr
    refine ⟨n, hn.trans hnode, hsig ▸ ha, fun e hm hc => ?_⟩
    obtain ⟨e', hm', hc'⟩ := he e hm hc
    exact htop e' hm' hc'

theorem Sound.root_mem (h : t.Sound) (hi : t.root = some i) : i ∈ t.forest.nodes.map (·.1) := by
  obtain ⟨n, hn, -⟩ := h.root i hi
  exact Forest.mem_numbers.2 ⟨n, hn⟩

theorem Sound.add (h : t.Sound) (n : Node) : (t.add n).2.Sound :=
  h.of_forest rfl (h.forest.add n) fun i hi => by
    refine ⟨hi, ?_, fun e he hc => ⟨e, he, hc⟩⟩
    change (t.forest.add n).2.node? i = _
    rw [Forest.node?_add, if_neg (Nat.ne_of_lt (h.forest.fresh i (h.root_mem hi)))]

theorem Sound.setChild (h : t.Sound) {r : Option NodeId × Tree} (hr : t.setChild i slot new = .ok r) : r.2.Sound := by
  obtain ⟨hne, r', hr', rfl⟩ := setChild_ok.1 hr
  have hs := h.forest.setChild hr'
  obtain ⟨-, -, rfl⟩ := Forest.setChild_ok.1 hr'
  refine h.of_forest rfl hs fun j hj => ⟨hj, ?_, fun e he hc => ?_⟩
  · exact congrFun (Forest.node?_vacate t.forest i slot) j
  · rcases List.mem_cons.1 he with rfl | he
    · exact absurd (hj.trans (congrArg some hc.symm)) hne
    · exact ⟨e, (h.forest.mem_vacate.1 he).1, hc⟩

theorem Sound.setRoot (h : t.Sound) {r : Option NodeId × Tree} (hr : t.setRoot i = .ok r) : r.2.Sound := by
  obtain ⟨n, hn, ha, htop, rfl⟩ := setRoot_ok.1 hr
  refine ⟨h.forest, fun j hj => ?_⟩
  obtain rfl := Option.some.inj hj
  exact ⟨n, hn, ha, htop⟩

theorem Sound.detach (h : t.Sound) (i : NodeId) : (t.detach i).2.Sound :=
  h.of_forest rfl (h.forest.unlink i) fun _ hj => ⟨hj, rfl, fun e he hc => ⟨e, List.eraseP_sublist.subset he, hc⟩⟩

theorem Sound.prune (h : t.Sound) (i : NodeId) : (t.prune i).Sound := by
  refine h.of_forest rfl (h.forest.without _) fun j hj => ?_
  obtain ⟨hroot, hne⟩ : t.root = some j ∧ j ≠ i := by
    simpa [Tree.prune, rootWithout, Option.filter_eq_some_iff] using hj
  obtain ⟨-, -, -, htop⟩ := h.root j hroot
  have hout : j ∉ t.forest.preorder i := fun hm =>
    hne ((h.forest.unshared.reaches_of_mem_preorder hm).eq_of_top htop)
  refine ⟨hroot, ?_, fun e he hc => ⟨e, (Forest.mem_without.1 he).1, hc⟩⟩
  change (t.forest.without _).node? j = _
  rw [Forest.node?_without, if_neg hout]

theorem Sound.graft (h : t.Sound) {s : Subtree} (hs : s.forest.Sound) : (t.graft s).2.Sound :=
  h.of_forest rfl (h.forest.graft hs) fun i hi => by
    have hlt := h.forest.fresh i (h.root_mem hi)
    refine ⟨hi, h.forest.node?_graft_old s hlt, fun e he hc => ?_⟩
    · rcases Forest.mem_graft.1 he with he | ⟨e', -, rfl⟩
      · exact ⟨e, he, hc⟩
      · exact absurd hlt (Nat.not_lt_of_le (hc ▸ Nat.le_add_left _ _))

theorem Grown.sound (h : t.Grown) : t.Sound := by
  induction h with
  | new sig => exact ⟨.empty, nofun⟩
  | add _ n ih => exact ih.add n
  | setChild _ hr ih => exact after_some hr ih fun _ => ih.setChild
  | setRoot _ hr ih => exact after_some hr ih fun _ => ih.setRoot
  | detach _ i ih => exact ih.detach i
  | take _ hi he ih => exact ih.prune _
  | prune _ he ih => exact ih.prune _
  | @graft t u i s _ _ hi he hs ih ihu =>
    obtain rfl : s = u.forest.cutting i := hs.elim id id
    exact ih.graft (ihu.forest.cutting hi he)

end Tree

/-- However a tree was grown, its edges fit, a slot holds one child, a node has one parent, the root stands on top
and is accepted by the signature, and what it reaches is a finite tree, of which `nodes` lists each node once. -/
theorem grown_inOrder {t : Tree} (h : t.Grown) :
    (∀ e ∈ t.forest.edges, t.forest.Fits e) ∧
    (t.forest.edges.map fun e => (e.parent, e.slot)).Nodup ∧
    (t.forest.edges.map (·.child)).Nodup ∧
    ∀ i, t.root = some i →
      (∃ n, t.forest.node? i = some n ∧ t.signature.returns.accepts n.returns = true) ∧
      t.forest.parent? i = none ∧ t.forest.Ends i ∧
      t.nodes.Nodup ∧ ∀ j, j ∈ t.nodes ↔ t.forest.Reaches i j := by
  have hs := h.sound
  refine ⟨hs.forest.fits, hs.forest.slots, hs.forest.unshared, fun i hi => ?_⟩
  obtain ⟨n, hn, ha, htop⟩ := hs.root i hi
  have hends := hs.forest.ends_of_top (hs.root_mem hi) htop
  have hpre := hs.forest.preorder (by simp [hn]) hends
  have hnodes : t.nodes = t.forest.preorder i := by rw [Tree.nodes, hi, Option.elim_some]
  have hpar : t.forest.parent? i = none := by simpa [Forest.hasParent] using Forest.hasParent_eq_false.2 htop
  exact ⟨⟨n, hn, ha⟩, hpar, hends, hnodes ▸ hpre⟩

def singleTree : Tree where
  signature := ⟨none, .int, [], []⟩
  forest := ⟨[(1, .const (.int 1)), (0, .arithmetic .add .int)], [⟨0, 0, 1⟩], 2⟩
  root := some 0

def pairTree : Tree where
  signature := ⟨none, .int, [], []⟩
  forest := ⟨[(3, .const (.int 1)), (1, .const (.int 1)), (0, .arithmetic .add .int)], [⟨0, 1, 3⟩, ⟨0, 0, 1⟩], 4⟩
  root := some 0

theorem grown_inOrder_pair : pairTree.Grown ∧ pairTree.nodes = [0, 1, 3] ∧ pairTree.nodes.Nodup ∧
    ∀ j, j ∈ pairTree.nodes ↔ pairTree.forest.Reaches 0 j := by
  have single : singleTree.Grown := by
    have sum := ((Tree.Grown.new ⟨none, .int, [], []⟩).add (.arithmetic .add .int)).add (.const (.int 1))
    have hung := sum.setChild (show Tree.after _ (Tree.setChild _ 0 0 1) = some _ from rfl)
    exact hung.setRoot (i := 0) rfl
  have leaf : singleTree.forest.Ends 1 := .node fun e he hp => by
    obtain rfl := List.mem_singleton.1 he
    cases hp
  have grafted := single.graft single (i := 1) (by decide) leaf (.inr rfl)
  have pair : pairTree.Grown := grafted.setChild (show Tree.after _ (Tree.setChild _ 0 1 3) = some _ from rfl)
  obtain ⟨-, -, -, h⟩ := grown_inOrder pair
  obtain ⟨-, -, -, hlist⟩ := h 0 rfl
  exact ⟨pair, by decide, hlist⟩

end Grove
