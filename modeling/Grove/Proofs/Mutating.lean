import Grove.Proofs.Selecting
import Grove.Proofs.Sprouting

/-! Mutations. A mutation of a valid tree puts a new subtree in the place of one of its own, and leaves the rest as it
was. What grows is accepted wherever the node stands that it replaces, so a mutation is refused only where there is no
candidate to grow from, and then nothing has changed. -/

namespace Grove

namespace Forest

variable {g g' : Forest} {s : Subtree} {r i j : NodeId} {room : Nat} {e : Term}

theorem Transplanted.denotes_moved (h : g.Full r) (ht : g.Transplanted i s g')
    (hd : (s.forest.shapeTo room j).Denotes e) : (g'.shapeTo room (j + g.fresh)).Denotes e := by
  induction room generalizing j e with
  | zero => cases hd
  | succ room ih =>
    obtain ⟨_, n, kids, hroom, rfl, hn, hstray, -, hkids⟩ := shapeTo_denotes hd
    cases hroom
    have hnode : g'.node? (j + g.fresh) = some n := (ht.moved j).trans hn
    have hchild : ∀ slot : Fin n.arity, ∃ c, g'.child? (j + g.fresh) slot = some (c + g.fresh) ∧
        (s.forest.shapeTo room c).Denotes (kids slot) := by
      intro slot
      obtain ⟨c, hc, hkid⟩ := hkids slot
      exact ⟨c, ht.sound.child?_eq_some.2 ((ht.edges _).2 (.inr (.inl ⟨_, child?_mem hc, rfl⟩))), hkid⟩
    have hflaw : g'.flaw? (j + g.fresh) = none := by
      have ha : g'.arity (j + g.fresh) = n.arity := by simp [arity, hnode]
      rw [flaw?_eq_none, ha]
      refine ⟨fun e he hp => ?_, fun slot hslot => ?_⟩
      · rcases ht.parent_mem h he with hold | ⟨e', he', rfl⟩
        · exact absurd hp.symm (h.sound.ne_moved hold j)
        · exact hstray e' he' (Nat.add_right_cancel hp)
      · obtain ⟨c, hc, -⟩ := hchild ⟨slot, hslot⟩
        exact ⟨_, hc⟩
    rw [shapeTo_filled hnode hflaw]
    refine .node fun slot => ?_
    obtain ⟨c, hc, hkid⟩ := hchild slot
    rw [hc]
    exact ih hkid

theorem Transplanted.size_le (hs : s.forest.Sound) (ht : g.Transplanted i s g') : s.forest.size ≤ g'.size := by
  have hnodup : ((s.forest.nodes.map (·.1)).map (· + g.fresh)).Nodup := hs.numbers.map fun _ _ => Nat.add_right_cancel
  have hsub : (s.forest.nodes.map (·.1)).map (· + g.fresh) ⊆ g'.nodes.map (·.1) := by
    intro j hj
    obtain ⟨j', hj', rfl⟩ := List.mem_map.1 hj
    rw [mem_numbers, ht.moved]
    exact mem_numbers.1 hj'
  simpa [Forest.size] using (List.subperm_of_subset hnodup hsub).length_le

theorem Transplanted.denotes_term (h : g.Full r) (hs : e.subtree.forest.Sound) (ht : g.Transplanted i e.subtree g') :
    (g'.shape g.fresh).Denotes e := by
  obtain ⟨-, planted⟩ := plant_spec e bounded_empty
  have hsize : e.size ≤ g'.size := e.size_subtree ▸ ht.size_le hs
  have hd : (e.subtree.forest.shapeTo g'.size 0).Denotes e := by
    have hshape : e.subtree.forest.shapeTo g'.size 0 = e.numbered 0 := planted.shape _ hsize
    rw [hshape]
    exact e.denotes_numbered 0
  have := ht.denotes_moved h hd
  rwa [Nat.zero_add] at this

end Forest

namespace Tree

/-- A tree after a mutation at a node. What has grown from the catalog stands in the place of the node's subtree, under
the next number, and is as high as there was room for below the depth of the node. -/
structure Mutated (c : NodeCatalog) (maxDepth : Nat) (t : Tree) (i : NodeId) (n : Node) (t' : Tree) : Prop where
  signature : t'.signature = t.signature
  root : t'.root = if t.root = some i then some t.forest.fresh else t.root
  grown : ∃ e, (t'.forest.shape t.forest.fresh).Denotes e ∧ e.For t.signature (maxDepth - t.forest.depth i) n.returns ∧
    e.MadeFrom c ∧ t.forest.Transplanted i e.subtree t'.forest
  valid : t'.ValidFor t.signature
  bounded : t'.forest.Bounded
  low : t.Low maxDepth → t'.Low maxDepth

variable {σ : Type} [WordSource σ] {t : Tree} {g : Generator σ} {select : Tree → Draw σ (Option NodeId)}
    {maxDepth : Nat}
  {r i : NodeId} {n : Node} {s s₁ : σ} {broken : Violation → Prop}

theorem mutate_eq (hs : select t s = .ok (some i, s₁)) (hn : t.forest.node? i = some n) :
    t.mutate g select maxDepth s = t.settle i
      ((g.subtree t.signature .grow (maxDepth - t.forest.depth i) n.returns).run (t.forest, s₁)) := by
  unfold mutate
  rw [hs]
  dsimp only
  rw [hn]

theorem mutate_lacks (hs : select t s = .ok (some i, s₁)) (hn : t.forest.node? i = some n)
    (h : g.catalog.candidates t.signature n.returns (maxDepth - t.forest.depth i = 0) = []) :
    t.mutate g select maxDepth s =
      (t, .ok (.error (.noCandidate n.returns (maxDepth - t.forest.depth i = 0)), s₁)) := by
  rw [mutate_eq hs hn, Generator.subtree_lacks h]
  rfl

theorem Standing.mutated {g' : Forest} {e : Term} {c : NodeCatalog} (h : t.Standing r) (hv : t.ValidFor t.signature)
    (hi : i ∈ t.forest.nodes.map (·.1)) (he : e.For t.signature (maxDepth - t.forest.depth i) n.returns)
    (hmade : e.MadeFrom c) (hsuits : t.forest.Suits i e.subtree) (ht : t.forest.Transplanted i e.subtree g') :
    t.Mutated c maxDepth i n ⟨t.signature, g', some (t.forest.rootAfter r i e.subtree)⟩ := by
  have hs := Term.within_subtree he.wellTyped he.declared he.low
  have hnew : e.subtree.root + t.forest.fresh = t.forest.fresh := by
    rw [show e.subtree.root = 0 from (Forest.plant_spec e Forest.bounded_empty).1, Nat.zero_add]
  refine ⟨rfl, ?_, ⟨e, ht.denotes_term h.whole.full hs.whole.sound, he, hmade, ht⟩, ?_, ht.sound.bounded,
    fun hlow => ?_⟩
  · dsimp only
    rw [h.root, Forest.rootAfter, hnew]
    by_cases hir : i = r
    · rw [if_pos hir, if_pos (congrArg some hir.symm)]
    · rw [if_neg hir, if_neg fun heq => hir (Option.some.inj heq).symm]
  · exact h.transplant_valid ht hi hsuits hs.whole hs.declared hv
  · have hdepth := h.low_iff.1 hlow _ i (h.whole.steps_depth hi)
    exact h.transplant_low ht hi hsuits hs.whole hs.shallow (Nat.le_of_eq (Nat.add_sub_of_le hdepth)) hlow

section

variable (hlit : ∀ b, b ≠ .any → Gives broken (g.literal b) fun v => v.base = b)
include hlit

/-- A mutation at a node with candidates puts there what has grown, unless it breaks off as a literal does. -/
theorem Standing.mutate_grows (h : t.Standing r) (hs : select t s = .ok (some i, s₁)) (hn : t.forest.node? i = some n)
    (hcandidates : g.catalog.candidates t.signature n.returns (maxDepth - t.forest.depth i = 0) ≠ []) :
    (∃ (e : Term) (g' : Forest) (s₂ : σ),
      e.For t.signature (maxDepth - t.forest.depth i) n.returns ∧ e.MadeFrom g.catalog ∧
        t.forest.Suits i e.subtree ∧ t.forest.Transplanted i e.subtree g' ∧ t.mutate g select maxDepth s =
          (⟨t.signature, g', some (t.forest.rootAfter r i e.subtree)⟩, .ok (.ok (), s₂))) ∨
      ∃ t' v, t.mutate g select maxDepth s = (t', .error v) ∧ broken v := by
  rw [mutate_eq hs hn]
  rcases Generator.subtree_grows hlit h.whole.sound.enclosed hcandidates s₁ with
    ⟨new, forest, s₂, hrun, e, ⟨he, hmade⟩, hplant⟩ | ⟨v, forest, hrun, hv⟩
  · have hsuits : t.forest.Suits i e.subtree := by
      intro n' m hn' hm
      obtain rfl := Option.some.inj (hn.symm.trans hn')
      obtain rfl := Option.some.inj (e.label_subtree.symm.trans hm)
      exact he.accepted
    have hwhole := (Term.within_subtree he.wellTyped he.declared he.low).whole
    obtain ⟨g', hg', hregrow⟩ := h.regrow (Forest.mem_numbers.2 ⟨n, hn⟩) hwhole hsuits
    refine .inl ⟨e, g', s₂, he, hmade, hsuits, hg', ?_⟩
    rw [Tree.regrow, hplant] at hregrow
    rw [hrun, settle, hregrow]
  · rw [hrun]
    exact .inr ⟨_, v, rfl, hv⟩

/-- A mutation of a valid tree at a node that the root reaches changes nothing where there is no candidate to grow from,
and that is the only case in which it is refused. Else it succeeds: the new subtree alone is other than before, and what
comes of it is valid again, unless drawing a literal breaks off. -/
theorem mutate_exact (select : Tree → Draw σ (Option NodeId)) (maxDepth : Nat) (hv : t.ValidFor t.signature)
    (hb : t.forest.Bounded) (hs : select t s = .ok (some i, s₁)) (hi : i ∈ t.nodes) : ∃ n, t.forest.node? i = some n ∧
      (g.catalog.candidates t.signature n.returns (maxDepth - t.forest.depth i = 0) = [] →
        t.mutate g select maxDepth s =
          (t, .ok (.error (.noCandidate n.returns (maxDepth - t.forest.depth i = 0)), s₁))) ∧
      (g.catalog.candidates t.signature n.returns (maxDepth - t.forest.depth i = 0) ≠ [] →
        (∃ t' s₂, t.mutate g select maxDepth s = (t', .ok (.ok (), s₂)) ∧ t.Mutated g.catalog maxDepth i n t') ∨
          ∃ t' v, t.mutate g select maxDepth s = (t', .error v) ∧ broken v) := by
  obtain ⟨r, h⟩ := intact_iff.1 (hv.intact hb)
  have hi := h.mem_nodes.1 hi
  obtain ⟨n, hn⟩ := Forest.mem_numbers.1 hi
  refine ⟨n, hn, mutate_lacks hs hn, fun hcandidates => ?_⟩
  rcases h.mutate_grows hlit hs hn hcandidates with ⟨e, g', s₂, he, hmade, hsuits, hg', heq⟩ | hbroken
  · exact .inl ⟨_, s₂, heq, h.mutated hv hi he hmade hsuits hg'⟩
  · exact .inr hbroken

end

def onePlusOne : Term := .node (.arithmetic .add .int) fun _ => .node (.const (.int 1)) nofun

theorem mutate_exact_onePlusOne : (planted Generator.integer onePlusOne).ValidFor Generator.integer ∧
    1 ∈ (planted Generator.integer onePlusOne).nodes ∧
    ∃ t' s', (planted Generator.integer onePlusOne).mutate Generator.zeroSums (fun _ => return some 1) 2
        (XorShift.ofSeed 7) = (t', .ok (.ok (), s')) ∧
      (planted Generator.integer onePlusOne).Mutated Generator.zeroSums.catalog 2 1 (.const (.int 1)) t' := by
  have hv : (planted Generator.integer onePlusOne).ValidFor Generator.integer :=
    validFor_planted ⟨by decide, by decide, by decide⟩
  have hb := (Forest.plant_spec onePlusOne Forest.bounded_empty).2.bounded
  have hi : 1 ∈ (planted Generator.integer onePlusOne).nodes := by decide
  obtain ⟨n, hn, -, hmutate⟩ :=
    mutate_exact (s := XorShift.ofSeed 7) Generator.zeroSums_literal (fun _ => return some 1) 2 hv hb rfl hi
  obtain rfl : Node.const (.int 1) = n := Option.some.inj hn
  exact ⟨hv, hi, (hmutate (by decide)).resolve_right fun ⟨_, _, _, hbroken⟩ => hbroken⟩

end Tree
end Grove
