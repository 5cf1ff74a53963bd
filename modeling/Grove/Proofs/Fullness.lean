import Grove.Proofs.InPlace
import Grove.Proofs.Swapping
import Grove.Random.XorShift

/-! Full trees. A branch of a tree that was grown in full ends above the greatest depth only where it must: in a
position for whose type no candidate has slots. Nothing is assumed of the literals. -/

namespace Grove

/-- Leaves that stand in the term with some of the budget left are in positions of this kind. -/
def Term.Late (ends : Ty → Prop) : Term → (budget : Nat) → Ty → Prop
  | .node n kids, budget, ty => (n.isLeaf = true → 0 < budget → ends ty) ∧
    ∀ slot, (kids slot).Late ends (budget - 1) (n.slotType slot)

/-- No candidate for a position of the type has slots. -/
def NodeCatalog.Ends (c : NodeCatalog) (sig : Signature) (ty : Ty) : Prop :=
  ∀ m ∈ c.candidates sig ty false, m.isLeaf = true

theorem GrowthMethod.leaf_of_full {candidates : List Node} {n : Node} (h : n ∈ full.narrow candidates)
    (hleaf : n.isLeaf = true) : ∀ m ∈ candidates, m.isLeaf = true := by
  unfold narrow at h
  dsimp only at h
  split at h
  · rename_i hinner
    intro m hm
    have := List.filter_eq_nil_iff.1 (List.isEmpty_iff.1 hinner) m hm
    simpa using this
  · have := (List.mem_filter.1 h).2
    simp [hleaf] at this

namespace Generator

variable {σ : Type} [WordSource σ] (g : Generator σ) (sig : Signature)

omit [WordSource σ] in
theorem fresh_arity (p : Node) : Gives (fun _ => True) (g.fresh p) fun n => n.arity = p.arity := by
  have hany : ∀ b, Gives (fun _ => True) (g.literal b) fun _ => True := fun _ => ⟨fun _ => trivial, fun _ => trivial⟩
  cases p with
  | const v => exact (hany v.base).bind fun _ _ => .pure rfl
  | _ => exact .pure rfl

theorem term_late (budget : Nat) (ty : Ty) : Offers (fun _ => True) (g.term sig .full budget ty)
    fun e => e.Late (g.catalog.Ends sig) budget ty ∧ e.WellTyped := by
  induction budget generalizing ty with
  | zero =>
    refine ((node_gives g sig .full g.fresh_arity 0 ty).mono (fun _ _ => trivial) fun _ hn => hn).bind fun n _ => ?_
    have hslots : ∀ slot < n.arity, Offers (fun _ => True) (.lift (Draw.violate .budgetSpent) : Attempt σ Term)
        fun _ => False := fun _ _ => .lift (.throw trivial)
    refine (Term.fill_settles hslots fun _ _ _ _ _ => trivial).mono (fun _ h => h) ?_
    rintro _ ⟨kids, rfl, hkids⟩
    exact ⟨⟨fun _ h => absurd h (Nat.lt_irrefl 0), fun slot => (hkids slot).2.elim⟩, fun slot => (hkids slot).2.elim⟩
  | succ budget ih =>
    refine ((node_gives g sig .full g.fresh_arity (budget + 1) ty).mono (fun _ _ => trivial) fun _ hn => hn).bind
      fun n hn => ?_
    obtain ⟨p, hp, harity⟩ := hn
    refine (Term.fill_settles (fun slot _ => ih (n.slotType slot)) fun _ _ _ _ _ => trivial).mono (fun _ h => h) ?_
    rintro _ ⟨kids, rfl, hkids⟩
    refine ⟨⟨fun hleaf _ => ?_, fun slot => (hkids slot).2.1⟩, fun slot => ⟨(hkids slot).1, (hkids slot).2.2⟩⟩
    rw [Node.isLeaf, harity] at hleaf
    exact GrowthMethod.leaf_of_full hp hleaf

end Generator

namespace Tree

variable {t : Tree} {sig : Signature} {e : Term} {r i : NodeId} {k budget : Nat} {ends : Ty → Prop}

theorem Standing.landing_root (h : t.Standing r) : t.landing r = .ok t.signature.returns := by
  rw [Tree.landing, Forest.parent?_eq_none.2 h.whole.top]

theorem Standing.landing_child {e : Edge} {n : Node} (h : t.Standing r) (he : e ∈ t.forest.edges)
    (hn : t.forest.node? e.parent = some n) : t.landing e.child = .ok (n.slotType e.slot) := by
  obtain ⟨ty, hty⟩ := landing_total h.whole.sound e.child
  rw [hty, landing_slot h.whole.sound.unshared he hn hty]

theorem Standing.late_below (h : t.Standing r) (he : t.Denotes e) (hlate : e.Late ends budget t.signature.returns)
    (hk : t.forest.Steps r k i) : ∃ room e' ty, (t.forest.shapeTo room i).Denotes e' ∧ t.landing i = .ok ty ∧
      e'.Late ends (budget - k) ty := by
  induction hk with
  | here => exact ⟨_, e, _, h.denotes_iff.1 he, h.landing_root, hlate⟩
  | @down k edge _ hedge ih =>
    obtain ⟨room, e', ty, hd, -, hl⟩ := ih
    obtain ⟨room', n, kids, -, rfl, hn, hstray, -, hkids⟩ := Forest.shapeTo_denotes hd
    have hslot := hstray edge hedge rfl
    obtain ⟨c, hc, hkid⟩ := hkids ⟨edge.slot, hslot⟩
    obtain rfl := Option.some.inj (hc.symm.trans (h.whole.sound.child?_eq_some.2 hedge))
    exact ⟨room', _, _, hkid, h.landing_child hedge hn, hl.2 ⟨edge.slot, hslot⟩⟩

end Tree

namespace Generator

variable {σ : Type} [WordSource σ] {g : Generator σ} {sig : Signature} {maxDepth : Nat} {s s' : σ} {t : Tree}
  {i : NodeId} {n : Node}

/-- In a tree that was grown in full every leaf above the greatest depth stands in a position, a slot or the root, for
whose type no candidate has slots. -/
theorem full_leaf_ends (h : (g.tree sig .full maxDepth).run s = .ok (.ok t, s')) (hn : t.forest.node? i = some n)
    (hleaf : n.isLeaf = true) (hdepth : t.forest.depth i < maxDepth) :
    ∃ ty, t.landing i = .ok ty ∧ ∀ m ∈ g.catalog.candidates sig ty false, m.isLeaf = true := by
  have htree : Offers (fun _ => True) (g.tree sig .full maxDepth) fun t => ∃ e, t = .planted sig e ∧
      sig.returns.accepts e.returns = true ∧ e.Late (g.catalog.Ends sig) maxDepth sig.returns ∧ e.WellTyped := by
    rw [tree_eq]
    refine (g.term_late sig maxDepth sig.returns).bind fun e he => .ofResult ?_
    cases h : Tree.ofTerm sig e with
    | error x => trivial
    | ok t =>
      obtain ⟨ha, rfl⟩ := Tree.ofTerm_ok.1 h
      exact ⟨e, rfl, ha, he⟩
  obtain ⟨e, rfl, ha, hlate, ht⟩ := htree.returns h
  obtain ⟨r, hr⟩ := Tree.intact_iff.1 (Tree.intact_of_wellTyped ha ht)
  have hk := hr.whole.steps_depth (Forest.mem_numbers.2 ⟨n, hn⟩)
  obtain ⟨room, e', ty, hd, hty, hl⟩ := hr.late_below (Tree.denotes_planted sig e) hlate hk
  obtain ⟨_, m, kids, -, rfl, hm, -⟩ := Forest.shapeTo_denotes hd
  obtain rfl := Option.some.inj (hn.symm.trans hm)
  exact ⟨ty, hty, hl.1 hleaf (Nat.sub_pos_of_lt hdepth)⟩

def comparisons : Generator XorShift where
  catalog := ⟨.standard, [("Const<int,1>", .const (.int 1)), ("Less<int>", .comparison .less .int)]⟩
  literal b := return (Value.default? b).getD (.bool false)

def comparison : Term := .node (.comparison .less .int) fun _ => .node (.const (.int 0)) nofun

theorem full_leaf_ends_comparison : ∃ s',
    (comparisons.tree ⟨none, .bool, [], []⟩ .full 2).run (XorShift.ofSeed 7) =
      .ok (.ok (.planted ⟨none, .bool, [], []⟩ comparison), s') ∧
    ∃ ty, (Tree.planted ⟨none, .bool, [], []⟩ comparison).landing 1 = .ok ty ∧
      ∀ m ∈ comparisons.catalog.candidates ⟨none, .bool, [], []⟩ ty false, m.isLeaf = true := by
  have htree : (comparisons.tree ⟨none, .bool, [], []⟩ .full 2).run (XorShift.ofSeed 7) =
    .ok (.ok (.planted ⟨none, .bool, [], []⟩ comparison), _) := rfl
  exact ⟨_, htree, full_leaf_ends (n := .const (.int 0)) htree rfl rfl (by decide)⟩

end Generator
end Grove
