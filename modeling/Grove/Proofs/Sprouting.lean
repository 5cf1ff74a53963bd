import Grove.Proofs.InPlace
import Grove.Random.XorShift

/-! Sprouts. A subtree that grows in a forest is well formed and leaves alone what stands there. Growing is refused only
at the start, for want of a candidate: every slot of a node that is drawn has candidates, and what grows for it can be
hung in it. So a tree that a generator makes is valid for its signature. -/

namespace Grove

/-- Growing in a forest comes to something of this kind, unless it breaks off in this way. -/
def Sprouting.Grows {σ α : Type} (broken : Violation → Prop)
    (r : Except (Violation × Forest) (Except Error α × (Forest × σ))) (P : α → Forest → Prop) : Prop :=
  (∃ a G s, r = .ok (.ok a, (G, s)) ∧ P a G) ∨ ∃ v G, r = .error (v, G) ∧ broken v

theorem Sprouting.Grows.mono {σ α : Type} {broken : Violation → Prop}
    {r : Except (Violation × Forest) (Except Error α × (Forest × σ))} {P P' : α → Forest → Prop}
    (h : Sprouting.Grows broken r P) (hp : ∀ a G, P a G → P' a G) : Sprouting.Grows broken r P' :=
  h.imp (fun ⟨a, G, s, hr, ha⟩ => ⟨a, G, s, hr, hp a G ha⟩) id

theorem Sprouting.Grows.not_refused {σ α : Type} {broken : Violation → Prop}
    {r : Except (Violation × Forest) (Except Error α × (Forest × σ))} {P : α → Forest → Prop}
    (h : Sprouting.Grows broken r P) (e : Error) (st : Forest × σ) : r ≠ .ok (.error e, st) := by
  rcases h with ⟨a, G, s, rfl, -⟩ | ⟨v, G, rfl, -⟩ <;> nofun

/-- A subtree for a position that has grown in the forest, and hangs nowhere. What stood in the forest before is as it
was, under smaller numbers. -/
structure Forest.Sprouted (c : NodeCatalog) (sig : Signature) (budget : Nat) (ty : Ty) (G : Forest) (i : NodeId)
    (G' : Forest) : Prop where
  loose : G'.parent? i = none
  term : ∃ e, (G'.shape i).Denotes e ∧ e.For sig budget ty ∧ e.MadeFrom c
  height : ∃ h, G'.height i = .ok h ∧ h ≤ budget
  apart : ∀ j ∈ (G'.shape i).ids, G.fresh ≤ j
  nodes : ∃ new, G'.nodes = new ++ G.nodes ∧ (new.map (·.1)).Perm (G'.shape i).ids
  edges : ∃ new, G'.edges = new ++ G.edges ∧ ∀ e ∈ new, e.parent ∈ (G'.shape i).ids ∧ e.child ∈ (G'.shape i).ids

namespace Forest

variable {G : Forest} {c : NodeCatalog} {sig : Signature} {budget : Nat} {ty : Ty} {e : Term}

theorem Enclosed.sprouted (hG : G.Enclosed) (he : e.For sig budget ty) (hm : e.MadeFrom c) :
    G.Sprouted c sig budget ty (G.plant e).1 (G.plant e).2 := by
  obtain ⟨hroot, planted⟩ := plant_spec e hG.toBounded
  have hgraft : (G.plant e).2 = (G.graft e.subtree).2 := congrArg Prod.snd (plant_eq_graft G e)
  have hnew : ((e.subtree.forest.shift G.fresh).nodes.map (·.1)) = (List.range' G.fresh e.size).reverse := by
    have := planted.nodes
    rw [hgraft, graft, List.map_append] at this
    exact List.append_cancel_right this
  have hsize : e.size ≤ (G.plant e).2.size := by
    have := congrArg List.length planted.nodes
    rw [List.length_map, List.length_append, List.length_reverse, List.length_range'] at this
    exact Nat.le_trans (Nat.le_add_right _ _) (Nat.le_of_eq this.symm)
  have hshape : (G.plant e).2.shape G.fresh = e.numbered G.fresh := planted.shape _ hsize
  have hdenotes := e.denotes_numbered G.fresh
  have hids := e.ids_numbered G.fresh
  have hsound := (Term.within_subtree he.wellTyped he.declared he.low).whole.sound
  have hmoved : ∀ j ∈ e.subtree.forest.nodes.map (·.1), j + G.fresh ∈ (e.numbered G.fresh).ids := by
    intro j hj
    obtain ⟨p, hp, rfl⟩ := List.mem_map.1 hj
    rw [hids, ← List.mem_reverse, ← hnew]
    exact List.mem_map_of_mem (List.mem_map_of_mem hp)
  rw [hroot]
  refine ⟨parent?_eq_none.2 (planted.loose hG), ⟨e, hshape ▸ hdenotes, he, hm⟩,
    ⟨e.height, (congrArg Shape.height hshape).trans hdenotes.height, he.low⟩, ?_, ?_, ?_⟩ <;> rw [hshape]
  · rw [hids]
    exact fun j hj => (List.mem_range'_1.1 hj).1
  · refine ⟨_, congrArg Forest.nodes hgraft, ?_⟩
    rw [hnew, hids]
    exact List.reverse_perm _
  · refine ⟨_, congrArg Forest.edges hgraft, fun e' he' => ?_⟩
    obtain ⟨e'', he'', rfl⟩ := List.mem_map.1 he'
    exact ⟨hmoved _ (hsound.parent_mem he''), hmoved _ (hsound.child_mem he'')⟩

end Forest

namespace Generator

/-- Growing for a position may come to a node, drawn with so much of the budget left for what goes into its slots. -/
inductive Draws {σ : Type} [WordSource σ] (g : Generator σ) (sig : Signature) (method : GrowthMethod) :
    Nat → Ty → Nat → Node → Prop
  | here {budget : Nat} {ty : Ty} {n : Node} {s s' : σ}
      (h : (g.node sig method (budget + 1) ty).run s = .ok (.ok n, s')) : Draws g sig method (budget + 1) ty budget n
  | later {budget rest slot : Nat} {ty : Ty} {m n : Node} {s s' : σ}
      (h : (g.node sig method (budget + 1) ty).run s = .ok (.ok m, s')) (hslot : slot < m.arity)
      (hlater : Draws g sig method budget (m.slotType slot) rest n) : Draws g sig method (budget + 1) ty rest n

def zeroSums : Generator XorShift where
  catalog := ⟨.standard, [("Const<int,1>", .const (.int 1)), ("Add<int>", .arithmetic .add .int)]⟩
  literal b := return (Value.default? b).getD (.bool false)

theorem zeroSums_literal (b : Base) (hb : b ≠ .any) :
    Gives (fun _ => False) (zeroSums.literal b) fun v => v.base = b := by
  refine .pure ?_
  rw [Value.default?_of_ne hb]
  exact Value.base_initial hb

def halfSum : Forest := ⟨[(1, .const (.int 4)), (0, .arithmetic .add .int)], [⟨0, 0, 1⟩], 2⟩

theorem halfSum_enclosed : halfSum.Enclosed := by
  have nodes := ((Tree.Grown.new ⟨none, .int, [], []⟩).add (.arithmetic .add .int)).add (.const (.int 4))
  exact Forest.enclosed_of_grown
    (nodes.setChild (show Tree.after _ (Tree.setChild _ 0 0 1) = some ⟨_, halfSum, _⟩ from rfl))

def integer : Signature := ⟨none, .int, [], []⟩

variable {σ : Type} {g : Generator σ} {sig : Signature} {G : Forest} {broken : Violation → Prop} [WordSource σ]
  {method : GrowthMethod}

/-- Where there is no candidate, growing is refused. The forest is as it was, and nothing has been drawn. -/
theorem subtree_lacks {budget : Nat} {ty : Ty} (h : g.catalog.candidates sig ty (budget = 0) = []) (s : σ) :
    (g.subtree sig method budget ty).run (G, s) = .ok (.error (.noCandidate ty (budget = 0)), (G, s)) := by
  have hnode : (g.node sig method budget ty).run s = .ok (.error (.noCandidate ty (budget = 0)), s) := by
    unfold node
    dsimp only
    rw [h, GrowthMethod.narrow_eq_nil.2 rfl]
    rfl
  have hstart : (Sprouting.ofAttempt (g.node sig method budget ty)).run (G, s) =
      .ok (.error (.noCandidate ty (budget = 0)), (G, s)) := by
    unfold Sprouting.ofAttempt
    dsimp only [ExceptT.run, ExceptT.mk] at hnode ⊢
    rw [hnode]
  cases budget with
  | zero => exact run_bind_refused hstart
  | succ budget => exact run_bind_refused hstart

variable (hlit : ∀ b, b ≠ .any → Gives broken (g.literal b) fun v => v.base = b)
include hlit

theorem Draws.closed {budget rest : Nat} {ty : Ty} {n : Node} (h : g.Draws sig method budget ty rest n) :
    ∀ slot < n.arity, ∀ leafOnly, g.catalog.candidates sig (n.slotType slot) leafOnly ≠ [] := by
  induction h with
  | here h =>
    have hn : g.Drawn sig _ _ _ := (node_settles g sig method hlit _ _).returns h
    exact hn.closed
  | later _ _ _ ih => exact ih

theorem subtree_grows (hG : G.Enclosed) {budget : Nat} {ty : Ty}
    (h : g.catalog.candidates sig ty (budget = 0) ≠ []) (s : σ) :
    Sprouting.Grows broken ((g.subtree sig method budget ty).run (G, s)) fun i G' =>
      ∃ e, (e.For sig budget ty ∧ e.MadeFrom g.catalog) ∧ G.plant e = (i, G') := by
  have hterm := term_yields g sig method hlit h
  have hrun := subtree_follows g sig method hG budget ty s
  rcases hs : (g.term sig method budget ty).run s with v | ⟨e | e, s₁⟩ <;> rw [hs] at hrun
  · obtain ⟨H, hrun⟩ := hrun
    exact .inr ⟨v, H, hrun, hterm.breaks hs⟩
  · exact (hterm.returns hs).elim
  · exact .inl ⟨_, _, s₁, hrun, e, hterm.returns hs, rfl⟩

/-- From every state of the source growing in place comes to a subtree for the position, apart from what stood in the
forest before, or it is refused and leaves the forest as it was, or it breaks off as drawing a literal does. -/
theorem subtree_sprouted (hG : G.Enclosed) (sig : Signature) (method : GrowthMethod) (budget : Nat) (ty : Ty) (s : σ) :
    Sprouting.Grows broken ((g.subtree sig method budget ty).run (G, s)) (G.Sprouted g.catalog sig budget ty) ∨
      ∃ e s', (g.subtree sig method budget ty).run (G, s) = .ok (.error e, (G, s')) := by
  by_cases h : g.catalog.candidates sig ty (budget = 0) = []
  · exact .inr ⟨_, _, subtree_lacks h s⟩
  · refine .inl ((subtree_grows hlit hG h s).mono ?_)
    rintro i G' ⟨e, ⟨he, hmade⟩, hplant⟩
    have hsprouted := hG.sprouted he hmade
    rwa [hplant] at hsprouted

omit hlit in
/-- A sum has grown beside the one that was there. -/
theorem subtree_sprouted_halfSum : halfSum.Enclosed ∧
    ∃ i G' s', (zeroSums.subtree integer .full 2 .int).run (halfSum, XorShift.ofSeed 7) = .ok (.ok i, (G', s')) ∧
      halfSum.Sprouted zeroSums.catalog integer 2 .int i G' := by
  refine ⟨halfSum_enclosed, ?_⟩
  rcases subtree_sprouted zeroSums_literal halfSum_enclosed integer .full 2 .int (XorShift.ofSeed 7) with
    (⟨i, G', s', hrun, hsprouted⟩ | ⟨_, _, -, hbroken⟩) | ⟨e, s', hrun⟩
  · exact ⟨i, G', s', hrun, hsprouted⟩
  · exact hbroken.elim
  · have hgrown : ((zeroSums.subtree integer .full 2 .int).run (halfSum, XorShift.ofSeed 7)).toOption.any
        (·.1.toOption.isSome) = true := by decide +kernel
    rw [hrun] at hgrown
    cases hgrown

/-- Growing in place is refused just when there is no candidate at the start. It never is on the way: what grows for a
slot of a node that was drawn can be put into that slot. -/
theorem subtree_refused_iff (hG : G.Enclosed) (sig : Signature) (method : GrowthMethod) (budget : Nat) (ty : Ty)
    (s : σ) :
    ((∃ e st, (g.subtree sig method budget ty).run (G, s) = .ok (.error e, st)) ↔
        g.catalog.candidates sig ty (budget = 0) = []) ∧
      (∀ e st, (g.subtree sig method budget ty).run (G, s) = .ok (.error e, st) →
        e = .noCandidate ty (budget = 0) ∧ st = (G, s)) ∧
      (g.catalog.candidates sig ty (budget = 0) ≠ [] →
        Sprouting.Grows broken ((g.subtree sig method budget ty).run (G, s)) fun _ _ => True) ∧
      ∀ rest n, g.Draws sig method budget ty rest n → ∀ slot < n.arity, ∀ H : Forest, H.Enclosed → ∀ s,
        Sprouting.Grows broken ((g.subtree sig method rest (n.slotType slot)).run (H, s)) fun c H' =>
          ∀ i, H.node? i = some n → ∃ H'', H'.setChild i slot c = .ok (H.child? i slot, H'') := by
  have hlacks : ∀ e st, (g.subtree sig method budget ty).run (G, s) = .ok (.error e, st) →
      g.catalog.candidates sig ty (budget = 0) = [] := fun e st hr =>
    Classical.byContradiction fun h => (subtree_grows hlit hG h s).not_refused e st hr
  refine ⟨⟨fun ⟨e, st, hr⟩ => hlacks e st hr, fun h => ⟨_, _, subtree_lacks h s⟩⟩, fun e st hr => ?_,
    fun h => ?_, ?_⟩
  · rw [subtree_lacks (hlacks e st hr)] at hr
    cases hr
    exact ⟨rfl, rfl⟩
  · exact (subtree_grows hlit hG h s).mono fun _ _ _ => trivial
  · intro rest n hn slot hslot H hH s
    have hslots := hn.closed hlit slot hslot
    refine (subtree_grows hlit hH (hslots _) s).mono ?_
    rintro c H' ⟨e, ⟨he, -⟩, hplant⟩ i hi
    have hset := hH.setChild_plant hi hslot he.accepted
    rw [hplant] at hset
    exact ⟨_, hset⟩

omit hlit in
theorem subtree_refused_iff_halfSum : halfSum.Enclosed ∧
    (∃ e st, (zeroSums.subtree integer .grow 1 .bool).run (halfSum, XorShift.ofSeed 7) = .ok (.error e, st)) ∧
    zeroSums.Draws integer .full 1 .int 0 (.arithmetic .add .int) ∧
    Sprouting.Grows (fun _ => False) ((zeroSums.subtree integer .full 0 .int).run (halfSum, XorShift.ofSeed 8))
      fun c H => ∀ i, halfSum.node? i = some (.arithmetic .add .int) →
        ∃ H', H.setChild i 1 c = .ok (halfSum.child? i 1, H') := by
  have hdraws : zeroSums.Draws integer .full 1 .int 0 (.arithmetic .add .int) := .here (s := XorShift.ofSeed 7) rfl
  have hrefused := subtree_refused_iff zeroSums_literal halfSum_enclosed integer .grow 1 .bool (XorShift.ofSeed 7)
  have hgrows := subtree_refused_iff zeroSums_literal halfSum_enclosed integer .full 1 .int (XorShift.ofSeed 7)
  exact ⟨halfSum_enclosed, hrefused.1.2 (by decide), hdraws,
    hgrows.2.2.2 0 _ hdraws 1 (by decide) halfSum halfSum_enclosed _⟩

theorem tree_offers (budget : Nat) : Offers broken (g.tree sig method budget) (Tree.Within sig budget) := by
  rw [tree_eq]
  refine Settles.bind ((term_settles g sig method hlit budget sig.returns).mono (fun _ _ => trivial) fun _ he => he.1)
    fun e he => .ofResult ?_
  cases h : Tree.ofTerm sig e with
  | error x => trivial
  | ok t =>
    obtain ⟨-, rfl⟩ := Tree.ofTerm_ok.1 h
    exact Tree.within_planted he

theorem ramped_offers (budget : Nat) : Offers broken (g.ramped sig budget) (Tree.Within sig budget) :=
  (Settles.lift Draw.bool_gives).bind fun _ _ => tree_offers hlit budget

end Generator
end Grove
