import Grove.Proofs.Drawing
import Grove.Proofs.Validity

/-! Selections. A node that is drawn is one of the tree. Of a pair, either node returns what the other does, and
neither subtree is too high for the place of the other. -/

namespace Grove

variable {σ : Type} {broken : Violation → Prop}

theorem mem_of_lastZero {α : Type} {draws : List (α × Nat)} {x : α} (h : lastZero draws = some x) :
    ∃ d ∈ draws, d.1 = x := by
  suffices hs : ∀ chosen : Option α,
      draws.foldl (fun chosen d => if d.2 = 0 then some d.1 else chosen) chosen = some x →
      chosen = some x ∨ ∃ d ∈ draws, d.1 = x from (hs none h).resolve_left nofun
  clear h
  induction draws with
  | nil => exact fun chosen h => .inl h
  | cons d draws ih =>
    intro chosen h
    rcases ih _ h with h | ⟨d', hd', hx⟩
    · dsimp only at h
      by_cases hz : d.2 = 0
      · rw [if_pos hz] at h
        exact .inr ⟨d, List.mem_cons_self, Option.some.inj h⟩
      · rw [if_neg hz] at h
        exact .inl h
    · exact .inr ⟨d', List.mem_cons_of_mem _ hd', hx⟩

section

variable [WordSource σ]

theorem drawPositions_gives {α : Type} (position : Nat) (xs : List α) :
    Gives broken (drawPositions position xs : Draw σ (List (α × Nat))) fun ds => ∀ d ∈ ds, d.1 ∈ xs := by
  induction xs generalizing position with
  | nil => exact .pure nofun
  | cons x xs ih =>
    refine (Draw.uniform_gives .double position).bind fun r _ => (ih (position + 1)).bind fun ds hds => .pure ?_
    exact List.forall_mem_cons.2 ⟨List.mem_cons_self, fun d hd => List.mem_cons_of_mem x (hds d hd)⟩

theorem Tree.selectNode_gives (t : Tree) :
    Gives broken (t.selectNode : Draw σ (Option NodeId)) fun o => ∀ i ∈ o, i ∈ t.nodes := by
  refine (drawPositions_gives 0 t.nodes).bind fun ds hds => .pure fun i hi => ?_
  obtain ⟨d, hd, rfl⟩ := mem_of_lastZero hi
  exact hds d hd

end

theorem Tree.Standing.mem_nodes {t : Tree} {r i : NodeId} (h : t.Standing r) :
    i ∈ t.nodes ↔ i ∈ t.forest.nodes.map (·.1) := by
  rw [Tree.nodes, h.root, Option.elim_some, h.whole.mem_preorder]

namespace Site

/-- The site is that of a node in the tree, measured. -/
structure Of (t : Tree) (r : NodeId) (x : Site) (height : Nat) : Prop where
  node : ∃ n, t.forest.node? x.id = some n ∧ n.returns = x.returns
  depth : t.forest.Steps r x.depth x.id
  measured : x.height = .ok height
  deep : t.forest.NoDeeper x.id height

variable {t : Tree} {r i : NodeId} {x : Site}

theorem of_at? (h : t.Standing r) (hx : at? t i = some x) : ∃ height, x.Of t r height := by
  obtain ⟨n, hn, rfl⟩ := Option.map_eq_some_iff.1 hx
  have hi := Forest.mem_numbers.2 ⟨n, hn⟩
  obtain ⟨height, hh, hdeep⟩ := h.whole.height hi
  exact ⟨height, ⟨n, hn, rfl⟩, h.whole.steps_depth hi, hh, hdeep⟩

theorem of_mem (h : t.Standing r) (hx : x ∈ ofTree t) : ∃ height, x.Of t r height := by
  obtain ⟨i, -, hi⟩ := List.mem_filterMap.1 hx
  exact of_at? h hi

/-- The two may change places within the height. -/
structure Swappable (maxDepth : Nat) (x : Site) (hx : Nat) (y : Site) (hy : Nat) : Prop where
  returns : y.returns = x.returns
  left : x.depth + hy ≤ maxDepth
  right : y.depth + hx ≤ maxDepth

theorem compatible_ok (maxDepth : Nat) (x : Site) (hx : Nat) {y : Site} {hy : Nat} (h : y.height = .ok hy) :
    ∃ b, x.compatible maxDepth hx y = .ok b ∧ (b = true → Swappable maxDepth x hx y hy) := by
  unfold compatible
  by_cases hr : y.returns = x.returns
  · rw [if_pos hr, h]
    refine ⟨_, rfl, fun hb => ?_⟩
    rw [Bool.and_eq_true, decide_eq_true_eq, decide_eq_true_eq] at hb
    exact ⟨hr, hb.1, hb.2⟩
  · rw [if_neg hr]
    exact ⟨false, rfl, nofun⟩

theorem filterM_ok {ε α : Type} {p : α → Except ε Bool} {l : List α} (h : ∀ a ∈ l, ∃ b, p a = .ok b) :
    ∃ l', l.filterM p = .ok l' ∧ ∀ a ∈ l', a ∈ l ∧ p a = .ok true := by
  suffices hs : ∀ acc : List α, ∃ l', l.filterAuxM p acc = .ok l' ∧ ∀ a ∈ l', a ∈ acc ∨ a ∈ l ∧ p a = .ok true by
    obtain ⟨l', hl', hmem⟩ := hs []
    refine ⟨l'.reverse, by rw [List.filterM, hl']; rfl, fun a ha => ?_⟩
    exact (hmem a (List.mem_reverse.1 ha)).resolve_left nofun
  induction l with
  | nil => exact fun acc => ⟨acc, rfl, fun a ha => .inl ha⟩
  | cons a l ih =>
    intro acc
    obtain ⟨b, hb⟩ := h a List.mem_cons_self
    obtain ⟨l', hl', hmem⟩ := ih (fun c hc => h c (List.mem_cons_of_mem a hc)) (cond b (a :: acc) acc)
    refine ⟨l', by rw [List.filterAuxM, hb]; exact hl', fun c hc => ?_⟩
    rcases hmem c hc with hc | ⟨hc, hp⟩
    · cases b with
      | false => exact .inl hc
      | true =>
        rcases List.mem_cons.1 hc with rfl | hc
        · exact .inr ⟨List.mem_cons_self, hb⟩
        · exact .inl hc
    · exact .inr ⟨List.mem_cons_of_mem a hc, hp⟩

theorem partners_ok (maxDepth : Nat) {hx : Nat} {ys : List Site} (h : x.height = .ok hx)
    (hys : ∀ y ∈ ys, ∃ hy, y.height = .ok hy) :
    ∃ zs, x.partners maxDepth ys = .ok zs ∧
      ∀ z ∈ zs, z ∈ ys ∧ ∀ hz, z.height = .ok hz → Swappable maxDepth x hx z hz := by
  obtain ⟨zs, hzs, hmem⟩ := filterM_ok (p := x.compatible maxDepth hx) (l := ys) fun y hy => by
    obtain ⟨hy', hh⟩ := hys y hy
    obtain ⟨b, hb, -⟩ := compatible_ok maxDepth x hx hh
    exact ⟨b, hb⟩
  refine ⟨zs, Result.bind_ok.2 ⟨hx, h, hzs⟩, fun z hz => ⟨(hmem z hz).1, fun hz' hh => ?_⟩⟩
  obtain ⟨b, hb, hs⟩ := compatible_ok maxDepth x hx hh
  exact hs (Except.ok.inj (hb.symm.trans (hmem z hz).2))

end Site

namespace PairLimits

variable [WordSource σ] (l : PairLimits) {a b : Tree} {ra rb : NodeId}

/-- Two nodes of the trees that may change places within the height. -/
def Pair (l : PairLimits) (a : Tree) (ra : NodeId) (b : Tree) (rb : NodeId) (p : NodeId × NodeId) : Prop :=
  ∃ x hx y hy, x.Of a ra hx ∧ y.Of b rb hy ∧ p = (x.id, y.id) ∧ Site.Swappable l.maxDepth x hx y hy

theorem selectWithin_gives (ha : a.Standing ra) {ys : List Site} (hys : ∀ y ∈ ys, ∃ hy, y.Of b rb hy) (tries : Nat) :
    Gives broken (l.selectWithin a ys tries : Draw σ (Option (NodeId × NodeId)))
      fun o => ∀ p ∈ o, l.Pair a ra b rb p := by
  induction tries with
  | zero => exact .pure nofun
  | succ tries ih =>
    refine a.selectNode_gives.bind fun o _ => ?_
    cases hx : o.bind (Site.at? a) with
    | none => exact .pure nofun
    | some x =>
      obtain ⟨i, -, hi⟩ := Option.bind_eq_some_iff.1 hx
      obtain ⟨h, hof⟩ := Site.of_at? ha hi
      obtain ⟨zs, hzs, hmem⟩ := Site.partners_ok l.maxDepth hof.measured fun y hy =>
        (hys y hy).imp fun _ => Site.Of.measured
      dsimp only
      rw [hzs]
      refine Gives.bind (P := (· = zs)) (.ofResult (fun _ h => (Except.ok.inj h).symm) nofun) fun _ heq => ?_
      subst heq
      refine (Draw.choose_gives _).bind fun o ho => ?_
      cases o with
      | none => exact ih
      | some z =>
        obtain ⟨hz, hswap⟩ := hmem z (ho.1 z rfl)
        obtain ⟨h', hof'⟩ := hys z hz
        refine .pure ?_
        rintro _ ⟨⟩
        exact ⟨x, h, z, h', hof, hof', rfl, hswap h' hof'.measured⟩

theorem selectPair_gives (ha : a.Standing ra) (hb : b.Standing rb) :
    Gives broken (l.selectPair a b : Draw σ (Option (NodeId × NodeId)))
      fun o => ∀ p ∈ o, l.Pair a ra b rb p :=
  l.selectWithin_gives ha (fun _ => Site.of_mem hb) _

end PairLimits
end Grove
