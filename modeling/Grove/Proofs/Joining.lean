import Grove.Proofs.Moving
import Mathlib.Data.Set.Function

/-! Forests side by side. A forest that is put beside another one, under numbers that are free there, stays what it is,
and so does the other one. Whichever numbers those are, the result is the same but for them. -/

namespace Grove

def Edge.rename (f : NodeId → NodeId) (e : Edge) : Edge := ⟨f e.parent, e.slot, f e.child⟩

namespace Forest

/-- The forest `g'` is `h`, and beside it `g` under the numbers that `f` gives. -/
structure Joins (g h : Forest) (f : NodeId → NodeId) (g' : Forest) : Prop where
  sound : g'.Sound
  apart : ∀ i ∈ g.live, f i ∉ h.live
  injOn : Set.InjOn f g.live
  moved : ∀ i ∈ g.live, g'.node? (f i) = g.node? i
  kept : ∀ j ∈ h.live, g'.node? j = h.node? j
  live : ∀ j ∈ g'.live, j ∈ h.live ∨ ∃ i ∈ g.live, f i = j
  edges : ∀ e, e ∈ g'.edges ↔ e ∈ h.edges ∨ ∃ e' ∈ g.edges, e'.rename f = e

variable {g g' g₁ g₂ h : Forest} {s : Subtree} {f f' : NodeId → NodeId} {i j r : NodeId} {k : Nat} {e : Edge}

theorem Sound.parent_live (hg : g.Sound) (he : e ∈ g.edges) : e.parent ∈ g.live := mem_live.2 (hg.parent_mem he)

theorem Sound.child_live (hg : g.Sound) (he : e ∈ g.edges) : e.child ∈ g.live := mem_live.2 (hg.child_mem he)

theorem Sound.below_live (hg : g.Sound) (hi : i ∈ g.live) (hj : j ∈ g.below i) : j ∈ g.live :=
  mem_live.2 (hg.reached_mem (mem_live.1 hi) hj)

theorem Loopless.empty : Forest.empty.Loopless := loopless_of_ascending nofun

namespace Joins

section Edges

variable (hg : g.Sound) (hh : h.Sound) (hj : g.Joins h f g')
include hg hh hj

theorem edge_from (he : e ∈ g'.edges) (hi : i ∈ g.live) (hp : e.parent = f i) :
    ∃ e' ∈ g.edges, e'.parent = i ∧ e'.rename f = e := by
  rcases (hj.edges e).1 he with hold | ⟨e', he', rfl⟩
  · exact absurd (hp ▸ hh.parent_live hold) (hj.apart i hi)
  · exact ⟨e', he', hj.injOn (hg.parent_live he') hi hp, rfl⟩

theorem edge_into (he : e ∈ g'.edges) (hi : i ∈ g.live) (hc : e.child = f i) :
    ∃ e' ∈ g.edges, e'.child = i ∧ e'.rename f = e := by
  rcases (hj.edges e).1 he with hold | ⟨e', he', rfl⟩
  · exact absurd (hc ▸ hh.child_live hold) (hj.apart i hi)
  · exact ⟨e', he', hj.injOn (hg.child_live he') hi hc, rfl⟩

theorem mem_moved (hi : i ∈ g.live) (hc : j ∈ g.live) {slot : Nat} :
    ⟨f i, slot, f j⟩ ∈ g'.edges ↔ ⟨i, slot, j⟩ ∈ g.edges := by
  refine ⟨fun he => ?_, fun he => (hj.edges _).2 (.inr ⟨_, he, rfl⟩)⟩
  obtain ⟨⟨p, slot', c⟩, he', rfl, heq⟩ := hj.edge_from hg hh he hi rfl
  obtain ⟨-, rfl, hcj⟩ := Edge.mk.inj heq
  exact hj.injOn (hg.child_live he') hc hcj ▸ he'

theorem steps_moved (hi : i ∈ g.live) : g'.Steps (f i) k j ↔ ∃ j', g.Steps i k j' ∧ f j' = j := by
  constructor
  · intro hk
    induction hk with
    | here => exact ⟨i, .here, rfl⟩
    | down _ he ih =>
      obtain ⟨p, hp, hfp⟩ := ih
      obtain ⟨e', he', rfl, rfl⟩ := hj.edge_from hg hh he (hg.below_live hi ⟨_, hp⟩) hfp.symm
      exact ⟨e'.child, hp.down he', rfl⟩
  · rintro ⟨j', hk, rfl⟩
    induction hk with
    | here => exact .here
    | @down _ e _ he ih => exact .down (e := e.rename f) ih ((hj.edges _).2 (.inr ⟨e, he, rfl⟩))

theorem steps_kept (hi : i ∈ h.live) (hk : g'.Steps i k j) : h.Steps i k j := by
  induction hk with
  | here => exact .here
  | down _ he ih =>
    rcases (hj.edges _).1 he with hold | ⟨e', he', rfl⟩
    · exact ih.down hold
    · exact absurd (hh.below_live hi ⟨_, ih⟩) (hj.apart _ (hg.parent_live he'))

theorem below_eq (hi : i ∈ g.live) : g'.below (f i) = f '' g.below i := by
  ext j
  constructor
  · rintro ⟨k, hk⟩
    obtain ⟨j', hk', rfl⟩ := (hj.steps_moved hg hh hi).1 hk
    exact ⟨j', ⟨k, hk'⟩, rfl⟩
  · rintro ⟨j', ⟨k, hk'⟩, rfl⟩
    exact ⟨k, (hj.steps_moved hg hh hi).2 ⟨j', hk', rfl⟩⟩

theorem loopless (hlg : g.Loopless) (hlh : h.Loopless) : g'.Loopless := by
  rintro i ⟨k, hk⟩
  obtain ⟨e, he, rfl, -⟩ := hk.first
  rcases (hj.edges e).1 he with hold | ⟨e', he', rfl⟩
  · exact hlh _ ⟨k, hj.steps_kept hg hh (hh.parent_live hold) hk⟩
  · have hlive := hg.parent_live he'
    obtain ⟨j, hj', heq⟩ := (hj.steps_moved hg hh hlive).1 hk
    obtain rfl := hj.injOn (hg.below_live hlive ⟨_, hj'⟩) hlive heq
    exact hlg _ ⟨k, hj'⟩

theorem sameBelow (hi : i ∈ g.live) : g.SameBelow i g' (f i) := by
  have hlive := fun j => @Sound.below_live g i j hg hi
  refine ⟨f, rfl, ?_, fun j hb => hj.moved j (hlive j hb), fun p hp c hc _ => ?_⟩
  · rw [hj.below_eq hg hh hi]
    exact (hj.injOn.mono hlive).bijOn_image
  · exact hj.mem_moved hg hh (hlive p hp) (hlive c hc)

theorem proper (hlg : g.Loopless) (hlh : h.Loopless) : g'.Proper := ⟨hj.sound, hj.loopless hg hh hlg hlh⟩

theorem top (hi : i ∈ g.live) (htop : ∀ e ∈ g.edges, e.child ≠ i) : ∀ e ∈ g'.edges, e.child ≠ f i := by
  intro e he hc
  obtain ⟨e', he', hc', -⟩ := hj.edge_into hg hh he hi hc
  exact htop e' he' hc'

theorem isPart (hr : r ∈ g.live) (hspans : g.live = g.below r) : h.IsPart g' (g'.below (f r))ᶜ := by
  have hbelow : g'.below (f r) = f '' g.live := hspans ▸ hj.below_eq hg hh hr
  have hold : ∀ j ∈ h.live, j ∈ (g'.below (f r))ᶜ := by
    rintro j hjl hm
    rw [hbelow] at hm
    obtain ⟨i, hi, rfl⟩ := hm
    exact hj.apart i hi hjl
  refine ⟨fun j n => ⟨fun hn => ?_, fun ⟨hout, hn⟩ => ?_⟩, fun e => ⟨fun he => ?_, fun ⟨he, hp, _⟩ => ?_⟩⟩
  · have hjl : j ∈ h.live := by simp [Forest.live, hn]
    exact ⟨hold j hjl, (hj.kept j hjl).trans hn⟩
  · rcases hj.live j (by simp [Forest.live, hn]) with hjl | ⟨i, hi, rfl⟩
    · rwa [hj.kept j hjl] at hn
    · exact absurd (hbelow ▸ ⟨i, hi, rfl⟩) hout
  · exact ⟨(hj.edges e).2 (.inl he), hold _ (hh.parent_live he), hold _ (hh.child_live he)⟩
  · rcases (hj.edges e).1 he with hm | ⟨e', he', rfl⟩
    · exact hm
    · exact absurd (hbelow ▸ ⟨_, hg.parent_live he', rfl⟩) hp

end Edges

section Apart

variable (hg : g.Sound) (hj : g.Joins .empty f g')
include hg hj

/-- Put beside nothing, a forest is the same but for the numbers. -/
theorem corresponds : g.Corresponds g.live f g' g'.live := by
  refine ⟨⟨fun i hi => ?_, hj.injOn, fun j hl => (hj.live j hl).resolve_left fun hm => hm rfl⟩, hj.moved,
    fun p hp c hc _ => hj.mem_moved hg .empty hp hc⟩
  change g'.node? (f i) ≠ none
  rwa [hj.moved i hi]

theorem copies {g₀ : Forest} (hs : Subtree.Copies ⟨g, r⟩ g₀ i) : Subtree.Copies ⟨g', f r⟩ g₀ i := by
  have hr : r ∈ g.live := hs.spans ▸ .refl g r
  have hspans : g'.live = g'.below (f r) := by
    rw [hj.below_eq hg .empty hr, ← (show g.live = g.below r from hs.spans)]
    exact (hj.corresponds hg).numbers.image_eq.symm
  exact ⟨hj.proper hg .empty hs.proper.loopless .empty, hj.top hg .empty hr hs.top, hspans,
    hs.same.trans (hj.sameBelow hg .empty hr)⟩

end Apart

open Classical in
/-- The number in the second forest of a node that has this one in the first. -/
noncomputable def across (g h : Forest) (f f' : NodeId → NodeId) (j : NodeId) : NodeId :=
  if j ∈ h.live then j else f' (Function.invFunOn f g.live j)

section Twice

variable (hg : g.Sound) (hh : h.Sound) (h₁ : g.Joins h f g₁) (h₂ : g.Joins h f' g₂)

theorem across_kept (hi : i ∈ h.live) : across g h f f' i = i := if_pos hi

include h₁ in
theorem across_moved (hi : i ∈ g.live) : across g h f f' (f i) = f' i := by
  rw [across, if_neg (h₁.apart i hi), h₁.injOn.leftInvOn_invFunOn hi]

include h₁ h₂

theorem node?_across (hj : j ∈ g₁.live) : g₂.node? (across g h f f' j) = g₁.node? j := by
  rcases h₁.live j hj with hold | ⟨i, hi, rfl⟩
  · rw [across_kept hold, h₁.kept j hold, h₂.kept j hold]
  · rw [h₁.across_moved hi, h₁.moved i hi, h₂.moved i hi]

theorem bijOn_across : Set.BijOn (across g h f f') g₁.live g₂.live := by
  refine ⟨fun j hj => ?_, fun j hj j' hj' heq => ?_, fun j hj => ?_⟩
  · change g₂.node? (across g h f f' j) ≠ none
    rwa [h₁.node?_across h₂ hj]
  · rcases h₁.live j hj with hold | ⟨i, hi, rfl⟩ <;> rcases h₁.live j' hj' with hold' | ⟨i', hi', rfl⟩
    · rwa [across_kept hold, across_kept hold'] at heq
    · rw [across_kept hold, h₁.across_moved hi'] at heq
      exact absurd (heq ▸ hold) (h₂.apart i' hi')
    · rw [across_kept hold', h₁.across_moved hi] at heq
      exact absurd (heq ▸ hold') (h₂.apart i hi)
    · rw [h₁.across_moved hi, h₁.across_moved hi'] at heq
      exact congrArg f (h₂.injOn hi hi' heq)
  · rcases h₂.live j hj with hold | ⟨i, hi, rfl⟩
    · refine ⟨j, ?_, across_kept hold⟩
      change g₁.node? j ≠ none
      rwa [h₁.kept j hold]
    · refine ⟨f i, ?_, h₁.across_moved hi⟩
      change g₁.node? (f i) ≠ none
      rwa [h₁.moved i hi]

include hg hh

theorem rename_across (he : e ∈ g₁.edges) : e.rename (across g h f f') ∈ g₂.edges := by
  rcases (h₁.edges e).1 he with hold | ⟨e', he', rfl⟩
  · rw [Edge.rename, across_kept (hh.parent_live hold), across_kept (hh.child_live hold)]
    exact (h₂.edges e).2 (.inl hold)
  · have heq : (e'.rename f).rename (across g h f f') = e'.rename f' := by
      rw [Edge.rename, Edge.rename, h₁.across_moved (hg.parent_live he'), h₁.across_moved (hg.child_live he')]
      rfl
    exact (h₂.edges _).2 (.inr ⟨e', he', heq.symm⟩)

/-- Whichever the free numbers are, the result is the same but for them. -/
theorem corresponds_across : g₁.Corresponds g₁.live (across g h f f') g₂ g₂.live := by
  have hnumbers := h₁.bijOn_across h₂
  refine ⟨hnumbers, fun j => h₁.node?_across h₂, fun p hp c hc slot => ⟨fun he => ?_, h₁.rename_across hg hh h₂⟩⟩
  -- the edge comes from one of the first forest, and its ends are told by their numbers
  obtain ⟨e, he₁, heq⟩ : ∃ e ∈ g₁.edges, e.rename (across g h f f') = ⟨across g h f f' p, slot, across g h f f' c⟩ := by
    rcases (h₂.edges _).1 he with hold | ⟨e', he', heq⟩
    · refine ⟨_, (h₁.edges _).2 (.inl hold), ?_⟩
      rw [Edge.rename, across_kept (hh.parent_live hold), across_kept (hh.child_live hold)]
    · refine ⟨_, (h₁.edges _).2 (.inr ⟨e', he', rfl⟩), heq ▸ ?_⟩
      rw [Edge.rename, Edge.rename, h₁.across_moved (hg.parent_live he'), h₁.across_moved (hg.child_live he')]
      rfl
  obtain ⟨hpe, rfl, hce⟩ := Edge.mk.inj heq
  rwa [← hnumbers.injOn (h₁.sound.parent_live he₁) hp hpe, ← hnumbers.injOn (h₁.sound.child_live he₁) hc hce]

end Twice
end Joins

/-- Beside a forest in order, another one in order that has free numbers there makes up one. -/
theorem Sound.beside {links : List Edge} (hg : g.Sound) (hh : h.Sound) (hnumbers : (g'.nodes.map (·.1)).Nodup)
    (hfresh : ∀ i ∈ g'.nodes.map (·.1), i < g'.fresh) (hapart : ∀ i ∈ g.live, f i ∉ h.live) (hinj : Set.InjOn f g.live)
    (hmoved : ∀ i ∈ g.live, g'.node? (f i) = g.node? i) (hkept : ∀ j ∈ h.live, g'.node? j = h.node? j)
    (hlinks : links.Perm g.edges) (hedges : g'.edges = links.map (Edge.rename f) ++ h.edges) : g'.Sound where
  numbers := hnumbers
  fresh := hfresh
  fits e he := by
    rw [hedges, List.mem_append, List.mem_map] at he
    rcases he with ⟨e', he', rfl⟩ | he
    · have he := hlinks.subset he'
      obtain ⟨p, c, hp, hc, hrest⟩ := hg.fits e' he
      exact ⟨p, c, (hmoved _ (hg.parent_live he)).trans hp, (hmoved _ (hg.child_live he)).trans hc, hrest⟩
    · exact (hh.fits e he).congr (hkept _ (hh.parent_live he)) (hkept _ (hh.child_live he))
  slots := by
    rw [hedges, List.map_append, List.map_map]
    refine List.nodup_append.2 ⟨?_, hh.slots, fun x hx y hy hxy => ?_⟩
    · refine List.Nodup.map_on (fun x hx y hy heq => ?_) (hlinks.nodup_iff.2 hg.unshared.of_map)
      obtain ⟨hp, hs⟩ := Prod.mk.inj heq
      have hx := hlinks.subset hx
      have hy := hlinks.subset hy
      exact hg.edge_eq_of_slot hx hy (hinj (hg.parent_live hx) (hg.parent_live hy) hp) hs
    · obtain ⟨e, he, rfl⟩ := List.mem_map.1 hx
      obtain ⟨e', he', heq⟩ := List.mem_map.1 hy
      have hp : e'.parent = f e.parent := congrArg Prod.fst (heq.trans hxy.symm)
      exact hapart _ (hg.parent_live (hlinks.subset he)) (hp ▸ hh.parent_live he')
  unshared := by
    rw [Unshared, hedges, List.map_append, List.map_map]
    refine List.nodup_append.2 ⟨?_, hh.unshared, fun x hx y hy hxy => ?_⟩
    · refine List.Nodup.map_on (fun x hx y hy hc => ?_) (hlinks.nodup_iff.2 hg.unshared.of_map)
      have hx := hlinks.subset hx
      have hy := hlinks.subset hy
      exact hg.unshared.edge_eq hx hy (hinj (hg.child_live hx) (hg.child_live hy) hc)
    · obtain ⟨e, he, rfl⟩ := List.mem_map.1 hx
      obtain ⟨e', he', heq⟩ := List.mem_map.1 hy
      have hc : e'.child = f e.child := heq.trans hxy.symm
      exact hapart _ (hg.child_live (hlinks.subset he)) (hc ▸ hh.child_live he')

/-- A subtree that is grafted stands beside what was there. -/
theorem Sound.joins_graft (hg : g.Sound) (hs : s.forest.Sound) : s.forest.Joins g (· + g.fresh) (g.graft s).2 where
  sound := hg.graft hs
  apart i _ hi := hg.ne_moved (mem_live.1 hi) i rfl
  injOn _ _ _ _ := Nat.add_right_cancel
  moved i _ := hg.node?_graft_moved s i
  kept j hj := hg.node?_graft_old s (hg.live_lt hj)
  live j hj := by
    rcases Nat.lt_or_ge j g.fresh with hlt | hge
    · refine .inl ?_
      change g.node? j ≠ none
      rwa [← hg.node?_graft_old s hlt]
    · obtain ⟨i, rfl⟩ := Nat.exists_eq_add_of_le' hge
      refine .inr ⟨i, ?_, rfl⟩
      change s.forest.node? i ≠ none
      rwa [← hg.node?_graft_moved s i]
  edges e := mem_graft

section Renumbered

variable {φ : NodeId → NodeId} (hg' : g'.Sound) (hf : g.Corresponds g.live φ g' g'.live)
include hg' hf

theorem Corresponds.exists_edge (he : e ∈ g'.edges) : ∃ e' ∈ g.edges, e'.rename φ = e ∧
    e'.parent ∈ g.live ∧ e'.child ∈ g.live := by
  obtain ⟨p, hp, hpe⟩ := hf.numbers.surjOn (hg'.parent_live he)
  obtain ⟨c, hc, hce⟩ := hf.numbers.surjOn (hg'.child_live he)
  obtain ⟨parent, slot, child⟩ := e
  obtain rfl : φ p = parent := hpe
  obtain rfl : φ c = child := hce
  exact ⟨⟨p, slot, c⟩, (hf.edges p hp c hc slot).1 he, rfl, hp, hc⟩

theorem Corresponds.joins (hg : g.Sound) : g.Joins .empty φ g' where
  sound := hg'
  apart _ _ hm := hm rfl
  injOn := hf.numbers.injOn
  moved := hf.nodes
  kept _ hm := absurd rfl hm
  live _ hj := .inr (hf.numbers.surjOn hj)
  edges e := by
    refine ⟨fun he => ?_, ?_⟩
    · obtain ⟨e', he', heq, -⟩ := hf.exists_edge hg' he
      exact .inr ⟨e', he', heq⟩
    · rintro (hm | ⟨e', he', rfl⟩)
      · cases hm
      · exact (hf.edges _ (hg.parent_live he') _ (hg.child_live he') _).2 he'

/-- A child that fills an empty slot may have any number, and so may its parent. -/
theorem Corresponds.setChild {p slot c : Nat} {r : Forest} (hset : g.setChild p slot c = .ok (none, r)) :
    ∃ r', g'.setChild (φ p) slot (φ c) = .ok (none, r') ∧ r.Corresponds r.live φ r' r'.live := by
  obtain ⟨⟨n, m, hn, hm, hslot, ha⟩, htop, hr⟩ := setChild_ok.1 hset
  obtain ⟨hnone, rfl⟩ := Prod.mk.inj hr
  have hp : p ∈ g.live := by simp [live, show g.node? p = some n from hn]
  have hc : c ∈ g.live := by simp [live, show g.node? c = some m from hm]
  have hnone' : g'.child? (φ p) slot = none := child?_eq_none.2 fun e he hpe hse => by
    obtain ⟨e', he', rfl, hp', -⟩ := hf.exists_edge hg' he
    exact child?_eq_none.1 hnone.symm e' he' (hf.numbers.injOn hp' hp hpe) hse
  have hfits : g'.Fits ⟨φ p, slot, φ c⟩ := ⟨n, m, (hf.nodes p hp).trans hn, (hf.nodes c hc).trans hm, hslot, ha⟩
  have htop' : ∀ e ∈ g'.edges, e.child ≠ φ c := fun e he hce => by
    obtain ⟨e', he', rfl, -, hc'⟩ := hf.exists_edge hg' he
    exact htop e' he' (hf.numbers.injOn hc' hc hce)
  refine ⟨g'.link (φ p) slot (φ c), setChild_ok.2 ⟨hfits, htop', ?_⟩, ?_⟩
  · rw [hnone', vacate, hnone', Option.elim_none]
  rw [vacate, ← hnone, Option.elim_none]
  refine ⟨hf.numbers, hf.nodes, fun q hq d hd slot' => ?_⟩
  change _ ∈ _ :: _ ↔ _ ∈ _ :: _
  rw [List.mem_cons, List.mem_cons, hf.edges q hq d hd, Edge.mk.injEq, Edge.mk.injEq, hf.numbers.injOn.eq_iff hq hp,
    hf.numbers.injOn.eq_iff hd hc]

end Renumbered

end Forest
end Grove
