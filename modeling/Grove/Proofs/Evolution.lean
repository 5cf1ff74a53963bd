import Grove.Breeding
import Grove.Proofs.Generations
import Grove.Proofs.Mutating
import Grove.Proofs.Swapping

/-! Evolution. Every way to breed a tree for the next generation keeps to the signature and the height: a random tree
is grown so, a mutant and a cross have room for what they get, and what is selected or kept was so before. Thus all
generations do, whatever the fitness of a tree, the order of a population and the words that are drawn. -/

namespace Grove

variable {σ : Type}

namespace Tree

variable {t a b : Tree} {sig : Signature} {maxDepth : Nat}

section

variable [WordSource σ] {g : Generator σ} {select : Tree → Draw σ (Option NodeId)}
  (hlit : ∀ b, b ≠ .any → Gives Violation.FromDraw (g.literal b) fun v => v.base = b)
include hlit

/-- A mutation that returns leaves a tree within the bounds, and one that breaks off does so in a draw. -/
theorem Within.mutate (h : t.Within sig maxDepth)
    (hsel : Gives Violation.FromDraw (select t) fun o => ∀ i ∈ o, i ∈ t.nodes) (s : σ) :
    (∃ r, (t.mutate g select maxDepth s).2 = .ok r ∧ (t.mutate g select maxDepth s).1.Within sig maxDepth) ∨
      ∃ v, (t.mutate g select maxDepth s).2 = .error v ∧ v.FromDraw := by
  obtain ⟨r, hr⟩ := within_iff.1 h
  obtain rfl := hr.signature
  cases hdraw : select t s with
  | error v =>
    refine .inr ⟨v, ?_, hsel.breaks hdraw⟩
    rw [Tree.mutate, hdraw]
  | ok drawn =>
    obtain ⟨o, s₁⟩ := drawn
    cases o with
    | none =>
      rw [Tree.mutate, hdraw]
      exact .inl ⟨_, rfl, h⟩
    | some i =>
      have hi := hr.mem_nodes.1 (hsel.returns hdraw i rfl)
      obtain ⟨n, hn⟩ := Forest.mem_numbers.1 hi
      by_cases hcandidates : g.catalog.candidates t.signature n.returns (maxDepth - t.forest.depth i = 0) = []
      · rw [mutate_lacks hdraw hn hcandidates]
        exact .inl ⟨_, rfl, h⟩
      · rcases hr.mutate_grows hlit hdraw hn hcandidates with
          ⟨e, g', s₂, he, hmade, hsuits, hg', heq⟩ | ⟨t', v, heq, hv⟩
        · have hmutated := hr.mutated h.valid hi he hmade hsuits hg'
          rw [heq]
          exact .inl ⟨_, rfl, hmutated.valid, hmutated.bounded, hmutated.low h.height⟩
        · rw [heq]
          exact .inr ⟨v, rfl, hv⟩

end

theorem Within.crossover {l : PairLimits} {select : Tree → Tree → Draw σ (Option (NodeId × NodeId))}
    (ha : a.Within sig l.maxDepth) (hb : b.Within sig l.maxDepth)
    (hsel : ∀ ra rb, a.Standing ra → b.Standing rb → Gives Violation.FromDraw (select a b)
      fun o => ∀ p ∈ o, l.Pair a ra b rb p) :
    Offers Violation.FromDraw (Tree.crossover Node.remap select a b)
      fun r => r.1.Within sig l.maxDepth ∧ r.2.Within sig l.maxDepth := by
  obtain ⟨ra, hra⟩ := within_iff.1 ha
  obtain ⟨rb, hrb⟩ := within_iff.1 hb
  refine (Settles.lift (hsel ra rb hra.toStanding hrb.toStanding)).bind fun o ho => ?_
  cases o with
  | none => exact .pure ⟨ha, hb⟩
  | some p =>
    obtain ⟨x, hx, y, hy, hofx, hofy, rfl, hswap⟩ := ho p rfl
    obtain ⟨m, hm, hret⟩ := hofx.node
    obtain ⟨n, hn, hret'⟩ := hofy.node
    obtain ⟨a', b', hab, ha', hb'⟩ := hra.swap hrb hm hn (hret'.trans (hswap.returns.trans hret.symm)) hofx.depth
      hofy.depth hofx.deep hofy.deep hswap.left hswap.right
    dsimp only
    rw [hab]
    exact .pure ⟨within_iff.2 ha', within_iff.2 hb'⟩

end Tree

theorem selectProportional_gives [WordSource σ] {fitness : List Float} (h : fitness ≠ []) :
    Gives Violation.FromDraw (selectProportional fitness : Draw σ Nat) (· < fitness.length) := by
  unfold selectProportional
  cases hn : fitness.length with
  | zero => exact absurd (List.eq_nil_of_length_eq_zero hn) h
  | succ n =>
    refine (Draw.weighted_gives _).bind fun o ho => ?_
    cases o with
    | none => exact (Draw.uniform_gives .double n).bind fun i _ => .pure i.isLt
    | some i =>
      have := ho i rfl
      rw [fitnessWeights, List.length_map, hn] at this
      exact .pure this

namespace Breeder

variable [WordSource σ] (b : Breeder)

/-- A tree for the signature and within the height that the breeder has. -/
def Keeps (t : Tree) : Prop := t.Within b.signature b.generation.maxDepth

variable {b}

theorem literal_gives (base : Base) (h : base ≠ .any) :
    Gives Violation.FromDraw ((b.generator : Generator σ).literal base) fun v => v.base = base :=
  b.generation.ranges.literal_gives h

theorem random_offers : Offers Violation.FromDraw (b.random : Attempt σ Tree) b.Keeps :=
  Generator.ramped_offers literal_gives b.generation.maxDepth

omit [WordSource σ] in
theorem orKeep_gives {current : Tree} {x : Attempt σ Tree} (hc : b.Keeps current)
    (hx : Offers Violation.FromDraw x b.Keeps) : Gives Violation.FromDraw (orKeep current x) b.Keeps := by
  refine Gives.bind hx fun r hr => ?_
  cases r with
  | ok t => exact .pure hr
  | error _ => exact .pure hc

theorem mutated_offers {current : Tree} (hc : b.Keeps current) :
    Offers Violation.FromDraw (b.mutated current : Attempt σ Tree) b.Keeps := by
  have hm := Tree.Within.mutate (g := (b.generator : Generator σ)) literal_gives hc current.selectNode_gives
  have heq : ∀ s : σ, (b.mutated current).run s =
      (current.mutate b.generator Tree.selectNode b.generation.maxDepth s).2.map fun r =>
        (r.1.map fun _ => (current.mutate b.generator Tree.selectNode b.generation.maxDepth s).1, r.2) := fun _ => rfl
  refine ⟨fun {s t s'} h => ?_, fun {s v} h => ?_⟩
  · rw [heq] at h
    rcases hm s with ⟨⟨r, s''⟩, hr, ht⟩ | ⟨v, hv, -⟩
    · rw [hr] at h
      cases r with
      | ok _ =>
        cases h
        exact ht
      | error _ =>
        cases h
        trivial
    · rw [hv] at h
      cases h
  · rw [heq] at h
    rcases hm s with ⟨r, hr, -⟩ | ⟨v, hv, hdraw⟩
    · rw [hr] at h
      cases h
    · rw [hv] at h
      cases h
      exact hdraw

theorem cross_offers {current partner : Tree} (hc : b.Keeps current) (hp : b.Keeps partner) :
    Offers Violation.FromDraw (b.cross current partner : Attempt σ Tree) b.Keeps := by
  have hsel : ∀ ra rb, current.Standing ra → partner.Standing rb → Gives Violation.FromDraw
      (b.pairLimits.selectPair current partner : Draw σ (Option (NodeId × NodeId)))
      fun o => ∀ p ∈ o, b.pairLimits.Pair current ra partner rb p :=
    fun _ _ ha hb => b.pairLimits.selectPair_gives ha hb
  exact (Tree.Within.crossover (l := b.pairLimits) hc hp hsel).map fun r hr => hr.1

/-- Every tree bred from a population within the bounds is within them. -/
theorem breed_gives {population : List (Tree × Float)} (h : ∀ x ∈ population, b.Keeps x.1) {index : Nat}
    (hi : index < population.length) : Gives Violation.FromDraw (b.breed population index : Draw σ Tree) b.Keeps := by
  unfold breed
  rw [List.getElem?_eq_getElem hi]
  have hc := h _ (List.getElem_mem hi)
  dsimp only
  cases kind b.evolution population.length index with
  | random => exact orKeep_gives hc random_offers
  | mutation => exact orKeep_gives hc (mutated_offers hc)
  | crossover =>
    have hne : population.map (·.2) ≠ [] := fun hnil => Nat.not_lt_zero _ (List.map_eq_nil_iff.1 hnil ▸ hi)
    refine (selectProportional_gives hne).bind fun j hj => ?_
    rw [List.length_map] at hj
    rw [List.getElem?_eq_getElem hj]
    exact orKeep_gives hc (cross_offers hc (h _ (List.getElem_mem hj)))
  | selection => exact .pure hc

/-- Generations that descend from a first one. Every tree of the next was bred for some position of the last, from
some state of the source; how fit it is held to be and where it stands is left open. -/
inductive Lineage (b : Breeder) (σ : Type) [WordSource σ] (first : List (Tree × Float)) :
    Nat → List (Tree × Float) → Prop
  | first : Lineage b σ first 0 first
  | next {k : Nat} {last next : List (Tree × Float)} (h : Lineage b σ first k last)
      (hbred : ∀ x ∈ next, ∃ index < last.length, ∃ s s' : σ, b.breed last index s = .ok (x.1, s')) :
      Lineage b σ first (k + 1) next

theorem Lineage.keeps {first last : List (Tree × Float)} {k : Nat} (h : Lineage b σ first k last)
    (hfirst : ∀ x ∈ first, b.Keeps x.1) : ∀ x ∈ last, b.Keeps x.1 := by
  induction h with
  | first => exact hfirst
  | next _ hbred ih =>
    intro x hx
    obtain ⟨index, hi, s, s', hs⟩ := hbred x hx
    exact (breed_gives ih hi).returns hs

/-- If all trees of the first generation are valid for the signature and within the height, so is every tree that is
bred from any later one, for any position and from any state of the source; and it is bred unless a draw breaks off. -/
theorem bred_within (b : Breeder) {first last : List (Tree × Float)} {k index : Nat}
    (hfirst : ∀ x ∈ first, x.1.Within b.signature b.generation.maxDepth) (h : Lineage b σ first k last)
    (hi : index < last.length) (s : σ) :
    (∃ t s', b.breed last index s = .ok (t, s') ∧ t.Within b.signature b.generation.maxDepth) ∨
      ∃ v, b.breed last index s = .error v ∧ v.FromDraw := by
  have hbreed := breed_gives (σ := σ) (h.keeps hfirst) hi
  cases hs : b.breed last index s with
  | ok r => exact .inl ⟨r.1, r.2, rfl, hbreed.returns hs⟩
  | error v => exact .inr ⟨v, rfl, hbreed.breaks hs⟩

/-- Sums of ones; of two positions the first is for a mutant and the second for a cross. -/
def sumBreeder : Breeder where
  catalog := ⟨.standard, [("Const<int,1>", .const (.int 1)), ("Add<int>", .arithmetic .add .int)]⟩
  signature := ⟨none, .int, [], []⟩
  generation := .standard
  evolution := ⟨2, 0, 0.0, 0.5, 0.5⟩

def oneTerm : Term := .node (.const (.int 1)) fun i => i.elim0

def sumTerm : Term := .node (.arithmetic .add .int) fun _ => oneTerm

def sums : List (Tree × Float) :=
  [(.planted sumBreeder.signature oneTerm, 0.0), (.planted sumBreeder.signature sumTerm, 1.0)]

def sumsNext : List (Tree × Float) := (List.range 2).filterMap fun index =>
  (sumBreeder.breed sums index (XorShift.ofSeed 7)).toOption.map fun r => (r.1, 2.0)

theorem length_sumsNext : sumsNext.length = 2 := by decide +kernel

/-- A mutant is bred from the second generation. -/
theorem bred_within_sums : (∀ x ∈ sums, x.1.Within sumBreeder.signature sumBreeder.generation.maxDepth) ∧
    sumBreeder.Lineage XorShift sums 1 sumsNext ∧ 0 < sumsNext.length ∧
    kind sumBreeder.evolution sumsNext.length 0 = .mutation ∧
    ∃ t s', sumBreeder.breed sumsNext 0 (XorShift.ofSeed 8) = .ok (t, s') ∧
      t.Within sumBreeder.signature sumBreeder.generation.maxDepth := by
  have hone : oneTerm.For sumBreeder.signature 6 .int := ⟨by decide, by decide, by decide, by decide⟩
  have hsum : sumTerm.For sumBreeder.signature 6 .int := ⟨by decide, by decide, by decide, by decide⟩
  have hfirst : ∀ x ∈ sums, x.1.Within sumBreeder.signature sumBreeder.generation.maxDepth := by
    intro x hx
    rcases List.mem_cons.1 hx with rfl | hx
    · exact Tree.within_planted hone
    · obtain rfl := List.mem_singleton.1 hx
      exact Tree.within_planted hsum
  have hline : sumBreeder.Lineage XorShift sums 1 sumsNext := by
    refine .next .first fun x hx => ?_
    obtain ⟨index, hi, hx⟩ := List.mem_filterMap.1 hx
    obtain ⟨r, hr, rfl⟩ := Option.map_eq_some_iff.1 hx
    exact ⟨index, List.mem_range.1 hi, _, r.2, Result.toOption_some.1 hr⟩
  have hlong : 0 < sumsNext.length := by simp [length_sumsNext]
  refine ⟨hfirst, hline, hlong, by rw [length_sumsNext]; decide +kernel, ?_⟩
  refine (bred_within sumBreeder hfirst hline hlong (XorShift.ofSeed 8)).resolve_right ?_
  rintro ⟨v, hv, -⟩
  have hbred : (sumBreeder.breed sumsNext 0 (XorShift.ofSeed 8)).toOption.isSome = true := by decide +kernel
  rw [hv] at hbred
  cases hbred

end Breeder

namespace Simulation

variable [WordSource σ]

/-- Whatever the habitat, a step of a simulation makes the next generation of a lineage. -/
theorem step_lineage {b : Breeder} {h : Habitat Tree Float} {first : List (Tree × Float)} {k : Nat}
    {sim next : Simulation Tree Float} {s s' : σ} (hl : b.Lineage XorShift first k sim.population)
    (hb : sim.buffer = []) (hs : sim.step h b.breed s = .ok (next, s')) :
    b.Lineage XorShift first (k + 1) next.population := by
  obtain ⟨seeds, made, population, -, hmade, hpopulation, rfl⟩ := step_members hb hs
  exact hl.next fun x hx => hmade.of_mem ((Habitat.work_assess hpopulation).1.mem_iff.1 (List.mem_map_of_mem hx))

end Simulation
end Grove
