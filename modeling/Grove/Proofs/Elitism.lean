import Grove.Proofs.Evolution
import Grove.Proofs.FloatOrder
import Grove.Proofs.Penalties
import Mathlib.Data.List.Perm.Subperm

/-! Elitism. The last positions of a population are those of the fittest. An operator that hands on what stands there
does not lose them: whatever it makes for the other positions, the greatest fitness, the second greatest, and so on
for as many positions as it hands on, never decrease. -/

namespace Grove

namespace Habitat

variable {ι φ : Type} (h : Habitat ι φ)

instance (a b : φ) : Decidable (h.AtMost a b) := inferInstanceAs (Decidable (_ ∨ _))

/-- The fitness of a member that less than `k` members exceed and at least `k` members reach. -/
structure KthGreatest (k : Nat) (population : List (ι × φ)) (f : φ) : Prop where
  member : ∃ i, (i, f) ∈ population
  exceeded : population.countP (fun x => h.compare? f x.2 = some .lt) < k
  reached : k ≤ population.countP fun x => h.AtMost f x.2

variable {h} {a b c : φ} {k m : Nat} {population next : List (ι × φ)}

theorem Ordered.of_key {κ : Type} [LinearOrder κ] (key : φ → κ)
    (hkey : ∀ {a b}, h.Occurs a → h.Occurs b → h.compare? a b = some (compare (key a) (key b))) : h.Ordered := by
  have hatMost : ∀ {a b}, h.Occurs a → h.Occurs b → (h.AtMost a b ↔ key a ≤ key b) := by
    intro a b ha hb
    rw [AtMost, hkey ha hb, Option.some.injEq, Option.some.injEq, compare_lt_iff_lt, compare_eq_iff_eq,
      le_iff_lt_or_eq]
  constructor
  · intro a b ha hb
    rw [hkey ha hb]
    exact Option.some_ne_none _
  · intro a b o ha hb hab
    rw [hkey ha hb] at hab
    cases hab
    rw [hkey hb ha]
    exact congrArg some Std.OrientedCmp.eq_swap
  · intro a b c ha hb hc hab hbc
    rw [hatMost ha hb] at hab
    rw [hatMost hb hc] at hbc
    exact (hatMost ha hc).2 (hab.trans hbc)

theorem Ordered.lt_of_not_atMost (ho : h.Ordered) (ha : h.Occurs a) (hb : h.Occurs b) (hab : ¬ h.AtMost a b) :
    h.compare? b a = some .lt := by
  obtain ⟨o, hc⟩ := Option.ne_none_iff_exists'.1 (ho.comparable ha hb)
  have hswap := ho.swap ha hb hc
  cases o with
  | lt => exact absurd (.inl hc) hab
  | eq => exact absurd (.inr hc) hab
  | gt => exact hswap

theorem Ordered.not_lt_of_atMost (ho : h.Ordered) (ha : h.Occurs a) (hb : h.Occurs b) (hab : h.AtMost a b) :
    h.compare? b a ≠ some .lt := by
  intro hba
  have hswap := ho.swap hb ha hba
  rcases hab with hab | hab <;> simp [hswap] at hab

theorem Ordered.lt_of_lt_of_atMost (ho : h.Ordered) (ha : h.Occurs a) (hb : h.Occurs b) (hc : h.Occurs c)
    (hab : h.compare? a b = some .lt) (hbc : h.AtMost b c) : h.compare? a c = some .lt := by
  apply ho.lt_of_not_atMost hc ha
  intro hca
  exact ho.not_lt_of_atMost hb ha (ho.trans hb hc ha hbc hca) hab

/-- Where at least `k` members reach what was the `k`-th greatest fitness, the `k`-th greatest is not below it. -/
theorem KthGreatest.atMost (ho : h.Ordered) (hp : ∀ x ∈ population, h.Occurs x.2) (hn : ∀ x ∈ next, h.Occurs x.2)
    (ha : h.KthGreatest k population a) (hb : h.KthGreatest k next b)
    (hreached : k ≤ next.countP fun x => h.AtMost a x.2) : h.AtMost a b := by
  obtain ⟨i, hi⟩ := ha.member
  obtain ⟨j, hj⟩ := hb.member
  by_contra hab
  have hba := ho.lt_of_not_atMost (hp _ hi) (hn _ hj) hab
  have hmono : next.countP (fun x => h.AtMost a x.2) ≤ next.countP fun x => h.compare? b x.2 = some .lt := by
    apply List.countP_mono_left
    intro x hx hax
    exact decide_eq_true (ho.lt_of_lt_of_atMost (hn _ hj) (hp _ hi) (hn x hx) hba (of_decide_eq_true hax))
  have hexceeded := hb.exceeded
  omega

section Sorted

variable (ho : h.Ordered) (hp : ∀ x ∈ population, h.Occurs x.2)
  (hs : population.Pairwise fun x y => h.AtMost x.2 y.2)
include ho hp hs

theorem reached_drop (ha : h.Occurs a) (hk : k ≤ population.countP fun x => h.AtMost a x.2) (hkm : k ≤ m) :
    k ≤ (population.drop (population.length - m)).countP fun x => h.AtMost a x.2 := by
  have hup : population.Pairwise fun x y => decide (h.AtMost a x.2) = true → decide (h.AtMost a y.2) = true := by
    refine hs.imp_of_mem fun hx hy hxy hax => ?_
    exact decide_eq_true (ho.trans ha (hp _ hx) (hp _ hy) (of_decide_eq_true hax) hxy)
  have hlen : k ≤ population.length := hk.trans List.countP_le_length
  have hall := List.countP_eq_length.2 (forall_mem_drop hup hk)
  have hdrop := (List.drop_sublist_drop_left population (Nat.sub_le_sub_left hkm population.length)).countP_le
    (p := fun x => h.AtMost a x.2)
  rw [List.length_drop] at hall
  omega

theorem exists_kthGreatest (hk : 1 ≤ k) (hlen : k ≤ population.length) : ∃ a, h.KthGreatest k population a := by
  have hlt : population.length - k < population.length := by omega
  obtain ⟨lower, x, upper, hsplit, hupper⟩ : ∃ lower x upper, population = lower ++ x :: upper ∧
      upper.length + 1 = k := by
    refine ⟨_, _, _, (List.take_append_drop (population.length - k) population).symm.trans
      (congrArg _ (List.drop_eq_getElem_cons hlt)), ?_⟩
    rw [List.length_drop]
    omega
  have hx : x ∈ population := by simp [hsplit]
  rw [hsplit] at hs
  obtain ⟨-, hsupper, hslower⟩ := List.pairwise_append.1 hs
  refine ⟨x.2, ⟨x.1, hx⟩, ?_, ?_⟩
  · have hnone : ∀ y ∈ lower ++ [x], ¬ decide (h.compare? x.2 y.2 = some .lt) = true := by
      intro y hy
      rw [decide_eq_true_eq]
      rcases List.mem_append.1 hy with hy | hy
      · exact ho.not_lt_of_atMost (hp y (by simp [hsplit, hy])) (hp x hx) (hslower y hy x List.mem_cons_self)
      · obtain rfl := List.mem_singleton.1 hy
        exact ho.not_lt_of_atMost (hp y hx) (hp y hx) (ho.refl (hp y hx))
    rw [hsplit, List.append_cons, List.countP_append, List.countP_eq_zero.2 hnone]
    have := upper.countP_le_length (p := fun y => h.compare? x.2 y.2 = some .lt)
    omega
  · have hall : ∀ y ∈ x :: upper, decide (h.AtMost x.2 y.2) = true := by
      intro y hy
      apply decide_eq_true
      rcases List.mem_cons.1 hy with rfl | hy
      · exact ho.refl (hp y hx)
      · exact (List.pairwise_cons.1 hsupper).1 y hy
    rw [hsplit, List.countP_append, List.countP_eq_length.2 hall, List.length_cons]
    omega

end Sorted

end Habitat

/-- The operator hands on what stands at the last `m` positions of a population. -/
def Operator.HandsOn {ι φ : Type} (op : Operator ι φ) (m : Nat) (population : List (ι × φ)) : Prop :=
  ∀ index x, population[index]? = some x → population.length ≤ index + m → ∀ s, op population index s = .ok (x.1, s)

namespace Simulation

variable {σ : Type} [WordSource σ] {ι φ : Type} {h : Habitat ι φ} {op : Operator ι φ}
  {sim last next later : Simulation ι φ} {s s' : σ} {first : List ι} {i j k m : Nat} {a b : φ}

theorem Invariant.occur (hi : sim.Invariant first j h) : ∀ x ∈ sim.population, h.Occurs x.2 :=
  fun x hx => ⟨x.1, hi.assessed x hx⟩

/-- Who is handed on has the fitness that it had, and stands where it stood until the next generation is sorted. -/
theorem Invariant.stays (hi : sim.Invariant first j h) (hm : op.HandsOn m sim.population) {seeds : List XorShift}
    {made : List ι} {population : List (ι × φ)} (hmade : op.Makes sim.population seeds made)
    (hassess : h.assess made = population.map .ok) {position : Nat} {x : ι × φ}
    (hx : sim.population[position]? = some x) (hlast : sim.population.length ≤ position + m) :
    population[position]? = some x := by
  obtain ⟨rfl, hassessed⟩ := Habitat.assess_ok.1 hassess
  have hlt : position < sim.population.length := (List.getElem?_eq_some_iff.1 hx).1
  obtain ⟨seed, i, s, -, hget, hop⟩ := hmade.2 position hlt
  rw [hm position x hx hlast] at hop
  cases hop
  rw [List.getElem?_map, Option.map_eq_some_iff] at hget
  obtain ⟨y, hy, hind⟩ := hget
  have hfit := hassessed y (List.mem_of_getElem? hy)
  rw [hind, hi.assessed x (List.mem_of_getElem? hx)] at hfit
  rw [hy, Prod.ext hind (Except.ok.inj hfit).symm]

theorem Invariant.handed_on (hi : sim.Invariant first j h) (hm : op.HandsOn m sim.population)
    (hs : sim.step h op s = .ok (next, s')) :
    (sim.population.drop (sim.population.length - m)).Subperm next.population := by
  obtain ⟨seeds, made, population, -, hmade, hpopulation, rfl⟩ := step_members hi.buffer hs
  have hassess := work_ok.1 hpopulation
  have hsize : population.length = sim.population.length := by
    rw [← hmade.1, ← (Habitat.assess_ok.1 hassess).1, List.length_map]
  have hsame : population.drop (sim.population.length - m) = sim.population.drop (sim.population.length - m) := by
    apply List.ext_getElem?
    intro index
    rw [List.getElem?_drop, List.getElem?_drop]
    cases hx : sim.population[sim.population.length - m + index]? with
    | some x => exact hi.stays hm hmade hassess hx (by omega)
    | none =>
      rw [List.getElem?_eq_none_iff] at hx ⊢
      rwa [hsize]
  rw [← hsame]
  exact (List.drop_sublist _ _).subperm.trans (sortBy_perm _ _).symm.subperm

/-- In one step the `k`-th greatest fitness does not decrease. -/
theorem Invariant.kthGreatest (hi : sim.Invariant first j h) (ho : h.Ordered) (hm : op.HandsOn m sim.population)
    (hkm : k ≤ m) (hs : sim.step h op s = .ok (next, s')) (ha : h.KthGreatest k sim.population a)
    (hb : h.KthGreatest k next.population b) : h.AtMost a b := by
  obtain ⟨x, hx⟩ := ha.member
  have hreached := Habitat.reached_drop ho hi.occur hi.sorted (hi.occur _ hx) ha.reached hkm
  exact ha.atMost ho hi.occur (hi.step ho hs).occur hb (hreached.trans ((hi.handed_on hm hs).countP_le _))

/-- What becomes of a simulation in some number of further generations, in one habitat and by one operator. Every
step may draw from a source of its own. -/
inductive Later (h : Habitat ι φ) (op : Operator ι φ) (sim : Simulation ι φ) : Nat → Simulation ι φ → Prop
  | now : Later h op sim 0 sim
  | step {σ : Type} [WordSource σ] {k : Nat} {last next : Simulation ι φ} {s s' : σ} (hl : Later h op sim k last)
      (hs : last.step h op s = .ok (next, s')) : Later h op sim (k + 1) next

theorem Later.invariant (hl : Later h op sim i later) (ho : h.Ordered) (hi : sim.Invariant first j h) :
    later.Invariant first (j + i) h := by
  induction hl with
  | now => exact hi
  | step _ hs ih => exact ih.step ho hs

theorem Invariant.exists_kthGreatest (hi : sim.Invariant first j h) (ho : h.Ordered) (hk : 1 ≤ k)
    (hlen : k ≤ first.length) : ∃ a, h.KthGreatest k sim.population a :=
  Habitat.exists_kthGreatest ho hi.occur hi.sorted hk (hi.size.symm ▸ hlen)

theorem Invariant.occurs (hi : sim.Invariant first j h) (ha : h.KthGreatest k sim.population a) : h.Occurs a := by
  obtain ⟨x, hx⟩ := ha.member
  exact hi.occur _ hx

theorem Later.kthGreatest (hl : Later h op sim i later) (ho : h.Ordered) (hi : sim.Invariant first j h)
    (hm : ∀ population, population.length = first.length → op.HandsOn m population) (hk : 1 ≤ k) (hkm : k ≤ m)
    (hlen : k ≤ first.length) (ha : h.KthGreatest k sim.population a) (hb : h.KthGreatest k later.population b) :
    h.AtMost a b := by
  induction hl generalizing b with
  | now => exact ha.atMost ho hi.occur hi.occur hb ha.reached
  | step hl hs ih =>
    have hlast := hl.invariant ho hi
    obtain ⟨c, hc⟩ := hlast.exists_kthGreatest ho hk hlen
    have hcb := hlast.kthGreatest ho (hm _ hlast.size) hkm hs hc hb
    exact ho.trans (hi.occurs ha) (hlast.occurs hc) ((hlast.step ho hs).occurs hb) (ih hc) hcb

end Simulation

theorem Habitat.Greatest.kthGreatest {ι φ : Type} {h : Habitat ι φ} {population : List (ι × φ)} {x : ι × φ}
    (ho : h.Ordered) (hp : ∀ x ∈ population, h.Occurs x.2) (hx : h.Greatest population x) :
    h.KthGreatest 1 population x.2 := by
  obtain ⟨hmem, hmost⟩ := hx
  refine ⟨⟨x.1, hmem⟩, ?_, ?_⟩
  · rw [Nat.lt_one_iff, List.countP_eq_zero]
    intro y hy
    rw [decide_eq_true_eq]
    exact ho.not_lt_of_atMost (hp y hy) (hp x hmem) (hmost y hy)
  · rw [Nat.one_le_iff_ne_zero, Nat.ne_zero_iff_zero_lt, List.countP_pos_iff]
    exact ⟨x, hmem, decide_eq_true (ho.refl (hp x hmem))⟩

theorem Environment.habitat_ordered {e : Environment} (hnan : ∀ t f, Tree.fitness e t = .ok f → f.isNaN = false) :
    e.habitat.Ordered := by
  apply Habitat.Ordered.of_key FloatOrder.place
  rintro a b ⟨t, ht⟩ ⟨u, hu⟩
  exact FloatOrder.compareFloats_eq (hnan t a ht) (hnan u b hu)

theorem Environment.atMost_iff {e : Environment} {f g : Float} (hf : f.isNaN = false) (hg : g.isNaN = false) :
    e.habitat.AtMost f g ↔ f ≤ g := by
  change compareFloats f g = _ ∨ compareFloats f g = _ ↔ _
  rw [FloatOrder.compareFloats_eq hf hg, FloatOrder.le_iff hf hg, Option.some.injEq, Option.some.injEq,
    compare_lt_iff_lt, compare_eq_iff_eq, le_iff_lt_or_eq]

namespace Breeder

variable (b : Breeder)

/-- How many positions of a population keep the tree that they have. -/
def kept (size : Nat) : Nat := (List.range size).countP fun index => kind b.evolution size index = .selection

theorem kept_le (size : Nat) : b.kept size ≤ size := List.countP_le_length.trans_eq List.length_range

theorem kind_selection {e : EvolutionSettings} {size i j : Nat} (hi : kind e size i = .selection) (hij : i ≤ j) :
    kind e size j = .selection := by
  simp only [kind] at hi ⊢
  split at hi
  · cases hi
  split at hi
  · cases hi
  split at hi
  · cases hi
  rw [if_neg (by omega), if_neg (by omega), if_neg (by omega)]

theorem kind_of_kept {size index : Nat} (hi : index < size) (hk : size ≤ index + b.kept size) :
    kind b.evolution size index = .selection := by
  have hup : (List.range size).Pairwise fun i j =>
      decide (kind b.evolution size i = .selection) = true → decide (kind b.evolution size j = .selection) = true := by
    refine List.pairwise_lt_range.imp fun hij hsel => ?_
    exact decide_eq_true (kind_selection (of_decide_eq_true hsel) (Nat.le_of_lt hij))
  have hmem : index ∈ (List.range size).drop (size - b.kept size) := by
    rw [List.mem_drop_iff_getElem]
    refine ⟨index - (size - b.kept size), ?_, ?_⟩
    · rw [List.length_range]
      omega
    · rw [List.getElem_range]
      omega
  have hlast := forall_mem_drop hup (Nat.le_refl _) index
  rw [List.length_range] at hlast
  exact of_decide_eq_true (hlast hmem)

theorem handsOn (population : List (Tree × Float)) :
    Operator.HandsOn b.breed (b.kept population.length) population := by
  intro index x hx hlen s
  have hlt := (List.getElem?_eq_some_iff.1 hx).1
  unfold breed
  rw [hx]
  dsimp only
  rw [b.kind_of_kept hlt hlen]
  rfl

variable {b}

/-- Where no fitness is NaN, the greatest ones of a population, as many as there are positions that keep their tree,
do not decrease in any number of generations; in particular the fittest never gets worse if there is such a
position. -/
theorem fittest_kept {e : Environment} (hnan : ∀ t f, Tree.fitness e t = .ok f → f.isNaN = false)
    {trees : List Tree} {first sim later : Simulation Tree Float} {i j : Nat}
    (hstart : Simulation.start e.habitat trees = .ok first) (hsim : first.Later e.habitat b.breed j sim)
    (hlater : sim.Later e.habitat b.breed i later) :
    (∀ k, 1 ≤ k → k ≤ b.kept sim.population.length →
      (∃ f, e.habitat.KthGreatest k sim.population f) ∧ (∃ g, e.habitat.KthGreatest k later.population g) ∧
      ∀ f g, e.habitat.KthGreatest k sim.population f → e.habitat.KthGreatest k later.population g → f ≤ g) ∧
    (1 ≤ b.kept sim.population.length →
      ∃ x y, sim.mostFit = .ok x ∧ later.mostFit = .ok y ∧ x.2 ≤ y.2) := by
  have ho := e.habitat_ordered hnan
  have hi := hsim.invariant ho (Simulation.start_invariant ho hstart)
  have hi' := hlater.invariant ho hi
  have hsize : b.kept sim.population.length ≤ trees.length := hi.size ▸ b.kept_le _
  have hnot : ∀ f, e.habitat.Occurs f → f.isNaN = false := fun f hf => hnan _ f hf.choose_spec
  have hkeep : ∀ population, population.length = trees.length →
      Operator.HandsOn b.breed (b.kept sim.population.length) population := by
    intro population hlen
    rw [hi.size, ← hlen]
    exact b.handsOn population
  have hle : ∀ k, 1 ≤ k → k ≤ b.kept sim.population.length → ∀ f g, e.habitat.KthGreatest k sim.population f →
      e.habitat.KthGreatest k later.population g → f ≤ g := by
    intro k hk hkept f g hf hg
    rw [← Environment.atMost_iff (hnot f (hi.occurs hf)) (hnot g (hi'.occurs hg))]
    exact hlater.kthGreatest ho hi hkeep hk hkept (hkept.trans hsize) hf hg
  constructor
  · intro k hk hkept
    exact ⟨hi.exists_kthGreatest ho hk (hkept.trans hsize), hi'.exists_kthGreatest ho hk (hkept.trans hsize),
      hle k hk hkept⟩
  · intro hkept
    have hne : trees ≠ [] := List.ne_nil_of_length_pos (hkept.trans hsize)
    obtain ⟨x, hx, hgreatest⟩ := (hi.extremes ho hne).1
    obtain ⟨y, hy, hgreatest'⟩ := (hi'.extremes ho hne).1
    have hxy :=
      hle 1 (Nat.le_refl 1) hkept _ _ (hgreatest.kthGreatest ho hi.occur) (hgreatest'.kthGreatest ho hi'.occur)
    exact ⟨x, y, hx, hy, hxy⟩

def truthBreeder : Breeder where
  catalog := ⟨.standard, [("Const<bool,true>", .const (.bool true)), ("Not", .logic .not)]⟩
  signature := ⟨none, .bool, [], []⟩
  generation := ⟨2, .standard, 1⟩
  evolution := .standard

def truth : Environment := ⟨[⟨[], .bool true⟩], ⟨⟨5, 1⟩, .empty⟩, absoluteError 2.0⟩

theorem truth_fitness (t : Tree) (f : Float) (hf : t.fitness truth = .ok f) : f.isNaN = false := by
  have hfault : (0.0 : Float) ≤ 2.0 := by decide
  have hpenalty : ∀ o v, 0.0 ≤ truth.penalty o v := absoluteError_from_zero hfault
  exact FloatRounding.isNaN_of_le (Tree.fitness_at_zero hpenalty hf).1

def soleTree (v : Bool) : Tree := .planted truthBreeder.signature (.node (.const (.bool v)) fun i => i.elim0)

def soles : List Tree := [soleTree false, soleTree true, soleTree false]

theorem soles_step : ((Simulation.start truth.habitat soles).toOption.bind fun sim =>
    (sim.step truth.habitat truthBreeder.breed (XorShift.ofSeed 7)).toOption).isSome = true := by
  decide +kernel

/-- The first of three positions is for a cross, and both others keep their trees. -/
theorem fittest_kept_soles : ∃ first next : Simulation Tree Float, Simulation.start truth.habitat soles = .ok first ∧
    first.Later truth.habitat truthBreeder.breed 1 next ∧ truthBreeder.kept first.population.length = 2 ∧
    ∃ x y, first.mostFit = .ok x ∧ next.mostFit = .ok y ∧ x.2 ≤ y.2 := by
  have hstep := soles_step
  rw [Option.isSome_iff_exists] at hstep
  obtain ⟨⟨next, s'⟩, hnext⟩ := hstep
  obtain ⟨first, hfirst, hnext⟩ := Option.bind_eq_some_iff.1 hnext
  have hstart : Simulation.start truth.habitat soles = .ok first := Result.toOption_some.1 hfirst
  have hgoes : first.Later truth.habitat truthBreeder.breed 1 next := .step .now (Result.toOption_some.1 hnext)
  have hsize : first.population.length = 3 :=
    (Simulation.start_invariant (truth.habitat_ordered truth_fitness) hstart).size
  have hkept : truthBreeder.kept 3 = 2 := by decide +kernel
  refine ⟨first, next, hstart, hgoes, hsize ▸ hkept, (fittest_kept truth_fitness hstart .now hgoes).2 ?_⟩
  rw [hsize, hkept]
  decide

end Breeder
end Grove
