import Grove.Proofs.Result
import Grove.Proofs.Sorted
import Grove.Simulation
import Mathlib.Data.List.Range

/-! Generations keep their order. Where the fitness values that occur are totally ordered, a population is sorted by
fitness after every step, each member with its own, and has as many members as at first. No individual is lost or
doubled on its way: the members are those that the operator made, one for each position of the population before. -/

namespace Grove

/-- The worker is done just when no job failed. -/
theorem work_ok {α : Type} {jobs : List (Except Violation α)} {sent : List α} :
    work jobs = .ok sent ↔ jobs = sent.map .ok := by
  rw [work, Result.mapError_ok, Result.mapM_id_ok]

theorem work_total {α : Type} {jobs : List (Except Violation α)} (h : ∀ job ∈ jobs, ∃ a, job = .ok a) :
    ∃ sent, work jobs = .ok sent := by
  obtain ⟨sent, hsent⟩ := Result.mapM_returns (f := id) h
  exact ⟨sent, work_ok.2 (Result.mapM_id_ok.1 hsent)⟩

/-- Individuals that were sent in the order of their positions, or in any other, are put in that order. -/
theorem inOrder_of_perm {ι : Type} {received made : List (Nat × ι)} (hm : made.Pairwise fun a b => a.1 < b.1)
    (hp : received.Perm made) : inOrder received = made.map (·.2) := by
  rw [inOrder, sortBy_eq_of_perm Prod.fst hm hp]

namespace Habitat

variable {ι φ : Type} (h : Habitat ι φ)

def Occurs (a : φ) : Prop := ∃ i, h.fitness i = .ok a

def AtMost (a b : φ) : Prop := h.compare? a b = some .lt ∨ h.compare? a b = some .eq

/-- The fitness values that occur are totally ordered. -/
structure Ordered : Prop where
  comparable : ∀ {a b}, h.Occurs a → h.Occurs b → h.compare? a b ≠ none
  swap : ∀ {a b o}, h.Occurs a → h.Occurs b → h.compare? a b = some o → h.compare? b a = some o.swap
  trans : ∀ {a b c}, h.Occurs a → h.Occurs b → h.Occurs c → h.AtMost a b → h.AtMost b c → h.AtMost a c

variable {h} {a b : φ} {individuals : List ι} {population : List (ι × φ)}

theorem Ordered.refl (ho : h.Ordered) (ha : h.Occurs a) : h.AtMost a a := by
  obtain ⟨o, hc⟩ := Option.ne_none_iff_exists'.1 (ho.comparable ha ha)
  have hswap := ho.swap ha ha hc
  rw [hc] at hswap
  cases o with
  | lt => cases hswap
  | eq => exact .inr hc
  | gt => cases hswap

theorem Ordered.atMost_iff (ho : h.Ordered) (ha : h.Occurs a) (hb : h.Occurs b) :
    (h.compare? a b = some .lt || h.compare? a b = none) = false ↔ h.AtMost b a := by
  obtain ⟨o, hc⟩ := Option.ne_none_iff_exists'.1 (ho.comparable ha hb)
  have hswap := ho.swap ha hb hc
  unfold AtMost
  rw [hc, hswap]
  cases o <;> simp

theorem Ordered.ranks (ho : h.Ordered) :
    Ranks (fun x y : ι × φ => h.compare? x.2 y.2 = some .lt || h.compare? x.2 y.2 = none) (fun x => h.Occurs x.2) where
  asymm {x y} hx hy hlt := by
    rw [ho.atMost_iff hy hx]
    exact .inl (by simpa [ho.comparable hx hy] using hlt)
  trans hx hy hz hxy hyz := by
    rw [ho.atMost_iff hx hy] at hxy
    rw [ho.atMost_iff hy hz] at hyz
    exact (ho.atMost_iff hx hz).2 (ho.trans hz hy hx hyz hxy)

theorem Ordered.rank (ho : h.Ordered) (hp : ∀ x ∈ population, h.Occurs x.2) :
    (h.rank population).Pairwise fun x y => h.AtMost x.2 y.2 := by
  have hmem : ∀ x ∈ h.rank population, h.Occurs x.2 := fun x hx => hp x ((sortBy_perm _ _).mem_iff.1 hx)
  exact (ho.ranks.sortBy hp).imp_of_mem fun hx hy => (ho.atMost_iff (hmem _ hy) (hmem _ hx)).1

variable (h) in
/-- A population of these individuals, each with its fitness, and sorted by that. -/
structure Ranked (individuals : List ι) (population : List (ι × φ)) : Prop where
  members : (population.map (·.1)).Perm individuals
  assessed : ∀ x ∈ population, h.fitness x.1 = .ok x.2
  sorted : population.Pairwise fun x y => h.AtMost x.2 y.2

/-- Every individual comes back once, paired with its fitness. -/
theorem assess_ok : h.assess individuals = population.map .ok ↔
    population.map (·.1) = individuals ∧ ∀ x ∈ population, h.fitness x.1 = .ok x.2 := by
  unfold assess
  induction individuals generalizing population with
  | nil => cases population <;> simp
  | cons i individuals ih =>
    cases population with
    | nil => simp
    | cons x population =>
      simp only [List.map_cons, List.cons.injEq, ih, Result.map_ok, List.forall_mem_cons]
      constructor
      · rintro ⟨⟨f, hf, rfl⟩, rfl, hrest⟩
        exact ⟨⟨rfl, rfl⟩, hf, hrest⟩
      · rintro ⟨⟨rfl, rfl⟩, hf, hrest⟩
        exact ⟨⟨x.2, hf, rfl⟩, rfl, hrest⟩

theorem assess_total (hf : ∀ i ∈ individuals, ∃ f, h.fitness i = .ok f) :
    ∃ population, work (h.assess individuals) = .ok population := by
  refine work_total fun job hjob => ?_
  obtain ⟨i, hi, rfl⟩ := List.mem_map.1 hjob
  obtain ⟨f, hf⟩ := hf i hi
  exact ⟨(i, f), by rw [hf]; rfl⟩

variable (h) in
def Greatest (population : List (ι × φ)) (x : ι × φ) : Prop := x ∈ population ∧ ∀ y ∈ population, h.AtMost y.2 x.2

variable (h) in
def Least (population : List (ι × φ)) (x : ι × φ) : Prop := x ∈ population ∧ ∀ y ∈ population, h.AtMost x.2 y.2

theorem Ranked.length (hr : h.Ranked individuals population) : population.length = individuals.length := by
  simpa using hr.members.length_eq

theorem work_assess (hw : work (h.assess individuals) = .ok population) :
    ((h.rank population).map (·.1)).Perm individuals ∧ ∀ x ∈ h.rank population, h.fitness x.1 = .ok x.2 := by
  obtain ⟨rfl, hassessed⟩ := assess_ok.1 (work_ok.1 hw)
  have hperm : (h.rank population).Perm population := sortBy_perm _ _
  exact ⟨hperm.map _, fun x hx => hassessed x (hperm.mem_iff.1 hx)⟩

theorem Ordered.ranked (ho : h.Ordered) (hw : work (h.assess individuals) = .ok population) :
    h.Ranked individuals (h.rank population) := by
  obtain ⟨hmembers, hassessed⟩ := work_assess hw
  have hperm : (h.rank population).Perm population := sortBy_perm _ _
  exact ⟨hmembers, hassessed, ho.rank fun x hx => ⟨x.1, hassessed x (hperm.mem_iff.2 hx)⟩⟩

end Habitat

/-- The individuals that an operator makes from a population, one for each position and from a seed of its own. -/
def Operator.Makes {ι φ : Type} (op : Operator ι φ) (population : List (ι × φ)) (seeds : List XorShift)
    (made : List ι) : Prop :=
  made.length = population.length ∧ ∀ index < population.length, ∃ seed i s',
    seeds[index]? = some seed ∧ made[index]? = some i ∧ op population index seed = .ok (i, s')

theorem Operator.Makes.of_mem {ι φ : Type} {op : Operator ι φ} {population : List (ι × φ)} {seeds : List XorShift}
    {made : List ι} (h : op.Makes population seeds made) {i : ι} (hi : i ∈ made) :
    ∃ index < population.length, ∃ s s', op population index s = .ok (i, s') := by
  obtain ⟨index, hlt, rfl⟩ := List.getElem_of_mem hi
  have hindex : index < population.length := h.1 ▸ hlt
  obtain ⟨seed, i, s', -, hmade, hop⟩ := h.2 index hindex
  rw [List.getElem?_eq_getElem hlt] at hmade
  cases hmade
  exact ⟨index, hindex, seed, s', hop⟩

namespace Simulation

variable {σ : Type} [WordSource σ] {ι φ : Type} {h : Habitat ι φ} {op : Operator ι φ} {sim next : Simulation ι φ}
  {s s' : σ}

theorem drawSeeds_total (n : Nat) (s : σ) : ∃ seeds s', drawSeeds n s = .ok (seeds, s') ∧ seeds.length = n := by
  induction n generalizing s with
  | zero => exact ⟨[], s, rfl, rfl⟩
  | succ n ih =>
    obtain ⟨seed, s₁, hdraw⟩ : ∃ seed s₁, (XorShift.draw : Draw σ XorShift) s = .ok (seed, s₁) := ⟨_, _, rfl⟩
    obtain ⟨seeds, s₂, hseeds, hlen⟩ := ih s₁
    have hbind : drawSeeds (n + 1) s =
        XorShift.draw s >>= fun p => drawSeeds n p.2 >>= fun q => .ok (p.1 :: q.1, q.2) :=
      rfl
    refine ⟨seed :: seeds, s₂, ?_, congrArg (· + 1) hlen⟩
    rw [hbind]
    exact Result.bind_ok.2 ⟨_, hdraw, Result.bind_ok.2 ⟨_, hseeds, rfl⟩⟩

theorem drawSeeds_length {n : Nat} {seeds : List XorShift} (hs : drawSeeds n s = .ok (seeds, s')) :
    seeds.length = n := by
  obtain ⟨_, _, htotal, hlen⟩ := drawSeeds_total n s
  cases htotal.symm.trans hs
  exact hlen

theorem getElem?_generate (seeds : List XorShift) (index : Nat) : (sim.generate op seeds)[index]? =
    seeds[index]?.map fun seed => (op sim.population index seed).map fun r => (index, r.1) := by
  unfold generate
  rw [List.getElem?_map, List.getElem?_zipIdx, Option.map_map, Nat.zero_add]
  rfl

theorem generate_get {seeds : List XorShift} {sent : List (Nat × ι)} (hs : sim.generate op seeds = sent.map .ok)
    {index : Nat} (hi : index < seeds.length) : ∃ i s', sent[index]? = some (index, i) ∧
      op sim.population index seeds[index] = .ok (i, s') := by
  have hget := congrArg (·[index]?) hs
  simp only [getElem?_generate, List.getElem?_map, List.getElem?_eq_getElem hi] at hget
  obtain ⟨sent, hsent, hmade⟩ := Option.map_eq_some_iff.1 hget.symm
  obtain ⟨⟨i, s'⟩, hop, rfl⟩ := Result.map_ok.1 hmade.symm
  exact ⟨i, s', hsent, hop⟩

theorem generate_length {seeds : List XorShift} {sent : List (Nat × ι)} (hs : sim.generate op seeds = sent.map .ok) :
    sent.length = seeds.length := by
  simpa [generate] using (congrArg List.length hs).symm

theorem generate_ok {seeds : List XorShift} {sent : List (Nat × ι)} (hseeds : seeds.length = sim.population.length)
    (hs : sim.generate op seeds = sent.map .ok) : op.Makes sim.population seeds (inOrder sent) := by
  have hlen := generate_length hs
  have hascending : sent.Pairwise fun a b => a.1 < b.1 := by
    have hnumber : ∀ index (hi : index < sent.length), sent[index].1 = index := by
      intro index hi
      obtain ⟨i, _, hsent, -⟩ := generate_get hs (hlen ▸ hi)
      rw [List.getElem?_eq_getElem hi] at hsent
      exact congrArg Prod.fst (Option.some.inj hsent)
    refine List.pairwise_iff_getElem.2 fun a b ha hb hab => ?_
    rw [hnumber a ha, hnumber b hb]
    exact hab
  rw [inOrder_of_perm hascending (.refl _)]
  refine ⟨by rw [List.length_map, hlen, hseeds], fun index hi => ?_⟩
  have hseed : index < seeds.length := hseeds.symm ▸ hi
  obtain ⟨i, s', hsent, hop⟩ := generate_get hs hseed
  exact ⟨seeds[index], i, s', List.getElem?_eq_getElem hseed, by rw [List.getElem?_map, hsent]; rfl, hop⟩

theorem start_iff {first : List ι} : start h first = .ok sim ↔
    ∃ population, work (h.assess first) = .ok population ∧ sim = ⟨h.rank population, [], 0⟩ := by
  rw [start, Result.bind_ok]
  constructor
  · rintro ⟨population, hpopulation, hs⟩
    cases hs
    exact ⟨population, hpopulation, rfl⟩
  · rintro ⟨population, hpopulation, rfl⟩
    exact ⟨population, hpopulation, rfl⟩

/-- A step is done when there is an individual for every position and all of them are assessed. -/
theorem step_iff : sim.step h op s = .ok (next, s') ↔ ∃ seeds sent population,
    drawSeeds sim.population.length s = .ok (seeds, s') ∧ work (sim.generate op seeds) = .ok sent ∧
      work (h.assess (sim.buffer ++ inOrder sent)) = .ok population ∧
      next = ⟨h.rank population, [], sim.generation + 1⟩ := by
  constructor
  · intro hs
    obtain ⟨⟨seeds, s₁⟩, hseeds, hmake⟩ := Result.bind_ok.1 hs
    obtain ⟨⟨sent, s₂⟩, hsent, hassess⟩ := Result.bind_ok.1 hmake
    obtain ⟨⟨population, s₃⟩, hpopulation, hrank⟩ := Result.bind_ok.1 hassess
    obtain ⟨hmade, rfl⟩ := Result.liftState_ok.1 hsent
    obtain ⟨hassessed, rfl⟩ := Result.liftState_ok.1 hpopulation
    cases hrank
    exact ⟨seeds, sent, population, hseeds, hmade, hassessed, rfl⟩
  · rintro ⟨seeds, sent, population, hseeds, hsent, hpopulation, rfl⟩
    exact Result.bind_ok.2 ⟨_, hseeds, Result.bind_ok.2 ⟨_, Result.liftState_ok.2 ⟨hsent, rfl⟩,
      Result.bind_ok.2 ⟨_, Result.liftState_ok.2 ⟨hpopulation, rfl⟩, rfl⟩⟩⟩

theorem step_members (hb : sim.buffer = []) (hs : sim.step h op s = .ok (next, s')) : ∃ seeds made population,
    drawSeeds sim.population.length s = .ok (seeds, s') ∧ op.Makes sim.population seeds made ∧
      work (h.assess made) = .ok population ∧ next = ⟨h.rank population, [], sim.generation + 1⟩ := by
  obtain ⟨seeds, sent, population, hseeds, hsent, hpopulation, rfl⟩ := step_iff.1 hs
  rw [hb, List.nil_append] at hpopulation
  exact ⟨seeds, inOrder sent, population, hseeds, generate_ok (drawSeeds_length hseeds) (work_ok.1 hsent),
    hpopulation, rfl⟩

theorem start_total {first : List ι} (hf : ∀ i ∈ first, ∃ f, h.fitness i = .ok f) : ∃ sim, start h first = .ok sim := by
  obtain ⟨population, hpopulation⟩ := Habitat.assess_total hf
  exact ⟨_, start_iff.2 ⟨population, hpopulation, rfl⟩⟩

theorem step_total (hop : ∀ index < sim.population.length, ∀ seed, ∃ r, op sim.population index seed = .ok r)
    (hf : ∀ i, ∃ f, h.fitness i = .ok f) (s : σ) : ∃ next s', sim.step h op s = .ok (next, s') := by
  obtain ⟨seeds, s', hseeds, hlen⟩ := drawSeeds_total sim.population.length s
  obtain ⟨sent, hsent⟩ : ∃ sent, work (sim.generate op seeds) = .ok sent := by
    apply work_total
    intro job hjob
    obtain ⟨⟨seed, index⟩, hmem, rfl⟩ := List.mem_map.1 hjob
    have hindex : index < sim.population.length := by
      have := (List.mem_zipIdx hmem).2.1
      omega
    obtain ⟨r, hr⟩ := hop index hindex seed
    exact ⟨(index, r.1), Result.map_ok.2 ⟨r, hr, rfl⟩⟩
  obtain ⟨population, hpopulation⟩ := Habitat.assess_total fun i (_ : i ∈ sim.buffer ++ inOrder sent) => hf i
  exact ⟨_, s', step_iff.2 ⟨seeds, sent, population, hseeds, hsent, hpopulation, rfl⟩⟩

/-- What a simulation comes to from its first individuals in some number of generations. Every step may be taken in a
habitat of its own, by an operator of its own and with a source of its own; the last habitat is named. -/
inductive After (first : List ι) : Nat → Habitat ι φ → Simulation ι φ → Prop
  | start {h : Habitat ι φ} {sim : Simulation ι φ} (ho : h.Ordered) (hs : start h first = .ok sim) : After first 0 h sim
  | step {σ : Type} [WordSource σ] {k : Nat} {h last : Habitat ι φ} {op : Operator ι φ} {sim next : Simulation ι φ}
      {s s' : σ} (ha : After first k last sim) (ho : h.Ordered) (hs : sim.step h op s = .ok (next, s')) :
      After first (k + 1) h next

/-- What holds of a simulation after every generation. -/
structure Invariant (first : List ι) (k : Nat) (h : Habitat ι φ) (sim : Simulation ι φ) : Prop where
  generation : sim.generation = k
  size : sim.population.length = first.length
  buffer : sim.buffer = []
  assessed : ∀ x ∈ sim.population, h.fitness x.1 = .ok x.2
  sorted : sim.population.Pairwise fun x y => h.AtMost x.2 y.2

variable {first : List ι} {k : Nat} {last : Habitat ι φ}

theorem start_invariant (ho : h.Ordered) (hs : start h first = .ok sim) : sim.Invariant first 0 h := by
  obtain ⟨population, hpopulation, rfl⟩ := start_iff.1 hs
  have hr := ho.ranked hpopulation
  exact ⟨rfl, hr.length, rfl, hr.assessed, hr.sorted⟩

theorem Invariant.step (hi : sim.Invariant first k last) (ho : h.Ordered) (hs : sim.step h op s = .ok (next, s')) :
    next.Invariant first (k + 1) h := by
  obtain ⟨seeds, made, population, -, hmade, hpopulation, rfl⟩ := step_members hi.buffer hs
  have hr := ho.ranked hpopulation
  exact ⟨congrArg (· + 1) hi.generation, hr.length.trans (hmade.1.trans hi.size), rfl, hr.assessed, hr.sorted⟩

theorem After.invariant (ha : After first k h sim) : sim.Invariant first k h := by
  induction ha with
  | start ho hs => exact start_invariant ho hs
  | step _ ho hs ih => exact ih.step ho hs

theorem After.ordered (ha : After first k h sim) : h.Ordered := by
  cases ha with
  | start ho => exact ho
  | step _ ho => exact ho

theorem Invariant.extremes (hi : sim.Invariant first k h) (ho : h.Ordered) (hne : first ≠ []) :
    (∃ most, sim.mostFit = .ok most ∧ h.Greatest sim.population most) ∧
      ∃ least, sim.leastFit = .ok least ∧ h.Least sim.population least := by
  have hrefl : ∀ x ∈ sim.population, h.AtMost x.2 x.2 := fun x hx => ho.refl ⟨x.1, hi.assessed x hx⟩
  have hsorted := hi.sorted
  have hpopulation : sim.population ≠ [] := by
    intro hnil
    exact hne (List.eq_nil_of_length_eq_zero (hi.size ▸ congrArg List.length hnil))
  constructor
  · obtain hnil | ⟨others, most, hlast⟩ := List.eq_nil_or_concat' sim.population
    · exact absurd hnil hpopulation
    · rw [hlast] at hrefl hsorted
      have hbelow := (List.pairwise_append.1 hsorted).2.2
      refine ⟨most, by simp [mostFit, hlast], by simp [hlast], ?_⟩
      rw [hlast]
      intro x hx
      rcases List.mem_append.1 hx with hx | hx
      · exact hbelow x hx most (List.mem_singleton_self most)
      · obtain rfl := List.mem_singleton.1 hx
        exact hrefl x (List.mem_append_right others hx)
  · obtain ⟨least, others, hfirst⟩ := List.exists_cons_of_ne_nil hpopulation
    rw [hfirst] at hrefl hsorted
    refine ⟨least, by simp [leastFit, hfirst], by simp [hfirst], ?_⟩
    rw [hfirst]
    intro x hx
    rcases List.mem_cons.1 hx with rfl | hx'
    · exact hrefl x hx
    · exact (List.pairwise_cons.1 hsorted).1 x hx'

/-- After every number of generations a population of the same size is sorted by fitness, each member with its own in
the habitat of the last one; the members are those of the first generation, or those that the operator made for the
positions of the population before. Where the operator and the fitness never fail, no step does. -/
theorem generations_ranked (first : List ι) :
    (∀ h : Habitat ι φ, h.Ordered →
      ((∀ i ∈ first, ∃ f, h.fitness i = .ok f) → ∃ sim, start h first = .ok sim) ∧
      ∀ sim, start h first = .ok sim → After first 0 h sim ∧ (sim.population.map (·.1)).Perm first) ∧
    ∀ k (h : Habitat ι φ) (sim : Simulation ι φ), After first k h sim →
      sim.Invariant first k h ∧
      (first ≠ [] → (∃ most, sim.mostFit = .ok most ∧ h.Greatest sim.population most) ∧
        ∃ least, sim.leastFit = .ok least ∧ h.Least sim.population least) ∧
      ∀ (h' : Habitat ι φ) (op : Operator ι φ) (s : σ), h'.Ordered →
        ((∀ index < sim.population.length, ∀ seed, ∃ r, op sim.population index seed = .ok r) →
          (∀ i, ∃ f, h'.fitness i = .ok f) → ∃ next s', sim.step h' op s = .ok (next, s')) ∧
        ∀ next s', sim.step h' op s = .ok (next, s') → After first (k + 1) h' next ∧
          ∃ seeds made, drawSeeds sim.population.length s = .ok (seeds, s') ∧ op.Makes sim.population seeds made ∧
            (next.population.map (·.1)).Perm made := by
  constructor
  · intro h ho
    refine ⟨start_total, fun sim hs => ⟨.start ho hs, ?_⟩⟩
    obtain ⟨population, hpopulation, rfl⟩ := start_iff.1 hs
    exact (ho.ranked hpopulation).members
  · intro k h sim ha
    refine ⟨ha.invariant, ha.invariant.extremes ha.ordered, fun h' op s ho => ⟨fun hop hf => step_total hop hf s, ?_⟩⟩
    intro next s' hs
    obtain ⟨seeds, made, population, hseeds, hmade, hpopulation, rfl⟩ := step_members ha.invariant.buffer hs
    exact ⟨ha.step ho hs, seeds, made, hseeds, hmade, (ho.ranked hpopulation).members⟩

end Simulation

namespace Guessing

/-- Guesses at a number are the fitter, the closer they are. -/
def closeness (target : Nat) : Habitat Nat Nat where
  fitness guess := .ok (100 - (guess - target) - (target - guess))
  compare? a b := some (compare a b)

def nudge : Operator Nat Nat := fun population index => return population[index]?.elim 0 (·.1 + 1)

theorem closeness_ordered (target : Nat) : (closeness target).Ordered where
  comparable _ _ := nofun
  swap {a b o} _ _ h := by
    cases h
    exact congrArg some (Nat.compare_swap a b).symm
  trans {a b c} _ _ _ hab hbc := by
    simp only [Habitat.AtMost, closeness, Option.some.injEq, Nat.compare_eq_lt, Nat.compare_eq_eq] at *
    omega

def guesses : List Nat := [3, 17, 8]

def initial : Simulation Nat Nat := ⟨[(3, 93), (17, 93), (8, 98)], [], 0⟩

def nudged : List (Nat × Nat) := [(4, 92), (18, 94), (9, 97)]

theorem step_initial : (initial.step (closeness 12) nudge (XorShift.ofSeed 7)).toOption.map (·.1.population) =
    some nudged := by
  decide +kernel

/-- The target moves from 10 to 12 before the only step. -/
theorem generations_ranked_guesses : ∃ next s', initial.step (closeness 12) nudge (XorShift.ofSeed 7) = .ok (next, s') ∧
    next.population = nudged ∧ next.Invariant guesses 1 (closeness 12) ∧
    ∃ most, next.mostFit = .ok most ∧ (closeness 12).Greatest next.population most := by
  obtain ⟨hstart, hafter⟩ := Simulation.generations_ranked (σ := XorShift) (φ := Nat) guesses
  have hinitial : Simulation.After guesses 0 (closeness 10) initial :=
    ((hstart _ (closeness_ordered 10)).2 initial rfl).1
  obtain ⟨hgoes, hgone⟩ := (hafter 0 _ _ hinitial).2.2 (closeness 12) nudge (XorShift.ofSeed 7) (closeness_ordered 12)
  obtain ⟨next, s', hs⟩ := hgoes (fun _ _ _ => ⟨_, rfl⟩) fun _ => ⟨_, rfl⟩
  have hpopulation := step_initial
  rw [hs] at hpopulation
  obtain ⟨hinvariant, hextremes, -⟩ := hafter 1 _ next (hgone next s' hs).1
  exact ⟨next, s', hs, Option.some.inj hpopulation, hinvariant, (hextremes nofun).1⟩

end Guessing
end Grove
