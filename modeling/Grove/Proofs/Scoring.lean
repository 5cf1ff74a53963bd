import Grove.Proofs.Elitism
import Grove.Proofs.Penalties
import Grove.Proofs.Planting
import Grove.Settings

/-! Scores. A tree that is exact on every case has the greatest fitness there is, zero, and no other tree ranks above
it. Only where an infinity is expected no tree is at zero, as two infinities have no difference. -/

namespace Grove

open FloatRounding

namespace Tree

variable {t : Tree} {e : Environment} {f : Float}

/-- The tree returns what the case expects. -/
def Exact (w : World) (t : Tree) (c : Case) : Prop :=
  ∃ v, t.outcome w c.arguments = .ok ⟨.valueReturned, some v⟩ ∧ v.same c.expected = true

/-- With the distance for a penalty, a fitness at zero is that of a tree which is exact on all cases. -/
theorem fitness_absoluteError {fault : Float} (hpenalty : e.penalty = absoluteError fault) (hfault : 0.0 ≤ fault)
    (h : t.fitness e = .ok f) : f ≤ 0.0 ∧ ((f == 0.0) = true ↔
      (fault == 0.0) = true ∨ ∀ c ∈ e.cases, t.Exact e.world c ∧ c.expected.isInfinite = false) := by
  obtain ⟨hle, hzero⟩ := fitness_at_zero (fun o v => hpenalty ▸ absoluteError_from_zero hfault o v) h
  refine ⟨hle, hzero.trans ?_⟩
  rw [hpenalty]
  constructor
  · intro hall
    refine or_iff_not_imp_left.2 fun hcost c hc => ?_
    obtain ⟨o, ho, hzero⟩ := hall c hc
    obtain ⟨v, rfl, hsame, hinfinite⟩ := ((absoluteError_at_zero hfault).1 hzero).resolve_left hcost
    exact ⟨⟨v, ho, hsame⟩, hinfinite⟩
  · rintro (hfree | hall) c hc
    · obtain ⟨o, ho⟩ := fitness_returns_iff.1 ⟨f, h⟩ c hc
      exact ⟨o, ho, (absoluteError_at_zero hfault).2 (.inl hfree)⟩
    · obtain ⟨⟨v, ho, hsame⟩, hinfinite⟩ := hall c hc
      exact ⟨_, ho, (absoluteError_at_zero hfault).2 (.inr ⟨v, rfl, hsame, hinfinite⟩)⟩

end Tree

/-- No fitness is above zero, and one is at zero just if the tree is exact on all cases and no case expects an infinity,
or if faults cost nothing. An exact tree does have a fitness, and where that is zero no other tree ranks above it. -/
theorem exact_scores_best {e : Environment} {fault : Float} (hpenalty : e.penalty = absoluteError fault)
    (hfault : 0.0 ≤ fault) (t : Tree) :
    (∀ f, t.fitness e = .ok f → f ≤ 0.0 ∧ ((f == 0.0) = true ↔
      (fault == 0.0) = true ∨ ∀ c ∈ e.cases, t.Exact e.world c ∧ c.expected.isInfinite = false)) ∧
    ((∀ c ∈ e.cases, t.Exact e.world c) → ∃ f, t.fitness e = .ok f ∧ ((f == 0.0) = true ↔
      (fault == 0.0) = true ∨ ∀ c ∈ e.cases, c.expected.isInfinite = false)) ∧
    (∀ f, t.fitness e = .ok f → (f == 0.0) = true → ∀ (u : Tree) g, u.fitness e = .ok g → e.habitat.AtMost g f) := by
  refine ⟨fun f hf => Tree.fitness_absoluteError hpenalty hfault hf, fun hexact => ?_, fun f hf hzero u g hg => ?_⟩
  · obtain ⟨f, hf⟩ := Tree.fitness_returns_iff.2 fun c hc => ⟨_, (hexact c hc).choose_spec.1⟩
    refine ⟨f, hf, (Tree.fitness_absoluteError hpenalty hfault hf).2.trans (or_congr_right ?_)⟩
    exact forall₂_congr fun c hc => and_iff_right (hexact c hc)
  · have hle := (Tree.fitness_absoluteError hpenalty hfault hf).1
    have hle' := (Tree.fitness_absoluteError hpenalty hfault hg).1
    rw [Environment.atMost_iff (isNaN_of_le hle') (isNaN_of_le hle)]
    exact le_at_zero hle' hzero

/-- The arguments come back: the least float, the greatest finite one, and a zero for the other one. -/
def echoes : Environment where
  cases := [⟨[.float (.ofBits 1)], .float (.ofBits 1)⟩,
    ⟨[.float (.ofBits 0x7FEFFFFFFFFFFFFF)], .float (.ofBits 0x7FEFFFFFFFFFFFFF)⟩, ⟨[.float (-0.0)], .float 0.0⟩]
  world := ⟨.standard, .empty⟩
  penalty := absoluteError standardFault

def echo : Tree := .planted ⟨none, .float, [.float], []⟩ (.node (.argument .float 0) fun i => i.elim0)

theorem exact_scores_best_echo : echoes.penalty = absoluteError standardFault ∧ 0.0 ≤ standardFault ∧
    (∀ c ∈ echoes.cases, echo.Exact echoes.world c) ∧
    ∃ f, echo.fitness echoes = .ok f ∧ f ≤ 0.0 ∧ (f == 0.0) = true ∧
      ∀ (u : Tree) g, u.fitness echoes = .ok g → echoes.habitat.AtMost g f := by
  have hfault : 0.0 ≤ standardFault := by decide
  have hexact : ∀ c ∈ echoes.cases, echo.Exact echoes.world c := by
    simp only [echoes, List.forall_mem_cons]
    exact ⟨⟨_, rfl, by decide⟩, ⟨_, rfl, by decide⟩, ⟨_, rfl, by decide⟩, nofun⟩
  have hfinite : ∀ c ∈ echoes.cases, c.expected.isInfinite = false := by
    simp only [echoes, List.forall_mem_cons]
    exact ⟨by decide, by decide, by decide, nofun⟩
  obtain ⟨hscore, hreturns, hbest⟩ := exact_scores_best (e := echoes) rfl hfault echo
  obtain ⟨f, hf, hzero⟩ := hreturns hexact
  have hzero := hzero.2 (.inr hfinite)
  exact ⟨rfl, hfault, hexact, f, hf, (hscore f hf).1, hzero, hbest f hf hzero⟩

def infinity : Float := .ofBits 0x7FF0000000000000

/-- An infinity is expected, and a fault costs what it costs by default. -/
def unbounded : Environment := ⟨[⟨[], .float infinity⟩], ⟨.standard, .empty⟩, absoluteError standardFault⟩

def infinityTree : Tree := .planted ⟨none, .float, [], []⟩ (.node (.const (.float infinity)) fun i => i.elim0)

/-- Though the tree is exact it gets the fitness of one that fails. -/
theorem infinity_scores_fault : standardFault.isFinite = true ∧ 0.0 ≤ standardFault ∧
    (∀ c ∈ unbounded.cases, infinityTree.Exact unbounded.world c) ∧
    infinityTree.fitness unbounded = .ok (-1000000.0) ∧ ((-1000000.0 : Float) == 0.0) = false := by
  refine ⟨by decide, by decide, ?_, rfl, by decide⟩
  intro c hc
  rw [List.mem_singleton.1 hc]
  exact ⟨.float infinity, rfl, by decide⟩

end Grove
