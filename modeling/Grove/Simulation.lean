import Grove.Random.XorShift
import Grove.Sorting

/-! Generations of individuals. A population is kept sorted, the fittest last. A step draws a seed for
every position, lets an operator make a new individual for each from the population so far, and sorts
these by their fitness. Both the making and the assessing are jobs for a worker, which sends back what
comes of them; the individuals made are put in order by their positions and pass through a buffer before
they are assessed. What goes wrong for a single individual makes the step fail as a whole. -/

namespace Grove

/-- What a simulation needs to know of its individuals. -/
structure Habitat (ι φ : Type) where
  fitness : ι → Except Violation φ
  compare? : φ → φ → Option Ordering

structure Simulation (ι φ : Type) where
  population : List (ι × φ)
  /-- The individuals that are made but not assessed yet. -/
  buffer : List ι
  generation : Nat

/-- Makes the individual for a position of the next generation. -/
abbrev Operator (ι φ : Type) := List (ι × φ) → Nat → Draw XorShift ι

namespace Habitat

variable {ι φ : Type} (h : Habitat ι φ)

/-- Sorted by fitness; where two cannot be compared the later one goes first. -/
def rank (population : List (ι × φ)) : List (ι × φ) :=
  sortBy (fun a b => h.compare? a.2 b.2 = some .lt || h.compare? a.2 b.2 = none) population

/-- A job for each individual, which pairs it with its fitness. -/
def assess (individuals : List ι) : List (Except Violation (ι × φ)) :=
  individuals.map fun i => (h.fitness i).map fun f => (i, f)

end Habitat

/-- What one worker sends for its jobs, which it does in the order in which it was handed them. A job
that fails brings it down. -/
def work {α : Type} (jobs : List (Except Violation α)) : Except Violation (List α) :=
  (jobs.mapM id).mapError fun _ => .workerFailed

/-- The individuals in the order of their positions, however they came in. -/
def inOrder {ι : Type} (made : List (Nat × ι)) : List ι := (sortBy (fun a b => a.1 < b.1) made).map (·.2)

namespace Simulation

variable {ι φ : Type}

def start (h : Habitat ι φ) (individuals : List ι) : Except Violation (Simulation ι φ) := do
  let population ← work (h.assess individuals)
  return ⟨h.rank population, [], 0⟩

/-- A seed for each position from a given one on. -/
def drawSeeds {σ : Type} [WordSource σ] : Nat → Draw σ (List XorShift)
  | 0 => return []
  | n + 1 => return (← XorShift.draw) :: (← drawSeeds n)

/-- A job for each position, which makes an individual from a seed of its own and sends it along with
the position. -/
def generate (s : Simulation ι φ) (op : Operator ι φ) (seeds : List XorShift) :
    List (Except Violation (Nat × ι)) :=
  seeds.zipIdx.map fun (seed, i) => (op s.population i seed).map fun r => (i, r.1)

def step {σ : Type} [WordSource σ] (h : Habitat ι φ) (op : Operator ι φ) (s : Simulation ι φ) :
    Draw σ (Simulation ι φ) := do
  let seeds ← drawSeeds s.population.length
  let made ← work (s.generate op seeds)
  let population ← work (h.assess (s.buffer ++ inOrder made))
  return ⟨h.rank population, [], s.generation + 1⟩

def mostFit (s : Simulation ι φ) : Except Violation (ι × φ) :=
  s.population.getLast?.elim (.error .noIndividuals) .ok

def leastFit (s : Simulation ι φ) : Except Violation (ι × φ) :=
  s.population.head?.elim (.error .noIndividuals) .ok

end Simulation
end Grove
