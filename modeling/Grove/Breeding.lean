import Grove.Crossover
import Grove.Fitness
import Grove.Mutation
import Grove.Settings
import Grove.Simulation

/-! Breeding trees. The positions of a population are divided by the weights: the first ones get
random trees, the next ones mutants, then come crossovers with partners drawn in proportion to their
fitness, and the fittest are kept. Where an operation is refused the tree at that position is kept. -/

namespace Grove

section
variable {σ : Type} [WordSource σ]

/-- The lesser number; NaN counts for nothing. -/
def minNumber (a b : Float) : Float := if a.isNaN || b < a then b else a

def maxNumber (a b : Float) : Float := if a.isNaN || a < b then b else a

/-- The distances from the least fitness; the smallest weight is a thousandth of the largest. -/
def fitnessWeights (fitness : List Float) : List Float :=
  let infinity := Float.ofBits (UInt64.ofNat binary64.infinity)
  let least := fitness.foldl minNumber infinity
  let most := fitness.foldl maxNumber (-infinity)
  let floor := maxNumber ((most - least) * 0.001) 0.000000001
  fitness.map fun f => f - least + floor

/-- An index drawn in proportion to fitness, or at random where that has no meaning. -/
def selectProportional (fitness : List Float) : Draw σ Nat := do
  match fitness.length with
  | 0 => Draw.violate .noIndividuals
  | n + 1 =>
    match ← Draw.weighted (fitnessWeights fitness) with
    | some i => return i
    | none => return (← Draw.uniform .double n).val

end

/-- What new trees are bred from. -/
structure Breeder where
  catalog : NodeCatalog
  signature : Signature
  generation : GenerationSettings
  evolution : EvolutionSettings

inductive Breeding where
  | random
  | mutation
  | crossover
  | selection
  deriving DecidableEq

namespace Breeder

/-- A number without its fraction, within 64 bits. -/
def whole (x : Float32) : Nat := x.toUInt64.toNat

def fraction (n : Nat) : Float32 := (UInt64.ofNat n).toFloat32

/-- Where the mutants, the crossovers and the selected begin, in a population of the given size. -/
def marks (e : EvolutionSettings) (size : Nat) : Nat × Nat × Nat :=
  let size := fraction size
  let mutants := whole (e.randomWeight * size)
  let crossovers := whole (fraction mutants + e.mutateWeight * size)
  let selected := whole (fraction crossovers + e.crossoverWeight * size)
  (mutants, crossovers, selected)

def kind (e : EvolutionSettings) (size index : Nat) : Breeding :=
  let (mutants, crossovers, selected) := marks e size
  if index < mutants then .random
  else if index < crossovers then .mutation
  else if index < selected then .crossover
  else .selection

variable {σ : Type} [WordSource σ] (b : Breeder)

def generator : Generator σ := ⟨b.catalog, b.generation.ranges.literal⟩

def pairLimits : PairLimits := ⟨b.generation.maxDepth, b.generation.crossoverRetries⟩

def random : Attempt σ Tree := b.generator.ramped b.signature b.generation.maxDepth

/-- The result of an operation, or else the tree at hand. -/
def orKeep (current : Tree) (x : Attempt σ Tree) : Draw σ Tree := do
  match ← x.run with
  | .ok t => return t
  | .error _ => return current

def mutated (current : Tree) : Attempt σ Tree := ExceptT.mk fun s =>
  let (t, result) := current.mutate b.generator Tree.selectNode b.generation.maxDepth s
  result.map fun (r, s) => (r.map fun _ => t, s)

def cross (current partner : Tree) : Attempt σ Tree :=
  (·.1) <$> Tree.crossover Node.remap b.pairLimits.selectPair current partner

/-- The tree for a position of the next generation. -/
def breed (population : List (Tree × Float)) (index : Nat) : Draw σ Tree := do
  match population[index]? with
  | none => Draw.violate .noIndividuals
  | some (current, _) =>
    match kind b.evolution population.length index with
    | .random => orKeep current b.random
    | .mutation => orKeep current (b.mutated current)
    | .crossover =>
      match population[← selectProportional (population.map (·.2))]? with
      | none => Draw.violate .noIndividuals
      | some (partner, _) => orKeep current (b.cross current partner)
    | .selection => return current

end Breeder

def Environment.habitat (e : Environment) : Habitat Tree Float := ⟨Tree.fitness e, compareFloats⟩

end Grove
