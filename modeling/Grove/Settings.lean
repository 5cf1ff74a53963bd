import Grove.Literals
import Grove.Run
import Grove.Toml.Reader

/-! Settings, as read from a TOML document. Every setting has a default, settings that are not known
are ignored, and a whole number may stand for a float. -/

namespace Grove

structure GenerationSettings where
  maxDepth : Nat
  ranges : LiteralRanges
  /-- Attempts to find a pair of nodes for a crossover. -/
  crossoverRetries : Nat
  deriving DecidableEq

/-- The weights are shares of the population that are generated anew, mutated or crossed over. -/
structure EvolutionSettings where
  population : Nat
  threads : Nat
  randomWeight : Float32
  mutateWeight : Float32
  crossoverWeight : Float32
  deriving DecidableEq

structure Settings where
  evaluation : Limits
  generation : GenerationSettings
  evolution : EvolutionSettings
  deriving DecidableEq

def Limits.standard : Limits := ⟨10000, 64⟩

def GenerationSettings.standard : GenerationSettings := ⟨6, .standard, 16⟩

namespace EvolutionSettings

def standard : EvolutionSettings := ⟨200, 0, 0.1, 0.2, 0.5⟩

/-- Equality, with the weights compared as numbers. -/
def same (a b : EvolutionSettings) : Bool :=
  a.population = b.population && a.threads = b.threads && a.randomWeight == b.randomWeight
    && a.mutateWeight == b.mutateWeight && a.crossoverWeight == b.crossoverWeight

end EvolutionSettings

/-- The number nearest to a whole one. -/
def floatOfInt (n : Int) : Float :=
  .ofBits (UInt64.ofNat ((if n < 0 then binary64.signBit else 0) + binary64.nearest n.natAbs 1))

def float32OfInt (n : Int) : Float32 :=
  .ofBits (UInt32.ofNat ((if n < 0 then binary32.signBit else 0) + binary32.nearest n.natAbs 1))

namespace Toml

def float? : Toml → Option Float
  | float x => some x
  | integer n => some (floatOfInt n)
  | _ => none

def float32? : Toml → Option Float32
  | float x => some x.toFloat32
  | integer n => some (float32OfInt n)
  | _ => none

def int32? (t : Toml) : Option Int32 := (t.within? minInt32 maxInt32).map Int32.ofInt

def count? (bound : Nat) (t : Toml) : Option Nat := (t.within? 0 (bound - 1)).map Int.toNat

def limits? (t : Toml) : Option Limits := do
  let d := Limits.standard
  match ← t.fields? ["max_steps", "max_stack_depth"] with
  | [steps, depth] =>
    return ⟨← orDefault d.maxSteps (count? words64) steps, ← orDefault d.maxDepth (count? words64) depth⟩
  | _ => none

def generation? (t : Toml) : Option GenerationSettings := do
  let d := GenerationSettings.standard
  let r := d.ranges
  match ← t.fields? ["max_depth", "int_min", "int_max", "float_min", "float_max", "max_array_len",
      "crossover_retries"] with
  | [depth, intMin, intMax, floatMin, floatMax, length, retries] =>
    return {
      maxDepth := ← orDefault d.maxDepth (count? words32) depth
      ranges := {
        intMin := ← orDefault r.intMin int32? intMin
        intMax := ← orDefault r.intMax int32? intMax
        floatMin := ← orDefault r.floatMin float? floatMin
        floatMax := ← orDefault r.floatMax float? floatMax
        maxArrayLength := ← orDefault r.maxArrayLength (count? words64) length }
      crossoverRetries := ← orDefault d.crossoverRetries (count? words64) retries }
  | _ => none

def evolution? (t : Toml) : Option EvolutionSettings := do
  let d := EvolutionSettings.standard
  match ← t.fields? ["population", "threads", "random_weight", "mutate_weight", "crossover_weight"] with
  | [population, threads, random, mutate, crossover] =>
    return {
      population := ← orDefault d.population (count? words64) population
      threads := ← orDefault d.threads (count? words32) threads
      randomWeight := ← orDefault d.randomWeight float32? random
      mutateWeight := ← orDefault d.mutateWeight float32? mutate
      crossoverWeight := ← orDefault d.crossoverWeight float32? crossover }
  | _ => none

end Toml

namespace Settings

def standard : Settings := ⟨.standard, .standard, .standard⟩

def same (a b : Settings) : Bool :=
  a.evaluation = b.evaluation && a.generation.maxDepth = b.generation.maxDepth
    && a.generation.ranges.same b.generation.ranges
    && a.generation.crossoverRetries = b.generation.crossoverRetries && a.evolution.same b.evolution

def ofToml? (t : Toml) : Option Settings := do
  match ← t.fields? ["evaluation", "generation", "evolution"] with
  | [evaluation, generation, evolution] =>
    return {
      evaluation := ← Toml.orDefault .standard Toml.limits? evaluation
      generation := ← Toml.orDefault .standard Toml.generation? generation
      evolution := ← Toml.orDefault .standard Toml.evolution? evolution }
  | _ => none

def read (text : String) : Except Error Settings :=
  ((Toml.read text).bind ofToml?).elim (.error .toml) .ok

end Settings
end Grove
