import Grove.Evaluation

/-! How good a tree is. A case gives arguments and the value expected for them; each outcome costs a
penalty, and the fitness is the negated sum of the penalties, so that zero is best. -/

namespace Grove

structure Case where
  arguments : List Value
  expected : Value
  deriving DecidableEq

/-- The cost of an outcome where a value is expected. -/
abbrev Penalty := Outcome → Value → Float

/-- An int as a float, which loses nothing. -/
def int32Float (i : Int32) : Float := .ofModel (.ofInt32 i)

/-- The distance between two values: between numbers of one base their difference, and else zero or
one. -/
def Value.distance : Value → Value → Float
  | int a, int b => (int32Float a - int32Float b).abs
  | float a, float b => (a - b).abs
  | a, b => if a.same b then 0.0 else 1.0

/-- The distance to the value expected, but no more than the cost of a fault. -/
def absoluteError (fault : Float) : Penalty := fun o expected =>
  match o with
  | ⟨.valueReturned, some v⟩ =>
    let error := v.distance expected
    if !error.isFinite || fault < error then fault else error
  | _ => fault

def standardFault : Float := 1000000.0

structure Environment where
  cases : List Case
  world : World
  penalty : Penalty

def newVariables : List Value → Store → List Variable × Store
  | [], s => ([], s)
  | v :: vs, s =>
    let (x, s) := Variable.new v s
    let (xs, s) := newVariables vs s
    (x :: xs, s)

namespace Tree

def outcome (w : World) (t : Tree) (arguments : List Value) : Except Violation Outcome :=
  let (xs, s) := newVariables arguments .empty
  (t.evaluate w xs s).1

def penalty (e : Environment) (t : Tree) (c : Case) : Except Violation Float :=
  (t.outcome e.world c.arguments).map fun o => e.penalty o c.expected

/-- The sum of the penalties starts from `-0.0`, which leaves the sign of every zero as it is. -/
def fitness (e : Environment) (t : Tree) : Except Violation Float := do
  let penalties ← e.cases.mapM (t.penalty e)
  return -(penalties.foldl (· + ·) (-0.0))

end Tree
end Grove
