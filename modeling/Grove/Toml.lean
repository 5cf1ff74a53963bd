/-! Data in TOML form: scalars, arrays and tables. A table remembers how it came to be, for that
settles whether a later line may add to it. Arrays of tables keep their newest table apart, since
only that one can still grow. -/

namespace Grove

/-- A table is written out as a value, opened by a header of its own, implied by the header of a
table below it, or created by a dotted key. -/
inductive TableOrigin where
  | inline
  | header
  | implied
  | dotted
  deriving DecidableEq

inductive Toml where
  | string (s : String)
  | integer (n : Int)
  | float (x : Float)
  | boolean (b : Bool)
  /-- A date, a time or both. -/
  | moment
  | array (items : List Toml)
  | table (origin : TableOrigin) (entries : List (String × Toml))
  | tables (newest : List (String × Toml)) (older : List (List (String × Toml)))

namespace Toml

abbrev Entries := List (String × Toml)

/-- The fields of a record, in the order declared. A table gives them by name, an array by position,
and a moment is a record that has none of them. Nothing else is a record. -/
def fields? (names : List String) : Toml → Option (List (Option Toml))
  | table _ entries => some (names.map (entries.lookup ·))
  | array items => some (names.zipIdx.map fun (_, i) => items[i]?)
  | tables newest older =>
    let items := (newest :: older).reverse.map (table .header)
    some (names.zipIdx.map fun (_, i) => items[i]?)
  | moment => some (names.map fun _ => none)
  | _ => none

def string? : Toml → Option String
  | string s => some s
  | _ => none

def strings? : Toml → Option (List String)
  | array items => items.mapM string?
  | _ => none

def integer? : Toml → Option Int
  | integer n => some n
  | _ => none

def within? (lo hi : Int) (t : Toml) : Option Int := t.integer?.filter fun n => lo ≤ n && n ≤ hi

/-- A field that may be left out, read by `read` if it is there. -/
def optional {α : Type} (read : Toml → Option α) : Option Toml → Option (Option α)
  | none => some none
  | some t => (read t).map some

/-- A field that has a default. -/
def orDefault {α : Type} (fallback : α) (read : Toml → Option α) : Option Toml → Option α
  | none => some fallback
  | some t => read t

end Toml
end Grove
