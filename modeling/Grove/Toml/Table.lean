import Grove.Toml

/-! How the lines of a document add up to its tables. A header `[a.b]` opens a table once, `[[a.b]]`
adds a table to an array, and a key may be dotted to reach below the table at hand. No key is given
twice, a value never turns into a table, and dotted keys reach only into tables that dotted keys or
headers further down have created. -/

namespace Grove.Toml

/-- Puts a value in the place of the one under a key, or at the end. -/
def store (k : String) (t : Toml) : Entries → Entries
  | [] => [(k, t)]
  | e :: es => if e.1 = k then (k, t) :: es else e :: store k t es

/-- Whether a path may pass through a table, given what it would create on its way. -/
def passable (creates origin : TableOrigin) : Bool :=
  match origin with
  | .inline => false
  | .header => creates ≠ .dotted
  | .implied => true
  | .dotted => true

/-- Changes the table at the end of a path. Tables that are missing on the way are created, and of an
array of tables the newest is meant. -/
def update (creates : TableOrigin) (act : TableOrigin → Entries → Option Entries) :
    List String → TableOrigin → Entries → Option Entries
  | [], origin, es => act origin es
  | k :: path, _, es =>
    match es.lookup k with
    | none => (update creates act path creates []).map fun t => store k (.table creates t) es
    | some (.table origin t) =>
      if passable creates origin then
        (update creates act path origin t).map fun t => store k (.table origin t) es
      else none
    | some (.tables newest older) =>
      (update creates act path .header newest).map fun t => store k (.tables t older) es
    | some _ => none

def openTable (k : String) (_ : TableOrigin) (es : Entries) : Option Entries :=
  match es.lookup k with
  | none => some (store k (.table .header []) es)
  | some (.table .implied t) => some (store k (.table .header t) es)
  | some _ => none

def openElement (k : String) (_ : TableOrigin) (es : Entries) : Option Entries :=
  match es.lookup k with
  | none => some (store k (.tables [] []) es)
  | some (.tables newest older) => some (store k (.tables [] (newest :: older)) es)
  | some _ => none

/-- Gives `k` a value. Behind a dotted path that must be in a table made for dotted keys. -/
def assign (behindPath : Bool) (k : String) (t : Toml) (origin : TableOrigin) (es : Entries) :
    Option Entries :=
  if decide (origin = .dotted) = behindPath ∧ (es.lookup k).isNone then some (store k t es) else none

def splitLast : List String → Option (List String × String)
  | [] => none
  | ks => ks.getLast?.map fun k => (ks.dropLast, k)

/-- Gives the key at the end of a path its value, below a table of the given origin. -/
def assignPath (path : List String) (t : Toml) (origin : TableOrigin) (es : Entries) :
    Option Entries := do
  let (front, k) ← splitLast path
  update .dotted (assign (!front.isEmpty) k t) front origin es

def inlineTable (pairs : List (List String × Toml)) : Option Toml :=
  (pairs.foldlM (fun es p => assignPath p.1 p.2 .inline es) []).map (.table .inline)

/-- What a line does to the tables. -/
inductive Line where
  | table (path : List String)
  | element (path : List String)
  | pair (path : List String) (t : Toml)

/-- The tables so far, and the path of the one at hand. -/
structure Draft where
  root : Entries
  here : List String

def Draft.add (d : Draft) : Line → Option Draft
  | .table path => do
    let (front, k) ← splitLast path
    return ⟨← update .implied (openTable k) front .header d.root, path⟩
  | .element path => do
    let (front, k) ← splitLast path
    return ⟨← update .implied (openElement k) front .header d.root, path⟩
  | .pair path t => do
    return { d with root := ← update .implied (assignPath path t) d.here .header d.root }

def ofLines (lines : List Line) : Option Toml :=
  (lines.foldlM Draft.add ⟨[], []⟩).map fun d => .table .header d.root

end Grove.Toml
