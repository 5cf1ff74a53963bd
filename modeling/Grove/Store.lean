import Grove.Error

/-! Storage cells and the variables and handles on them. A cell is empty until it is first written
or read; reading an empty one stores the default of the variable's base. Several variables and handles
may share a cell, and each sees what the others wrote. -/

namespace Grove

/-- The cells allocated so far, by their number. -/
structure Store where
  cells : Array (Option Value)
  deriving DecidableEq

structure Variable where
  base : Base
  cell : Nat
  concrete : base ≠ .any
  deriving DecidableEq

/-- A location that may be missing; a bound one is a variable under another name. -/
inductive Handle where
  | unbound (base : Base)
  | bound (v : Variable)
  deriving DecidableEq

/-- What a node yields: nothing, a plain value, or a handle of one of the two kinds. -/
inductive Yield where
  | void
  | value (v : Value)
  | leftHand (h : Handle)
  | reference (h : Handle)
  deriving DecidableEq

namespace Store

def empty : Store := ⟨#[]⟩

/-- The content of a cell; none for a cell that is empty or does not exist. -/
def content (s : Store) (cell : Nat) : Option Value := s.cells[cell]?.join

def write (s : Store) (cell : Nat) (v : Value) : Store := ⟨s.cells.setIfInBounds cell (some v)⟩

def alloc (s : Store) (content : Option Value) : Nat × Store :=
  (s.cells.size, ⟨s.cells.push content⟩)

@[simp] theorem content_write_of_ne {s : Store} {i j : Nat} {v : Value} (h : i ≠ j) :
    (s.write i v).content j = s.content j := by
  simp [write, content, h]

theorem content_write_self {s : Store} {i : Nat} {v : Value} (h : i < s.cells.size) :
    (s.write i v).content i = some v := by
  simp [write, content, h]

@[simp] theorem size_write (s : Store) (i : Nat) (v : Value) :
    (s.write i v).cells.size = s.cells.size := by simp [write]

theorem content_alloc_of_lt {s : Store} {c : Option Value} {i : Nat} (h : i < s.cells.size) :
    (s.alloc c).2.content i = s.content i := by
  simp [alloc, content, Array.getElem?_push, Nat.ne_of_lt h]

end Store

namespace Variable

def new (v : Value) (s : Store) : Variable × Store :=
  let (cell, s) := s.alloc (some v)
  (⟨v.base, cell, v.base_ne_any⟩, s)

def newEmpty (base : Base) (s : Store) : Except Violation (Variable × Store) :=
  if h : base = .any then .error .wildcardVariable
  else let (cell, s) := s.alloc none; .ok (⟨base, cell, h⟩, s)

def content (v : Variable) (s : Store) : Option Value := s.content v.cell

/-- The current value, and the store in which the cell has it. -/
def get (v : Variable) (s : Store) : Value × Store :=
  match v.content s with
  | some x => (x, s)
  | none => let x := Value.initial v.base v.concrete; (x, s.write v.cell x)

/-- The current value, by a reader who expects the given base. -/
def getAs (v : Variable) (base : Base) (s : Store) : Except Violation (Value × Store) :=
  if base = v.base then .ok (v.get s) else .error .readAsWrongType

def set (v : Variable) (x : Value) (s : Store) : Except Violation Store :=
  if x.base = v.base then .ok (s.write v.cell x) else .error .assignedWrongType

def handle (v : Variable) : Handle := .bound v

end Variable

namespace Handle

def base : Handle → Base
  | unbound b => b
  | bound v => v.base

/-- The variable that shares the cell. -/
def target? : Handle → Option Variable
  | unbound _ => none
  | bound v => some v

def isBound (h : Handle) : Bool := h.target?.isSome

def get : Handle → Store → Option Value × Store
  | unbound _, s => (none, s)
  | bound v, s => let (x, s) := v.get s; (some x, s)

/-- Writes if the handle is bound and the value has its base. -/
def set (h : Handle) (x : Value) (s : Store) : Bool × Store :=
  match h with
  | unbound _ => (false, s)
  | bound v => if x.base = v.base then (true, s.write v.cell x) else (false, s)

end Handle

namespace Yield

/-- What a node of the given type yields when it does not run. -/
def ofType (t : Ty) : Yield :=
  match t.qualifier with
  | .plain => (Value.default? t.base).elim void value
  | .leftHand => leftHand (.unbound t.base)
  | .reference => reference (.unbound t.base)

def value? : Yield → Option Value
  | value v => some v
  | _ => none

def handle? : Yield → Option Handle
  | leftHand h => some h
  | reference h => some h
  | _ => none

end Yield

/-- A handle whose users expect one base. -/
structure Location where
  base : Base
  handle : Handle
  deriving DecidableEq

namespace Location

def unbound (b : Base) : Location := ⟨b, .unbound b⟩

def isBound (l : Location) : Bool := l.handle.isBound

/-- The value behind the handle, if it has the expected base. -/
def get (l : Location) (s : Store) : Option Value × Store :=
  let (x, s) := l.handle.get s
  (x.filter (·.base = l.base), s)

def set (l : Location) (x : Value) (s : Store) : Bool × Store := l.handle.set x s

/-- Replaces the value by its image and returns that. -/
def update (l : Location) (f : Value → Value) (s : Store) : Option Value × Store :=
  match l.get s with
  | (none, s) => (none, s)
  | (some x, s) => let (_, s) := l.set (f x) s; (some (f x), s)

end Location
end Grove
