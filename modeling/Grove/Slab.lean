import Grove.Sorting
import Grove.Table

/-! Numbered entries. An entry keeps its number until it is removed, and the number that was freed last is given out
first. Entries are kept newest first. -/

namespace Grove

structure Slab (α : Type) where
  entries : List (Nat × α)
  /-- The freed numbers, newest first. -/
  spare : List Nat
  bound : Nat
  deriving DecidableEq

namespace Slab

variable {α : Type}

def empty : Slab α := ⟨[], [], 0⟩

def get? (s : Slab α) (i : Nat) : Option α := s.entries.lookup i

def insert (s : Slab α) (x : α) : Nat × Slab α :=
  match s.spare with
  | i :: spare => (i, ⟨(i, x) :: s.entries, spare, s.bound⟩)
  | [] => (s.bound, ⟨(s.bound, x) :: s.entries, [], s.bound + 1⟩)

def remove (s : Slab α) (i : Nat) : Slab α :=
  if (s.get? i).isSome then ⟨Table.drop i s.entries, i :: s.spare, s.bound⟩ else s

/-- The entries by ascending number. -/
def inOrder (s : Slab α) : List (Nat × α) := sortBy (fun a b => a.1 < b.1) s.entries

end Slab
end Grove
