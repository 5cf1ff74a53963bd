import Grove.Table
import Grove.Tree

/-! Named subroutines. A name is reserved before its body is known, so that the body may call
itself, and the reservation is then committed or rolled back. -/

namespace Grove

structure Entry where
  callee : Callee
  body : Option Tree
  deriving DecidableEq

structure Registry where
  entries : List (String × Entry)
  deriving DecidableEq

namespace Registry

def empty : Registry := ⟨[]⟩

def entry? (r : Registry) (name : String) : Option Entry := r.entries.lookup name

def contains (r : Registry) (name : String) : Bool := (r.entry? name).isSome

def callee? (r : Registry) (name : String) : Option Callee := (r.entry? name).map (·.callee)

/-- The node that calls a name; there is one as soon as the name is reserved. -/
def prototype? (r : Registry) (name : String) : Option Node := (r.callee? name).map .call

def body? (r : Registry) (name : String) : Option Tree := (r.entry? name).bind (·.body)

def size (r : Registry) : Nat := r.entries.length

def reserve (r : Registry) (c : Callee) : Except Error Registry :=
  if r.contains c.name then .error (.duplicateSubroutine c.name)
  else .ok ⟨Table.put c.name ⟨c, none⟩ r.entries⟩

def commit (r : Registry) (name : String) (body : Tree) : Except Violation Registry :=
  match r.entry? name with
  | some e => .ok ⟨Table.put name { e with body := some body } r.entries⟩
  | none => .error (.notReserved name)

def rollback (r : Registry) (name : String) : Registry := ⟨Table.drop name r.entries⟩

/-- Forgets a name and returns its body. -/
def remove (r : Registry) (name : String) : Option Tree × Registry := (r.body? name, r.rollback name)

def register (r : Registry) (t : Tree) : Except Error (Callee × Registry) :=
  match t.signature.callee? with
  | none => .error .missingName
  | some c =>
    if r.contains c.name then .error (.duplicateSubroutine c.name)
    else .ok (c, ⟨Table.put c.name ⟨c, some t⟩ r.entries⟩)

/-- The names that have a body, in ascending order. -/
def names (r : Registry) : List String :=
  sortBy (fun a b => a < b) ((r.entries.filter fun e => e.2.body.isSome).map (·.1))

def calls (r : Registry) : List Node := r.names.filterMap r.prototype?

end Registry
end Grove
