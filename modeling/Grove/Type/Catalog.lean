import Grove.Table
import Grove.Error

/-! Display names of types. A catalog maps names to types and types to names; `bind` gives a type a
new name and forgets its former one. -/

namespace Grove

structure TypeCatalog where
  byName : List (String × Ty)
  names : List (Ty × String)

namespace TypeCatalog

def empty : TypeCatalog := ⟨[], []⟩

/-- The names bound before, less the former name of `ty`. -/
def released (c : TypeCatalog) (ty : Ty) : List (String × Ty) :=
  match c.names.lookup ty with
  | some former => Table.drop former c.byName
  | none => c.byName

def bind (c : TypeCatalog) (ty : Ty) (name : String) : TypeCatalog :=
  ⟨Table.put name ty (c.released ty), Table.put ty name c.names⟩

/-- Every concrete base in its three forms, and the wildcard, under their canonical spellings. -/
def standardTypes : List Ty := .any :: Base.concrete.flatMap fun b => (Ty.plain b).forms

def standard : TypeCatalog := standardTypes.foldl (fun c ty => c.bind ty ty.name) empty

/-- The type bound to a name; blanks at its ends do not count. -/
def lookup (c : TypeCatalog) (name : String) : Except Error Ty :=
  (c.byName.lookup (trimmed name)).elim (.error (.unknownType name)) .ok

def name (c : TypeCatalog) (ty : Ty) : Except Error String :=
  (c.names.lookup ty).elim (.error (.unnamedType ty)) .ok

def size (c : TypeCatalog) : Nat := c.names.length

end TypeCatalog
end Grove
