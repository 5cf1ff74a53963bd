import Grove.Type

/-! What a tree declares: the type it returns and those of its arguments and local variables, and a
name if others may call it. A `Callee` is the part of it that a caller sees. -/

namespace Grove

structure Callee where
  name : String
  returns : Ty
  arguments : List Ty
  deriving DecidableEq

structure Signature where
  name : Option String
  returns : Ty
  arguments : List Ty
  locals : List Ty
  deriving DecidableEq

namespace Signature

def callee? (s : Signature) : Option Callee :=
  s.name.map fun name => ⟨name, s.returns, s.arguments⟩

/-- Whether a table declares a slot of the given base at an index. -/
def declares (table : List Ty) (ty : Ty) (index : Nat) : Bool :=
  table[index]?.any fun declared => declared.strip = ty.strip

end Signature
end Grove
