import Grove.Node
import Grove.Type.Catalog

/-! Names of nodes, such as `Const<int,5>` or `Add<float>`. A name is a kind and, between angle
brackets, a type and a property; only the first comma separates them, so literals may hold commas. A
call is named by the subroutine alone. `rename` takes the property of a node from a name. -/

namespace Grove

/-- A name taken apart. -/
structure NameParts where
  kind : List Char
  first : Option (List Char)
  second : Option (List Char)
  deriving DecidableEq

/-- What stands before and after the first separator. -/
def cutAt (sep : Char) (cs : List Char) : List Char × Option (List Char) :=
  let front := cs.takeWhile (· ≠ sep)
  match cs.dropWhile (· ≠ sep) with
  | [] => (front, none)
  | _ :: back => (front, some back)

def NameParts.parse (name : String) : Except Error NameParts :=
  match cutAt '<' (trim name.toList) with
  | (kind, none) => .ok ⟨kind, none, none⟩
  | (kind, some inner) =>
    if inner.getLast? = some '>' then
      let (first, second) := cutAt ',' inner.dropLast
      .ok ⟨kind, some (trim first), second.map trim⟩
    else .error (.malformedName name .unclosed)

def Arithmetic.name : Arithmetic → String
  | add => "Add"
  | sub => "Sub"
  | mult => "Mult"
  | div => "Div"

def Comparison.name : Comparison → String
  | greater => "Greater"
  | greaterEq => "GreaterEq"
  | less => "Less"
  | lessEq => "LessEq"
  | equal => "Equal"
  | notEqual => "NotEqual"

def Logic.name : Logic → String
  | and => "And"
  | or => "Or"
  | not => "Not"

/-- Indices and arities are words of 64 bits. -/
def readIndex (cs : List Char) : Except Flaw Nat :=
  (readNat words64 cs).elim (.error (.index (String.ofList cs))) .ok

namespace Node

def kindName : Node → String
  | const _ => "Const"
  | argument .. => "Argument"
  | localVariable .. => "LocalVariable"
  | progn .. => "Progn"
  | nop _ => "Nop"
  | arithmetic op _ => op.name
  | comparison op _ => op.name
  | logic op => op.name
  | ifElse _ => "If"
  | repeatTimes _ => "Repeat"
  | substitute _ => "Substitute"
  | increment _ => "Increment"
  | elementAt _ => "At"
  | size _ => "Size"
  | breakLoop _ => "Break"
  | continueLoop _ => "Continue"
  | returnValue _ => "Return"
  | call _ => "Subroutine"

/-- The type between the brackets of a name without a property. -/
def typeParameter : Node → Ty
  | comparison _ b => .plain b
  | logic _ => .bool
  | elementAt b => .plain b.arrayOf
  | size b => .plain b.arrayOf
  | n => n.returns

def bracketed (kind inner : String) : String := kind ++ "<" ++ inner ++ ">"

def propertyText : Property → String
  | .literal v => v.render
  | .index i => showNat i
  | .arity n => showNat n

def name (types : TypeCatalog) (n : Node) : Except Error String :=
  match n with
  | call c => .ok c.name
  | repeatTimes ty => do
    let count ← types.name .int
    let body ← types.name ty
    return bracketed n.kindName (count ++ "," ++ body)
  | n => do
    let ty ← types.name n.typeParameter
    match n.property? with
    | some p => return bracketed n.kindName (ty ++ "," ++ propertyText p)
    | none => return bracketed n.kindName ty

/-- The name shared by the nodes that differ in the property only. -/
def familyName (types : TypeCatalog) (n : Node) : Except Error (Option String) :=
  match n.property? with
  | some _ => (types.name n.returns).map fun ty => some (bracketed n.kindName ty)
  | none => .ok none

def setProperty (n : Node) (p : Property) : Except Error Node :=
  let flawed (f : Flaw) := Except.error (.malformedName n.kindName f)
  match n, p with
  | const v, .literal new =>
    if new.base = v.base then .ok (const new) else flawed (.otherLiteral new.render)
  | argument ty _, .index i => .ok (argument ty i)
  | localVariable ty _, .index i => .ok (localVariable ty i)
  | progn ty _, .arity k => if k < 2 then flawed .shortSequence else .ok (progn ty k)
  | _, p => flawed (.noSuchProperty p)

/-- Reads a property of the sort that the node has. -/
def readProperty (n : Node) (datum : List Char) : Except Flaw Property :=
  match n with
  | const v => ((Value.parse v.base (String.ofList datum)).mapError .literal).map .literal
  | progn .. => (readIndex datum).map .arity
  | _ => (readIndex datum).map .index

/-- The node with the property that its name gives; one without a property only accepts its own
name. -/
def rename (types : TypeCatalog) (n : Node) (name : String) : Except Error Node :=
  let flawed (f : Flaw) := Error.malformedName name f
  match n.property? with
  | none => do
    let own ← n.name types
    if own = trimmed name then return n else throw (flawed (.expectedName own))
  | some _ => do
    let parts ← NameParts.parse name
    if parts.kind ≠ n.kindName.toList then throw (flawed (.expectedKind n.kindName))
    let ty ← types.lookup (String.ofList (parts.first.getD []))
    if ty ≠ n.returns then throw (flawed (.expectedType n.returns))
    match parts.second with
    | none => throw (flawed .missingProperty)
    | some datum =>
      let p ← (n.readProperty datum).mapError flawed
      n.setProperty p

end Node
end Grove
