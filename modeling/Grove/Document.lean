import Grove.Reader
import Grove.Toml.Reader
import Grove.Toml.Writer

/-! Documents. A document declares a signature in the table `tree` and holds the text of a tree that
is read against it. All faults of the declaration are reported together, before the text is looked
at. Loading stores the tree as a subroutine: its name is reserved while the text is read, so that the
body may call itself, and a failure leaves the registry as it was. -/

namespace Grove

/-- The table `tree` as it stands in a document. -/
structure Declaration where
  name : Option String
  returns : Option String
  arguments : List String
  locals : List String
  body : Option String
  deriving DecidableEq

namespace Declaration

def keys : List String := ["name", "return_type", "arguments", "local_variables", "tree_entity"]

def ofToml? (t : Toml) : Option Declaration := do
  match ← t.fields? keys with
  | [name, returns, arguments, locals, body] =>
    return {
      name := ← Toml.optional Toml.string? name
      returns := ← Toml.optional Toml.string? returns
      arguments := ← Toml.orDefault [] Toml.strings? arguments
      locals := ← Toml.orDefault [] Toml.strings? locals
      body := ← Toml.optional Toml.string? body }
  | _ => none

/-- The declaration in a document, if the document is well formed. -/
def read (text : String) : Except Error Declaration :=
  match (Toml.read text).bind fun t => t.fields? ["tree"] with
  | some [none] => .error (.document ["missing `[tree]` table"])
  | some [some t] => (ofToml? t).elim (.error .toml) .ok
  | _ => .error .toml

def lookupType (types : TypeCatalog) (name : String) (c : Complaints) : Option Ty × Complaints :=
  c.check ((types.lookup name).mapError Error.message)

/-- The return type must be plain and concrete. -/
def returnType (d : Declaration) (types : TypeCatalog) (c : Complaints) : Option Ty × Complaints :=
  match d.returns with
  | none => (none, c.push "missing field `return_type`")
  | some name =>
    match lookupType types name c with
    | (some ty, c) =>
      if ty.isQualified || ty.isAny then
        (some ty, c.push ("return type `" ++ ty.name ++ "` must be a plain value type"))
      else (some ty, c)
    | (none, c) => (none, c)

/-- Types of variables must be concrete; `index` numbers the first of them. -/
def variableTypes (types : TypeCatalog) (what : String) :
    (index : Nat) → List String → Complaints → List Ty × Complaints
  | _, [], c => ([], c)
  | index, name :: names, c =>
    match lookupType types name c with
    | (none, c) => variableTypes types what (index + 1) names c
    | (some ty, c) =>
      let c := if ty.isAny
        then c.push (what ++ " " ++ showNat index ++ " must have a concrete type") else c
      let (tys, c) := variableTypes types what (index + 1) names c
      (ty :: tys, c)

def resolve (d : Declaration) (types : TypeCatalog) : Except Error (Signature × String) := do
  let (returns, c) := d.returnType types .none
  let (arguments, c) := variableTypes types "argument" 0 d.arguments c
  let (locals, c) := variableTypes types "local variable" 0 d.locals c
  let c := if d.body.isNone then c.push "missing field `tree_entity`" else c
  c.finish
  return (⟨d.name, returns.getD .any, arguments, locals⟩, d.body.getD "")

end Declaration

def parseDocument (types : TypeCatalog) (text : String) : Except Error (Signature × String) := do
  (← Declaration.read text).resolve types

def Vocabulary.readDocument (v : Vocabulary) (text : String) : Except Error Tree := do
  let (s, body) ← parseDocument v.catalog.types text
  v.readTree body s

/-- Stores the tree of a document as a subroutine, and returns the registry in which that leaves us. -/
def Registry.loadDocument (r : Registry) (catalog : NodeCatalog) (text : String) :
    Except Failure Callee × Registry :=
  match parseDocument catalog.types text with
  | .error e => (.error (.refused e), r)
  | .ok (s, body) =>
    match s.callee? with
    | none => (.error (.refused .missingName), r)
    | some c =>
      match r.reserve c with
      | .error e => (.error (.refused e), r)
      | .ok reserved =>
        match Vocabulary.readTree ⟨catalog, reserved⟩ body s with
        | .error e => (.error (.refused e), reserved.rollback c.name)
        | .ok t =>
          match reserved.commit c.name t with
          | .error v => (.error (.violated v), reserved)
          | .ok committed => (.ok c, committed)

def decodeText (bytes : ByteArray) : Except Error String :=
  (String.fromUTF8? bytes).elim (.error .unreadable) .ok

namespace Tree

def typeNames (types : TypeCatalog) (tys : List Ty) : Except Error (List String) :=
  tys.mapM types.name

def document (types : TypeCatalog) (t : Tree) : Except Failure String := do
  match t.name with
  | none => throw (.refused .missingName)
  | some name =>
    let returns ← types.name t.signature.returns
    let arguments ← typeNames types t.signature.arguments
    let locals ← typeNames types t.signature.locals
    let body ← t.text types
    return String.ofList (
      Toml.writeHeader "tree"
        ++ Toml.writePair "name" (Toml.writeString name)
        ++ Toml.writePair "return_type" (Toml.writeString returns)
        ++ Toml.writePair "arguments" (Toml.writeStrings arguments)
        ++ Toml.writePair "local_variables" (Toml.writeStrings locals)
        ++ Toml.writePair "tree_entity" (Toml.writeString body))

end Tree
end Grove
