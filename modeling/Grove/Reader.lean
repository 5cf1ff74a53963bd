import Grove.Catalog
import Grove.Layout
import Grove.Registry

/-! Reading trees. Only the names behind the markers count, in order, so indentation and connector
lines are free. A name resolves through the catalog and then the subroutines; each node takes as many
of the subtrees that follow as it has slots, and nothing may be left over. -/

namespace Grove

/-- What stands behind the first marker of a line. -/
def behindMarker? : List Char → Option (List Char)
  | '+' :: '-' :: '-' :: rest => some rest
  | _ :: rest => behindMarker? rest
  | [] => none

def nodeNames (text : String) : List String :=
  (splitOnChar '\n' text.toList).filterMap fun line =>
    (behindMarker? line).map fun name => String.ofList (trim name)

/-- What names mean. -/
structure Vocabulary where
  catalog : NodeCatalog
  registry : Registry

/-- A variable node must read a slot that is declared with its base. -/
def checkDeclared (node : String) (table : VariableTable) (declared : List Ty) (ty : Ty)
    (index : Nat) : Except Error Unit :=
  match declared[index]? with
  | none => .error (.variableOutOfRange node table index declared.length)
  | some found =>
    if found.strip = ty.strip then .ok ()
    else .error (.variableTypeMismatch node table index ty found)

def checkVariable (n : Node) (name : String) (s : Signature) : Except Error Unit :=
  match n with
  | .argument ty i => checkDeclared name .argument s.arguments ty i
  | .localVariable ty i => checkDeclared name .localVariable s.locals ty i
  | _ => .ok ()

/-- The subtrees of the last `left` slots of a node, each read by `read` and then checked. -/
def readSlots (n : Node) (read : List String → Except Error (Term × List String)) :
    (left : Nat) → List String → Except Error ({ts : List Term // ts.length = left} × List String)
  | 0, names => .ok (⟨[], rfl⟩, names)
  | left + 1, names => do
    let (t, names) ← read names
    checkSlot (n.slotType (n.arity - (left + 1))) t.returns
    let (ts, names) ← readSlots n read left names
    return (⟨t :: ts.val, by simp [ts.property]⟩, names)

namespace Vocabulary

def node (v : Vocabulary) (name : String) : Except Error Node := do
  match ← v.catalog.instantiate name with
  | some n => return n
  | none => (v.registry.prototype? name).elim (throw (.unknownNode name)) pure

/-- The term at the front of a list of names, with the names behind it. No term is deeper than the
list is long. -/
def readTerm (v : Vocabulary) (s : Signature) :
    Nat → (parent : String) → List String → Except Error (Term × List String)
  | room + 1, _, name :: names => do
    let n ← v.node name
    checkVariable n name s
    let (kids, names) ← readSlots n (readTerm v s room name) n.arity names
    return (.ofList n kids.val kids.property, names)
  | _, parent, _ => .error (.unexpectedEnd parent)

def readTree (v : Vocabulary) (text : String) (s : Signature) : Except Error Tree := do
  let names := nodeNames text
  if names.isEmpty then throw .emptyTree
  let (e, rest) ← v.readTerm s names.length "" names
  let t ← Tree.ofTerm s e
  match rest with
  | [] => return t
  | extra :: _ => throw (.trailingNode extra)

end Vocabulary
end Grove
