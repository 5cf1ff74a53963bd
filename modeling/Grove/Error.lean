import Grove.Value

/-! What can go wrong outside an evaluation. An `Error` is a refusal that callers expect; a
`Violation` is a broken promise of the caller, after which the step has no result. Each has one
function that words it. -/

namespace Grove

/-- The datum that a node carries besides its type. -/
inductive Property where
  | literal (v : Value)
  | index (n : Nat)
  | arity (n : Nat)
  deriving DecidableEq

def valueWord : Value → String
  | .bool true => "Bool(true)"
  | .bool false => "Bool(false)"
  | .int i => "Int(" ++ showInt i.toInt ++ ")"
  | .float x => "Float(" ++ showFloat x ++ ")"
  | .ints xs => "IntArray([" ++ ", ".intercalate (xs.map fun i => showInt i.toInt) ++ "])"

def Property.word : Property → String
  | literal v => "Literal(" ++ valueWord v ++ ")"
  | index n => "Index(" ++ showNat n ++ ")"
  | arity n => "Arity(" ++ showNat n ++ ")"

/-- What is wrong with a node name or a property. -/
inductive Flaw where
  | unclosed
  | expectedName (own : String)
  | expectedKind (kind : String)
  | expectedType (ty : Ty)
  | missingProperty
  | literal (e : LiteralError)
  | index (text : String)
  | otherLiteral (text : String)
  | shortSequence
  | noSuchProperty (p : Property)
  | notConstant (ty : Ty)
  deriving DecidableEq

def Flaw.message : Flaw → String
  | unclosed => "missing closing `>`"
  | expectedName own => "expected `" ++ own ++ "`"
  | expectedKind kind => "expected a `" ++ kind ++ "` node"
  | expectedType ty => "expected type `" ++ ty.name ++ "`"
  | missingProperty => "missing property after the type"
  | literal e => e.message
  | index text => "`" ++ text ++ "` is not a valid index"
  | otherLiteral text => "literal `" ++ text ++ "` does not match the constant's type"
  | shortSequence => "progn needs at least two children"
  | noSuchProperty p => "node has no property of the form " ++ p.word
  | notConstant ty => "constants cannot have type `" ++ ty.name ++ "`"

/-- The two tables that variable nodes read. -/
inductive VariableTable where
  | argument
  | localVariable
  deriving DecidableEq

def VariableTable.word : VariableTable → String
  | argument => "argument"
  | localVariable => "local variable"

inductive Error where
  | unknownType (name : String)
  | unnamedType (ty : Ty)
  | unknownNode (name : String)
  | malformedName (name : String) (flaw : Flaw)
  | childTypeMismatch (slot child : Ty)
  | variableOutOfRange (node : String) (table : VariableTable) (index declared : Nat)
  | variableTypeMismatch (node : String) (table : VariableTable) (index : Nat) (found declared : Ty)
  | unexpectedEnd (parent : String)
  | emptyTree
  | trailingNode (name : String)
  | noCandidate (ty : Ty) (leafOnly : Bool)
  | duplicatePrototype (name : String)
  | duplicateSubroutine (name : String)
  | missingName
  | document (messages : List String)
  | toml
  | unreadable
  deriving DecidableEq

namespace Error

/-- The text of an error; faults of the file format and of reading bytes have none of their own. -/
def message : Error → String
  | unknownType name => "unknown type name `" ++ name ++ "`"
  | unnamedType ty => "type `" ++ ty.name ++ "` has no display name in the type catalog"
  | unknownNode name => "unknown node `" ++ name ++ "`"
  | malformedName name flaw => "malformed node name `" ++ name ++ "`: " ++ flaw.message
  | childTypeMismatch slot child =>
    "a node returning `" ++ child.name ++ "` cannot be attached to a slot of type `" ++ slot.name
      ++ "`"
  | variableOutOfRange node table index declared =>
    "`" ++ node ++ "` refers to " ++ table.word ++ " " ++ showNat index ++ " but the tree declares "
      ++ showNat declared
  | variableTypeMismatch node table index found declared =>
    "`" ++ node ++ "` reads " ++ table.word ++ " " ++ showNat index ++ " as `" ++ found.name
      ++ "` but the tree declares `" ++ declared.name ++ "`"
  | unexpectedEnd parent => "tree text ended early, expected a child for `" ++ parent ++ "`"
  | emptyTree => "tree text contains no nodes"
  | trailingNode name => "unexpected node `" ++ name ++ "` after the end of the tree"
  | noCandidate ty leafOnly =>
    "no candidate returning `" ++ ty.name ++ "` (leaf only: "
      ++ (if leafOnly then "true" else "false") ++ ")"
  | duplicatePrototype name => "prototype `" ++ name ++ "` is already registered"
  | duplicateSubroutine name => "subroutine `" ++ name ++ "` is already registered"
  | missingName => "tree has no name"
  | document messages => "\n".intercalate messages
  | toml => ""
  | unreadable => ""

end Error

/-- Broken promises of a caller. -/
inductive Violation where
  | emptySlot (slot : Nat)
  | edgeBeyondSlots (slots slot : Nat)
  | slotOutOfRange (slot arity : Nat)
  | alreadyOwned
  | rootAsChild
  | noRootToEvaluate
  | noRootToWrite
  | readAsWrongType
  | assignedWrongType
  | wildcardVariable
  | noIndividuals
  | notReserved (name : String)
  | wildcardLiteral
  | rangeOverflow
  | weightOverflow
  | budgetSpent
  | workerFailed
  | missingNode
  | endless
  deriving DecidableEq

def Violation.message : Violation → String
  | emptySlot slot => "slot " ++ showNat slot ++ " of node _ is empty"
  | edgeBeyondSlots slots slot =>
    "index out of bounds: the len is " ++ showNat slots ++ " but the index is " ++ showNat slot
  | slotOutOfRange slot arity =>
    "slot " ++ showNat slot ++ " out of range for a node of arity " ++ showNat arity
  | alreadyOwned => "node _ is already owned by another node"
  | rootAsChild => "the root cannot become a child"
  | noRootToEvaluate => "cannot evaluate a tree without a root"
  | noRootToWrite => "cannot write a tree without a root"
  | readAsWrongType => "variable read as the wrong type"
  | assignedWrongType => "variable assigned the wrong type"
  | wildcardVariable => "variables must have a concrete type"
  | noIndividuals => "must be at least one individual"
  | notReserved name => "subroutine `" ++ name ++ "` was committed without being reserved"
  | wildcardLiteral =>
    "internal error: entered unreachable code: constants always have a concrete type"
  | rangeOverflow => "UniformSampler::sample_single: range overflow"
  | weightOverflow => "Uniform::new: range overflow"
  | budgetSpent => "attempt to subtract with overflow"
  | workerFailed => "Thread pool worker panicked"
  | missingNode => "node _ is not in the forest"
  | endless => "the nodes below node _ never end"

/-- A step ends without a result either way. -/
inductive Failure where
  | refused (e : Error)
  | violated (v : Violation)
  deriving DecidableEq

instance : MonadLift (Except Error) (Except Failure) where
  monadLift x := x.mapError .refused

instance : MonadLift (Except Violation) (Except Failure) where
  monadLift x := x.mapError .violated

/-- Independent complaints, gathered so that they are reported together. -/
structure Complaints where
  messages : List String
  deriving DecidableEq

namespace Complaints

def none : Complaints := ⟨[]⟩

def push (c : Complaints) (message : String) : Complaints := ⟨c.messages ++ [message]⟩

def check {α : Type} (c : Complaints) : Except String α → Option α × Complaints
  | .ok a => (some a, c)
  | .error message => (.none, c.push message)

def isEmpty (c : Complaints) : Bool := c.messages.isEmpty

def finish (c : Complaints) : Except Error Unit :=
  if c.isEmpty then .ok () else .error (.document c.messages)

end Complaints
end Grove
