import Grove.Node.Name

/-! Prototypes of nodes by canonical name. A name resolves to the prototype registered under it or,
for constants, variables, sequences and no-ops, to a member of its family, whether that member was
registered or not. -/

namespace Grove

/-- Prototypes with their names, in the order of registration. -/
structure NodeCatalog where
  types : TypeCatalog
  prototypes : List (String × Node)

namespace NodeCatalog

def empty (types : TypeCatalog) : NodeCatalog := ⟨types, []⟩

def nodes (c : NodeCatalog) : List Node := c.prototypes.map (·.2)

def names (c : NodeCatalog) : List String := c.prototypes.map (·.1)

def size (c : NodeCatalog) : Nat := c.prototypes.length

def register (c : NodeCatalog) (n : Node) : Except Error NodeCatalog := do
  let name ← n.name c.types
  if name ∈ c.names then throw (.duplicatePrototype name)
  return { c with prototypes := c.prototypes ++ [(name, n)] }

/-- Registers nodes until one is refused; the ones before it stay. -/
def registerAll (c : NodeCatalog) : List Node → NodeCatalog × Option Error
  | [] => (c, none)
  | n :: ns =>
    match c.register n with
    | .ok c => c.registerAll ns
    | .error e => (c, some e)

/-- Constants of every base, the declared variables in their three forms, and the operators. -/
def standardNodes (arguments locals : List Ty) : List Node :=
  let constants := (Base.concrete.filterMap Value.default?).map Node.const
  let arguments := arguments.zipIdx.flatMap fun (ty, i) => ty.forms.map (Node.argument · i)
  let locals := locals.zipIdx.flatMap fun (ty, i) => ty.forms.map (Node.localVariable · i)
  let control := [Ty.bool, .int, .float].flatMap fun ty => [Node.progn ty 2, .ifElse ty]
  let numeric := [Base.int, .float].flatMap fun b =>
    Arithmetic.all.map (Node.arithmetic · b) ++ Comparison.all.map (Node.comparison · b)
      ++ [.substitute b, .increment b]
  constants ++ arguments ++ locals ++ control ++ numeric
    ++ [.logic .and, .logic .or, .logic .not, .repeatTimes .int, .elementAt .int, .size .int,
        .breakLoop .int, .continueLoop .int, .returnValue .int]

def standard (types : TypeCatalog) (arguments locals : List Ty) : Except Error NodeCatalog :=
  match (empty types).registerAll (standardNodes arguments locals) with
  | (c, none) => .ok c
  | (_, some e) => .error e

/-- The prototype of exactly this name; blanks at its ends do not count. -/
def get? (c : NodeCatalog) (name : String) : Option Node := c.prototypes.lookup (trimmed name)

/-- A constant to be renamed; only plain bases have literals. -/
def constantOf (name : String) (ty : Ty) : Except Error Node :=
  match Value.default? ty.base with
  | some v => if ty.isQualified then .error (.malformedName name (.notConstant ty)) else .ok (.const v)
  | none => .error (.malformedName name (.notConstant ty))

/-- A member of the family that a name belongs to, if it belongs to one. -/
def family? (c : NodeCatalog) (name : String) : Except Error (Option Node) := do
  let parts ← NameParts.parse name
  match parts.first with
  | none => return none
  | some first =>
    let ty := c.types.lookup (String.ofList first)
    if parts.kind = "Const".toList then return some (← constantOf name (← ty))
    else if parts.kind = "Argument".toList then return some (.argument (← ty) 0)
    else if parts.kind = "LocalVariable".toList then return some (.localVariable (← ty) 0)
    else if parts.kind = "Progn".toList then return some (.progn (← ty) 2)
    else if parts.kind = "Nop".toList then return some (.nop (← ty))
    else return none

/-- A new node of the given name, or none if the catalog does not know it. -/
def instantiate (c : NodeCatalog) (name : String) : Except Error (Option Node) := do
  let found ← match c.get? name with
    | some n => pure (some n)
    | none => c.family? name
  match found with
  | none => return none
  | some n => return some (← n.rename c.types name)

end NodeCatalog
end Grove
