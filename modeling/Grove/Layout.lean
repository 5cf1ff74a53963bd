import Grove.Tree
import Grove.Node.Name

/-! The indented text of a tree. Nodes stand in pre-order, each on a line of its own behind a marker
under its parent; a connector line below it keeps a bar running for every ancestor that has children
still to come. Lines lose the blanks at their ends and empty lines are left out. -/

namespace Grove

def marker : List Char := ['+', '-', '-']

def bar : List Char := ['|']

/-- What a node adds to the indentation of its children. -/
def indentStep (last : Bool) : List Char := if last then [' ', ' ', ' '] else ['|', ' ', ' ']

/-- The line below a header: the bar down to the first child, or else past a node that has siblings
to come. -/
def connector (indent : List Char) (leaf last : Bool) : List Char :=
  if leaf then (if last then indent else indent ++ bar) else indent ++ indentStep last ++ bar

namespace Shape

def lines (types : TypeCatalog) :
    Shape → (indent : List Char) → (last : Bool) → Except Failure (List (List Char))
  | .node _ n kids, indent, last => do
    let name ← n.name types
    let below ← (List.finRange n.arity).mapM fun i =>
      (kids i).lines types (indent ++ indentStep last) (i.val + 1 = n.arity)
    return (indent ++ marker ++ name.toList) :: connector indent n.isLeaf last :: below.flatten
  | .torn _ n why, _, _ => do
    let _ ← n.name types
    throw (.violated why)

end Shape

def joinLines (lines : List (List Char)) : List Char :=
  ((lines.map trimEnd).filter (!·.isEmpty)).flatMap (· ++ ['\n'])

def Shape.text (types : TypeCatalog) (s : Shape) : Except Failure String :=
  (s.lines types [] true).map fun lines => String.ofList (joinLines lines)

def Tree.text (types : TypeCatalog) (t : Tree) : Except Failure String :=
  t.shape?.elim (.error (.violated .noRootToWrite)) (·.text types)

end Grove
