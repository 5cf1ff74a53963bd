import Grove.Toml.Scalar
import Grove.Toml.Table

/-! Reading a document: values, keys and lines. Arrays may run over several lines and end in a comma;
inline tables stay on one line and may not. Values nest at most `maxNesting` deep, and dotted keys
have at most that many parts. -/

namespace Grove.Toml

open Scan

def maxNesting : Nat := 79

def comment : Scan Unit := do
  char '#'
  discard (takeWhile isText)

/-- Blanks, line ends and comments between the items of an array. -/
def gap : Scan Unit := do
  blanks
  let rec more : Nat → Scan Unit
    | 0 => return
    | n + 1 => (do attempt comment; newline; blanks; more n) <|> return
  more (← room)

def isBareKeyChar (c : Char) : Bool := c.isAlphanum || c = '_' || c = '-'

def simpleKey : Scan String := do
  match ← peek with
  | some '"' => lineString '"'
  | some '\x27' => lineString '\x27'
  | _ =>
    let cs ← takeWhile isBareKeyChar
    if cs.isEmpty then failure else return String.ofList cs

def keyParts : Nat → Scan (List String)
  | 0 => failure
  | n + 1 => do
    blanks
    let k ← simpleKey
    blanks
    if ← accept '.' then return k :: (← keyParts n) else return [k]

def key : Scan (List String) := keyParts maxNesting

/-- The rest of an array. -/
def arrayItems (item : Scan Toml) : Nat → Scan (List Toml)
  | 0 => failure
  | n + 1 => do
    gap
    if ← accept ']' then return []
    let t ← item
    gap
    if ← accept ',' then return t :: (← arrayItems item n)
    char ']'
    return [t]

def keyedItem (item : Scan Toml) : Scan (List String × Toml) := do
  let path ← key
  char '='
  blanks
  return (path, ← item)

/-- The rest of an inline table that is not empty. -/
def inlinePairs (item : Scan Toml) : Nat → Scan (List (List String × Toml))
  | 0 => failure
  | n + 1 => do
    let pair ← keyedItem item
    blanks
    if ← accept ',' then return pair :: (← inlinePairs item n)
    char '}'
    return [pair]

/-- A value whose arrays and inline tables nest at most this deep. -/
def value : Nat → Scan Toml
  | 0 => scalar
  | depth + 1 => do
    if ← accept '[' then return .array (← arrayItems (value depth) (← room))
    if ← accept '{' then
      blanks
      if ← accept '}' then return .table .inline []
      match inlineTable (← inlinePairs (value depth) (← room)) with
      | some t => return t
      | none => failure
    scalar

/-- The rest of a line: blanks, a comment, and the end of the line or the text. -/
def lineRest : Scan Unit := do
  blanks
  attempt comment
  if (← get).isEmpty then return else newline

/-- One line, with the lines that a value runs on to. -/
def line : Scan (Option Line) := do
  blanks
  match ← get with
  | '[' :: '[' :: _ =>
    word ['[', '[']
    let path ← key
    word [']', ']']
    lineRest
    return some (.element path)
  | '[' :: _ =>
    char '['
    let path ← key
    char ']'
    lineRest
    return some (.table path)
  | c :: _ =>
    if c = '#' || c = '\n' || c = '\r' then
      lineRest
      return none
    else
      let (path, t) ← keyedItem (value maxNesting)
      lineRest
      return some (.pair path t)
  | [] => return none

def lines : Nat → Scan (List Line)
  | 0 => return []
  | n + 1 => do
    if (← get).isEmpty then return []
    let l ← line
    return l.toList ++ (← lines n)

/-- A byte order mark may stand in front. -/
def document : Scan (List Line) := do
  let _ ← accept '\ufeff'
  lines (← room)

def read (text : String) : Option Toml := (document.run text.toList).bind ofLines

end Grove.Toml
