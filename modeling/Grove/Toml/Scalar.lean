import Grove.Text.Scan
import Grove.Toml
import Grove.Value

/-! The scalars of a document: strings in their four forms, booleans, numbers, and moments. Digits
may be grouped by single underscores. -/

namespace Grove.Toml

open Scan

def isSpace (c : Char) : Bool := c = ' ' || c = '\t'

/-- What may stand in comments and between quotes: the tab, and all that is no control character. -/
def isText (c : Char) : Bool := c = '\t' || (0x20 ≤ c.toNat && c ≠ '\x7f')

def newline : Scan Unit := char '\n' <|> word ['\r', '\n']

def blanks : Scan Unit := discard (takeWhile isSpace)

def hexValue? (c : Char) : Option Nat :=
  if isDigit c then some (c.toNat - 48)
  else if 'a' ≤ c ∧ c ≤ 'f' then some (c.toNat - 87)
  else if 'A' ≤ c ∧ c ≤ 'F' then some (c.toNat - 55)
  else none

def foldBase (base : Nat) (cs : List Char) : Nat :=
  cs.foldl (fun n c => base * n + (hexValue? c).getD 0) 0

/-- A character by its code point, in `n` digits; a surrogate is none. -/
def codePoint (n : Nat) : Scan Char := do
  let code := foldBase 16 (← exactly (fun c => (hexValue? c).isSome) n)
  if code.isValidChar then return Char.ofNat code else failure

def escape : Scan Char := do
  match ← one fun _ => true with
  | 'b' => return '\x08'
  | 't' => return '\t'
  | 'n' => return '\n'
  | 'f' => return '\x0c'
  | 'r' => return '\r'
  | '"' => return '"'
  | '\\' => return '\\'
  | 'u' => codePoint 4
  | 'U' => codePoint 8
  | _ => failure

/-- A backslash at the end of a line drops the blanks and line ends that follow. -/
def lineJoin : Scan Unit := do
  blanks
  newline
  let rec more : Nat → Scan Unit
    | 0 => return
    | n + 1 => (do newline; more n) <|> (do let _ ← one isSpace; more n) <|> return
  more (← room)

/-- The rest of a string on one line, up to its closing quote. -/
def lineBody (quote : Char) (escapes : Bool) : Nat → Scan (List Char)
  | 0 => failure
  | n + 1 => do
    let c ← one isText
    if c = quote then return []
    if escapes && c = '\\' then return (← escape) :: (← lineBody quote escapes n)
    return c :: (← lineBody quote escapes n)

/-- The rest of a string on several lines. Three quotes close it; up to two more before them, and one
or two anywhere else, belong to the text. -/
def blockBody (quote : Char) (escapes : Bool) : Nat → Scan (List Char)
  | 0 => failure
  | n + 1 => do
    let quotes ← takeWhile (· = quote)
    if 3 ≤ quotes.length then
      if quotes.length ≤ 5 then return quotes.drop 3 else failure
    let text ← rest n
    return quotes ++ text
where
  rest (n : Nat) : Scan (List Char) :=
    (do newline; return '\n' :: (← blockBody quote escapes n))
    <|> (do
      let c ← one isText
      if escapes && c = '\\' then
        (do lineJoin; blockBody quote escapes n)
        <|> (do return (← escape) :: (← blockBody quote escapes n))
      else return c :: (← blockBody quote escapes n))

def lineString (quote : Char) : Scan String := do
  char quote
  return String.ofList (← lineBody quote (quote = '"') (← room))

/-- A line end right behind the opening quotes does not count. -/
def blockString (quote : Char) : Scan String := do
  word [quote, quote, quote]
  attempt newline
  return String.ofList (← blockBody quote (quote = '"') (← room))

/-- Three quotes always open a block. -/
def quoted (quote : Char) : Scan String := do
  if (← get).take 3 = [quote, quote, quote] then blockString quote else lineString quote

/-- A run of digits with single underscores between them, which are dropped. -/
def digitRun (p : Char → Bool) : Scan (List Char) := do
  let cs ← takeWhile fun c => p c || c = '_'
  if (splitOnChar '_' cs).all (!·.isEmpty) then return cs.filter (· ≠ '_') else failure

def sign : Scan (List Char) := do
  match ← peek with
  | some '+' => char '+'; return ['+']
  | some '-' => char '-'; return ['-']
  | _ => return []

def inInt64 (n : Int) : Bool := -9223372036854775808 ≤ n && n ≤ 9223372036854775807

def integerOf (n : Option Int) : Scan Toml :=
  match n.filter inInt64 with
  | some n => return .integer n
  | none => failure

/-- A number in base 16, 8 or 2, behind its mark. -/
def based (mark : Char) (base : Nat) : Scan Toml := do
  word ['0', mark]
  let cs ← digitRun fun c => (hexValue? c).any (· < base)
  integerOf (some (foldBase base cs))

def plainDigits : Scan (List Char) := do
  let cs ← digitRun isDigit
  if cs.head? = some '0' && cs.length ≠ 1 then failure else return cs

def decimalInteger : Scan Toml := do
  let s ← sign
  integerOf (readSigned (s ++ (← plainDigits)))

def places : Scan (List Char) := do
  char '.'
  return '.' :: (← digitRun isDigit)

def exponent : Scan (List Char) := do
  let _ ← one fun c => c = 'e' || c = 'E'
  let s ← sign
  return 'e' :: s ++ (← digitRun isDigit)

/-- A number with places, an exponent or both; one that rounds to infinity is refused. -/
def decimalFloat : Scan Toml := do
  let s ← sign
  let whole ← plainDigits
  let tail ← exponent <|> (do
    let p ← places
    let e ← exponent <|> return []
    return p ++ e)
  match readFloat (s ++ whole ++ tail) with
  | some x => if x == Float.ofBits (UInt64.ofNat binary64.infinity) then failure else return .float x
  | none => failure

def specialFloat : Scan Toml := do
  let s ← sign
  let cs ← (do word "inf".toList; return "inf".toList) <|> (do word "nan".toList; return "nan".toList)
  match readFloat (s ++ cs) with
  | some x => return .float x
  | none => failure

def field (n lo hi : Nat) : Scan Nat := do
  let v := foldBase 10 (← exactly isDigit n)
  if lo ≤ v ∧ v ≤ hi then return v else failure

def daysIn (year month : Nat) : Nat :=
  if month = 2 then (if year % 4 = 0 ∧ (year % 100 ≠ 0 ∨ year % 400 = 0) then 29 else 28)
  else if month ∈ [4, 6, 9, 11] then 30 else 31

def date : Scan Unit := do
  let year ← field 4 0 9999
  char '-'
  let month ← field 2 1 12
  char '-'
  let _ ← field 2 1 (daysIn year month)

/-- A time of day; the last second of a day may be a leap second. -/
def time : Scan Unit := do
  let _ ← field 2 0 23
  char ':'
  let _ ← field 2 0 59
  char ':'
  let _ ← field 2 0 60
  attempt do
    char '.'
    let _ ← one isDigit
    let _ ← takeWhile isDigit

def offset : Scan Unit := do
  let c ← one fun c => c ∈ ['Z', 'z', '+', '-']
  if c = '+' || c = '-' then
    let _ ← field 2 0 23
    char ':'
    let _ ← field 2 0 59

/-- A date, a time, or a date with a time and perhaps an offset behind it. -/
def momentText : Scan Unit :=
  (do
    date
    attempt do
      let _ ← one fun c => c ∈ ['T', 't', ' ']
      time
      attempt offset)
  <|> time

def scalar : Scan Toml := do
  match ← peek with
  | some '"' => return .string (← quoted '"')
  | some '\x27' => return .string (← quoted '\x27')
  | some 't' => word "true".toList; return .boolean true
  | some 'f' => word "false".toList; return .boolean false
  | _ =>
    (do momentText; return .moment) <|> decimalFloat <|> specialFloat <|> based 'x' 16 <|> based 'o' 8
      <|> based 'b' 2 <|> decimalInteger

end Grove.Toml
