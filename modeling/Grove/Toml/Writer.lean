import Grove.Toml

/-! Writing strings. Four quotings are in use: basic ones, where a backslash escapes, and literal
ones, each on one line or as a block. A string gets the first quoting that needs no escapes but that
of the tab, in the order of basic, literal, basic block, literal block; if there is none it is written
in a basic one with escapes. A block opens with a line end if the string has one. -/

namespace Grove.Toml

structure Quoting where
  /-- Whether a backslash escapes. -/
  basic : Bool
  block : Bool
  deriving DecidableEq

/-- Control characters that no quoting shows as they are; tabs and line ends are not among them. -/
def isControl (c : Char) : Bool := (c.toNat < 0x20 && c ≠ '\t' && c ≠ '\n') || c = '\x7f'

def longestRun (q : Char) (cs : List Char) : Nat :=
  (cs.foldl (fun (run, most) c => if c = q then (run + 1, max most (run + 1)) else (0, most)) (0, 0)).2

namespace Quoting

def quote (q : Quoting) : Char := if q.basic then '"' else '\x27'

/-- Whether a string needs no escapes but that of the tab. -/
def fits (q : Quoting) (cs : List Char) : Bool :=
  !cs.any isControl && !(q.basic && '\\' ∈ cs)
    && (if q.block then longestRun q.quote cs ≤ 2 else '\n' ∉ cs && q.quote ∉ cs)

def all : List Quoting := [⟨true, false⟩, ⟨false, false⟩, ⟨true, true⟩, ⟨false, true⟩]

def choose (cs : List Char) : Quoting :=
  (all.find? (·.fits cs)).getD ⟨true, decide ('\n' ∈ cs)⟩

def hexDigit (n : Nat) : Char := if n < 10 then Char.ofNat (48 + n) else Char.ofNat (55 + n)

def codePoint (c : Char) : List Char :=
  let n := c.toNat
  ['\\', 'u', hexDigit (n / 4096 % 16), hexDigit (n / 256 % 16), hexDigit (n / 16 % 16), hexDigit (n % 16)]

def escape (c : Char) : List Char :=
  match c with
  | '\x08' => ['\\', 'b']
  | '\t' => ['\\', 't']
  | '\n' => ['\\', 'n']
  | '\x0c' => ['\\', 'f']
  | '\r' => ['\\', 'r']
  | '\\' => ['\\', '\\']
  | '"' => ['\\', '"']
  | c => if isControl c then codePoint c else [c]

/-- The characters of a basic string; `run` counts the quotes written bare just before. In a block
line ends are bare, and so are two quotes of every three in a row. -/
def escaped (block : Bool) : (run : Nat) → List Char → List Char
  | _, [] => []
  | run, c :: cs =>
    if block ∧ c = '\n' then c :: escaped block 0 cs
    else if block ∧ c = '"' ∧ run < 2 then c :: escaped block (run + 1) cs
    else escape c ++ escaped block 0 cs

def body (q : Quoting) (cs : List Char) : List Char := if q.basic then escaped q.block 0 cs else cs

def write (q : Quoting) (cs : List Char) : List Char :=
  let quotes := List.replicate (if q.block then 3 else 1) q.quote
  quotes ++ (if q.block ∧ '\n' ∈ cs then ['\n'] else []) ++ q.body cs ++ quotes

end Quoting

def writeString (s : String) : List Char := (Quoting.choose s.toList).write s.toList

def writeStrings (ss : List String) : List Char :=
  '[' :: [',', ' '].intercalate (ss.map writeString) ++ [']']

def writePair (key : String) (value : List Char) : List Char :=
  key.toList ++ [' ', '=', ' '] ++ value ++ ['\n']

def writeHeader (key : String) : List Char := '[' :: key.toList ++ [']', '\n']

end Grove.Toml
