/-! Scanning text from the front. A scan takes characters off the front of a list or fails, and one
that fails takes nothing. -/

namespace Grove

abbrev Scan (α : Type) := StateT (List Char) Option α

namespace Scan

def peek : Scan (Option Char) := return (← get).head?

def takeWhile (p : Char → Bool) : Scan (List Char) := do
  let cs ← get
  set (cs.dropWhile p)
  return cs.takeWhile p

def one (p : Char → Bool) : Scan Char := do
  match ← get with
  | c :: cs => if p c then set cs; return c else failure
  | [] => failure

def char (c : Char) : Scan Unit := discard (one (· = c))

/-- The next characters, if they are these. -/
def word : List Char → Scan Unit
  | [] => return
  | c :: cs => do char c; word cs

/-- Takes a character if it comes next and tells whether it did. -/
def accept (c : Char) : Scan Bool := (do char c; return true) <|> return false

def attempt (p : Scan Unit) : Scan Unit := p <|> return

def exactly (p : Char → Bool) : Nat → Scan (List Char)
  | 0 => return []
  | n + 1 => return (← one p) :: (← exactly p n)

/-- As many rounds as there are characters left suffice for anything that takes one each round. -/
def room : Scan Nat := return (← get).length + 1

def run {α : Type} (p : Scan α) (cs : List Char) : Option α :=
  match StateT.run p cs with
  | some (a, []) => some a
  | _ => none

end Scan
end Grove
