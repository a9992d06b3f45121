/-
  Staged.Toml.Scan — reading from the front of a text.

  A scan takes characters off the front or fails; after a failure an alternative starts
  where the failed one did. Repetition goes on until a step fails, at most once for each
  character that is left.
-/

namespace Staged.Toml

abbrev Scan := StateT (List Char) Option

namespace Scan

/-- One character of a class. -/
def next (ok : Char → Bool) : Scan Char
  | c :: rest => if ok c then some (c, rest) else none
  | [] => none

def char (c : Char) : Scan Unit := discard (next (· == c))

def word (s : String) : Scan Unit := s.toList.forM char

/-- Nothing is left. -/
def atEnd : Scan Unit := fun cs => if cs.isEmpty then some ((), cs) else none

/-- The text does not go on with that word; takes nothing. -/
def notAhead (s : String) : Scan Unit := fun cs =>
  if s.toList.isPrefixOf cs then none else some ((), cs)

def option {α : Type} (p : Scan α) : Scan (Option α) := some <$> p <|> pure none

def manyWithin {α : Type} (p : Scan α) : Nat → Scan (List α)
  | 0 => return []
  | fuel + 1 => do
    match ← option p with
    | some a => return a :: (← manyWithin p fuel)
    | none => return []

def many {α : Type} (p : Scan α) : Scan (List α) := do manyWithin p (← get).length

def many1 {α : Type} (p : Scan α) : Scan (List α) := return (← p) :: (← many p)

/-- Items with separators between them, at least one. -/
def separated {α : Type} (item : Scan α) (separator : Scan Unit) : Scan (List α) :=
  return (← item) :: (← many (separator *> item))

def skip (ok : Char → Bool) : Scan Unit := modify (·.dropWhile ok)

end Scan

/-! ## Blanks and line ends -/

def isSpace (c : Char) : Bool := c == ' ' || c == '\t'

/-- Characters that may stand in comments and between quotes. -/
def isText (c : Char) : Bool := c == '\t' || (0x20 ≤ c.toNat && c.toNat != 0x7f)

def spaces : Scan Unit := Scan.skip isSpace

def newline : Scan Unit := Scan.word "\n" <|> Scan.word "\r\n"

def comment : Scan Unit := do
  Scan.char '#'
  Scan.skip isText

/-- The rest of a line, with nothing that counts on it. -/
def lineEnd : Scan Unit := do
  spaces
  let _ ← Scan.option comment
  newline <|> Scan.atEnd

/-- Blanks, line ends and comments. -/
def blankLines : Scan Unit :=
  discard (Scan.many (discard (Scan.next isSpace) <|> newline <|> comment))

end Staged.Toml
