/-
  Staged.Source.Span — where a piece of source text lies, and names that remember it.

  A span is a half-open stretch of bytes of one file. Offsets are 32-bit words, so
  the length of a span that ends before it starts wraps. Identifiers carry the span
  they were written at: two identifiers with the same text are different values when
  they stand in different places, and lookups compare the text alone.

  A qualified name is a number of steps up the module tree followed by segments.
-/

namespace Staged

structure Span where
  file : Nat
  start : Nat
  stop : Nat
  deriving DecidableEq, Repr, Inhabited

namespace Span

/-- Bytes from start to stop, as a 32-bit word. -/
def length (s : Span) : Nat := (s.stop + Nat.pow 2 32 - s.start) % Nat.pow 2 32

def isEmpty (s : Span) : Bool := s.start == s.stop

/-- The least span that covers both, in the file of the first. -/
def merge (a b : Span) : Span := ⟨a.file, min a.start b.start, max a.stop b.stop⟩

def text (s : Span) : String := s!"file{s.file}:{s.start}..{s.stop}"

end Span

structure Ident where
  text : String
  range : Span
  deriving DecidableEq, Repr, Inhabited

structure QName where
  /-- Steps up from the current module before the first segment is looked up. -/
  up : Nat
  segments : List Ident
  range : Span
  deriving DecidableEq, Repr, Inhabited

namespace QName

/-- One segment and no step up: the only names that can be locals. -/
def isSingle (n : QName) : Bool := n.up == 0 && n.segments.length == 1

def last? (n : QName) : Option Ident := n.segments.getLast?

/-- Every segment but the last. -/
def front (n : QName) : List Ident := n.segments.dropLast

/-- The text of the only segment, if the name can be a local. -/
def single? (n : QName) : Option Ident := if n.isSingle then n.last? else none

def text (n : QName) : String :=
  String.ofList (List.replicate n.up '^') ++ (if n.up > 0 then "::" else "") ++
    "::".intercalate (n.segments.map Ident.text)

end QName

end Staged
