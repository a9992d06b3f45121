/-
  Staged.Diagnostic — messages about a program, and where in its text they point.

  A diagnostic has labels on spans, the first primary one being its place, and notes.
  Reported against the text of a file, an offset becomes a line and a column, both
  counted from one; columns count characters. Lines end at line feeds, an offset inside
  a character stands for its start, and one past the end for the end. A label on a file
  that does not exist is left out of the report, which is a JSON object (`json`).
-/

import Staged.Source.Span
import Staged.Text.Basic

namespace Staged

inductive Severity where
  | bug | error | warning | note | help
  deriving DecidableEq, Repr

def Severity.name : Severity → String
  | bug => "bug" | error => "error" | warning => "warning" | note => "note" | help => "help"

def Severity.all : List Severity := [.bug, .error, .warning, .note, .help]

def Severity.ofName? (s : String) : Option Severity := Severity.all.find? (·.name == s)

structure Label where
  primary : Bool
  range : Span
  text : String
  deriving DecidableEq, Repr

structure Diagnostic where
  severity : Severity
  code : Option String := none
  message : String
  labels : List Label := []
  notes : List String := []
  deriving DecidableEq, Repr

namespace Diagnostic

def withCode (d : Diagnostic) (code : String) : Diagnostic := { d with code := some code }

def withPrimary (d : Diagnostic) (range : Span) (text : String) : Diagnostic :=
  { d with labels := d.labels ++ [⟨true, range, text⟩] }

def withSecondary (d : Diagnostic) (range : Span) (text : String) : Diagnostic :=
  { d with labels := d.labels ++ [⟨false, range, text⟩] }

def withNote (d : Diagnostic) (text : String) : Diagnostic := { d with notes := d.notes ++ [text] }

def withHelp (d : Diagnostic) (text : String) : Diagnostic := d.withNote ("help: " ++ text)

def isError (d : Diagnostic) : Bool := d.severity == .error || d.severity == .bug

def primary? (d : Diagnostic) : Option Span := (d.labels.find? (·.primary)).map Label.range

def secondary? (d : Diagnostic) : Option Span := (d.labels.find? (!·.primary)).map Label.range

end Diagnostic

/-! ## Positions in a text -/

structure Position where
  line : Nat
  column : Nat
  deriving DecidableEq, Repr

/-- The position of a byte offset, walking the text from a position on: past every
character that ends at or before the offset. -/
def positionFrom (offset : Nat) : List Char → Nat → Position → Position
  | [], _, here => here
  | c :: rest, start, here =>
    if start + c.utf8Size ≤ offset then
      positionFrom offset rest (start + c.utf8Size)
        (if c = '\n' then ⟨here.line + 1, 1⟩ else { here with column := here.column + 1 })
    else here

/-- Line and column of a byte offset. -/
def position (source : String) (offset : Nat) : Position :=
  positionFrom offset source.toList 0 ⟨1, 1⟩

structure LabelReport where
  file : String
  start : Position
  stop : Position
  text : String
  primary : Bool
  deriving Repr

/-- The label as it is reported against a list of files, each with its name and text. -/
def Label.report? (files : List (String × String)) (l : Label) : Option LabelReport := do
  let (file, source) ← files[l.range.file]?
  some ⟨file, position source l.range.start, position source l.range.stop, l.text, l.primary⟩

def LabelReport.json (l : LabelReport) : String :=
  Text.jsonObject
    [("file", Text.json l.file),
     ("start_line", toString l.start.line),
     ("start_column", toString l.start.column),
     ("end_line", toString l.stop.line),
     ("end_column", toString l.stop.column),
     ("message", Text.json l.text),
     ("style", Text.json (if l.primary then "primary" else "secondary"))]

/-- The diagnostic as it is reported against a list of files. -/
def Diagnostic.json (files : List (String × String)) (d : Diagnostic) : String :=
  Text.jsonObject
    [("severity", Text.json d.severity.name),
     ("code", (d.code.map Text.json).getD "null"),
     ("message", Text.json d.message),
     ("labels", Text.jsonArray ((d.labels.filterMap (·.report? files)).map LabelReport.json)),
     ("notes", Text.jsonArray (d.notes.map Text.json))]

end Staged
