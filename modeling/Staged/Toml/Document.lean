/-
  Staged.Toml.Document — whole documents.

  A line holds a key with its value, the header of a table or of one more table of a
  list, or nothing that counts. Keys before the first header belong to the document.
  Arrays and inline tables nest to a bounded depth, and a key has no more names than that.
-/

import Staged.Toml.Scalar
import Staged.Toml.Table

namespace Staged.Toml

open Scan

def isBare (c : Char) : Bool :=
  ('a' ≤ c && c ≤ 'z') || ('A' ≤ c && c ≤ 'Z') || c.isDigit || c == '_' || c == '-'

def simpleKey : Scan String :=
  (return String.ofList (← many1 (next isBare))) <|> basicString <|> literalString

/-- Names with dots between them. -/
def dottedKey : Scan (List String) :=
  separated simpleKey (do spaces; char '.'; spaces)

/-- How deep brackets may nest, and how many names a key may have. -/
def maxDepth : Nat := 79

/-- A key, in two parts: the names before the last and the last. -/
def path : Scan (List String × String) := do
  let names ← dottedKey
  if names.length > maxDepth then failure
  match names.getLast? with
  | some last => return (names.dropLast, last)
  | none => failure

/-- A key and its value. -/
def pair (value : Scan Value) : Scan ((List String × String) × Value) := do
  let key ← path
  spaces
  char '='
  spaces
  return (key, ← value)

/-! ## Values -/

def boolean : Scan Bool := (do word "true"; return true) <|> (do word "false"; return false)

def array (value : Scan Value) : Scan Value := do
  char '['
  blankLines
  let items ← option (separated value (do blankLines; char ','; blankLines))
  blankLines
  if items.isSome then
    let _ ← option (char ',')
  blankLines
  char ']'
  return .array (items.getD [])

def inlineTable (value : Scan Value) : Scan Value := do
  char '\x7b'
  spaces
  let pairs ← option (separated (pair value) (do spaces; char ','; spaces))
  spaces
  char '\x7d'
  match (pairs.getD []).foldlM (fun entries ((names, key), v) => assign key v names entries) [] with
  | some entries => return .table .inline entries
  | none => failure

/-- A value with brackets at most so deep. -/
def value : Nat → Scan Value
  | 0 => scalar
  | depth + 1 => scalar <|> array (value depth) <|> inlineTable (value depth)
where
  scalar : Scan Value :=
    (return .str (← string)) <|> (return .bool (← boolean)) <|> (return .date (← moment))
      <|> (do fraction; return .float) <|> (return .int (← integer))

/-! ## Lines -/

inductive Line where
  | pair (names : List String) (key : String) (value : Value)
  | table (names : List String) (key : String)
  | listTable (names : List String) (key : String)

def header (opening closing : String) : Scan (List String × String) := do
  word opening
  spaces
  let key ← path
  spaces
  word closing
  return key

def line : Scan Line := do
  let listTable : Scan Line := do
    let (names, key) ← header "[[" "]]"
    return .listTable names key
  let table : Scan Line := do
    let (names, key) ← header "[" "]"
    return .table names key
  let keyed : Scan Line := do
    let ((names, key), v) ← pair (value maxDepth)
    return .pair names key v
  spaces
  let line ← listTable <|> table <|> keyed
  lineEnd
  return line

def lines : Scan (List Line) := do
  let _ ← option (char '\ufeff')
  blankLines
  let all ← many (do let l ← line; blankLines; return l)
  atEnd
  return all

/-! ## Meaning -/

/-- The document so far, and the table that keys go to. -/
structure State where
  root : Entries := []
  here : List String := []

def Line.apply (s : State) : Line → Option State
  | pair names key v => do
    some { s with root := ← within (assign key v names) s.here s.root }
  | table names key => do
    some ⟨← within (openTable key) names s.root, names ++ [key]⟩
  | listTable names key => do
    some ⟨← within (appendTable key) names s.root, names ++ [key]⟩

/-- The entries of a document, if it is one. -/
def parse? (text : String) : Option Entries := do
  let (all, _) ← lines.run text.toList
  let s ← all.foldlM Line.apply {}
  some s.root

end Staged.Toml
