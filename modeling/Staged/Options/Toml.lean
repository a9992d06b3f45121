/-
  Staged.Options.Toml — options from a TOML document.

  Every option may be left out, and keys that are no option are passed over. Numbers are
  natural; the pointer width is a 32-bit word. A build mode may also be written as a
  table whose only key is the mode, with nothing in it. A date in place of the defines is
  a table with one entry, its text.
-/

import Staged.Options
import Staged.Toml.Document

namespace Staged

namespace Options

/-- What a key stands for, read by `f`, or else the default. -/
def entry {α : Type} (entries : Toml.Entries) (key : String) (default : α)
    (f : Toml.Value → Option α) : Option α :=
  match entries.lookup key with
  | some v => f v
  | none => some default

def textOf? : Toml.Value → Option String
  | .str s => some s
  | _ => none

/-- A natural number below a bound. -/
def wordOf? (bound : Nat) : Toml.Value → Option Nat
  | .int i => if 0 ≤ i ∧ i < bound then some i.toNat else none
  | _ => none

def isEmptyValue : Toml.Value → Bool
  | .array [] | .table _ [] => true
  | _ => false

def modeOf? : Toml.Value → Option BuildMode
  | .str s => BuildMode.ofName? s
  | .table _ [(s, v)] => if isEmptyValue v then BuildMode.ofName? s else none
  | _ => none

def defineOf? : Toml.Value → Option Define
  | .bool b => some (.bool b)
  | .int i => some (.int i)
  | .str s => some (.str s)
  | _ => none

/-- The key under which a date is found where a table is asked for. -/
def dateKey : String := "$__toml_private_datetime"

def definesOf? : Toml.Value → Option (List (String × Define))
  | .table _ entries => entries.mapM fun (k, v) => (defineOf? v).map (k, ·)
  | .date moment => some [(dateKey, .str moment.text)]
  | _ => none

/-- The options that the entries of a document spell. -/
def ofEntries? (entries : Toml.Entries) : Option Options := do
  let base : Options := {}
  let name ← entry entries "name" base.name textOf?
  let mode ← entry entries "mode" base.mode modeOf?
  let pointerWidth ← entry entries "pointer_width" base.pointerWidth (wordOf? (Nat.pow 2 32))
  let loopLimit ← entry entries "prerun_loop_limit" base.loopLimit (wordOf? (Nat.pow 2 64))
  let callDepth ← entry entries "prerun_call_depth" base.callDepth (wordOf? (Nat.pow 2 64))
  let defines ← entry entries "defines" base.defines definesOf?
  some { name, mode, pointerWidth, loopLimit, callDepth, defines }

def ofToml (text : String) : Except OptionsError Options :=
  match (Toml.parse? text).bind ofEntries? with
  | some o => o.validate
  | none => .error .parse

end Options

end Staged
