/-
  Staged.Toml.Table — values and tables, and what may be added to them.

  A table is opened by a header, implied by the header of a table inside it, spelled by
  dotted keys, or written inline. A header may open a table that was only implied, once;
  dotted keys add to tables that dotted keys spelled; an inline table is finished. A list
  of tables grows by one with each of its headers, and later headers and keys mean the
  last one. No key is given twice.
-/

import Staged.Toml.Moment

namespace Staged.Toml

/-- How a table came to be. -/
inductive Origin where
  | header | implied | dotted | inline
  deriving DecidableEq, Repr

inductive Value where
  | bool (value : Bool)
  | int (value : Int)
  | float
  | date (moment : Moment)
  | str (value : String)
  | array (items : List Value)
  | table (origin : Origin) (entries : List (String × Value))
  /-- A list of tables, by headers: the earlier ones and the last. -/
  | tables (earlier : List (List (String × Value))) (last : List (String × Value))
  deriving Repr

abbrev Entries := List (String × Value)

/-- Replace what a key stands for, or add it at the end. -/
def alter (key : String) (f : Option Value → Option Value) : Entries → Option Entries
  | [] => do some [(key, ← f none)]
  | (k, v) :: rest =>
    if k = key then do some ((k, ← f (some v)) :: rest)
    else do some ((k, v) :: (← alter key f rest))

/-- Change the table at a path of header names; tables on the way are implied. -/
def within (f : Entries → Option Entries) : List String → Entries → Option Entries
  | [], entries => f entries
  | key :: path, entries => alter key (fun
    | none => (within f path []).map (.table .implied)
    | some (.table .inline _) => none
    | some (.table origin inner) => (within f path inner).map (.table origin)
    | some (.tables earlier last) => (within f path last).map (.tables earlier)
    | some _ => none) entries

/-- Give a key a value; the names before it spell tables. -/
def assign (key : String) (value : Value) : List String → Entries → Option Entries
  | [], entries => alter key (fun | none => some value | some _ => none) entries
  | name :: path, entries => alter name (fun
    | none => (assign key value path []).map (.table .dotted)
    | some (.table .dotted inner) => (assign key value path inner).map (.table .dotted)
    | some (.table .implied inner) =>
      if path.isEmpty then none else (assign key value path inner).map (.table .implied)
    | some (.tables earlier last) =>
      if path.isEmpty then none else (assign key value path last).map (.tables earlier)
    | some _ => none) entries

/-- Open a table by its header. -/
def openTable (key : String) : Entries → Option Entries :=
  alter key fun
    | none => some (.table .header [])
    | some (.table .implied inner) => some (.table .header inner)
    | some _ => none

/-- Add a table to a list by its header. -/
def appendTable (key : String) : Entries → Option Entries :=
  alter key fun
    | none => some (.tables [] [])
    | some (.tables earlier last) => some (.tables (earlier ++ [last]) [])
    | some _ => none

end Staged.Toml
