/-
  Staged.Module.Resolve — from names to items and modules.

  Looking a name up in a module tries, in this order: its items, its submodules, the
  modules it brings under that alias, the entities it brings, then the items and brought
  entities of each module it brings without an alias, and last those modules themselves
  in the same way. From outside the module where the search began, only brings that the
  viewpoint may use count. Each module is searched once, so cycles of brings do no harm.

  What is found has to be visible from the viewpoint, otherwise the search fails there.
  An unqualified name is looked up in the module and then in those around it; the other
  segments of a name are looked up in the module found so far.
-/

import Staged.Module.Tree

namespace Staged

inductive Resolved where
  | module (id : ModId)
  | item (item : Item)
  deriving Repr

inductive ResolveError where
  | notFound (name module : String) (range : Span)
  | notAccessible (name module : String) (range declared : Span)
  | noParent (module : String) (range : Span)
  | notAModule (name member : String) (range : Span)
  deriving Repr

namespace ResolveError

def range : ResolveError → Span
  | notFound _ _ r | notAccessible _ _ r _ | noParent _ r | notAModule _ _ r => r

/-- The name goes through something that has no members of its own. -/
def isNotAModule : ResolveError → Bool
  | notAModule .. => true
  | _ => false

def isNotFound : ResolveError → Bool
  | notFound .. => true
  | _ => false

def message : ResolveError → String
  | notFound name module _ =>
    s!"No recognisable entity named `{name}` found in module `{module}` or its submodules and brought modules"
  | notAccessible name module _ _ => s!"`{name}` found in module `{module}` is not accessible here"
  | noParent module _ => s!"Module `{module}` has no parent module to move up to"
  | notAModule name member _ =>
    s!"`{name}` is not a module, so `{member}` cannot be looked up inside it"

end ResolveError

namespace ModuleTree

variable (t : ModuleTree)

/-- An item, if it may be used. -/
def checkItem (view : Viewpoint) (module : ModId) (range : Span) (item : Item) :
    Except ResolveError Resolved :=
  if t.isAccessible item.vis view then .ok (.item item)
  else .error (.notAccessible item.name.text (t.fullName module) range item.name.range)

/-- A module, if it may be used. -/
def checkModule (view : Viewpoint) (range : Span) (id : ModId) : Except ResolveError Resolved :=
  match t.get? id with
  | none => .ok (.module id)
  | some m =>
    if t.isAccessible m.vis view then .ok (.module id)
    else
      let around := (m.parent.map t.fullName).getD ""
      .error (.notAccessible m.name.text around range m.name.range)

/-- Whether a bring counts: always where the search began, elsewhere if it is visible. -/
def usable (view : Viewpoint) (origin : Bool) (vis : Visibility) : Bool :=
  origin || t.isAccessible vis view

/-- The modules brought without an alias. -/
def anonymousBrings (view : Viewpoint) (origin : Bool) (m : Mod) : List ModId :=
  (m.brought.filter fun b => b.asName.isNone && t.usable view origin b.vis).map (·.module)

/-- The item or brought entity of a module that is brought without an alias. -/
def behind? (view : Viewpoint) (key : String) (target : ModId) : Option (ModId × Item) :=
  (t.get? target).bind fun m =>
    ((m.item? key).map fun i => (target, i)).or <|
      (m.broughtEntity? key).bind fun b =>
        if t.isAccessible b.vis view then some (target, b.item) else none

/-- What a name means in one module, apart from the brings to be searched in turn. -/
def lookup? (view : Viewpoint) (origin : Bool) (id : ModId) (m : Mod) (name : Ident) :
    Option (Except ResolveError Resolved) :=
  let key := name.text
  ((m.item? key).map (t.checkItem view id name.range)).or <|
  ((m.submodules.find? fun s => (t.get? s).any (·.name.text == key)).map
    (t.checkModule view name.range)).or <|
  ((m.brought.find? fun b => b.asName.any (·.text == key)).bind fun b =>
    if t.usable view origin b.vis then some (t.checkModule view name.range b.module)
    else none).or <|
  ((m.broughtEntity? key).bind fun b =>
    if t.usable view origin b.vis then some (t.checkItem view id name.range b.item)
    else none).or <|
  ((t.anonymousBrings view origin m).findSome? (t.behind? view key)).map fun (target, item) =>
    t.checkItem view target name.range item

/-- A bound on how many modules a search of the unvisited ones can come upon. -/
def searchSize (unvisited : List ModId) : Nat :=
  unvisited.length + (unvisited.flatMap fun id => ((t.get? id).map (·.brought)).getD []).length

theorem searchSize_erase {unvisited : List ModId} {id : ModId} (h : id ∈ unvisited) :
    t.searchSize unvisited =
      ((t.get? id).map (·.brought.length)).getD 0 + 1 + t.searchSize (unvisited.erase id) := by
  have unvisits := List.perm_cons_erase h
  unfold searchSize
  rw [unvisits.length_eq, (unvisits.flatMap_right _).length_eq]
  simp only [List.length_cons, List.flatMap_cons, List.length_append]
  cases t.get? id <;>
    simp only [Option.map_none, Option.map_some, Option.getD_none, Option.getD_some,
      List.length_nil] <;>
    omega

theorem length_anonymousBrings_le (view : Viewpoint) (origin : Bool) (m : Mod) :
    (t.anonymousBrings view origin m).length ≤ m.brought.length := by
  unfold anonymousBrings
  rw [List.length_map]
  exact List.length_filter_le _ _

/-- Search the modules to do, in order, each at most once. -/
def search (view : Viewpoint) (name : Ident) (unvisited : List ModId)
    (todo : List (ModId × Bool)) : Except ResolveError (Option Resolved) :=
  match todo with
  | [] => .ok none
  | (id, origin) :: rest =>
    if _seen : id ∈ unvisited then
      match _found : t.get? id with
      | none => search view name (unvisited.erase id) rest
      | some m => match t.lookup? view origin id m name with
        | some found => found.map some
        | none =>
          search view name (unvisited.erase id)
            ((t.anonymousBrings view origin m).map (·, false) ++ rest)
    else search view name unvisited rest
-- one number, so that searches can be evaluated in proofs
termination_by t.searchSize unvisited + todo.length
decreasing_by
  · have := t.searchSize_erase _seen
    simp only [List.length_cons]
    omega
  · have := t.searchSize_erase _seen
    have := t.length_anonymousBrings_le view origin m
    simp only [_found, Option.map_some, Option.getD_some, List.length_append, List.length_map,
      List.length_cons] at *
    omega
  · simp only [List.length_cons]
    omega

/-- What a name means when it is looked up in a module. -/
def findIn (module : ModId) (name : Ident) (view : Viewpoint) :
    Except ResolveError (Option Resolved) :=
  t.search view name (List.range t.size) [(module, true)]

/-- The first module of a list in which a name means something. -/
def findFirst (name : Ident) (view : Viewpoint) :
    List ModId → Except ResolveError (Option Resolved)
  | [] => .ok none
  | m :: rest => do
    match ← t.findIn m name view with
    | some found => .ok (some found)
    | none => findFirst name view rest

/-- What a name means in a module or the ones around it. -/
def findUnqualified (module : ModId) (name : Ident) (view : Viewpoint) :
    Except ResolveError (Option Resolved) :=
  t.findFirst name view (t.ancestors module)

/-- The module that many steps up. -/
def goUp (range : Span) : Nat → ModId → Except ResolveError ModId
  | 0, m => .ok m
  | n + 1, m => match t.parent? m with
    | some p => goUp range n p
    | none => .error (.noParent (t.fullName m) range)

/-- Follow the segments of a name after what the segments before them mean. -/
def follow (view : Viewpoint) : Ident → Resolved → List Ident → Except ResolveError Resolved
  | _, current, [] => .ok current
  | previous, current, segment :: rest =>
    match current with
    | .item _ => .error (.notAModule previous.text segment.text segment.range)
    | .module m => do
      match ← t.findIn m segment view with
      | some next => follow view segment next rest
      | none => .error (.notFound segment.text (t.fullName m) segment.range)

def resolve (start : ModId) (name : QName) (view : Viewpoint) : Except ResolveError Resolved := do
  let start ← t.goUp name.range name.up start
  match name.segments with
  | [] => .ok (.module start)
  | first :: rest =>
    let found ← if name.up = 0 then t.findUnqualified start first view
      else t.findIn start first view
    match found with
    | some found => t.follow view first found rest
    | none => .error (.notFound first.text (t.fullName start) first.range)

def resolveModule (start : ModId) (name : QName) (view : Viewpoint) :
    Except ResolveError ModId := do
  match ← t.resolve start name view with
  | .module m => .ok m
  | .item item => .error (.notAModule item.name.text "" name.range)

/-- Declarations that a name may come to mean once their guard holds. -/
def guardedCandidates (start : ModId) (name : QName) (view : Viewpoint) : List EntityId :=
  match name.last? with
  | none => []
  | some last =>
    let guardedIn (m : ModId) := ((t.get? m).map (·.guardedNamed last.text)).getD []
    if name.isSingle then (t.ancestors start).flatMap guardedIn
    else match t.resolve start { name with segments := name.front } view with
      | .ok (.module m) => guardedIn m
      | _ => []

end ModuleTree

end Staged
