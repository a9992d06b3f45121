/-
  Staged.Declare.Bring — names and modules brought from elsewhere.

  A brought module is reachable under its name or alias; a file brought without an alias
  opens its names instead. Once a bring has run, every unfinished entity that waited for
  it collects its dependencies anew, since names may have got a meaning.
-/

import Staged.Declare.Register

namespace Staged.Emit

/-- A name that could not be brought. -/
def refuseBring {α : Type} (e : ResolveError) : Emit α :=
  if e.isNotFound then refuse (.bringNotFound e) e.range else refuseName e

def orRefuseBring {α : Type} (result : Except ResolveError α) : Emit α :=
  match result with
  | .ok a => return a
  | .error e => refuseBring e

def bringModule (module : ModId) (b : BroughtModule) : Emit Unit :=
  modify fun s => { s with modules := s.modules.addBroughtModule module b }

/-- Bring what a name means under a name of its own. -/
def bringResolved (module : ModId) (found : Resolved) (name : Ident) (vis : Visibility)
    (range : Span) : Emit Unit := do
  match found with
  | .module target => bringModule module ⟨target, some name, vis, range⟩
  | .item item =>
    let s ← get
    match s.modules.addBroughtEntity module ⟨name, item, vis⟩ with
    | .ok modules => set { s with modules }
    | .error d => refuseDuplicate name d.existing

/-- Bring several members of one module. -/
def bringMembers (view : Viewpoint) (target : ModId) (vis : Visibility) :
    List BroughtName → Emit Unit
  | [] => return
  | n :: rest => do
    let t ← modules
    let found ← match ← orRefuseBring (t.findIn target n.name view) with
      | some found => pure found
      | none => refuseBring (.notFound n.name.text (t.fullName target) n.name.range)
    bringResolved view.module found (n.asName.getD n.name) vis n.name.range
    bringMembers view target vis rest

def bringItem (view : Viewpoint) (vis : Visibility) : BringItem → Emit Unit
  | .path path asName => do
    let found ← orRefuseBring ((← modules).resolve view.module path view)
    let name ← require (asName.or path.last?) .bringEmpty path.range
    bringResolved view.module found name vis path.range
  | .members source names => do
    let target ← orRefuseBring ((← modules).resolveModule view.module source view)
    bringMembers view target vis names
  | .file path asName range => do
    let target ← require ((← modules).moduleByPath? path) (.bringFile path) range
    bringModule view.module ⟨target, asName, vis, range⟩

/-- The unfinished entities that wait for a bring. -/
def waitingFor (g : EntityGraph) (id : EntityId) : List EntityId :=
  (g.entities.toList.zipIdx.filter fun (e, i) =>
    !e.isFinished && i != id && e.deps.any (·.entity == id)).map (·.2)

/-- Note that a bring has run. -/
def settleBring (id : EntityId) : Emit Unit := do
  modify fun s => { s with pendingBrings := s.pendingBrings.filter (·.2 != id) }
  for entity in waitingFor (← get).entities id do
    collectDependencies entity

def bring (view : Viewpoint) (id : EntityId) (d : BringDecl) : Emit Unit := do
  let vis := (← modules).visibility d.vis view.module none
  for item in d.items do
    bringItem view vis item
  setSymbol id .bring
  settleBring id

end Staged.Emit
