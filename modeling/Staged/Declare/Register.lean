/-
  Staged.Declare.Register — from a program to modules, entities and dependencies.

  Source modules are created in the order they are listed, but never before the module
  around them. Then every declaration becomes an entity, or a module if it is a `lib`
  block. A name is declared at once unless the declaration has a guard; it is then only
  noted and declared once the guard is found to hold. Dependencies are collected when all
  names are there.
-/

import Staged.Compiler.State
import Staged.Entity.Dependencies

namespace Staged

def DeclBody.kind : DeclBody → EntityKind
  | .function _ => .function
  | .struct _ => .struct
  | .mix _ => .mix
  | .choice _ => .choice
  | .global _ => .global
  | .prerunGlobal _ => .prerunGlobal
  | .prerunFunction _ => .prerunFunction
  | .typeDef _ => .typeDef
  | .skill _ => .skill
  | .doSkill _ => .doSkill
  | .bring _ => .bring

namespace Emit

/-! ## Source modules -/

/-- The module of a source module, created after the ones around it. -/
def sourceModule (p : Program) : Nat → Nat → StateT (Array (Option ModId)) Emit ModId
  | fuel, index => do
    match p.modules[index]?, (← get)[index]?.join with
    | none, _ => breach (.noSource index)
    | some _, some id => return id
    | some source, none => match fuel with
      | 0 => breach .sourceCycle
      | fuel + 1 =>
        let parent ← match source.parent with
          | some parent => some <$> sourceModule p fuel parent
          | none => pure none
        let kind := match source.kind with
          | .file => ModKind.file
          | .folder => .folder
        let name : Ident := ⟨source.name, ⟨source.file, 0, 0⟩⟩
        let s ← getThe Compiler
        let (modules, id) := s.modules.addModule name kind parent source.file source.path
        set { s with modules }
        modify (·.set! index (some id))
        return id

/-- Create all source modules; gives their modules in order. -/
def sourceModules (p : Program) : Emit (List ModId) := do
  let size := p.modules.size
  let (ids, _) ← ((List.range size).mapM (sourceModule p (size + 1))).run
    (Array.replicate size none)
  return ids

/-! ## Declarations -/

def refuseDuplicate {α : Type} (name : Ident) (existing : Span) : Emit α :=
  refuse (.duplicateName name.text existing) name.range

/-- Declare the name of an entity in its module. -/
def registerName (id : EntityId) (site : Site) : Emit Unit := do
  match site.decl.body.name? with
  | none => return
  | some name =>
    let s ← get
    let vis := s.modules.visibility site.decl.body.vis site.module none
    match s.modules.addItem site.module ⟨name, id, site.decl.body.kind, vis⟩ with
    | .ok modules => set { s with modules }
    | .error d => refuseDuplicate name d.existing

/-- Make a declaration an entity. -/
def registerEntity (module : ModId) (d : EntityDecl) : Emit Unit := do
  let s ← get
  let name := d.body.name?
  let kind := d.body.kind
  let site : Site := ⟨d, module⟩
  let (entities, id) := s.entities.add name kind module d.range
  let pendingBrings :=
    if kind = .bring then s.pendingBrings ++ [(module, id)] else s.pendingBrings
  set { s with entities, pendingBrings, sites := s.sites.push site }
  match name, d.guard with
  | some n, some _ => modify fun s => { s with modules := s.modules.addGuarded module n.text id }
  | some _, none => registerName id site
  | none, _ => return

/-- Create the module of a `lib` block. -/
def registerLib (parent : ModId) (name : Ident) (vis : VisSpec) (guard : Option Expr) :
    Emit ModId := do
  if let some g := guard then refuse (.guardedLib name.text) g.range
  let s ← get
  let around := s.modules.get? parent
  match around.bind (s.modules.takenForLib? · name.text) with
  | some existing => refuseDuplicate name existing
  | none =>
    let file := (around.map Mod.file).getD 0
    let (modules, id) := s.modules.addModule name .lib (some parent) file (around.bind Mod.path)
    let vis := modules.visibility vis parent none
    set { s with modules := modules.modify id fun m => { m with vis } }
    return id

mutual

def registerDecl (module : ModId) : Decl → Emit Unit
  | .entity d => registerEntity module d
  | .lib name vis guard decls _ => do
    registerDecls (← registerLib module name vis guard) decls

def registerDecls (module : ModId) : List Decl → Emit Unit
  | [] => return
  | d :: ds => do
    registerDecl module d
    registerDecls module ds

end

/-! ## Dependencies -/

def siteOf (id : EntityId) : Emit Site := do
  match (← get).sites[id]? with
  | some site => return site
  | none => breach (.noDeclaration id)

/-- The brings that have not run and may give a name its meaning: those of the module and
the modules around it. A bring waits only for brings before it. -/
def pendingFor (s : Compiler) (id : EntityId) (site : Site) : List EntityId :=
  (s.modules.ancestors site.module).flatMap fun m =>
    (s.pendingBrings.filter fun (at_, b) =>
      at_ == m && (site.decl.body.kind != .bring || b < id)).map (·.2)

/-- Add what a declaration depends on, as far as names have a meaning by now. -/
def collectDependencies (id : EntityId) : Emit Unit := do
  let site ← siteOf id
  let s ← get
  let useSite : UseSite :=
    { tree := s.modules, view := { module := site.module }
      pendingBrings := pendingFor s id site }
  let uses := site.decl.uses site.decl.body.kind.firstPhase
  let deps := uses.flatMap useSite.dependencies
  set { s with entities := deps.foldl (fun g d => g.addDep id d) s.entities }

def registerProgram (p : Program) : Emit Unit := do
  let ids ← sourceModules p
  for (source, id) in p.modules.toList.zip ids do
    registerDecls id source.decls
  for id in List.range (← get).entities.size do
    collectDependencies id

end Emit

end Staged
