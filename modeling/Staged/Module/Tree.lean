/-
  Staged.Module.Tree — modules inside modules, and who sees what.

  Folders, files and libs form a forest: a module is created inside one that exists, so
  a parent's number is smaller than its child's and walks to the root end
  (`ancestors`). A module holds items, which are named entities; modules and entities
  brought from elsewhere; and names whose declaration still waits for its guard.

  A name enters a module once. Declaring an item looks for it among items, brought
  entities and libs; bringing an entity looks among items and brought entities. Bringing
  a module again under the same alias changes nothing.
-/

import Staged.Entity.Graph
import Staged.Source.Decl

namespace Staged

inductive ModKind where
  | file | folder | lib
  deriving DecidableEq, Repr

def ModKind.name : ModKind → String
  | file => "File" | folder => "Folder" | lib => "Lib"

structure Item where
  name : Ident
  entity : EntityId
  kind : EntityKind
  vis : Visibility
  deriving Repr

structure BroughtModule where
  module : ModId
  /-- Without one, the brought module's names are seen as if they were here. -/
  asName : Option Ident
  vis : Visibility
  range : Span
  deriving Repr

structure BroughtEntity where
  name : Ident
  item : Item
  vis : Visibility
  deriving Repr

structure Mod where
  name : Ident
  kind : ModKind
  parent : Option ModId
  vis : Visibility := .pub
  file : Nat
  path : Option String
  submodules : List ModId := []
  brought : List BroughtModule := []
  broughtEntities : List BroughtEntity := []
  items : List Item := []
  /-- Names of guarded declarations, in the order they were met. -/
  guarded : List (String × EntityId) := []
  deriving Repr

namespace Mod

def item? (m : Mod) (name : String) : Option Item := m.items.find? (·.name.text == name)

def broughtEntity? (m : Mod) (name : String) : Option BroughtEntity :=
  m.broughtEntities.find? (·.name.text == name)

def guardedNamed (m : Mod) (name : String) : List EntityId :=
  (m.guarded.filter (·.1 == name)).map (·.2)

end Mod

structure ModuleTree where
  modules : Array Mod := #[]
  deriving Repr, Inhabited

/-- A name that is taken, and where. -/
structure DuplicateName where
  name : String
  existing : Span
  deriving Repr

namespace ModuleTree

def size (t : ModuleTree) : Nat := t.modules.size

def get? (t : ModuleTree) (id : ModId) : Option Mod := t.modules[id]?

def modify (t : ModuleTree) (id : ModId) (f : Mod → Mod) : ModuleTree := ⟨t.modules.modify id f⟩

def addModule (t : ModuleTree) (name : Ident) (kind : ModKind) (parent : Option ModId)
    (file : Nat) (path : Option String) : ModuleTree × ModId :=
  let id := t.modules.size
  let t : ModuleTree := ⟨t.modules.push { name, kind, parent, file, path }⟩
  match parent with
  | some p => (t.modify p fun m => { m with submodules := m.submodules ++ [id] }, id)
  | none => (t, id)

def parent? (t : ModuleTree) (id : ModId) : Option ModId := (t.get? id).bind Mod.parent

/-! ## Walks to the root -/

/-- A module and everything around it, from the inside out. -/
def ancestors (t : ModuleTree) (id : ModId) : List ModId :=
  match t.parent? id with
  | some p => if p < id then id :: t.ancestors p else [id]
  | none => [id]

def nameOf (t : ModuleTree) (id : ModId) : String :=
  ((t.get? id).map fun m => m.name.text).getD ""

def fullName (t : ModuleTree) (id : ModId) : String :=
  "::".intercalate ((t.ancestors id).reverse.map t.nameOf)

def fullNameOf (t : ModuleTree) (id : ModId) (name : String) : String :=
  t.fullName id ++ "::" ++ name

def isWithin (t : ModuleTree) (id ancestor : ModId) : Bool := (t.ancestors id).contains ancestor

/-- The innermost module of a kind around a module, itself included. -/
def nearest? (t : ModuleTree) (id : ModId) (kind : ModKind) : Option ModId :=
  (t.ancestors id).find? fun m => (t.get? m).any (·.kind == kind)

def fileOf (t : ModuleTree) (id : ModId) : ModId := (t.nearest? id .file).getD id

def moduleByPath? (t : ModuleTree) (path : String) : Option ModId :=
  t.modules.findIdx? (·.path == some path)

/-! ## Visibility -/

/-- What a written visibility means for a declaration in a module. Outside a lib, `lib`
is the file, and outside a folder, `folder` is the file. -/
def visibility (t : ModuleTree) (spec : VisSpec) (module : ModId) (parentType : Option Ty) :
    Visibility :=
  match spec with
  | .pub => .pub
  | .priv => .inside .priv module
  | .lib => .inside .lib ((t.nearest? module .lib).getD (t.fileOf module))
  | .file => .inside .file (t.fileOf module)
  | .folder =>
    let file := t.fileOf module
    .inside .folder ((t.nearest? file .folder).getD file)
  | .type => match parentType with
    | some ty => .ofType ty
    | none => .inside .priv module

def isAccessible (t : ModuleTree) (vis : Visibility) (view : Viewpoint) : Bool :=
  match vis with
  | .pub => true
  | .ofType ty => view.memberOf == some ty
  | .inside _ module => t.isWithin view.module module

/-! ## Declaring names -/

def libNamed? (t : ModuleTree) (m : Mod) (name : String) : Option Mod :=
  (m.submodules.filterMap t.get?).find? fun s => s.kind == .lib && s.name.text == name

def submoduleNamed? (t : ModuleTree) (m : Mod) (name : String) : Option Mod :=
  (m.submodules.filterMap t.get?).find? (·.name.text == name)

/-- Where an item of that name would clash. -/
def takenForItem? (t : ModuleTree) (m : Mod) (name : String) : Option Span :=
  ((m.item? name).map (·.name.range)).or <|
    ((m.broughtEntity? name).map (·.name.range)).or <|
      (t.libNamed? m name).map (·.name.range)

/-- Where a brought entity of that name would clash. -/
def takenForBrought? (m : Mod) (name : String) : Option Span :=
  ((m.item? name).map (·.name.range)).or ((m.broughtEntity? name).map (·.name.range))

/-- Where a lib of that name would clash. -/
def takenForLib? (t : ModuleTree) (m : Mod) (name : String) : Option Span :=
  ((m.item? name).map (·.name.range)).or ((t.submoduleNamed? m name).map (·.name.range))

def addItem (t : ModuleTree) (module : ModId) (item : Item) : Except DuplicateName ModuleTree :=
  match (t.get? module).bind fun m => t.takenForItem? m item.name.text with
  | some existing => .error ⟨item.name.text, existing⟩
  | none => .ok (t.modify module fun m => { m with items := m.items ++ [item] })

def addGuarded (t : ModuleTree) (module : ModId) (name : String) (entity : EntityId) :
    ModuleTree :=
  t.modify module fun m => { m with guarded := m.guarded ++ [(name, entity)] }

def addBroughtModule (t : ModuleTree) (module : ModId) (brought : BroughtModule) : ModuleTree :=
  t.modify module fun m =>
    if m.brought.any fun b => b.module == brought.module && b.asName == brought.asName then m
    else { m with brought := m.brought ++ [brought] }

def addBroughtEntity (t : ModuleTree) (module : ModId) (brought : BroughtEntity) :
    Except DuplicateName ModuleTree :=
  match (t.get? module).bind fun m => takenForBrought? m brought.name.text with
  | some existing => .error ⟨brought.name.text, existing⟩
  | none => .ok (t.modify module fun m =>
      { m with broughtEntities := m.broughtEntities ++ [brought] })

end ModuleTree

end Staged
