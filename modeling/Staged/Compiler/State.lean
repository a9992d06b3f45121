/-
  Staged.Compiler.State — the state of a compilation and the actions on it.

  The state grows as phases run: types, modules, entities, a symbol for every entity
  whose first phase has run, and code. While a body is lowered there is a function under
  construction, and while a compile-time call runs there is a frame. An action either
  gives a result or stops with a failure; the state at that moment, with its warnings, is
  kept.
-/

import Staged.Compiler.Value
import Staged.Constant.Emitted
import Staged.Constant.Frame
import Staged.Fault
import Staged.Options
import Staged.Ty.Layout

namespace Staged

/-! ## Symbols -/

structure PrerunArg where
  name : Ident
  type : Ty
  isVar : Bool

structure PrerunFunction where
  fullName : String
  module : ModId
  args : List PrerunArg
  result : Ty
  body : List Sentence
  range : Span

/-- What an entity has become. -/
inductive Symbol where
  | function (id : Ir.FunctionId) (type : Ty)
  | type (ty : Ty)
  | global (id : Ir.GlobalId) (type : Ty) (isVar : Bool) (value : Constant)
  | prerunGlobal (value : Constant)
  | prerunFunction (function : PrerunFunction)
  | skill (id : SkillId)
  | doneSkill (id : DoneSkillId)
  | bring

/-- A declaration and the module it stands in. -/
structure Site where
  decl : EntityDecl
  module : ModId

/-! ## The function under construction -/

structure LocalVar where
  name : Ident
  address : Ir.Value
  type : Ty
  isVar : Bool
  /-- The address is that of the value referred to. -/
  isRef : Bool
  known : Option Constant := none

/-- The instance a member function works on. -/
structure Instance where
  address : Ir.Value
  type : Ty
  isVar : Bool

structure LoopTargets where
  breakTo : Ir.BlockId
  continueTo : Ir.BlockId
  tag : Option Ident

structure FunctionState where
  id : Ir.FunctionId
  function : Ir.Function
  current : Ir.BlockId
  /-- Locals, innermost scope first. -/
  scopes : List (List LocalVar) := [[]]
  /-- Loops around the current sentence, innermost first. -/
  loops : List LoopTargets := []
  result : Ty
  self : Option Instance := none

namespace FunctionState

def findLocal? (f : FunctionState) (name : String) : Option LocalVar :=
  f.scopes.findSome? (·.find? (·.name.text == name))

def loopTagged? (f : FunctionState) (tag : String) : Option LoopTargets :=
  f.loops.find? fun l => l.tag.any (·.text == tag)

/-- The loop that a jump with this tag belongs to. -/
def loopFor? (f : FunctionState) (tag : Option Ident) : Option LoopTargets :=
  match tag with
  | some t => f.loopTagged? t.text
  | none => f.loops.head?

end FunctionState

/-! ## The state -/

structure Compiler where
  types : TypeTable
  modules : ModuleTree := {}
  entities : EntityGraph := {}
  /-- The declarations of the entities, in the order of their numbers. -/
  sites : Array Site := #[]
  symbols : List (EntityId × Symbol) := []
  ir : Ir.Module
  func : Option FunctionState := none
  /-- Running compile-time calls, innermost first. -/
  frames : List Frame := []
  warnings : Array Diagnostic := #[]
  /-- Brings that have not run, with the module they stand in. -/
  pendingBrings : List (ModId × EntityId) := []
  log : Array (EntityId × Phase) := #[]

def Compiler.ofOptions (o : Options) : Compiler :=
  { types := .ofPointerWidth o.pointerWidth, ir := { name := o.name } }

/-- An action of the compiler. -/
abbrev Emit := ReaderT Options (EStateM Failure Compiler)

namespace Emit

/-! ## Failures and warnings -/

def refuse {α : Type} (fault : Fault) (range : Span) : Emit α := throw (.fault fault range)

def breach {α : Type} (b : Breach) : Emit α := throw (.breach b)

def mismatch {α : Type} (expected found : Ty) (range : Span) : Emit α :=
  refuse (.mismatch expected found) range

def require {α : Type} (value : Option α) (fault : Fault) (range : Span) : Emit α :=
  match value with
  | some a => return a
  | none => refuse fault range

def warn (d : Diagnostic) : Emit Unit :=
  modify fun s => { s with warnings := s.warnings.push d }

/-! ## Types and names -/

def types : Emit TypeTable := return (← get).types

def modules : Emit ModuleTree := return (← get).modules

/-- Use a type, which gives it a number. -/
def intern (ty : Ty) : Emit Ty := do
  modify fun s => { s with types := s.types.intern ty }
  return ty

def requireSized (ty : Ty) (range : Span) : Emit Unit := do
  unless (← types).isSized ty do refuse (.unsized ty) range

def isAccessible (view : Viewpoint) (vis : Visibility) : Emit Bool :=
  return (← modules).isAccessible vis view

def resolveName (view : Viewpoint) (name : QName) : Emit (Except ResolveError Resolved) :=
  return (← modules).resolve view.module name view

def refuseName {α : Type} (e : ResolveError) : Emit α := refuse (.resolve e) e.range

/-- What a name means; it has to mean something. -/
def resolved (view : Viewpoint) (name : QName) : Emit Resolved := do
  match ← resolveName view name with
  | .ok found => return found
  | .error e => refuseName e

/-- What an entity has become; it has to be ready. -/
def symbolOf (entity : EntityId) (range : Span) : Emit Symbol := do
  let s ← get
  require (s.symbols.lookup entity) (.notReady (s.entities.displayName entity)) range

def setSymbol (entity : EntityId) (symbol : Symbol) : Emit Unit :=
  modify fun s => { s with symbols := (entity, symbol) :: s.symbols }

/-! ## Compile-time frames -/

def frame? : Emit (Option Frame) := return (← get).frames.head?

def frame : Emit Frame := do
  match ← frame? with
  | some f => return f
  | none => breach .outsideCall

/-- Replace the innermost frame. -/
def setFrame (f : Frame) : Emit Unit :=
  modify fun s => { s with frames := f :: s.frames.drop 1 }

def pushFrame (f : Frame) : Emit Unit := modify fun s => { s with frames := f :: s.frames }

def popFrame : Emit Unit := modify fun s => { s with frames := s.frames.drop 1 }

/-! ## Constants -/

/-- A known value in emitted code. -/
def emitted (c : Constant) : Emit Ir.Const := do
  let s ← get
  let (ir, pool) := c.emitted.run ⟨s.types, s.ir⟩
  set { s with types := pool.types, ir := pool.ir }
  return ir

def constant (c : Constant) (range : Span) : Emit Value :=
  return .constant (← emitted c) c range

end Emit

end Staged
