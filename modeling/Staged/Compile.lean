/-
  Staged.Compile — from a program to code.

  All declarations are registered, and then the scheduler runs every entity through its
  phases. The guard of a declaration is evaluated before its first phase; when it does
  not hold, the declaration is complete without having done anything. Compilation stops
  at the first failure.
-/

import Staged.Declare.Bring
import Staged.Declare.Global
import Staged.Declare.Skill

namespace Staged

namespace Emit

/-- Whether a declaration takes part; a guard that holds declares the name. -/
def guardHolds (view : Viewpoint) (id : EntityId) (site : Site) (phase : Phase) :
    Emit Bool := do
  match site.decl.guard with
  | none => return true
  | some guard =>
    if phase ≠ site.decl.body.kind.firstPhase then return true
    if ← evaluateCondition view guard then
      registerName id site
      return true
    else
      modify fun s => { s with entities := s.entities.modify id Entity.completeNow }
      return false

/-- What an entity does in a phase. -/
def phaseOf (view : Viewpoint) (id : EntityId) (d : EntityDecl) (phase : Phase) : Emit Unit :=
  match d.body, phase with
  | .function f, .one => functionPrototype view id f d.range
  | .function f, _ => functionBody view id f d.range
  | .struct s, .one => structSkeleton view id s
  | .struct s, .two => structLayout view id s
  | .struct s, .three => structBodies view id s
  | .mix m, .one => mixSkeleton view id m
  | .mix m, _ => mixVariants view id m
  | .choice c, _ => choiceType view id c
  | .global g, _ => globalValue view id g
  | .prerunGlobal g, _ => prerunGlobal view id g
  | .prerunFunction f, _ => prerunFunction view id f d.range
  | .typeDef t, .one => typeDefinition view id t
  | .typeDef t, _ => checkTypeDefinition id t
  | .skill s, _ => skillType view id s
  | .doSkill s, .two => donePrototypes view id s
  | .doSkill s, _ => doneBodies view id s
  | .bring b, _ => bring view id b

/-- Run a phase of an entity. -/
def runPhase (id : EntityId) (phase : Phase) : Emit Unit := do
  modify fun s => { s with log := s.log.push (id, phase) }
  let site ← siteOf id
  let view : Viewpoint := { module := site.module }
  if ← guardHolds view id site phase then phaseOf view id site.decl phase

end Emit

/-- The compiler as what the scheduler runs phases on. -/
def compileHost (o : Options) : Host Compiler Failure where
  graph := Compiler.entities
  setGraph s g := { s with entities := g }
  run id phase := (Emit.runPhase id phase).run o
  unresolved _ report := .stuck report

def compileAction (p : Program) (o : Options) : EStateM Failure Compiler Stats := do
  (Emit.registerProgram p).run o
  (compileHost o).runPhases

structure CompileOutput where
  ir : Ir.Module
  types : TypeTable
  modules : ModuleTree
  entities : EntityGraph
  warnings : List Diagnostic
  stats : Stats
  /-- The phases that ran, in order. -/
  log : List (EntityId × Phase)

/-- Why a compilation stopped, as it is told. -/
inductive FailureReport where
  | fatal (diagnostic : Diagnostic)
  | internal (message : String)
  deriving Repr

structure CompileFailure where
  report : FailureReport
  warnings : List Diagnostic
  deriving Repr

def Failure.report (s : Compiler) : Failure → FailureReport
  | fault f range => .fatal (f.diagnostic s.types range)
  | stuck report => .fatal (report.diagnostic s.entities)
  | breach b => .internal ("internal compiler error: " ++ b.message)

def compile (p : Program) (o : Options) : Except CompileFailure CompileOutput :=
  match (compileAction p o).run (Compiler.ofOptions o) with
  | .ok stats s =>
    .ok ⟨s.ir, s.types, s.modules, s.entities, s.warnings.toList, stats, s.log.toList⟩
  | .error f s => .error ⟨f.report s, s.warnings.toList⟩

end Staged
