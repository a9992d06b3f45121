/-
  Staged.Entity.Graph — entities, how far they have come, and what they wait for.

  A dependency asks that another entity be usable in part, or complete, before a given
  phase of the entity that has it. Dependencies on one entity for one phase are merged
  to the stronger request, and nothing depends on itself. A status never goes down.
-/

import Staged.Entity.Kind
import Staged.Module.Visibility

namespace Staged

abbrev EntityId := Nat

inductive Status where
  | pending | partially | complete
  deriving DecidableEq, Repr

def Status.name : Status → String
  | pending => "Pending" | partially => "Partial" | complete => "Complete"

inductive Need where
  | partially | complete
  deriving DecidableEq, Repr

/-- The stronger of two requests. -/
def Need.max : Need → Need → Need
  | .complete, _ | _, .complete => .complete
  | _, _ => .partially

structure Dependency where
  entity : EntityId
  need : Need
  phase : Phase
  deriving DecidableEq, Repr

structure Entity where
  name : Option Ident
  kind : EntityKind
  module : ModId
  status : Status := .pending
  /-- How many phases of its kind are behind it. -/
  done : Nat := 0
  deps : List Dependency := []
  range : Span
  deriving Repr

namespace Entity

def displayName (e : Entity) : String :=
  match e.name with
  | some n => s!"{e.kind.name} `{n.text}`"
  | none => e.kind.name

def nextPhase? (e : Entity) : Option Phase := e.kind.phases[e.done]?

def isFinished (e : Entity) : Bool := e.nextPhase?.isNone

def isComplete (e : Entity) : Bool := e.status == .complete

/-- Merge a dependency into a list. -/
def mergeDep (d : Dependency) : List Dependency → List Dependency
  | [] => [d]
  | x :: rest =>
    if x.entity = d.entity ∧ x.phase = d.phase then { x with need := x.need.max d.need } :: rest
    else x :: mergeDep d rest

/-- Add a dependency to the entity with number `self`. -/
def addDep (self : EntityId) (d : Dependency) (e : Entity) : Entity :=
  if d.entity = self then e else { e with deps := mergeDep d e.deps }

/-- Record that a phase has run. -/
def finish (phase : Phase) (e : Entity) : Entity :=
  let e := if e.nextPhase? = some phase then { e with done := e.done + 1 } else e
  if e.kind.completeAfter.le phase then { e with status := .complete }
  else if e.kind.partialAfter.le phase && e.status == .pending then
    { e with status := .partially }
  else e

/-- Complete an entity without running what is left of it. -/
def completeNow (e : Entity) : Entity :=
  { e with status := .complete, done := e.kind.phases.length }

end Entity

structure EntityGraph where
  entities : Array Entity := #[]
  deriving Repr, Inhabited

namespace EntityGraph

def size (g : EntityGraph) : Nat := g.entities.size

def get? (g : EntityGraph) (id : EntityId) : Option Entity := g.entities[id]?

def add (g : EntityGraph) (name : Option Ident) (kind : EntityKind) (module : ModId)
    (range : Span) : EntityGraph × EntityId :=
  (⟨g.entities.push { name, kind, module, range }⟩, g.entities.size)

def modify (g : EntityGraph) (id : EntityId) (f : Entity → Entity) : EntityGraph :=
  ⟨g.entities.modify id f⟩

def addDep (g : EntityGraph) (id : EntityId) (d : Dependency) : EntityGraph :=
  g.modify id (Entity.addDep id d)

def displayName (g : EntityGraph) (id : EntityId) : String :=
  ((g.get? id).map Entity.displayName).getD ""

/-- Whether what a dependency asks for holds. -/
def isSatisfied (g : EntityGraph) (d : Dependency) : Bool :=
  match (g.get? d.entity).map Entity.status, d.need with
  | some .complete, _ => true
  | some .partially, .partially => true
  | _, _ => false

/-- The dependencies of an entity that have to hold before a phase. -/
def depsFor (g : EntityGraph) (id : EntityId) (phase : Phase) : List Dependency :=
  (((g.get? id).map Entity.deps).getD []).filter (·.phase.le phase)

def unmet (g : EntityGraph) (id : EntityId) (phase : Phase) : List Dependency :=
  (g.depsFor id phase).filter (!g.isSatisfied ·)

def isReady (g : EntityGraph) (id : EntityId) (phase : Phase) : Bool :=
  (g.depsFor id phase).all g.isSatisfied

def nextPhase? (g : EntityGraph) (id : EntityId) : Option Phase :=
  (g.get? id).bind Entity.nextPhase?

def allFinished (g : EntityGraph) : Bool := g.entities.all Entity.isFinished

end EntityGraph

end Staged
