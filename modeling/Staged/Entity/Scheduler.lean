/-
  Staged.Entity.Scheduler — running every entity through its phases.

  Phases run one after the other. Within a phase, passes go over the entities in order
  and run each one whose next phase this is and whose dependencies hold; what a run
  changes is seen by the entities after it in the same pass. A pass that runs nothing
  ends the phase. Entities that should have run by then are stuck, and the report names
  what each of them misses and a cycle among them if there is one.

  What a phase does is up to a host, which may add dependencies, complete entities and
  add a bounded number of entities. Every pass but the last of a phase runs an entity,
  and none runs the same phase twice, so the number of entities bounds the passes.
-/

import Staged.Entity.Graph

namespace Staged

structure Stuck where
  id : EntityId
  name : String
  kind : EntityKind
  phase : Phase
  missing : List Dependency
  range : Span
  deriving Repr

structure StuckReport where
  phase : Phase
  stuck : List Stuck
  cycle : Option (List EntityId)
  deriving Repr

def StuckReport.contains (r : StuckReport) (id : EntityId) : Bool := r.stuck.any (·.id == id)

/-! ## Cycles -/

/-- Visit a node after the nodes of `path`, innermost first. Fails with the cycle that
the node closes; otherwise gives the nodes from which no cycle can be reached. -/
def visitForCycle (waitsOn : EntityId → List EntityId) :
    Nat → List EntityId → List EntityId → EntityId → Except (List EntityId) (List EntityId)
  | 0, _, finished, _ => .ok finished
  | depth + 1, path, finished, node =>
    if node ∈ path then .error (node :: (path.takeWhile (· != node)).reverse)
    else if node ∈ finished then .ok finished
    else do
      let finished ← (waitsOn node).foldlM (visitForCycle waitsOn depth (node :: path)) finished
      .ok (node :: finished)

/-- The entities that a stuck entity misses. -/
def waitsOn (stuck : List Stuck) (id : EntityId) : List EntityId :=
  match stuck.find? (·.id == id) with
  | some s => s.missing.map Dependency.entity
  | none => []

/-- A cycle of missing dependencies among the stuck entities, the first in order. -/
def findCycle? (stuck : List Stuck) : Option (List EntityId) :=
  match (stuck.map Stuck.id).foldlM (visitForCycle (waitsOn stuck) (stuck.length + 1) []) [] with
  | .error cycle => some cycle
  | .ok _ => none

def EntityGraph.stuckReport (g : EntityGraph) (phase : Phase) : StuckReport :=
  let stuck := g.entities.toList.zipIdx.filterMap fun (e, id) =>
    match e.nextPhase? with
    | some p =>
      if p.le phase then some ⟨id, e.displayName, e.kind, p, g.unmet id p, e.range⟩ else none
    | none => none
  ⟨phase, stuck, findCycle? stuck⟩

/-! ## Running -/

/-- What runs the phases: a state that holds the graph, and an action per phase. -/
structure Host (σ ε : Type) where
  graph : σ → EntityGraph
  setGraph : σ → EntityGraph → σ
  run : EntityId → Phase → EStateM ε σ Unit
  /-- The error for entities that are stuck. -/
  unresolved : σ → StuckReport → ε
  /-- The most entities that the runs may add. -/
  adds : Nat := 0

structure Stats where
  passes : Nat := 0
  phaseRuns : Nat := 0
  deriving DecidableEq, Repr

/-- How far a run has come: the state of the host, and what was counted on the way. -/
structure Progress (σ : Type) where
  host : σ
  stats : Stats := {}

namespace Host

variable {σ ε : Type} (h : Host σ ε)

/-- An action of the host within a run. -/
def atHost {α : Type} (a : EStateM ε σ α) : EStateM ε (Progress σ) α := fun r =>
  match a r.host with
  | .ok v s => .ok v { r with host := s }
  | .error e s => .error e { r with host := s }

/-- Whether the turn of an entity has come. -/
def due (phase : Phase) (s : σ) (id : EntityId) : Bool :=
  (h.graph s).nextPhase? id = some phase && (h.graph s).isReady id phase

/-- The state in which the phase of an entity counts as run. -/
def finished (phase : Phase) (id : EntityId) (s : σ) : σ :=
  h.setGraph s ((h.graph s).modify id (Entity.finish phase))

/-- Run an entity's phase if its turn has come; says whether it did. -/
def step (phase : Phase) (id : EntityId) : EStateM ε (Progress σ) Bool := do
  if h.due phase (← get).host id then
    atHost (h.run id phase)
    modify fun r =>
      { host := h.finished phase id r.host
        stats := { r.stats with phaseRuns := r.stats.phaseRuns + 1 } }
    return true
  else return false

/-- One pass over the given entities; gives how many ran. -/
def pass (phase : Phase) : List EntityId → EStateM ε (Progress σ) Nat
  | [] => return 0
  | id :: rest => do
    let ran ← h.step phase id
    let more ← pass phase rest
    return more + ran.toNat

/-- Passes over all entities until one runs nothing. -/
def passes (phase : Phase) : Nat → EStateM ε (Progress σ) Unit
  | 0 => return
  | fuel + 1 => do
    modify fun r => { r with stats := { r.stats with passes := r.stats.passes + 1 } }
    let size := (h.graph (← get).host).size
    let ran ← h.pass phase (List.range size)
    if ran = 0 then return else passes phase fuel

def runPhase (phase : Phase) : EStateM ε (Progress σ) Unit := do
  let size := (h.graph (← get).host).size
  h.passes phase (size + h.adds + 1)
  let s := (← get).host
  let report := (h.graph s).stuckReport phase
  if report.stuck.isEmpty then return else throw (h.unresolved s report)

/-- Run every phase of every entity, counting. -/
def runAll : EStateM ε (Progress σ) Unit := Phase.all.forM h.runPhase

/-- Run every phase of every entity. -/
def runPhases : EStateM ε σ Stats := fun s =>
  match h.runAll ⟨s, {}⟩ with
  | .ok _ r => .ok r.stats r.host
  | .error e r => .error e r.host

end Host

end Staged
