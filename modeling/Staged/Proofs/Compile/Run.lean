/-
  Staged.Proofs.Compile.Run — a compilation from its program to its end.

  Registering a program leads to a coherent state, and every call that succeeds, counted as
  run, leads from a coherent state to a coherent state (`preserves_coherent`). So every
  call of a compilation is made in one.
-/

import Staged.Proofs.Compile.Phase
import Staged.Proofs.Compile.Register
import Staged.Proofs.Schedule.Invariant

namespace Staged

variable {o : Options} {s s' : Compiler} {id : EntityId} {phase : Phase} {site : Site}

structure Compiler.Ready (s : Compiler) : Prop where
  coherent : s.outer.Coherent
  frames : s.frames = []

theorem Compiler.Fresh.ready {code : Core} (h : s.Fresh code) : s.Ready :=
  ⟨h.coherent, h.frames⟩

/-- In the third phase, nothing but third phases is left. -/
theorem settled_of_ahead (ha : (compileHost o).Ahead phase s) (hphase : phase = .three)
    (j : EntityId) (q : Phase) (hq : s.entities.nextPhase? j = some q) : q = .three := by
  have hle := ha j q hq
  rw [hphase] at hle
  cases q <;> first | rfl | cases hle

theorem site_of_due (hs : s.Ready) (hd : (compileHost o).due phase s id = true) :
    ∃ site, s.sites[id]? = some site :=
  Emit.site_of_nextPhase? hs.coherent (Host.due_iff.mp hd).1

/-- What a call comes to that is made when its turn has come. -/
theorem comes_run (hs : s.Ready) (ha : (compileHost o).Ahead phase s)
    (hd : (compileHost o).due phase s id = true) (hsite : s.sites[id]? = some site) :
    Emit.Comes s.outer id phase (s.outer.Moves id site phase) ((compileHost o).run id phase s) :=
  Emit.runPhase_spec o hs.coherent hs.frames hsite (Host.due_iff.mp hd).1 (Host.due_iff.mp hd).2
    (settled_of_ahead ha)

theorem ahead_of_moved (hm : s.outer.Moved s'.outer id) (ha : (compileHost o).Ahead phase s) :
    (compileHost o).Ahead phase s' := by
  intro j q hq
  obtain ⟨e, he, -⟩ := EntityGraph.get?_of_nextPhase? hq
  have hlt : j < s.entities.size := hm.size ▸ EntityGraph.lt_size_of_get? he
  obtain ⟨q₀, hq₀, hle⟩ := hm.later.nextPhase? hlt hq
  exact Phase.le_trans (ha j q₀ hq₀) hle

/-- Every call keeps the state coherent. -/
theorem preserves_ready (o : Options) : (compileHost o).Preserves Compiler.Ready := by
  intro p id s s' hs ha hd hr
  obtain ⟨site, hsite⟩ := site_of_due hs hd
  have hcomes := comes_run hs ha hd hsite
  rw [hr] at hcomes
  obtain ⟨hframes, hmoves⟩ := hcomes
  obtain ⟨hnext, hready⟩ := Host.due_iff.mp hd
  exact ⟨⟨hs.coherent.moves hsite hnext hready hmoves, hframes⟩,
    ahead_of_moved (hs.coherent.moved hsite hnext hmoves) ha⟩

/-! ## Compilations -/

/-- The state that a program is registered in. -/
def Registers (p : Program) (o : Options) (s : Compiler) : Prop :=
  Emit.registerProgram p o (Compiler.ofOptions o) = .ok () s

theorem Registers.fresh {p : Program} (h : Registers p o s) :
    s.Fresh (Compiler.ofOptions o).core ∧ s.outer.Gathered s.modules := by
  have hyields := Emit.yields_registerProgram p o _ (Compiler.fresh_ofOptions o)
  rw [show Emit.registerProgram p o (Compiler.ofOptions o) = _ from h] at hyields
  exact hyields

/-- Once a program is registered, its phases run. -/
theorem compileAction_ok {p : Program} (h : Registers p o s) :
    (compileAction p o).run (Compiler.ofOptions o) = (compileHost o).runPhases s := by
  show EStateM.bind ((Emit.registerProgram p).run o) _ (Compiler.ofOptions o) = _
  unfold EStateM.bind
  rw [show (Emit.registerProgram p).run o (Compiler.ofOptions o) = .ok () s from h]

theorem compileAction_error {p : Program} {f : Failure}
    (h : Emit.registerProgram p o (Compiler.ofOptions o) = .error f s) :
    (compileAction p o).run (Compiler.ofOptions o) = .error f s := by
  show EStateM.bind ((Emit.registerProgram p).run o) _ (Compiler.ofOptions o) = _
  unfold EStateM.bind
  rw [show (Emit.registerProgram p).run o (Compiler.ofOptions o) = .error f s from h]

/-- The states of a compilation: at its start, before and after every call of a phase, and at
its end. -/
def compileStates (p : Program) (o : Options) : List Compiler :=
  let start := Compiler.ofOptions o
  let calls := match Emit.registerProgram p o start with
    | .ok _ s => (compileHost o).trace s
    | .error _ _ => []
  start :: Host.ends calls ++ [((compileAction p o).run start).state]

/-- Where registering and every call go along a relation, the whole compilation does. -/
theorem pairwise_compileStates {p : Program} {Inv : Compiler → Prop}
    {R : Compiler → Compiler → Prop} (hi : (compileHost o).Preserves Inv)
    (hR : (compileHost o).Along Inv R) (hfresh : ∀ s, Registers p o s → Inv s)
    (hregister : R (Compiler.ofOptions o)
      (Emit.registerProgram p o (Compiler.ofOptions o)).state) :
    (compileStates p o).Pairwise R := by
  dsimp only [compileStates]
  cases hr : Emit.registerProgram p o (Compiler.ofOptions o) with
  | error f s =>
    rw [hr] at hregister
    rw [compileAction_error hr]
    exact List.pairwise_pair.mpr hregister
  | ok u s =>
    rw [hr] at hregister
    have hreg : Registers p o s := hr
    have hrun := hi.pairwise hR (hfresh s hreg)
    rw [compileAction_ok hreg]
    obtain ⟨hfirst, hrest⟩ := List.pairwise_cons.mp hrun
    exact List.pairwise_cons.mpr ⟨fun s' hs' => hR.trans hregister (hfirst s' hs'), hrest⟩

/-- What a compilation gives that succeeds is read off the state that its phases end in. -/
theorem compile_output {p : Program} {out : CompileOutput} (h : compile p o = .ok out) :
    ∃ s₀ stats s, Registers p o s₀ ∧ (compileHost o).runPhases s₀ = .ok stats s ∧
      out = ⟨s.ir, s.types, s.modules, s.entities, s.warnings.toList, stats, s.log.toList⟩ := by
  unfold compile at h
  cases hreg : Emit.registerProgram p o (Compiler.ofOptions o) with
  | error f s =>
    rw [compileAction_error hreg] at h
    cases h
  | ok u s₀ =>
    have hreg : Registers p o s₀ := hreg
    rw [compileAction_ok hreg] at h
    cases hr : (compileHost o).runPhases s₀ with
    | error f s =>
      rw [hr] at h
      cases h
    | ok stats s =>
      rw [hr] at h
      cases h
      exact ⟨s₀, stats, s, hreg, hr, rfl⟩

theorem compile_ok {p : Program} {out : CompileOutput} (h : compile p o = .ok out) :
    ∃ s₀ stats s, Registers p o s₀ ∧ (compileHost o).runPhases s₀ = .ok stats s ∧
      out.ir = s.ir := by
  obtain ⟨s₀, stats, s, hreg, hr, rfl⟩ := compile_output h
  exact ⟨s₀, stats, s, hreg, hr, rfl⟩

end Staged
