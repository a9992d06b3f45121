/-
  Staged.Proofs.Compile.Closed — the compiler as a host of the scheduler.

  What is proved of every run of the phases is proved of hosts whose calls only edit the
  graph and add no entities (`Host.Closed`). The compiler is such a host (`closed_compileHost`),
  in whatever state it is called and whether or not the call succeeds. For lowering touches
  neither the modules nor the graph; a guard that does not hold completes its declaration, one
  that holds declares its name; and a bring brings names and makes the declarations that
  waited for it ask again. So a call ends no fact about modules and graph that bringing names
  does not end (`Emit.maintains_runPhase`).
-/

import Staged.Proofs.Lowering.Declare
import Staged.Proofs.Modules.Naming
import Staged.Proofs.Schedule.Outcome

set_option mvcgen.warning false

namespace Staged

def FreeSetting.lax (outer : Outer) : FreeSetting where
  outer := outer
  frames _ := True
  blames _ := True
  code _ := True
  code_intern _ _ := trivial
  code_abandon _ := trivial
  code_types _ _ := trivial
  code_emitted _ _ _ := trivial
  code_all _ := trivial

theorem FreeSetting.lax_open (outer : Outer) : (lax outer).Open :=
  .of_strays (fun _ _ _ _ _ => trivial) fun _ => trivial

structure Compiler.Enduring (P : Compiler → Prop) : Prop extends Compiler.Standing P where
  only : ∀ {s s' : Compiler}, P s → s'.modules = s.modules → s'.entities = s.entities →
    s'.log = s.log → P s'

/-- Entities come of a graph by edits, and none is added. -/
theorem Compiler.enduring_edits (g : EntityGraph) :
    Compiler.Enduring fun s => Edits g s.entities ∧ s.entities.size = g.size where
  tree h _ := h
  rest h hedits hsize := ⟨h.1.trans hedits, hsize.trans h.2⟩
  only h _ hentities _ := by
    rw [hentities]
    exact h

theorem Compiler.enduring_changes (t : ModuleTree) :
    Compiler.Enduring fun s => t.Changes s.modules where
  toStanding := (Compiler.lasting_changes t).standing
  only h hmodules _ _ := by
    rw [hmodules]
    exact h

theorem Compiler.enduring_log (log : Array (EntityId × Phase)) :
    Compiler.Enduring fun s => s.log = log where
  tree h _ := h
  rest h _ _ := h
  only h _ _ hlog := hlog.trans h

namespace Emit

variable {α : Type} {P : Compiler → Prop}

section

variable (hP : Compiler.Enduring P)
include hP

/-- Lowering ends no such fact. -/
theorem maintains_of_keeps {a : Emit α} (h : ∀ outer, (FreeSetting.lax outer).Keeps a) :
    Maintains P a := by
  intro o s hs
  have hlast {s' : Compiler} (ho : s'.outer = s.outer) : P s' :=
    hP.only hs (congrArg Outer.modules ho) (congrArg Outer.entities ho) (congrArg Outer.log ho)
  exact state_of_triple (h s.outer) (fun _ _ h => hlast h.1) (fun _ _ h => hlast h.1)
    ⟨rfl, trivial, trivial⟩

/-- Nor does giving an entity its symbol. -/
theorem maintains_of_defines {id : EntityId} {a : Emit Unit} {Q : Symbol → Prop}
    (h : ∀ outer, (FreeSetting.lax outer).Defines id a Q) : Maintains P a := by
  intro o s hs
  refine state_of_triple (h s.outer) (fun _ _ ⟨_, _, h⟩ => ?_) (fun _ _ h => ?_)
    ⟨rfl, trivial, trivial⟩
  · exact hP.only hs (congrArg Outer.modules h.1) (congrArg Outer.entities h.1)
      (congrArg Outer.log h.1)
  · exact hP.only hs (congrArg Outer.modules h.1) (congrArg Outer.entities h.1)
      (congrArg Outer.log h.1)

variable (view : Viewpoint) (id : EntityId)

/-- The members of an implementation are declared once it has its symbol. -/
theorem maintains_donePrototypes (d : DoSkillDecl) : Maintains P (donePrototypes view id d) := by
  have hopen (outer : Outer) := FreeSetting.lax_open outer
  have hadd (done : DoneSkillId) (m : MemberFunction) (outer : Outer) :
      (FreeSetting.lax outer).Keeps
        (modifyTypes (·.modifyDone done fun s => { s with members := s.members ++ [m] })) :=
    keeps_modifyTypes fun _ _ => trivial
  unfold donePrototypes
  refine (maintains_of_keeps hP fun outer => keeps_skillTarget (hopen outer).sound
    ((hopen outer).coversAll _ (d.target.uses .two [] .complete))).bind fun target => ?_
  refine (maintains_of_keeps hP fun outer => keeps_skillNamed ((hopen outer).coversAll _
    ((d.skill.map (·.uses .two [] .complete)).getD []))).bind fun skillId => ?_
  refine Maintains.bind (fun _ _ hs => hP.only hs rfl rfl rfl) fun done => ?_
  refine Maintains.bind (maintains_modify fun _ hs => hP.only hs rfl rfl rfl) fun _ => ?_
  refine maintains_of_keeps hP fun outer => ?_
  have hmembers (owner : String) := keeps_memberPrototypes target owner (hopen outer).sound
    (fun m => hadd done m outer) 0 d.members fun m _ =>
      (hopen outer).coversAll { view with memberOf := some target }
        (argsUses .partially .two m.args ++ typeUses .partially .two m.result)
  mvcgen [hmembers, keeps_checkProvided]

/-- Nor does anything that a phase does. -/
theorem maintains_phaseOf (d : EntityDecl) (phase : Phase) :
    Maintains P (phaseOf view id d phase) := by
  have hopen (outer : Outer) := FreeSetting.lax_open outer
  have hw (outer : Outer) := (hopen outer).sound
  have hu (outer : Outer) {view : Viewpoint} (us : List Use) := (hopen outer).coversAll view us
  have hid (outer : Outer) : (FreeSetting.lax outer).outer.symbols.lookup id = none →
      (FreeSetting.lax outer).blames id := fun _ => trivial
  have hstrays (outer : Outer) (e : Failure) : (FreeSetting.lax outer).strays e := trivial
  obtain ⟨body, guard, range⟩ := d
  cases body with
  | function f =>
    have hbody : Maintains P (functionBody view id f range) := maintains_of_keeps hP fun outer =>
      keeps_functionBody view f range (hopen outer) (hstrays outer) (hid outer)
    cases phase with
    | one =>
      exact maintains_of_defines hP fun outer => defines_functionPrototype range (hw outer)
        (hu outer (argsUses .partially .one f.args)) (hu outer (typeUses .partially .one f.result))
    | two | three => exact hbody
  | struct s =>
    cases phase with
    | one =>
      exact maintains_of_defines hP fun outer =>
        defines_structSkeleton view id s fun _ _ _ _ => trivial
    | two =>
      exact maintains_of_keeps hP fun outer => keeps_structLayout (hw outer) (hid outer)
        (fun f _ => hu outer (f.type.uses .two [] .complete)) fun _ m _ =>
          hu outer (argsUses .partially .two m.args ++ typeUses .partially .two m.result)
    | three =>
      exact maintains_of_keeps hP fun outer =>
        keeps_structBodies view s (hopen outer) (hstrays outer) (hid outer)
  | mix m =>
    have hvariants : Maintains P (mixVariants view id m) := maintains_of_keeps hP fun outer =>
      keeps_mixVariants (hw outer) (hid outer) fun v _ =>
        hu outer (typeUses .complete .two v.payload)
    cases phase with
    | one =>
      exact maintains_of_defines hP fun outer =>
        defines_mixSkeleton view id m fun _ _ _ _ => trivial
    | two | three => exact hvariants
  | choice c =>
    exact maintains_of_defines hP fun outer => defines_choiceType (hw outer)
      (hu outer (typeUses .complete .one c.underlying)) fun v _ =>
        hu outer (optionUses .one [] v.value)
  | global g =>
    exact maintains_of_defines hP fun outer => defines_globalValue (hw outer)
      (hu outer (typeUses .complete .two g.type)) (hu outer (g.value.uses .two []))
  | prerunGlobal g =>
    exact maintains_of_defines hP fun outer => defines_prerunGlobal (hw outer)
      (hu outer (typeUses .complete .one g.type)) (hu outer (g.value.uses .one []))
  | prerunFunction f =>
    exact maintains_of_defines hP fun outer => defines_prerunFunction range (hw outer)
      (hu outer (argsUses .complete .one f.args)) (hu outer (typeUses .complete .one f.result))
  | typeDef t =>
    have hcheck : Maintains P (checkTypeDefinition id t) := maintains_of_keeps hP fun outer =>
      keeps_checkTypeDefinition t (hid outer)
    cases phase with
    | one =>
      exact maintains_of_defines hP fun outer => defines_typeDefinition (hw outer)
        (hu outer (t.type.uses .one [] .partially))
    | two | three => exact hcheck
  | skill s =>
    exact maintains_of_defines hP fun outer => defines_skillType (hw outer)
      (fun p _ => hu outer (argsUses .partially .one p.args ++ typeUses .partially .one p.result))
      fun _ _ _ => trivial
  | doSkill s =>
    have hbodies : Maintains P (doneBodies view id s) := maintains_of_keeps hP fun outer =>
      keeps_doneBodies view s (hopen outer) (hstrays outer) (hid outer)
    cases phase with
    | two => exact maintains_donePrototypes hP view id s
    | one | three => exact hbodies
  | bring b => exact maintains_bring hP.toStanding view id b

/-- A guard declares the name, or completes the declaration. -/
theorem maintains_guardHolds (site : Site) (phase : Phase) :
    Maintains P (guardHolds view id site phase) := by
  unfold guardHolds
  split
  · exact maintains_pure true
  · split
    · exact maintains_pure true
    · refine (maintains_of_keeps hP fun outer => keeps_evaluateCondition
        (FreeSetting.lax_open outer).sound
        ((FreeSetting.lax_open outer).coversAll _ (Expr.uses .one [] _))).bind fun b => ?_
      split
      · exact (maintains_registerName hP.toTreeSafe id site).bind fun _ => maintains_pure true
      · refine Maintains.bind (maintains_modify fun s hs => ?_) fun _ => maintains_pure false
        exact hP.rest hs (.single (.complete s.entities id)) (EntityGraph.size_modify ..)

/-- A call for a phase is logged, and ends no such fact. -/
theorem maintains_runPhase {o : Options} {s : Compiler} {phase : Phase}
    (hs : P { s with log := s.log.push (id, phase) }) : P (runPhase id phase o s).state := by
  have hrest : Maintains P (do
      let site ← siteOf id
      let view : Viewpoint := { module := site.module }
      if ← guardHolds view id site phase then phaseOf view id site.decl phase) := by
    refine (maintains_siteOf id).bind fun site =>
      (maintains_guardHolds hP _ id site phase).bind fun b => ?_
    split
    · exact maintains_phaseOf hP _ id site.decl phase
    · exact maintains_pure _
  exact hrest o _ hs

end

/-- Every call for a phase is logged, and nothing else is. -/
theorem log_runPhase (id : EntityId) (phase : Phase) (o : Options) (s : Compiler) :
    (runPhase id phase o s).state.log = s.log.push (id, phase) :=
  maintains_runPhase (Compiler.enduring_log _) id rfl

end Emit

/-- The compiler is a closed host. -/
theorem closed_compileHost (o : Options) : (compileHost o).Closed := by
  have hrun (id : EntityId) (phase : Phase) (s : Compiler) :=
    @Emit.maintains_runPhase _ (Compiler.enduring_edits s.entities) id o s phase ⟨.refl, rfl⟩
  exact ⟨⟨fun _ _ => rfl, fun id phase s => (hrun id phase s).1⟩, fun id phase s =>
    (hrun id phase s).2⟩

end Staged
