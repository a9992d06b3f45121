/-
  Staged.Proofs.Layouts.Phase — what the phases of a declaration do to the type table.

  A declaration adds a definition that is blank, fills one in, or adds a member to a type
  (`TypeTable.Change`). Each change says what was checked before it: the parts of a definition
  have a size, and a member can be told apart from those its type has. Resolving, evaluating and
  lowering leave the definitions alone. What follows for the parts of types is said by edits
  (`TypeTable.Change.edit`), what follows for their members in `Staged.Proofs.Members.Apart`.

  A phase changes the table, whether it succeeds or fails half way. The second phase of a struct
  or a mix checks every part against the table before it fills the definition in, and finds it
  as the first phase left it (`Compiler.Drafted`). A member is compared with all members its type
  has at that moment, and handed to its home before the next one is worked out
  (`changes_memberPrototypes`).
-/

import Staged.Proofs.Members.Home
import Staged.Proofs.Modules.Naming
import Staged.Proofs.Values.Shape

open Std.Do

namespace Staged

/-! ## Changes -/

namespace TypeTable

variable {t t' : TypeTable}

inductive Change (t : TypeTable) : TypeTable → Prop
  /-- Types are used and skills are added. -/
  | same {t' : TypeTable} (h : t.SameDefinitions t') : Change t t'
  | addStruct {d : StructDef} (hfields : d.fields? = none) (hmembers : d.members = []) :
    Change t (t.addStruct d).1
  | addMix {d : MixDef} (h : d.variants? = none) (hdefault : d.default = none) :
    Change t (t.addMix d).1
  | addChoice {d : ChoiceDef} (h : t.isIntegral d.underlying = true) : Change t (t.addChoice d).1
  | addDone {d : DoneSkill} (h : d.members = []) : Change t (t.addDone d).1
  | setFields {id : Nat} {fields : List FieldDef} (hblank : t.parts? (.struct id) = none)
    (hsized : ∀ f ∈ fields, t.isSized f.type = true) :
    Change t (t.setFields (.struct id) (some fields))
  | setVariants {id : Nat} {variants : List MixVariant} {default : Option Nat}
    (hblank : t.parts? (.mix id) = none)
    (hsized : ∀ v ∈ variants, ∀ ty, v.payload = some ty → t.isSized ty = true)
    (hdefault : ∀ i, default = some i → i < variants.length) :
    Change t (t.modifyMix id fun m => { m with variants? := some variants, default })
  /-- A home of a type is handed a member that clashes with none of the type. -/
  | addMember {m : MemberFunction} {w : Home} (hhome : t.typeAt w = some m.parent)
    (hfree : ∀ m' ∈ t.membersOf m.parent, m'.clashes m = false) : Change t (t.addMember m w)

abbrev Changes : TypeTable → TypeTable → Prop := Relation.ReflTransGen Change

theorem SameDefinitions.changes (h : t.SameDefinitions t') : t.Changes t' := .single (.same h)

theorem sameDefinitions_addSkill (t : TypeTable) (d : SkillDef) :
    t.SameDefinitions (t.addSkill d).1 := ⟨rfl, rfl, rfl, rfl, rfl⟩

/-- Every change is an edit of what types consist of. -/
theorem Change.edit (h : t.Change t') : t.Edit t' := by
  cases h with
  | same h => exact h.edit
  | addStruct h _ => exact .addStruct h
  | addMix h _ => exact .addMix h
  | addChoice h => exact .addChoice h
  | addDone _ => exact t.edit_addDone _
  | setFields hblank hsized => exact .setFields hblank hsized
  | setVariants hblank hsized _ => exact .setVariants hblank hsized
  | addMember _ _ =>
    exact .same (t.sameParts_addMember _ _) (t.pointerWidth_addMember _ _)

theorem Changes.evolves (h : t.Changes t') : t.Evolves t' :=
  h.lift id fun _ _ => Change.edit

theorem Change.hasDefaults (h : t.Change t') (ht : t.HasDefaults) : t'.HasDefaults := by
  have hold (hmixes : t'.mixes = t.mixes) : t'.HasDefaults := by
    unfold HasDefaults
    rw [hmixes]
    exact ht
  cases h with
  | same h => exact hold h.mixes
  | addStruct _ _ | addChoice _ => exact hold (same_intern _ _).mixes
  | addDone _ | setFields _ _ => exact hold rfl
  | @addMember m w _ _ => exact hold (sameParts_addMember t m w).mixes
  | @addMix k _ hdefault =>
    intro d hd i hi
    rw [show (t.addMix k).1.mixes = t.mixes.push k from (same_intern _ _).mixes] at hd
    rcases Array.mem_push.mp hd with hd | rfl
    · exact ht d hd i hi
    · rw [hdefault] at hi
      cases hi
  | @setVariants id variants default _ _ hdefault =>
    intro d hd i hi
    obtain ⟨k, hk, rfl⟩ := Array.getElem_of_mem hd
    have hget : k < t.mixes.size := by simpa [modifyMix] using hk
    simp only [modifyMix, Array.getElem_modify] at hi ⊢
    by_cases heq : id = k
    · rw [if_pos heq] at hi ⊢
      exact hdefault i hi
    · rw [if_neg heq] at hi ⊢
      exact ht _ (Array.getElem_mem hget) i hi

theorem Changes.hasDefaults (h : t.Changes t') (ht : t.HasDefaults) : t'.HasDefaults := by
  induction h with
  | refl => exact ht
  | tail _ hchange ih => exact hchange.hasDefaults ih

end TypeTable

variable {o : Options} {s t : Compiler} {id : EntityId}

/-! ## The setting -/

/-- Whatever is asked for, the type table comes of that of a state by changes. -/
def Compiler.changing (s : Compiler) : TypeSetting where
  outer := s.outer
  frames := (· = [])
  blames _ := True
  code c := s.types.Changes c.types
  code_intern ty h := h.trans (TypeTable.same_intern _ ty).changes
  code_abandon h := h
  code_types ht h := by
    rw [ht]
    exact h
  code_emitted {c c'} k h ht := by
    rw [ht]
    exact h.trans (Data.emits_emitted (E := c.extent) k.type k.data ⟨c.types, c.ir⟩).1.types.changes

namespace Compiler

theorem holds_changing (hs : s.frames = []) : s.changing.Holds s := ⟨rfl, hs, .refl⟩

theorem open_changing (s : Compiler) : s.changing.Open :=
  .of_strays (fun _ _ _ _ _ => trivial) fun _ => trivial

theorem covers_changing (s : Compiler) (view : Viewpoint) (us : List Use) :
    s.changing.CoversAll view us := (open_changing s).coversAll view us

theorem sound_changing (s : Compiler) : s.changing.Sound := (open_changing s).sound

end Compiler

namespace Emit

open Compiler

variable {α β : Type} {a : Emit α} {k : α → Emit β} {Q : α → Prop} {view : Viewpoint}
  {phase : Phase}

/-! ## Rules -/

/-- Both ends of an action have come from the table of a state by changes. -/
theorem changes_of_triple {Q : α → Compiler → Prop} {E : Failure → Compiler → Prop}
    (h : ⦃fun _ s' => ⌜s.changing.Holds s'⌝⦄ a
      ⦃post⟨fun v _ s' => ⌜Q v s'⌝, fun f s' => ⌜E f s'⌝⟩⦄)
    (hQ : ∀ v s', Q v s' → s.types.Changes s'.types)
    (hE : ∀ f s', E f s' → s.types.Changes s'.types) (ht : s.changing.Holds t) :
    s.types.Changes (a o t).state.types :=
  state_of_triple (R := fun s' => s.types.Changes s'.types) h hQ hE ht

theorem changes_of_keeps (h : s.changing.Keeps a) (ht : s.changing.Holds t) :
    s.types.Changes (a o t).state.types :=
  changes_of_triple h (fun _ _ h => h.2.2) (fun _ _ h => h.2.2) ht

theorem changes_of_defines {a : Emit Unit} {Q : Symbol → Prop} (h : s.changing.Defines id a Q)
    (ht : s.changing.Holds t) : s.types.Changes (a o t).state.types :=
  changes_of_triple h (fun _ _ ⟨_, _, h⟩ => h.2.2) (fun _ _ h => h.2.2) ht

theorem changes_of_ignores (h : ∀ t, Ignores t a) (ht : s.types.Changes t.types) :
    s.types.Changes (a o t).state.types := by
  rw [h t.types o t rfl]
  exact ht

theorem changes_bind (ha : s.types.Changes (a o t).state.types)
    (hk : ∀ v u, a o t = .ok v u → s.types.Changes u.types →
      s.types.Changes (k v o u).state.types) :
    s.types.Changes ((a >>= k) o t).state.types := by
  rw [bind_apply]
  cases hr : a o t with
  | ok v u =>
    rw [hr] at ha
    exact hk v u hr ha
  | error f u =>
    rw [hr] at ha
    exact ha

/-- A step that leaves the definitions as they are. -/
theorem changes_ends {n : Nat} (ht : s.definitionGround.Stands n t)
    (ha : s.definitionGround.Ends n a Q)
    (hk : ∀ v u, s.definitionGround.Stands n u → Q v → s.types.Changes (k v o u).state.types) :
    s.types.Changes ((a >>= k) o t).state.types := by
  have hrun := ha o trivial t ht
  refine changes_bind ?_ fun v u hr _ => ?_
  · cases hr : a o t with
    | ok v u =>
      rw [hr] at hrun
      exact TypeTable.SameDefinitions.changes hrun.1.code
    | error f u =>
      rw [hr] at hrun
      exact TypeTable.SameDefinitions.changes hrun.1.code
  · rw [hr] at hrun
    exact hk v u hrun.1 hrun.2

/-- A change after the definitions were left alone. -/
theorem changes_tail {u : Compiler} {n : Nat} {types : TypeTable}
    (hu : s.definitionGround.Stands n u) (h : u.types.Change types) : s.types.Changes types :=
  (TypeTable.SameDefinitions.changes hu.code).tail h

/-! ## Members -/

section

variable {n : Nat} {parent : Ty} {owner : String} {w : Home}

theorem ends_addFunction (f : Ir.Function) :
    s.definitionGround.Ends n (addFunction f) fun _ => True :=
  fun _ _ _ h => ⟨⟨⟨h.outer, h.calls, h.code, trivial⟩, h.frames⟩, trivial⟩

/-- A member that passes the check clashes with none of its type. -/
theorem ends_checkClash_free (m : MemberFunction) :
    s.definitionGround.Ends n (checkClash m) fun _ =>
      ∀ m' ∈ s.types.membersOf m.parent, m'.clashes m = false := by
  refine ends_types.bind fun t ht => ?_
  rw [show t.membersOf m.parent = s.types.membersOf m.parent from
    TypeTable.SameDefinitions.membersOf ht m.parent]
  split
  · exact ends_refuse _ _
  · rename_i hfind
    refine .pure fun m' hm' => Bool.eq_false_iff.mpr ?_
    exact List.find?_eq_none.mp hfind m' hm'

/-- A member that is worked out belongs to its type, and clashes with none of it. -/
theorem ends_memberPrototype (position : Nat) (d : MemberDecl) :
    s.definitionGround.Ends n (memberPrototype view parent owner position d) fun m =>
      m.parent = parent ∧ ∀ m' ∈ s.types.membersOf m.parent, m'.clashes m = false := by
  rw [memberPrototype_eq]
  refine (ends_checkArity _ _ _).bind fun _ _ => (ends_checkUnique _ _).bind fun _ _ => ?_
  refine (ends_mapM (ends_memberArg view _ _) _).bind fun args _ => ?_
  refine (ends_otherArg _ _ _).bind fun other _ => (ends_memberResult _ _ _).bind fun result _ => ?_
  refine (ends_selfTypes _ _).bind fun self _ => (ends_addFunction _).bind fun f _ => ?_
  refine ends_modules.bind fun tree _ => (ends_checkClash_free _).bind fun _ hfree => ?_
  exact .pure ⟨rfl, hfree⟩

/-- Members are declared one after another, each next to those before it. -/
theorem changes_memberPrototypes :
    ∀ (ds : List MemberDecl) (position : Nat) {s : Compiler}, s.frames = [] →
      s.types.typeAt w = some parent → s.types.Changes (memberPrototypes view parent owner
        (fun m => modifyTypes (·.addMember m w)) position ds o s).state.types
  | [], _, _, _, _ => .refl
  | d :: ds, position, s, hf, hhome => by
    refine changes_ends (stands_definitionGround hf) (ends_memberPrototype position d)
      fun m u hu hm => ?_
    obtain ⟨hparent, hfree⟩ := hm
    have hhome' : u.types.typeAt w = some parent := (hu.code.typeAt w).trans hhome
    have hchange : u.types.Change (u.types.addMember m w) := by
      refine .addMember (hparent ▸ hhome') fun m' hm' => hfree m' ?_
      rwa [← hu.code.membersOf m.parent]
    refine (changes_tail hu hchange).trans ?_
    exact changes_memberPrototypes (s := { u with types := u.types.addMember m w }) ds (position + 1)
      (List.eq_nil_of_length_eq_zero hu.calls) ((u.types.typeAt_addMember m w w).trans hhome')

end

/-! ## Structs, mixes and choices -/

theorem changes_structSkeleton (d : StructDecl) (hf : s.frames = []) :
    s.types.Changes (structSkeleton view id d o s).state.types := by
  refine changes_ends (stands_definitionGround hf) (ends_fullNameOf _ _) fun name u hu _ => ?_
  refine changes_ends hu (ends_visibilityOf _ _ _) fun vis u hu _ => ?_
  exact changes_tail hu (.addStruct rfl rfl)

theorem changes_mixSkeleton (d : MixDecl) (hf : s.frames = []) :
    s.types.Changes (mixSkeleton view id d o s).state.types := by
  refine changes_ends (stands_definitionGround hf) (ends_fullNameOf _ _) fun name u hu _ => ?_
  refine changes_ends hu (ends_visibilityOf _ _ _) fun vis u hu _ => ?_
  exact changes_tail hu (.addMix rfl rfl)

theorem changes_structLayout {d : StructDecl} (hf : s.frames = [])
    (hs : s.Drafted id (.struct d) .two) :
    s.types.Changes (structLayout view id d o s).state.types := by
  refine changes_bind (changes_of_keeps (keeps_typeSymbol _ fun _ => trivial) (holds_changing hf))
    fun ty u hty _ => ?_
  obtain ⟨hlookup, hsame⟩ := typeSymbol_ok hty
  rw [hsame]
  cases ty with
  | struct sid =>
    refine changes_ends (stands_definitionGround hf)
      (ends_structFields view (.struct sid) d.name [] d.fields nofun) fun fields u hu hsized => ?_
    have hblank : u.types.parts? (.struct sid) = none :=
      (hu.code.sameParts.parts_eq _).trans (hs.blank rfl _ ⟨_, hlookup, rfl⟩)
    have hchange : u.types.Change (u.types.setFields (.struct sid) (some fields)) :=
      .setFields hblank fun f hf => isSized_of_sized (hsized f hf) hu.code
    refine (changes_tail hu hchange).trans ?_
    -- from here on, only members are added
    have hhome : (u.types.setFields (.struct sid) (some fields)).typeAt (.struct sid) =
        some (.struct sid) := by
      rw [TypeTable.typeAt_setFields]
      exact (TypeTable.SameDefinitions.typeAt hu.code _).trans
        (TypeTable.typeAt_struct (hs.has _ ⟨_, hlookup, rfl⟩))
    exact changes_memberPrototypes (w := .struct sid)
      (s := { u with types := u.types.setFields (.struct sid) (some fields) }) d.members 0
      (List.eq_nil_of_length_eq_zero hu.calls) hhome
  | _ => exact .refl

theorem changes_mixVariants {d : MixDecl} (hf : s.frames = []) (hs : s.Drafted id (.mix d) .two) :
    s.types.Changes (mixVariants view id d o s).state.types := by
  refine changes_bind (changes_of_keeps (keeps_typeSymbol _ fun _ => trivial) (holds_changing hf))
    fun ty u hty _ => ?_
  obtain ⟨hlookup, hsame⟩ := typeSymbol_ok hty
  rw [hsame]
  cases ty with
  | mix mid =>
    refine changes_ends (stands_definitionGround hf)
      (ends_mixVariantList view (.mix mid) d.name [] d.variants nofun)
      fun variants u hu hsized => ?_
    refine changes_ends hu (ends_mixDefault _ _ _) fun default u hu hdefault => ?_
    have hblank : u.types.parts? (.mix mid) = none :=
      (hu.code.sameParts.parts_eq _).trans (hs.blank rfl _ ⟨_, hlookup, rfl⟩)
    have hchange : u.types.Change
        (u.types.modifyMix mid fun m => { m with variants? := some variants, default }) :=
      .setVariants hblank (fun v hv ty hty => isSized_of_sized (hsized v hv ty hty) hu.code)
        hdefault
    exact changes_tail hu hchange
  | _ => exact .refl

theorem changes_choiceType {d : ChoiceDecl} (hf : s.frames = []) :
    s.types.Changes (choiceType view id d o s).state.types := by
  refine changes_ends (stands_definitionGround hf) (ends_choiceUnderlying view _)
    fun written u hu hwritten => ?_
  refine changes_ends hu (ends_mapM (ends_writtenNumber view _) _) fun numbers u hu _ => ?_
  refine changes_ends hu (ends_checkUnique _ _) fun _ u hu _ => ?_
  dsimp only
  cases firstDuplicate? ((numberVariants numbers).zip
      (d.variants.map ChoiceVariantDecl.name)) with
  | some dup => exact TypeTable.SameDefinitions.changes hu.code
  | none =>
    refine changes_ends hu (ends_numberType _ _ _ hwritten) fun underlying u hu hunderlying => ?_
    refine changes_ends hu (ends_choiceDefault _) fun default u hu _ => ?_
    refine changes_ends hu (ends_fullNameOf _ _) fun name u hu _ => ?_
    refine changes_ends hu (ends_visibilityOf _ _ _) fun vis u hu _ => ?_
    refine changes_tail hu (.addChoice ?_)
    obtain ⟨t, ht⟩ := hunderlying
    exact (t.isIntegral_table u.types underlying).trans ht

/-! ## Implementations of skills -/

theorem ignores_types {table : TypeTable} : Ignores table types := fun _ _ hs => hs

theorem ignores_checkProvided {table : TypeTable} (skill : SkillDef) (target : Ty)
    (members : List MemberFunction) (range : Span) :
    ∀ ps : List SkillPrototype, Ignores table (checkProvided skill target members range ps)
  | [] => ignores_pure _
  | p :: ps => by
    have hrest : Ignores table _ := ignores_checkProvided skill target members range ps
    unfold checkProvided
    split
    · exact ignores_refuse _ _
    · dsimp only
      split
      · exact hrest
      · exact (ignores_refuse _ _).bind fun _ => hrest

theorem changes_donePrototypes (d : DoSkillDecl) (hf : s.frames = []) :
    s.types.Changes (donePrototypes view id d o s).state.types := by
  refine changes_ends (stands_definitionGround hf) (ends_skillTarget view d) fun target u hu _ => ?_
  refine changes_ends hu (ends_skillNamed view _) fun skillId u hu _ => ?_
  have hadd : s.types.Changes
      (u.types.addDone ⟨skillId, target, view.module, [], d.range⟩).1 :=
    changes_tail hu (.addDone rfl)
  have hhome := u.types.typeAt_addDone ⟨skillId, target, view.module, [], d.range⟩
  have hframes : u.frames = [] := List.eq_nil_of_length_eq_zero hu.calls
  refine changes_bind hadd fun done v hv _ => ?_
  cases hv
  refine changes_bind hadd fun _ v hv _ => ?_
  cases hv
  refine changes_bind hadd fun t v hv _ => ?_
  cases hv
  refine changes_bind (hadd.trans (changes_memberPrototypes (s := { u with
    types := (u.types.addDone ⟨skillId, target, view.module, [], d.range⟩).1
    symbols := (id, .doneSkill u.types.done.size) :: u.symbols }) d.members 0 hframes hhome))
    fun _ v _ hv => ?_
  refine changes_of_ignores (fun _ => ?_) hv
  split
  · exact ignores_types.bind fun _ => ignores_checkProvided _ _ _ _ _
  · exact ignores_pure _

/-! ## Every phase -/

theorem changes_phaseOf {d : EntityDecl} (hf : s.frames = []) (hs : s.Drafted id d.body phase)
    (hphase : phase ∈ d.body.kind.phases) :
    s.types.Changes (phaseOf view id d phase o s).state.types := by
  have hholds := holds_changing hf
  have hsound := sound_changing s
  have hopen := open_changing s
  have hcovers := covers_changing s
  have hid : s.changing.outer.symbols.lookup id = none → s.changing.blames id := fun _ => trivial
  unfold phaseOf
  cases hd : d.body with
  | function f =>
    cases phase with
    | one =>
      exact changes_of_defines (defines_functionPrototype _ hsound
        (hcovers _ (argsUses .partially .one f.args)) (hcovers _ _)) hholds
    | two | three => exact changes_of_keeps (keeps_functionBody view f _ hopen (fun _ => trivial) hid) hholds
  | struct f =>
    rw [hd] at hs
    cases phase with
    | one => exact changes_structSkeleton f hf
    | two => exact changes_structLayout hf hs
    | three => exact changes_of_keeps (keeps_structBodies view f hopen (fun _ => trivial) hid) hholds
  | mix m =>
    rw [hd] at hs hphase
    cases phase with
    | one => exact changes_mixSkeleton m hf
    | two => exact changes_mixVariants hf hs
    | three => exact absurd hphase (show Phase.three ∉ [.one, .two] by decide)
  | choice c => exact changes_choiceType hf
  | global g =>
    exact changes_of_defines (defines_globalValue hsound
      (hcovers _ (typeUses .complete .one g.type)) (hcovers _ _)) hholds
  | prerunGlobal g =>
    exact changes_of_defines (defines_prerunGlobal hsound
      (hcovers _ (typeUses .complete .one g.type)) (hcovers _ _)) hholds
  | prerunFunction f =>
    exact changes_of_defines (defines_prerunFunction _ hsound
      (hcovers _ (argsUses .complete .one f.args)) (hcovers _ _)) hholds
  | typeDef f =>
    cases phase with
    | one =>
      exact changes_of_defines (defines_typeDefinition hsound
        (hcovers _ (f.type.uses .one [] .partially))) hholds
    | two | three => exact changes_of_keeps (keeps_checkTypeDefinition f hid) hholds
  | skill f =>
    refine changes_of_defines (defines_skillType hsound
      (fun p _ => hcovers _ (argsUses .partially .one p.args ++ _)) fun k c h => ?_) hholds
    exact h.trans (c.types.sameDefinitions_addSkill k).changes
  | doSkill f =>
    cases phase with
    | two =>
      exact changes_donePrototypes f hf
    | one | three => exact changes_of_keeps (keeps_doneBodies view f hopen (fun _ => trivial) hid) hholds
  | bring f => exact changes_of_ignores (fun _ => ignores_bring _ _ _) .refl

/-! ## Guards -/

theorem changes_guardHolds {site : Site} (hf : s.frames = []) :
    s.types.Changes (guardHolds view id site phase o s).state.types := by
  by_cases hlater : site.decl.guard = none ∨ phase ≠ site.decl.body.kind.firstPhase
  · rw [guardHolds_later _ o s hlater]
    exact .refl
  · simp only [not_or, ne_eq, not_not] at hlater
    obtain ⟨hguard, rfl⟩ := hlater
    obtain ⟨g, hg⟩ := Option.ne_none_iff_exists'.mp hguard
    have hcondition := @changes_of_keeps o s s Bool _ (keeps_evaluateCondition
      (sound_changing s) (covers_changing s view (g.uses .one []))) (holds_changing hf)
    rw [guardHolds_first _ o s hg]
    cases hr : evaluateCondition view g o s with
    | error f u =>
      rw [hr] at hcondition
      exact hcondition
    | ok b u =>
      rw [hr] at hcondition
      cases b with
      | false => exact hcondition
      | true =>
        have hname := @changes_of_ignores o s u Unit _ (fun _ => ignores_registerName id site)
          hcondition
        dsimp only
        cases hreg : registerName id site o u <;> rw [hreg] at hname <;> exact hname

/-- A phase changes the table, its guard included, and whether it succeeds or not. -/
theorem changes_runPhase {site : Site} (hω : s.outer.Coherent) (hf : s.frames = [])
    (hsite : s.sites[id]? = some site) (hnext : s.entities.nextPhase? id = some phase)
    (hready : s.entities.isReady id phase = true) (hwhole : s.Whole)
    (hs : s.Drafted id site.decl.body phase) :
    s.types.Changes (runPhase id phase o s).state.types := by
  have hguard := @changes_guardHolds o { s with log := s.log.push (id, phase) } id
    { module := site.module } phase site hf
  rw [runPhase_eq o hsite]
  cases hg : guardHolds { module := site.module } id site phase o
      { s with log := s.log.push (id, phase) } with
  | error f u =>
    rw [hg] at hguard
    exact hguard
  | ok b u =>
    have hpasses := passes_guarded hwhole hg
    have hspec := @guardHolds_spec s.outer id phase site (s.log.push (id, phase)) o
      { s with log := s.log.push (id, phase) } hω hsite hready ⟨rfl, hf⟩
    rw [hg] at hguard hspec
    cases b with
    | false => exact hguard
    | true =>
      obtain ⟨-, -, -, -, hframes⟩ := hspec
      obtain ⟨e, he, hp⟩ := EntityGraph.get?_of_nextPhase? hnext
      have hphase : phase ∈ site.decl.body.kind.phases := by
        rw [← hω.kind id site e hsite he]
        exact List.mem_of_getElem? hp
      exact hguard.trans (changes_phaseOf hframes (hs.after hpasses) hphase)

end Emit

end Staged
