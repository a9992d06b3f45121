/-
  Staged.Proofs.Typing.Phase — every phase leaves types that fit.

  What a phase resolves, evaluates and lowers stays on the ground of the state it begins
  in, and what it declares is added to that. The fields of a struct and the variants of a
  mix are set when nothing was known of them (`Compiler.Drafted`), so values that were
  known to be solid still are.
-/

import Staged.Proofs.Halting.Phase
import Staged.Proofs.Typing.Declare

namespace Staged

namespace Emit

variable {o : Options} {s s' : Compiler} {view : Viewpoint} {id : EntityId} {u : Unit}
  {phase : Phase}

/-! ## Definitions of types -/

theorem typed_structSkeleton {d : StructDecl} (h : s.Typed)
    (hr : structSkeleton view id d o s = .ok u s') : s'.Typed := by
  obtain ⟨name, t, ht, -, hr⟩ := Compiler.stands_bind h.stands (ends_fullNameOf _ _) hr
  obtain ⟨vis, t, ht, -, hr⟩ := Compiler.stands_bind ht (ends_visibilityOf _ _ _) hr
  cases hr
  exact (h.of_stands ht).define (TypeTable.retains_addStruct _ _)
    (TypeTable.membersOf_addStruct rfl) (Symbol.typed_of_value rfl)

theorem typed_mixSkeleton {d : MixDecl} (h : s.Typed)
    (hr : mixSkeleton view id d o s = .ok u s') : s'.Typed := by
  obtain ⟨name, t, ht, -, hr⟩ := Compiler.stands_bind h.stands (ends_fullNameOf _ _) hr
  obtain ⟨vis, t, ht, -, hr⟩ := Compiler.stands_bind ht (ends_visibilityOf _ _ _) hr
  cases hr
  exact (h.of_stands ht).define (TypeTable.retains_addMix _ _) (TypeTable.membersOf_addMix _)
    (Symbol.typed_of_value rfl)

theorem typed_structLayout {d : StructDecl} (h : s.Typed) (hs : s.Drafted id (.struct d) .two)
    (hr : structLayout view id d o s = .ok u s') : s'.Typed := by
  obtain ⟨ty, t, hty, hr⟩ := bind_ok hr
  obtain ⟨hlookup, rfl⟩ := typeSymbol_ok hty
  cases ty with
  | struct sid =>
    have hdefines : t.Defines id (.struct d) (.struct sid) := ⟨_, hlookup, rfl⟩
    obtain ⟨fields, t₁, ht, -, hrest⟩ := Compiler.stands_bind h.stands
      (ends_structFields _ _ _ [] _ nofun) hr
    have hsame : t.types.SameDefinitions t₁.types := ht.code.types
    have hblank : t₁.types.parts? (.struct sid) = none :=
      (hsame.sameParts.parts_eq _).trans (hs.blank rfl _ hdefines)
    have hset : Compiler.Typed
        { t₁ with types := t₁.types.setFields (.struct sid) (some fields) } :=
      (h.of_stands ht).retype (TypeTable.retains_setFields hblank)
        (TypeTable.membersOf_setFields sid _)
    obtain ⟨u₁, t₂, hmodify, hr⟩ := bind_ok hrest
    cases hmodify
    obtain ⟨types, t₂, htypes, hr⟩ := bind_ok hr
    cases htypes
    refine typed_memberPrototypes (w := .struct sid) rfl hset ?_ hr
    obtain ⟨d', hd'⟩ : ∃ d', t.types.structs[sid]? = some d' :=
      ⟨_, Array.getElem?_eq_getElem (hs.has _ hdefines)⟩
    refine (TypeTable.typeAt_setFields sid (some fields) (.struct sid)).trans ?_
    exact (hsame.typeAt (.struct sid)).trans (congrArg (Option.map _) hd')
  | _ => cases hr

theorem typed_mixVariants {d : MixDecl} (h : s.Typed) (hs : s.Drafted id (.mix d) .two)
    (hr : mixVariants view id d o s = .ok u s') : s'.Typed := by
  obtain ⟨ty, t, hty, hr⟩ := bind_ok hr
  obtain ⟨hlookup, rfl⟩ := typeSymbol_ok hty
  cases ty with
  | mix mid =>
    obtain ⟨variants, t₁, ht, -, hr⟩ := Compiler.stands_bind h.stands
      (ends_mixVariantList view _ _ [] _ nofun) hr
    obtain ⟨default, t₁, ht, -, hr⟩ := Compiler.stands_bind ht (ends_mixDefault _ _ _) hr
    cases hr
    have hsame : t.types.SameDefinitions t₁.types := ht.code.types
    have hblank : t₁.types.parts? (.mix mid) = none :=
      (hsame.sameParts.parts_eq _).trans (hs.blank rfl _ ⟨_, hlookup, rfl⟩)
    exact (h.of_stands ht).retype (TypeTable.retains_modifyMix hblank) fun _ => rfl
  | _ => cases hr

theorem typed_choiceType {d : ChoiceDecl} (h : s.Typed)
    (hr : choiceType view id d o s = .ok u s') : s'.Typed := by
  obtain ⟨written, t, ht, hwritten, hr⟩ := Compiler.stands_bind h.stands
    (ends_choiceUnderlying view _) hr
  obtain ⟨numbers, t, ht, -, hr⟩ := Compiler.stands_bind ht
    (ends_mapM (ends_writtenNumber view _) _) hr
  obtain ⟨-, t, ht, -, hr⟩ := Compiler.stands_bind ht (ends_checkUnique _ _) hr
  dsimp only at hr
  cases hdup : firstDuplicate? ((numberVariants numbers).zip
      (d.variants.map ChoiceVariantDecl.name)) with
  | some dup =>
    rw [hdup] at hr
    cases hr
  | none =>
    rw [hdup] at hr
    obtain ⟨underlying, t, ht, -, hr⟩ := Compiler.stands_bind ht (ends_numberType _ _ _ hwritten) hr
    obtain ⟨default, t, ht, -, hr⟩ := Compiler.stands_bind ht (ends_choiceDefault _) hr
    obtain ⟨name, t, ht, -, hr⟩ := Compiler.stands_bind ht (ends_fullNameOf _ _) hr
    obtain ⟨vis, t, ht, -, hr⟩ := Compiler.stands_bind ht (ends_visibilityOf _ _ _) hr
    cases hr
    exact (h.of_stands ht).define (TypeTable.retains_addChoice _ _)
      (TypeTable.membersOf_addChoice _) (Symbol.typed_of_value rfl)

theorem typed_typeDefinition {d : TypeDecl} (h : s.Typed)
    (hr : typeDefinition view id d o s = .ok u s') : s'.Typed := by
  obtain ⟨ty, t, ht, -, hr⟩ := Compiler.stands_bind h.stands (ends_resolveType view _) hr
  cases hr
  exact (h.of_stands ht).setSymbol (Symbol.typed_of_value rfl)

theorem typed_checkTypeDefinition {d : TypeDecl} (h : s.Typed)
    (hr : checkTypeDefinition id d o s = .ok u s') : s'.Typed := by
  obtain ⟨ty, t, hty, hend⟩ := bind_ok hr
  obtain ⟨-, rfl⟩ := typeSymbol_ok hty
  cases hend
  exact h

/-! ## Values -/

theorem typed_globalValue {d : GlobalDecl} (h : s.Typed)
    (hr : globalValue view id d o s = .ok u s') : s'.Typed := by
  obtain ⟨c, t, ht, hc, hr⟩ := Compiler.stands_bind h.stands (ends_declaredValue view _ _) hr
  obtain ⟨-, t, ht, -, hr⟩ := Compiler.stands_bind ht (ends_requireSized _ _) (guard_ok hr)
  obtain ⟨init, t, ht, -, hr⟩ := Compiler.stands_bind ht (ends_emitted _) hr
  obtain ⟨name, t, ht, -, hr⟩ := Compiler.stands_bind ht (ends_fullNameOf _ _) hr
  cases hr
  have ht' := h.of_stands ht
  have hadded : Compiler.Typed { t with ir := (t.ir.addGlobal ⟨name, c.type, init, d.isVar⟩).1 } :=
    ⟨ht'.frames, ht'.symbols, ht'.members, ht'.fits, ht'.func⟩
  refine hadded.setSymbol ⟨fun k hk => ?_, fun i ty isVar k hk => ?_⟩
  · cases hk
    exact hc.retained ht.code.types.retains
  · cases hk
    rfl

theorem typed_prerunGlobal {d : PrerunGlobalDecl} (h : s.Typed)
    (hr : prerunGlobal view id d o s = .ok u s') : s'.Typed := by
  obtain ⟨c, t, ht, hc, hr⟩ := Compiler.stands_bind h.stands (ends_declaredValue view _ _) hr
  obtain ⟨-, t, ht, -, hr⟩ := Compiler.stands_bind ht (ends_requirePrerun _ _ _) hr
  cases hr
  refine (h.of_stands ht).setSymbol ⟨fun k hk => ?_, nofun⟩
  cases hk
  exact hc.retained ht.code.types.retains

theorem typed_prerunFunction {d : PrerunFunctionDecl} {range : Span} (h : s.Typed)
    (hr : prerunFunction view id d range o s = .ok u s') : s'.Typed := by
  obtain ⟨-, t, ht, -, hr⟩ := Compiler.stands_bind h.stands (ends_checkUnique _ _) hr
  obtain ⟨args, t, ht, -, hr⟩ := Compiler.stands_bind ht (ends_mapM (ends_prerunArg view _) _) hr
  obtain ⟨result, t, ht, -, hr⟩ := Compiler.stands_bind ht (ends_prerunResult view _ _) hr
  obtain ⟨name, t, ht, -, hr⟩ := Compiler.stands_bind ht (ends_fullNameOf _ _) hr
  cases hr
  exact (h.of_stands ht).setSymbol (Symbol.typed_of_value rfl)

/-! ## Skills -/

theorem typed_skillType {d : SkillDecl} (h : s.Typed)
    (hr : skillType view id d o s = .ok u s') : s'.Typed := by
  obtain ⟨-, t, ht, -, hr⟩ := Compiler.stands_bind h.stands (ends_checkUnique _ _) hr
  obtain ⟨prototypes, t, ht, -, hr⟩ := Compiler.stands_bind ht
    (ends_mapM (ends_skillPrototype view _) _) hr
  obtain ⟨name, t, ht, -, hr⟩ := Compiler.stands_bind ht (ends_fullNameOf _ _) hr
  obtain ⟨vis, t, ht, -, hr⟩ := Compiler.stands_bind ht (ends_visibilityOf _ _ _) hr
  cases hr
  exact (h.of_stands ht).define (t.types.edit_addSkill _).retains (fun _ => rfl)
    (Symbol.typed_of_value rfl)

theorem typed_donePrototypes {d : DoSkillDecl} (h : s.Typed)
    (hr : donePrototypes view id d o s = .ok u s') : s'.Typed := by
  obtain ⟨target, t, ht, htarget, hr⟩ := Compiler.stands_bind h.stands (ends_skillTarget view d) hr
  obtain ⟨skill, t, ht, -, hrest⟩ := Compiler.stands_bind ht (ends_skillNamed view _) hr
  have hdone : Compiler.Typed
      { t with
        types := (t.types.addDone ⟨skill, target, view.module, [], d.range⟩).1
        symbols := (id, .doneSkill t.types.done.size) :: t.symbols } :=
    (h.of_stands ht).define (t.types.edit_addDone _).retains (TypeTable.membersOf_addDone rfl)
      (Symbol.typed_of_value rfl)
  obtain ⟨k, t₁, hk, hr⟩ := bind_ok hrest
  cases hk
  obtain ⟨u₁, t₁, hset, hr⟩ := bind_ok hr
  cases hset
  obtain ⟨types, t₁, htypes, hr⟩ := bind_ok hr
  cases htypes
  obtain ⟨u₂, t₂, hmembers, hr⟩ := bind_ok hr
  have h₂ : t₂.Typed := by
    refine typed_memberPrototypes (w := .done t.types.done.size) htarget hdone ?_ hmembers
    simp [TypeTable.typeAt, TypeTable.addDone]
  dsimp only at hr
  cases hskill : skill.bind fun x => t.types.skills[x]? with
  | some found =>
    rw [hskill] at hr
    obtain ⟨types, t₃, htypes, hcheck⟩ := bind_ok hr
    cases htypes
    exact (h₂.run (ends_checkProvided _ _ _ _ _) hcheck).1
  | none =>
    rw [hskill] at hr
    cases hr
    exact h₂

/-! ## Bodies -/

theorem typed_structBodies {d : StructDecl} (h : s.Typed)
    (hr : structBodies view id d o s = .ok u s') : s'.Typed := by
  obtain ⟨ty, t, hty, hr⟩ := bind_ok hr
  obtain ⟨-, rfl⟩ := typeSymbol_ok hty
  cases ty with
  | struct sid =>
    refine typed_memberBodies h (fun m hm => (h.members (.struct sid) m ?_).2) hr
    exact List.mem_append_left _ hm
  | _ => cases hr

theorem typed_doneBodies {d : DoSkillDecl} (h : s.Typed)
    (hr : doneBodies view id d o s = .ok u s') : s'.Typed := by
  obtain ⟨y, t, hy, hr⟩ := bind_ok hr
  obtain ⟨-, rfl⟩ := symbolOf_ok hy
  cases y with
  | doneSkill k =>
    refine typed_memberBodies h (fun m hm => ?_) hr
    cases hk : t.types.done[k]? with
    | none =>
      rw [hk] at hm
      cases hm
    | some d' =>
      rw [hk] at hm
      refine (h.members d'.target m (TypeTable.mem_membersOf_iff.mpr ?_)).2
      exact ⟨.done k, _, congrArg (Option.map _) hk, congrArg (Option.map _) hk, hm⟩
  | _ => cases hr

/-! ## Every phase -/

theorem typed_phaseOf {d : EntityDecl} (h : s.Typed) (hs : s.Drafted id d.body phase)
    (hphase : phase ∈ d.body.kind.phases) (hf : s'.frames = [])
    (hr : phaseOf view id d phase o s = .ok u s') : s'.Typed := by
  unfold phaseOf at hr
  cases hd : d.body with
  | function f =>
    rw [hd] at hr
    cases phase with
    | one => exact typed_functionPrototype h hr
    | _ => exact typed_functionBody h hr
  | struct f =>
    rw [hd] at hr hs
    cases phase with
    | one => exact typed_structSkeleton h hr
    | two => exact typed_structLayout h hs hr
    | three => exact typed_structBodies h hr
  | mix m =>
    rw [hd] at hr hs hphase
    cases phase with
    | one => exact typed_mixSkeleton h hr
    | two => exact typed_mixVariants h hs hr
    | three => exact absurd hphase (show Phase.three ∉ [.one, .two] by decide)
  | doSkill f =>
    rw [hd] at hr
    cases phase with
    | two => exact typed_donePrototypes h hr
    | _ => exact typed_doneBodies h hr
  | typeDef m =>
    rw [hd] at hr
    cases phase with
    | one => exact typed_typeDefinition h hr
    | _ => exact typed_checkTypeDefinition h hr
  | choice c =>
    rw [hd] at hr
    exact typed_choiceType h hr
  | global g =>
    rw [hd] at hr
    exact typed_globalValue h hr
  | prerunGlobal g =>
    rw [hd] at hr
    exact typed_prerunGlobal h hr
  | prerunFunction f =>
    rw [hd] at hr
    exact typed_prerunFunction h hr
  | skill f =>
    rw [hd] at hr
    exact typed_skillType h hr
  | bring f =>
    rw [hd] at hr
    obtain ⟨hcore, hsymbols⟩ := bring_ok hr
    have hset : Compiler.Typed { s with symbols := (id, .bring) :: s.symbols } :=
      h.setSymbol (Symbol.typed_of_value rfl)
    exact hset.of_core hcore hsymbols hf

/-! ## Guards -/

theorem typed_guardHolds {site : Site} {b : Bool} (h : s.Typed)
    (hr : guardHolds view id site phase o s = .ok b s') : s'.Typed := by
  rcases guardHolds_ok hr with rfl | ⟨g, c, t, hc, tree, graph, rfl⟩
  · exact h
  · obtain ⟨ht, -⟩ := h.run (ends_evaluateCondition _ _) hc
    exact ht.of_core rfl rfl ht.frames

end Emit

end Staged
