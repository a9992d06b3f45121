/-
  Staged.Proofs.Halting.Phase — phases let tables grow.

  The first phase of a struct or a mix adds a definition of which nothing is known, and the
  second fills it in, after it has checked that every part has a size. A choice stands for
  integers from the start. No other phase changes what definitions hold
  (`Compiler.Drafts`).
-/

import Staged.Proofs.Code.Phase
import Staged.Proofs.Halting.Nesting
import Staged.Proofs.Values.Declare

namespace Staged

namespace TypeTable

variable {t t' : TypeTable} {ty : Ty} {ps : List Ty} {n : Nat}

/-! ## Changes of tables -/

def Has (t : TypeTable) : Ty → Prop
  | .struct id => id < t.structs.size
  | .mix id => id < t.mixes.size
  | _ => False

theorem Has.mono (h : t.Has ty) (hs : t.structs.size ≤ t'.structs.size)
    (hm : t.mixes.size ≤ t'.mixes.size) : t'.Has ty := by
  cases ty with
  | struct id => exact lt_of_lt_of_le h hs
  | mix id => exact lt_of_lt_of_le h hm
  | _ => exact h

theorem Has.extends (h : t.Has ty) (hext : t.Extends t') : t'.Has ty :=
  h.mono hext.structs hext.mixes

/-- Definitions that are added do not touch those that are there. -/
theorem Extends.parts_eq (h : t.Extends t') (hty : t.Has ty) : t'.parts? ty = t.parts? ty := by
  cases hp : t'.parts? ty with
  | none =>
    cases hq : t.parts? ty with
    | none => rfl
    | some ps => exact hp.symm.trans (h.kept ty ps hq)
  | some ps =>
    rcases h.added ty ps hp with hq | ⟨⟨id, rfl⟩, -⟩
    · exact hq.symm
    · exact hty.elim

theorem parts_struct_size (t : TypeTable) : t.parts? (.struct t.structs.size) = none := by
  simp [parts?]

theorem parts_mix_size (t : TypeTable) : t.parts? (.mix t.mixes.size) = none := by
  simp [parts?]

theorem parts_addStruct {d : StructDef} (hd : d.fields? = none) (ty : Ty) :
    (t.addStruct d).1.parts? ty = t.parts? ty := by
  have hpush : ({ t with structs := t.structs.push d } : TypeTable).parts? ty = t.parts? ty := by
    cases ty with
    | struct id =>
      simp only [parts?, Array.getElem?_push]
      split
      · subst id
        simp [hd]
      · rfl
    | _ => rfl
  exact ((same_intern _ _).sameParts.parts_eq ty).trans hpush

theorem parts_addMix {d : MixDef} (hd : d.variants? = none) (ty : Ty) :
    (t.addMix d).1.parts? ty = t.parts? ty := by
  have hpush : ({ t with mixes := t.mixes.push d } : TypeTable).parts? ty = t.parts? ty := by
    cases ty with
    | mix id =>
      simp only [parts?, Array.getElem?_push]
      split
      · subst id
        simp [hd]
      · rfl
    | _ => rfl
  exact ((same_intern _ _).sameParts.parts_eq ty).trans hpush

theorem has_addStruct (t : TypeTable) (d : StructDef) :
    (t.addStruct d).1.Has (.struct t.structs.size) := by
  show t.structs.size < (t.addStruct d).1.structs.size
  rw [show (t.addStruct d).1.structs = t.structs.push d from (same_intern _ _).structs,
    Array.size_push]
  exact Nat.lt_succ_self _

theorem has_addMix (t : TypeTable) (d : MixDef) : (t.addMix d).1.Has (.mix t.mixes.size) := by
  show t.mixes.size < (t.addMix d).1.mixes.size
  rw [show (t.addMix d).1.mixes = t.mixes.push d from (same_intern _ _).mixes, Array.size_push]
  exact Nat.lt_succ_self _

theorem extends_addStruct {d : StructDef} (hd : d.fields? = none) :
    t.Extends (t.addStruct d).1 where
  kept ty _ hps := (parts_addStruct hd ty).trans hps
  added ty _ hps := .inl ((parts_addStruct hd ty).symm.trans hps)
  structs := by
    rw [show (t.addStruct d).1.structs = t.structs.push d from (same_intern _ _).structs,
      Array.size_push]
    exact Nat.le_succ _
  mixes := by
    rw [show (t.addStruct d).1.mixes = t.mixes from (same_intern _ _).mixes]

theorem extends_addMix {d : MixDef} (hd : d.variants? = none) : t.Extends (t.addMix d).1 where
  kept ty _ hps := (parts_addMix hd ty).trans hps
  added ty _ hps := .inl ((parts_addMix hd ty).symm.trans hps)
  structs := by
    rw [show (t.addMix d).1.structs = t.structs from (same_intern _ _).structs]
  mixes := by
    rw [show (t.addMix d).1.mixes = t.mixes.push d from (same_intern _ _).mixes, Array.size_push]
    exact Nat.le_succ _

/-- An integer type is a scalar in every table. -/
theorem sizedWithin_of_isIntegral (h : t.isIntegral ty = true) (t' : TypeTable) :
    t'.SizedWithin 1 ty := by
  cases ty <;> first | rfl | cases h

theorem parts_addChoice (t : TypeTable) (d : ChoiceDef) (ty : Ty) :
    (t.addChoice d).1.parts? ty =
      if ty = .choice t.choices.size then some [d.underlying] else t.parts? ty := by
  have hsame :=
    (same_intern { t with choices := t.choices.push d } (.choice t.choices.size)).sameParts
  refine (hsame.parts_eq ty).trans ?_
  cases ty with
  | choice id =>
    simp only [parts?, Array.getElem?_push, Ty.choice.injEq]
    split <;> rfl
  | _ => rfl

theorem extends_addChoice {d : ChoiceDef} (hd : ∃ t : TypeTable, t.isIntegral d.underlying = true) :
    t.Extends (t.addChoice d).1 := by
  obtain ⟨t₀, hd⟩ := hd
  constructor
  · intro ty ps hps
    rw [parts_addChoice, if_neg, hps]
    rintro rfl
    simp [parts?] at hps
  · intro ty ps hps
    rw [parts_addChoice] at hps
    split at hps
    · rename_i hty
      cases hps
      refine .inr ⟨⟨_, hty⟩, fun p hp => ?_⟩
      rw [List.mem_singleton.mp hp]
      exact sizedWithin_of_isIntegral hd _
    · exact .inl hps
  · rw [show (t.addChoice d).1.structs = t.structs from (same_intern _ _).structs]
  · rw [show (t.addChoice d).1.mixes = t.mixes from (same_intern _ _).mixes]

/-- The fields of a struct are set once all of them have a size. -/
theorem fills_setFields {sid : Nat} {fields : List FieldDef}
    (hblank : t.parts? (.struct sid) = none) (hsized : ∀ f ∈ fields, t.isSized f.type = true) :
    t.Fills (.struct sid) (t.setFields (.struct sid) (some fields)) where
  unknown := hblank
  sized ps hps p hp := by
    obtain ⟨d, hd, -, rfl⟩ := parts_struct.mp hps
    obtain ⟨f, hf, rfl⟩ := List.mem_map.mp hp
    rw [setFields, modifyStruct, Array.getElem?_modify, if_pos rfl] at hd
    obtain ⟨d', -, rfl⟩ := Option.map_eq_some_iff.mp hd
    exact hsized f hf
  other ty hty := by
    cases ty with
    | struct i =>
      have hi : sid ≠ i := fun h => hty (h ▸ rfl)
      simp only [parts?, setFields, modifyStruct, Array.getElem?_modify, if_neg hi]
    | _ => rfl
  structs := Array.size_modify
  mixes := rfl

theorem fills_modifyMix {mid : Nat} {variants : List MixVariant} {default : Option Nat}
    (hblank : t.parts? (.mix mid) = none)
    (hsized : ∀ v ∈ variants, ∀ ty, v.payload = some ty → t.isSized ty = true) :
    t.Fills (.mix mid)
      (t.modifyMix mid fun m => { m with variants? := some variants, default }) where
  unknown := hblank
  sized ps hps p hp := by
    obtain ⟨d, hd, -, rfl⟩ := parts_mix.mp hps
    obtain ⟨v, hv, hpayload⟩ := List.mem_filterMap.mp hp
    rw [modifyMix, Array.getElem?_modify, if_pos rfl] at hd
    obtain ⟨d', -, rfl⟩ := Option.map_eq_some_iff.mp hd
    exact hsized v hv p hpayload
  other ty hty := by
    cases ty with
    | mix i =>
      have hi : mid ≠ i := fun h => hty (h ▸ rfl)
      simp only [parts?, modifyMix, Array.getElem?_modify, if_neg hi]
    | _ => rfl
  structs := rfl
  mixes := Array.size_modify

theorem Has.grows (h : t.Has ty) (hg : t.Grows t') : t'.Has ty := by
  induction hg with
  | refl => exact h
  | «extends» _ hext ih => exact ih.extends hext
  | fills _ hfill ih => exact ih.mono hfill.structs.ge hfill.mixes.ge

end TypeTable

/-! ## Definitions of declarations -/

/-- The definition that a declaration has become, if it is filled in later. -/
def DeclBody.definition? : DeclBody → Symbol → Option Ty
  | .struct _, .type (.struct id) => some (.struct id)
  | .mix _, .type (.mix id) => some (.mix id)
  | _, _ => none

namespace Compiler

def Defines (s : Compiler) (id : EntityId) (body : DeclBody) (ty : Ty) : Prop :=
  ∃ y, s.symbols.lookup id = some y ∧ body.definition? y = some ty

structure Drafted (s : Compiler) (id : EntityId) (body : DeclBody) (phase : Phase) : Prop where
  has : ∀ ty, s.Defines id body ty → s.types.Has ty
  blank : phase = .two → ∀ ty, s.Defines id body ty → s.types.parts? ty = none

structure Builds (s s' : Compiler) (id : EntityId) (body : DeclBody) (phase : Phase) : Prop where
  types : s.types.Grows s'.types
  has : ∀ ty, s'.Defines id body ty →
    s'.types.Has ty ∧ (s.Defines id body ty ∨ ¬s.types.Has ty)
  blank : phase = .one → ∀ ty, s'.Defines id body ty → s'.types.parts? ty = none
  other : ∀ ty, s.types.Has ty → ¬s'.Defines id body ty → s'.types.parts? ty = s.types.parts? ty

variable {s s₁ s' : Compiler} {id : EntityId} {body : DeclBody} {phase : Phase} {ty : Ty}

/-- A declaration that becomes no definition. -/
theorem Builds.of_extends (h : s.types.Extends s'.types) (hbody : ∀ y, body.definition? y = none) :
    s.Builds s' id body phase := by
  have hnone (ty : Ty) : ¬s'.Defines id body ty := by
    rintro ⟨y, -, hy⟩
    rw [hbody] at hy
    cases hy
  exact ⟨h.grows, fun ty hd => absurd hd (hnone ty), fun _ ty hd => absurd hd (hnone ty),
    fun ty hty _ => h.parts_eq hty⟩

/-- A phase that adds a definition of which nothing is known. -/
theorem Builds.of_new {y : Symbol} (h : s.types.Extends s'.types)
    (hy : s'.symbols.lookup id = some y) (hdef : body.definition? y = some ty)
    (hnew : ¬s.types.Has ty) (hhas : s'.types.Has ty) (hblank : s'.types.parts? ty = none) :
    s.Builds s' id body phase := by
  have heq {ty' : Ty} (hd : s'.Defines id body ty') : ty' = ty := by
    obtain ⟨y', hy', hdef'⟩ := hd
    cases hy.symm.trans hy'
    exact Option.some.inj (hdef'.symm.trans hdef)
  refine ⟨h.grows, fun ty' hd => ?_, fun _ ty' hd => ?_, fun ty' hty' _ => h.parts_eq hty'⟩
  · cases heq hd
    exact ⟨hhas, .inr hnew⟩
  · cases heq hd
    exact hblank

/-- A later phase, which changes at most what the own definition holds. -/
theorem Builds.of_later (hs : s.Drafted id body phase) (hphase : phase ≠ .one)
    (hsymbols : s'.symbols = s.symbols) (h : s.types.Grows s'.types)
    (hother : ∀ ty, s.types.Has ty → ¬s.Defines id body ty →
      s'.types.parts? ty = s.types.parts? ty) : s.Builds s' id body phase := by
  have hdefines (ty : Ty) : s'.Defines id body ty ↔ s.Defines id body ty := by
    unfold Defines
    rw [hsymbols]
  refine ⟨h, fun ty hd => ?_, fun hone => absurd hone hphase, fun ty hty hd => ?_⟩
  · rw [hdefines] at hd
    exact ⟨(hs.has ty hd).grows h, .inl hd⟩
  · rw [hdefines] at hd
    exact hother ty hty hd

theorem Builds.of_passes {new : Ir.FunctionId → Prop} (hs : s.Drafted id body phase)
    (hphase : phase ≠ .one) (h : s.Passes s' new) : s.Builds s' id body phase :=
  .of_later hs hphase h.symbols h.types.sameParts.extends.grows
    fun ty _ _ => h.types.sameParts.parts_eq ty

theorem Passes.defines_iff {new : Ir.FunctionId → Prop} (h : s.Passes s' new) :
    s'.Defines id body ty ↔ s.Defines id body ty := by
  unfold Defines
  rw [h.symbols]

/-- What a phase relies on is still there after something that passes. -/
theorem Drafted.after (h : s.Drafted id body phase) (hp : s.Passes s₁ fun _ => False) :
    s₁.Drafted id body phase where
  has ty hd := (h.has ty (hp.defines_iff.mp hd)).extends hp.types.sameParts.extends
  blank hphase ty hd :=
    (hp.types.sameParts.parts_eq ty).trans (h.blank hphase ty (hp.defines_iff.mp hd))

/-- Something that passes before a phase belongs to what the phase does. -/
theorem Builds.after (h : s₁.Builds s' id body phase) (hp : s.Passes s₁ fun _ => False) :
    s.Builds s' id body phase where
  types := hp.types.sameParts.extends.grows.trans h.types
  has ty hd := ⟨(h.has ty hd).1, (h.has ty hd).2.imp hp.defines_iff.mp fun hnew hhas =>
    hnew (hhas.extends hp.types.sameParts.extends)⟩
  blank := h.blank
  other ty hty hd := (h.other ty (hty.extends hp.types.sameParts.extends) hd).trans
    (hp.types.sameParts.parts_eq ty)

end Compiler

/-! ## Evaluation before a definition is filled in -/

def Compiler.definitionGround (s : Compiler) : Ground where
  toDomain := .all s.types.SameDefinitions
  outer := s.outer
  admits _ := True
  code c := s.types.SameDefinitions c.types
  code_intern ty h := h.intern ty
  code_abandon _ _ h := h
  knows_types h := h
  locals _ _ _ _ := trivial
  symbols _ _ := trivial
  defines _ _ := trivial
  allows _ := True
  allows_fault _ _ := trivial
  allows_missing _ _ _ := trivial
  warned _ := True
  warned_push _ _ := trivial

/-- Where evaluation of a declaration starts. -/
theorem Compiler.stands_definitionGround {s : Compiler} (hs : s.frames = []) :
    s.definitionGround.Stands 0 s := by
  refine ⟨⟨rfl, congrArg List.length hs, .refl _, trivial⟩, fun f hf => ?_⟩
  rw [hs] at hf
  cases hf

namespace Emit

variable {α β : Type} {o : Options} {s s₀ s' t : Compiler} {view : Viewpoint} {id : EntityId}
  {u : Unit} {body : DeclBody} {phase : Phase}

/-- A step of a sequence that stays on some ground. -/
theorem stands_bind {g : Ground} {n : Nat} {a : Emit α} {k : α → Emit β} {Q : α → Prop} {v : β}
    (ho : g.admits o) (h : g.Stands n s) (ha : g.Ends n a Q) (hr : (a >>= k) o s = .ok v s') :
    ∃ x t, g.Stands n t ∧ Q x ∧ k x o t = .ok v s' := by
  obtain ⟨x, t, hx, hr⟩ := bind_ok hr
  have hrun := ha o ho s h
  rw [hx] at hrun
  exact ⟨x, t, hrun.1, hrun.2, hr⟩

/-- What has a size here has one after the definitions were left alone. -/
theorem isSized_of_sized {ty : Ty} (h : s.definitionGround.Sized ty)
    (hs : s.types.SameDefinitions s'.types) : s'.types.isSized ty = true := by
  obtain ⟨t, ht, hsized⟩ := h
  have hsame (t' : TypeTable) (h : s.types.SameDefinitions t') (ty : Ty) :
      t'.parts? ty = s.types.parts? ty := h.sameParts.parts_eq ty
  refine TypeTable.SizedWithin.mono hsized
    (fun ty ps hps => (hsame _ hs ty).trans ((hsame t ht ty).symm.trans hps)) ?_
  unfold TypeTable.depth
  rw [hs.structs, hs.mixes, hs.choices, ht.structs, ht.mixes, ht.choices]

/-! ## Phases that add or fill in -/

theorem extends_of_stands (h : s.definitionGround.Stands 0 t) : s.types.Extends t.types :=
  h.code.sameParts.extends

theorem builds_structSkeleton {d : StructDecl} (hf : s.frames = [])
    (hr : structSkeleton view id d o s = .ok u s') : s.Builds s' id (.struct d) .one := by
  obtain ⟨name, t, h, -, hr⟩ := stands_bind trivial (Compiler.stands_definitionGround hf)
    (ends_fullNameOf _ _) hr
  obtain ⟨vis, t, h, -, hr⟩ := stands_bind trivial h (ends_visibilityOf _ _ _) hr
  cases hr
  have hext := (extends_of_stands h).trans
    (TypeTable.extends_addStruct (d := ⟨d.name, name, view.module, vis, none, []⟩) rfl)
  refine .of_new (y := .type (.struct t.types.structs.size)) hext ?_ rfl ?_ ?_ ?_
  · rw [List.lookup_cons_self]
  · exact Nat.not_lt_of_le (extends_of_stands h).structs
  · exact TypeTable.has_addStruct _ _
  · exact (TypeTable.parts_addStruct rfl _).trans (TypeTable.parts_struct_size _)

theorem builds_mixSkeleton {d : MixDecl} (hf : s.frames = [])
    (hr : mixSkeleton view id d o s = .ok u s') : s.Builds s' id (.mix d) .one := by
  obtain ⟨name, t, h, -, hr⟩ := stands_bind trivial (Compiler.stands_definitionGround hf)
    (ends_fullNameOf _ _) hr
  obtain ⟨vis, t, h, -, hr⟩ := stands_bind trivial h (ends_visibilityOf _ _ _) hr
  cases hr
  have hext := (extends_of_stands h).trans
    (TypeTable.extends_addMix (d := ⟨d.name, name, view.module, vis, none, none, d.packed⟩) rfl)
  refine .of_new (y := .type (.mix t.types.mixes.size)) hext ?_ rfl ?_ ?_ ?_
  · rw [List.lookup_cons_self]
  · exact Nat.not_lt_of_le (extends_of_stands h).mixes
  · exact TypeTable.has_addMix _ _
  · exact (TypeTable.parts_addMix rfl _).trans (TypeTable.parts_mix_size _)

theorem builds_structLayout {d : StructDecl} (hf : s.frames = []) (hw : s.Whole)
    (hs : s.Drafted id (.struct d) .two) (hr : structLayout view id d o s = .ok u s') :
    s.Builds s' id (.struct d) .two := by
  obtain ⟨sid, fields, t, ms, hlookup, hfields, hpasses, -, hgains⟩ := structLayout_ok hw hr
  have hdefines : s.Defines id (.struct d) (.struct sid) := ⟨_, hlookup, rfl⟩
  have hsame := hpasses.types.sameParts
  have hsized : ∀ f ∈ fields, s.definitionGround.Sized f.type := by
    have hends : s.definitionGround.Ends 0 (structFields view (.struct sid) d.name [] d.fields)
      fun fields => ∀ f ∈ fields, s.definitionGround.Sized f.type :=
        ends_structFields view (.struct sid) d.name [] d.fields nofun
    have hrun := hends o trivial s (Compiler.stands_definitionGround hf)
    rw [hfields] at hrun
    exact hrun.2
  have hfills : t.types.Fills (.struct sid) (t.types.setFields (.struct sid) (some fields)) :=
    TypeTable.fills_setFields ((hsame.parts_eq _).trans (hs.blank rfl _ hdefines))
      fun f hf => isSized_of_sized (hsized f hf) hpasses.types
  refine .of_later hs nofun (hgains.symbols.trans hpasses.symbols)
    ((hsame.extends.grows.fills hfills).extends hgains.types.extends) fun ty _ hty => ?_
  rw [hgains.types.parts_eq, ← hsame.parts_eq]
  exact hfills.other ty fun h => hty (h ▸ hdefines)

theorem builds_mixVariants {d : MixDecl} (hf : s.frames = [])
    (hs : s.Drafted id (.mix d) .two) (hr : mixVariants view id d o s = .ok u s') :
    s.Builds s' id (.mix d) .two := by
  obtain ⟨ty, t, hty, hr⟩ := bind_ok hr
  obtain ⟨hlookup, rfl⟩ := typeSymbol_ok hty
  cases ty with
  | mix mid =>
    have hdefines : t.Defines id (.mix d) (.mix mid) := ⟨_, hlookup, rfl⟩
    obtain ⟨variants, t₁, h, hsized, hr⟩ := stands_bind trivial
      (Compiler.stands_definitionGround hf) (ends_mixVariantList view _ _ [] _ nofun) hr
    obtain ⟨default, t₁, h, -, hr⟩ := stands_bind trivial h (ends_mixDefault _ _ _) hr
    cases hr
    have hsame := h.code.sameParts
    have hblank := (hsame.parts_eq (.mix mid)).trans (hs.blank rfl _ hdefines)
    have hfills := @TypeTable.fills_modifyMix _ mid variants default hblank fun v hv ty hty =>
      isSized_of_sized (hsized v hv ty hty) h.code
    refine .of_later hs nofun (congrArg Outer.symbols h.outer)
      (hsame.extends.grows.fills hfills) fun ty _ hty => ?_
    exact (hfills.other ty fun h => hty (h ▸ hdefines)).trans (hsame.parts_eq ty)
  | _ => cases hr

theorem extends_choiceType {d : ChoiceDecl} (hf : s.frames = [])
    (hr : choiceType view id d o s = .ok u s') : s.types.Extends s'.types := by
  obtain ⟨written, t, h, hwritten, hr⟩ := stands_bind trivial
    (Compiler.stands_definitionGround hf) (ends_choiceUnderlying view _) hr
  obtain ⟨numbers, t, h, -, hr⟩ := stands_bind trivial h
    (ends_mapM (ends_writtenNumber view _) _) hr
  obtain ⟨-, t, h, -, hr⟩ := stands_bind trivial h (ends_checkUnique _ _) hr
  dsimp only at hr
  cases hdup : firstDuplicate? ((numberVariants numbers).zip
      (d.variants.map ChoiceVariantDecl.name)) with
  | some dup =>
    rw [hdup] at hr
    cases hr
  | none =>
    rw [hdup] at hr
    obtain ⟨underlying, t, h, hunderlying, hr⟩ := stands_bind trivial h
      (ends_numberType _ _ _ hwritten) hr
    obtain ⟨default, t, h, -, hr⟩ := stands_bind trivial h (ends_choiceDefault _) hr
    obtain ⟨name, t, h, -, hr⟩ := stands_bind trivial h (ends_fullNameOf _ _) hr
    obtain ⟨vis, t, h, -, hr⟩ := stands_bind trivial h (ends_visibilityOf _ _ _) hr
    cases hr
    exact (extends_of_stands h).trans (TypeTable.extends_addChoice hunderlying)

/-! ## Phases that leave definitions alone -/

theorem extends_functionPrototype {d : FunctionDecl} {range : Span} (hs : s.Whole)
    (hr : functionPrototype view id d range o s = .ok u s') : s.types.Extends s'.types := by
  obtain ⟨params, t, h, -, hr⟩ := passes_bind (.refl hs) (fun E => emits_paramTypes _ _ _) hr
  obtain ⟨result, t, h, -, hr⟩ := passes_bind h (fun E => emits_resultTypeOf _ _) hr
  have hext := fun ty => (h.types.intern ty).sameParts.extends
  cases hd : d.body with
  | none =>
    rw [hd] at hr
    obtain ⟨f, t', hf, hr⟩ := bind_ok hr
    cases hf
    obtain ⟨ty, t', hty, hr⟩ := bind_ok hr
    cases hty
    cases hr
    exact hext _
  | some body =>
    rw [hd] at hr
    obtain ⟨tree, t', htree, hr⟩ := bind_ok (guard_ok hr)
    cases htree
    obtain ⟨f, t', hf, hr⟩ := bind_ok hr
    cases hf
    obtain ⟨ty, t', hty, hr⟩ := bind_ok hr
    cases hty
    cases hr
    exact hext _

theorem extends_globalValue {d : GlobalDecl} (hs : s.Whole)
    (hr : globalValue view id d o s = .ok u s') : s.types.Extends s'.types := by
  obtain ⟨c, t, h, -, hr⟩ := passes_bind (.refl hs) (fun E => emits_declaredValue _ _ _) hr
  obtain ⟨-, t, h, -, hr⟩ := passes_bind h (fun E => emits_requireSized _ _) (guard_ok hr)
  obtain ⟨init, t, h, hinit, hr⟩ := passes_bind h (fun E => emits_emitted _) hr
  cases hr
  exact h.types.sameParts.extends

theorem extends_prerunGlobal {d : PrerunGlobalDecl} (hs : s.frames = [])
    (hr : prerunGlobal view id d o s = .ok u s') : s.types.Extends s'.types := by
  obtain ⟨c, t, h, -, hr⟩ := stands_bind trivial (Compiler.stands_definitionGround hs)
    (ends_declaredValue view _ _) hr
  obtain ⟨-, t, h, -, hr⟩ := stands_bind trivial h (ends_requirePrerun _ _ _) hr
  cases hr
  exact h.code.sameParts.extends

theorem extends_prerunFunction {d : PrerunFunctionDecl} {range : Span} (hs : s.frames = [])
    (hr : prerunFunction view id d range o s = .ok u s') : s.types.Extends s'.types := by
  obtain ⟨-, t, h, -, hr⟩ := stands_bind trivial (Compiler.stands_definitionGround hs)
    (ends_checkUnique _ _) hr
  obtain ⟨args, t, h, -, hr⟩ := stands_bind trivial h (ends_mapM (ends_prerunArg view _) _) hr
  obtain ⟨result, t, h, -, hr⟩ := stands_bind trivial h (ends_prerunResult view _ _) hr
  cases hr
  exact h.code.sameParts.extends

theorem extends_typeDefinition {d : TypeDecl} (hs : s.frames = [])
    (hr : typeDefinition view id d o s = .ok u s') : s.types.Extends s'.types := by
  obtain ⟨ty, t, h, -, hr⟩ := stands_bind trivial (Compiler.stands_definitionGround hs)
    (ends_resolveType view _) hr
  cases hr
  exact h.code.sameParts.extends

theorem extends_checkTypeDefinition {d : TypeDecl}
    (hr : checkTypeDefinition id d o s = .ok u s') : s.types.Extends s'.types := by
  obtain ⟨ty, t, hty, hend⟩ := bind_ok hr
  obtain ⟨-, rfl⟩ := typeSymbol_ok hty
  cases hend
  exact .refl _

theorem extends_skillType {d : SkillDecl} (hs : s.frames = [])
    (hr : skillType view id d o s = .ok u s') : s.types.Extends s'.types := by
  obtain ⟨-, t, h, -, hr⟩ := stands_bind trivial (Compiler.stands_definitionGround hs)
    (ends_checkUnique _ _) hr
  obtain ⟨prototypes, t, h, -, hr⟩ := stands_bind trivial h
    (ends_mapM (ends_skillPrototype view _) _) hr
  cases hr
  exact TypeTable.SameParts.extends ⟨h.code.sameParts.fields, h.code.mixes, h.code.choices⟩

theorem extends_donePrototypes {d : DoSkillDecl} (hs : s.Whole)
    (hr : donePrototypes view id d o s = .ok u s') : s.types.Extends s'.types := by
  obtain ⟨skill, target, t, ms, h, -, hgains⟩ := donePrototypes_ok hs hr
  have hadd : t.types.SameParts
      (t.types.addDone ⟨skill, target, view.module, [], d.range⟩).1 := ⟨fun _ => rfl, rfl, rfl⟩
  exact ((h.types.sameParts.trans hadd).trans hgains.types).extends

/-! ## Bodies -/

theorem builds_functionBody {d : FunctionDecl} {range : Span}
    (hs : s.Drafted id (.function d) .three) (hdue : s.Due id (.function d) .three)
    (hr : functionBody view id d range o s = .ok u s') :
    s.Builds s' id (.function d) .three :=
  .of_passes hs nofun (passes_functionBody hdue.whole hr fun _ _ hy hbody =>
    hdue.owed _ (.inl ⟨_, hy, if_pos hbody⟩)).1

theorem builds_structBodies {d : StructDecl} (hs : s.Drafted id (.struct d) .three)
    (hdue : s.Due id (.struct d) .three) (hr : structBodies view id d o s = .ok u s') :
    s.Builds s' id (.struct d) .three := by
  obtain ⟨ty, t, hty, hr⟩ := bind_ok hr
  obtain ⟨hlookup, rfl⟩ := typeSymbol_ok hty
  cases ty with
  | struct sid =>
    have hplain := plain_members hdue hlookup rfl
    exact .of_passes hs nofun (passes_memberBodies hdue.whole hplain hr).1
  | _ => cases hr

theorem builds_doneBodies {d : DoSkillDecl} (hs : s.Drafted id (.doSkill d) .three)
    (hdue : s.Due id (.doSkill d) .three) (hr : doneBodies view id d o s = .ok u s') :
    s.Builds s' id (.doSkill d) .three := by
  obtain ⟨y, t, hy, hr⟩ := bind_ok hr
  obtain ⟨hlookup, rfl⟩ := symbolOf_ok hy
  cases y with
  | doneSkill k =>
    have hplain := plain_members hdue hlookup rfl
    exact .of_passes hs nofun (passes_memberBodies hdue.whole hplain hr).1
  | _ => cases hr

/-! ## Every phase -/

theorem builds_phaseOf {d : EntityDecl} (hf : s.frames = []) (hdue : s.Due id d.body phase)
    (hs : s.Drafted id d.body phase) (hphase : phase ∈ d.body.kind.phases)
    (hr : phaseOf view id d phase o s = .ok u s') : s.Builds s' id d.body phase := by
  have hnone {body : DeclBody} (h : s.types.Extends s'.types)
      (hbody : ∀ y, body.definition? y = none) : s.Builds s' id body phase := .of_extends h hbody
  unfold phaseOf at hr
  cases hd : d.body with
  | function f =>
    rw [hd] at hr hs hdue hphase
    cases phase with
    | one => exact hnone (extends_functionPrototype hdue.whole hr) fun _ => rfl
    | two => exact absurd hphase (show Phase.two ∉ [.one, .three] by decide)
    | three => exact builds_functionBody hs hdue hr
  | struct f =>
    rw [hd] at hr hs hdue
    cases phase with
    | one => exact builds_structSkeleton hf hr
    | two => exact builds_structLayout hf hdue.whole hs hr
    | three => exact builds_structBodies hs hdue hr
  | mix m =>
    rw [hd] at hr hs hphase
    cases phase with
    | one => exact builds_mixSkeleton hf hr
    | two => exact builds_mixVariants hf hs hr
    | three => exact absurd hphase (show Phase.three ∉ [.one, .two] by decide)
  | doSkill f =>
    rw [hd] at hr hs hdue hphase
    cases phase with
    | one => exact absurd hphase (show Phase.one ∉ [.two, .three] by decide)
    | two => exact hnone (extends_donePrototypes hdue.whole hr) fun _ => rfl
    | three => exact builds_doneBodies hs hdue hr
  | typeDef m =>
    rw [hd] at hr
    refine hnone ?_ fun _ => rfl
    cases phase with
    | one => exact extends_typeDefinition hf hr
    | _ => exact extends_checkTypeDefinition hr
  | choice c =>
    rw [hd] at hr
    exact hnone (extends_choiceType hf hr) fun _ => rfl
  | global g =>
    rw [hd] at hr
    exact hnone (extends_globalValue hdue.whole hr) fun _ => rfl
  | prerunGlobal g =>
    rw [hd] at hr
    exact hnone (extends_prerunGlobal hf hr) fun _ => rfl
  | prerunFunction f =>
    rw [hd] at hr
    exact hnone (extends_prerunFunction hf hr) fun _ => rfl
  | skill f =>
    rw [hd] at hr
    exact hnone (extends_skillType hf hr) fun _ => rfl
  | bring f =>
    rw [hd] at hr
    refine hnone ?_ fun _ => rfl
    rw [show s'.types = s.types from congrArg Core.types (bring_ok hr).1]
    exact .refl _

/-- A phase that runs leaves the table grown, its guard included. -/
theorem builds_runPhase {site : Site} (hω : s.outer.Coherent) (hf : s.frames = [])
    (hsite : s.sites[id]? = some site) (hnext : s.entities.nextPhase? id = some phase)
    (hready : s.entities.isReady id phase = true) (hdue : s.Due id site.decl.body phase)
    (hs : s.Drafted id site.decl.body phase)
    (hg : guardHolds { module := site.module } id site phase o
      { s with log := s.log.push (id, phase) } = .ok true t)
    (hr : phaseOf { module := site.module } id site.decl phase o t = .ok u s') :
    s.Builds s' id site.decl.body phase := by
  have hpasses := passes_guarded hdue.whole hg
  have hguard := @guardHolds_spec s.outer id phase site (s.log.push (id, phase)) o
    { s with log := s.log.push (id, phase) } hω hsite hready ⟨rfl, hf⟩
  rw [hg] at hguard
  obtain ⟨tree, hnames, hsame, ht⟩ := hguard
  refine Compiler.Builds.after (builds_phaseOf ht.2 (hdue.after hpasses) (hs.after hpasses) ?_ hr)
    hpasses
  obtain ⟨e, he, hp⟩ := EntityGraph.get?_of_nextPhase? hnext
  rw [← hω.kind id site e hsite he]
  exact List.mem_of_getElem? hp

end Emit

end Staged
