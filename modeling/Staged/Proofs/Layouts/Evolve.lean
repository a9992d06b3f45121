/-
  Staged.Proofs.Layouts.Evolve — how type tables change.

  A type table changes in few ways (`TypeTable.Edit`). A struct and a mix are added with
  nothing known of what they hold, and filled in later, once and for all, with parts that
  have a size by then. A choice stands for integers from the start. All else leaves the
  parts of definitions alone. An edit that makes the parts of a definition known finds all
  of them sized (`Edit.sized`).

  A table that evolves by edits from one that is grounded is grounded, so no type contains
  itself by value, and the recursions through definitions end (`TypeTable.Unwinds`). What
  was known of a definition stays known, and a type that has a layout keeps it
  (`TypeTable.Retains`).
-/

import Mathlib.Logic.Relation
import Staged.Proofs.Halting.Phase
import Staged.Proofs.Halting.Types

namespace Staged

namespace TypeTable

variable {t t' t'' : TypeTable} {id : Nat} {ty : Ty} {ps : List Ty} {n m : Nat}

/-! ## Containment -/

/-- Values of the first type contain values of the second one, by value. -/
inductive Contains (t : TypeTable) : Ty → Ty → Prop
  | array (element : Ty) (length : Nat) : Contains t (.array element length) element
  | vector (element : Ty) (count : Nat) (scalable : Bool) :
    Contains t (.vector element count scalable) element
  | maybe (sub : Ty) : Contains t (.maybe sub) sub
  | tuple {members : List Ty} (packed : Bool) {member : Ty} (h : member ∈ members) :
    Contains t (.tuple members packed) member
  | field {id : Nat} {d : StructDef} (hd : t.structs[id]? = some d) {f : FieldDef}
    (hf : f ∈ d.fields) : Contains t (.struct id) f.type
  | payload {id : Nat} {d : MixDef} (hd : t.mixes[id]? = some d) {ty : Ty}
    (hty : ty ∈ d.payloads) : Contains t (.mix id) ty
  | underlying {id : Nat} {d : ChoiceDef} (hd : t.choices[id]? = some d) :
    Contains t (.choice id) d.underlying

abbrev Bottoms (t : TypeTable) (ty : Ty) : Prop :=
  Acc (fun part whole => t.Contains whole part) ty

mutual

theorem bottoms_of_nestsStep {part : Ty → Prop} (h : ∀ p, part p → t.Bottoms p) :
    ∀ ty, t.NestsStep part ty → t.Bottoms ty
  | .array element _, hty | .vector element _ _, hty | .maybe element, hty =>
    .intro _ fun _ hp => by
      cases hp
      exact bottoms_of_nestsStep h element hty
  | .tuple members _, hty => .intro _ fun _ hp => by
      cases hp with
      | tuple _ hmember => exact bottoms_of_nestAllStep h members hty _ hmember
  | .struct _, hty => .intro _ fun _ hp => by
      cases hp with
      | field hd hf => exact h _ (hty.fieldTypes hd _ (List.mem_map_of_mem hf))
  | .mix _, hty => .intro _ fun _ hp => by
      cases hp with
      | payload hd hpayload => exact h _ (hty.payloads hd _ hpayload)
  | .choice _, hty => .intro _ fun _ hp => by
      cases hp with
      | underlying hd => exact h _ (hty.underlying hd)
  | .int _, _ | .uint _, _ | .float _, _ | .char, _ | .bool, _ | .void, _ | .str, _ | .mark .., _
  | .ref .., _ | .function .., _ | .future .., _ | .typed _, _ | .native _, _ =>
    .intro _ fun _ hp => by cases hp

theorem bottoms_of_nestAllStep {part : Ty → Prop} (h : ∀ p, part p → t.Bottoms p) :
    ∀ tys, t.NestAllStep part tys → ∀ ty ∈ tys, t.Bottoms ty
  | [], _ => nofun
  | ty :: tys, htys => by
    rw [List.forall_mem_cons]
    exact ⟨bottoms_of_nestsStep h ty htys.1, bottoms_of_nestAllStep h tys htys.2⟩

end

theorem NestsWithin.bottoms (h : t.NestsWithin n ty) : t.Bottoms ty := by
  induction n generalizing ty with
  | zero => cases h
  | succ n ih => exact bottoms_of_nestsStep (fun _ hp => ih hp) ty h

/-! ## Recursion through definitions -/

open Unbounded (ComesTo)

structure Unwinds (t : TypeTable) : Prop where
  acyclic : ∀ ty, ¬Relation.TransGen t.Contains ty ty
  layout : ∀ ty, ComesTo (Unbounded.layout t · ty) (t.layout? ty)
  copy : ∀ ty, ComesTo (Unbounded.hasTrait t t.copyTrait · ty) (t.hasSimpleCopy ty)
  move : ∀ ty, ComesTo (Unbounded.hasTrait t t.moveTrait · ty) (t.hasSimpleMove ty)
  prerun : ∀ ty, ComesTo (Unbounded.hasTrait t t.prerunTrait · ty) (t.canBePrerun ty)

theorem Grounded.wellFounded_contains (h : t.Grounded) :
    WellFounded fun part whole => t.Contains whole part :=
  ⟨fun ty => (h.nests ty).bottoms⟩

theorem Grounded.hasTrait (h : t.Grounded) (trait : Trait) (ty : Ty) :
    ComesTo (Unbounded.hasTrait t trait · ty) (t.has trait ty) :=
  Unbounded.hasTrait_eq (h.nests ty) t.card_known_lt

theorem Grounded.unwinds (h : t.Grounded) : t.Unwinds where
  acyclic ty hcycle := by
    refine (h.wellFounded_contains.transGen).irrefl.irrefl ty ?_
    rw [Relation.transGen_swap]
    exact hcycle
  layout := h.layout
  copy := h.hasTrait _
  move := h.hasTrait _
  prerun := h.hasTrait _

/-! ## What stays -/

structure Retains (t t' : TypeTable) : Prop where
  pointerWidth : t'.pointerWidth = t.pointerWidth
  fields : ∀ (id : Nat) (d : StructDef) (fields : List FieldDef), t.structs[id]? = some d →
    d.fields? = some fields → ∃ d', t'.structs[id]? = some d' ∧ d'.fields? = some fields
  variants : ∀ (id : Nat) (d : MixDef) (variants : List MixVariant), t.mixes[id]? = some d →
    d.variants? = some variants → t'.mixes[id]? = some d
  choices : ∀ (id : Nat) (d : ChoiceDef), t.choices[id]? = some d → t'.choices[id]? = some d
  depth : t.depth ≤ t'.depth

theorem Retains.refl (t : TypeTable) : t.Retains t :=
  ⟨rfl, fun _ d _ hd hf => ⟨d, hd, hf⟩, fun _ _ _ hd _ => hd, fun _ _ hd => hd, Nat.le_refl _⟩

theorem Retains.trans (h : t.Retains t') (h' : t'.Retains t'') : t.Retains t'' where
  pointerWidth := h'.pointerWidth.trans h.pointerWidth
  fields id d fs hd hf := by
    obtain ⟨d', hd', hf'⟩ := h.fields id d fs hd hf
    exact h'.fields id d' fs hd' hf'
  variants id d vs hd hv := h'.variants id d vs (h.variants id d vs hd hv) hv
  choices id d hd := h'.choices id d (h.choices id d hd)
  depth := h.depth.trans h'.depth

/-! ### Layouts -/

section

variable {parts parts' : Ty → Option Layout}

mutual

/-- One definition deep: a type keeps its layout if the parts of definitions do. -/
theorem layoutStep_retained (h : t.Retains t')
    (hparts : ∀ p l, parts p = some l → parts' p = some l) :
    ∀ ty l, t.layoutStep parts ty = some l → t'.layoutStep parts' ty = some l
  | .array element _, l, hl | .vector element _ _, l, hl | .maybe element, l, hl => by
    rw [layoutStep] at hl ⊢
    obtain ⟨e, he, rfl⟩ := Option.map_eq_some_iff.mp hl
    rw [layoutStep_retained h hparts element e he]
    rfl
  | .tuple members _, l, hl => by
    rw [layoutStep] at hl ⊢
    obtain ⟨ls, hls, rfl⟩ := Option.map_eq_some_iff.mp hl
    rw [layoutsStep_retained h hparts members ls hls]
    rfl
  | .struct id, l, hl => by
    rw [layoutStep] at hl ⊢
    obtain ⟨d, hd, hl⟩ := Option.bind_eq_some_iff.mp hl
    obtain ⟨fields, hfields, hl⟩ := Option.bind_eq_some_iff.mp hl
    obtain ⟨ls, hls, hl⟩ := Option.bind_eq_some_iff.mp hl
    obtain ⟨d', hd', hfields'⟩ := h.fields id d fields hd hfields
    have hls' := mapM_mono (fun f : FieldDef => hparts f.type) hls
    simp only [hd', hfields', hls', Option.bind_eq_bind, Option.bind_some]
    exact hl
  | .mix id, l, hl => by
    rw [layoutStep] at hl ⊢
    obtain ⟨d, hd, hl⟩ := Option.bind_eq_some_iff.mp hl
    obtain ⟨variants, hvariants, hl⟩ := Option.bind_eq_some_iff.mp hl
    obtain ⟨ls, hls, hl⟩ := Option.bind_eq_some_iff.mp hl
    simp only [h.variants id d variants hd hvariants, hvariants, mapM_mono hparts hls,
      Option.bind_eq_bind, Option.bind_some]
    exact hl
  | .choice id, l, hl => by
    rw [layoutStep] at hl ⊢
    obtain ⟨d, hd, hl⟩ := Option.bind_eq_some_iff.mp hl
    rw [h.choices id d hd]
    exact hparts _ _ hl
  | .float kind, l, hl => by cases kind <;> exact hl
  | .str, l, hl | .mark .., l, hl | .ref .., l, hl | .future .., l, hl | .native _, l, hl => by
    simp only [layoutStep, fatPointerLayout, pointerLayout, h.pointerWidth] at hl ⊢
    exact hl
  | .void, l, hl | .function .., l, hl | .typed _, l, hl | .int _, l, hl | .uint _, l, hl
  | .char, l, hl | .bool, l, hl => by
    rw [layoutStep] at hl ⊢
    exact hl

theorem layoutsStep_retained (h : t.Retains t')
    (hparts : ∀ p l, parts p = some l → parts' p = some l) :
    ∀ tys ls, t.layoutsStep parts tys = some ls → t'.layoutsStep parts' tys = some ls
  | [], ls, hls => by
    rw [layoutsStep] at hls ⊢
    exact hls
  | ty :: tys, ls, hls => by
    rw [layoutsStep] at hls ⊢
    obtain ⟨l, hl, hls⟩ := Option.bind_eq_some_iff.mp hls
    obtain ⟨ls', hls', hls⟩ := Option.bind_eq_some_iff.mp hls
    rw [layoutStep_retained h hparts ty l hl, layoutsStep_retained h hparts tys ls' hls']
    exact hls

end

end

theorem Retains.layoutWithin? (h : t.Retains t') {l : Layout} (hle : n ≤ m)
    (hl : t.layoutWithin? n ty = some l) : t'.layoutWithin? m ty = some l := by
  induction n generalizing m ty l with
  | zero => cases hl
  | succ n ih =>
    obtain ⟨m, rfl⟩ : ∃ k, m = k + 1 := ⟨m - 1, by omega⟩
    exact layoutStep_retained h (fun p l hp => ih (by omega) hp) ty l hl

/-- A type that has a layout keeps it. -/
theorem Retains.layout? (h : t.Retains t') {l : Layout} (hl : t.layout? ty = some l) :
    t'.layout? ty = some l :=
  h.layoutWithin? h.depth hl

/-! ## Edits -/

inductive Edit (t : TypeTable) : TypeTable → Prop
  /-- Types are used, skills and members are added. -/
  | same {t' : TypeTable} (h : t.SameParts t') (hwidth : t'.pointerWidth = t.pointerWidth) :
    Edit t t'
  | addStruct {d : StructDef} (h : d.fields? = none) : Edit t (t.addStruct d).1
  | addMix {d : MixDef} (h : d.variants? = none) : Edit t (t.addMix d).1
  | addChoice {d : ChoiceDef} (h : t.isIntegral d.underlying = true) : Edit t (t.addChoice d).1
  | setFields {id : Nat} {fields : List FieldDef} (hblank : t.parts? (.struct id) = none)
    (hsized : ∀ f ∈ fields, t.isSized f.type = true) :
    Edit t (t.setFields (.struct id) (some fields))
  | setVariants {id : Nat} {variants : List MixVariant} {default : Option Nat}
    (hblank : t.parts? (.mix id) = none)
    (hsized : ∀ v ∈ variants, ∀ ty, v.payload = some ty → t.isSized ty = true) :
    Edit t (t.modifyMix id fun m => { m with variants? := some variants, default })

/-- Which types are integers is the same in all tables. -/
theorem isIntegral_table (t t' : TypeTable) (ty : Ty) : t'.isIntegral ty = t.isIntegral ty := by
  cases ty with
  | native kind => cases kind <;> rfl
  | _ => rfl

theorem SameDefinitions.edit (h : t.SameDefinitions t') : t.Edit t' :=
  .same h.sameParts h.pointerWidth

theorem edit_addSkill (t : TypeTable) (d : SkillDef) : t.Edit (t.addSkill d).1 :=
  .same ⟨fun _ => rfl, rfl, rfl⟩ rfl

theorem edit_addDone (t : TypeTable) (d : DoneSkill) : t.Edit (t.addDone d).1 :=
  .same ⟨fun _ => rfl, rfl, rfl⟩ rfl

namespace Edit

theorem grows (h : t.Edit t') : t.Grows t' := by
  cases h with
  | same h _ => exact h.extends.grows
  | addStruct h => exact (extends_addStruct h).grows
  | addMix h => exact (extends_addMix h).grows
  | addChoice h => exact (extends_addChoice ⟨t, h⟩).grows
  | setFields hblank hsized => exact .fills .refl (fills_setFields hblank hsized)
  | setVariants hblank hsized => exact .fills .refl (fills_modifyMix hblank hsized)

/-- A definition is filled in only with parts that have a size already. -/
theorem sized (h : t.Edit t') (hold : t.parts? ty = none) (hnew : t'.parts? ty = some ps) :
    ∀ p ∈ ps, t.isSized p = true := by
  have hfills {d : Ty} (h : t.Fills d t') : ∀ p ∈ ps, t.isSized p = true := by
    by_cases hd : ty = d
    · subst hd
      exact h.sized ps hnew
    · rw [h.other ty hd, hold] at hnew
      cases hnew
  cases h with
  | same h _ =>
    rw [h.parts_eq, hold] at hnew
    cases hnew
  | addStruct h =>
    rw [parts_addStruct h, hold] at hnew
    cases hnew
  | addMix h =>
    rw [parts_addMix h, hold] at hnew
    cases hnew
  | addChoice h =>
    rw [parts_addChoice] at hnew
    split at hnew
    · cases hnew
      intro p hp
      rw [List.mem_singleton.mp hp]
      exact (sizedWithin_of_isIntegral h t).mono (fun _ _ h => h) (Nat.le_add_left 1 _)
    · rw [hold] at hnew
      cases hnew
  | setFields hblank hsized => exact hfills (fills_setFields hblank hsized)
  | setVariants hblank hsized => exact hfills (fills_modifyMix hblank hsized)

end Edit

/-! ### What edits retain -/

theorem getElem?_push_of_some {α : Type} {xs : Array α} {a b : α} {i : Nat} (h : xs[i]? = some a) :
    (xs.push b)[i]? = some a := by
  rw [Array.getElem?_push, if_neg (Array.getElem?_eq_some_iff.mp h).1.ne, h]

theorem SameParts.retains (h : t.SameParts t') (hwidth : t'.pointerWidth = t.pointerWidth) :
    t.Retains t' where
  pointerWidth := hwidth
  fields id d fields hd hf := by
    have hmap := h.fields id
    rw [hd, Option.map_some] at hmap
    obtain ⟨d', hd', hsame⟩ := Option.map_eq_some_iff.mp hmap
    exact ⟨d', hd', hsame.trans hf⟩
  variants id d _ hd _ := by rw [h.mixes, hd]
  choices id d hd := by rw [h.choices, hd]
  depth := by rw [depth, depth, h.structs_size, h.mixes, h.choices]

theorem SameDefinitions.retains (h : t.SameDefinitions t') : t.Retains t' :=
  h.sameParts.retains h.pointerWidth

theorem retains_addStruct (t : TypeTable) (d : StructDef) : t.Retains (t.addStruct d).1 := by
  have hpush : t.Retains { t with structs := t.structs.push d } :=
    { Retains.refl t with
      fields _ d _ hd hf := ⟨d, getElem?_push_of_some hd, hf⟩
      depth := by simp only [depth, Array.size_push]; omega }
  exact hpush.trans (same_intern _ _).retains

theorem retains_addMix (t : TypeTable) (d : MixDef) : t.Retains (t.addMix d).1 := by
  have hpush : t.Retains { t with mixes := t.mixes.push d } :=
    { Retains.refl t with
      variants _ _ _ hd _ := getElem?_push_of_some hd
      depth := by simp only [depth, Array.size_push]; omega }
  exact hpush.trans (same_intern _ _).retains

theorem retains_addChoice (t : TypeTable) (d : ChoiceDef) : t.Retains (t.addChoice d).1 := by
  have hpush : t.Retains { t with choices := t.choices.push d } :=
    { Retains.refl t with
      choices _ _ hd := getElem?_push_of_some hd
      depth := by simp only [depth, Array.size_push]; omega }
  exact hpush.trans (same_intern _ _).retains

/-- What is filled in was not known before. -/
theorem retains_setFields {fields : List FieldDef} (hblank : t.parts? (.struct id) = none) :
    t.Retains (t.setFields (.struct id) (some fields)) :=
  { Retains.refl t with
    fields i d fs hd hf := by
      by_cases hi : id = i
      · subst hi
        simp [parts?, hd, hf] at hblank
      · refine ⟨d, ?_, hf⟩
        rw [setFields, modifyStruct, Array.getElem?_modify, if_neg hi, hd]
    depth := by simp only [setFields, modifyStruct, depth, Array.size_modify]; exact Nat.le_refl _ }

theorem retains_modifyMix {f : MixDef → MixDef} (hblank : t.parts? (.mix id) = none) :
    t.Retains (t.modifyMix id f) :=
  { Retains.refl t with
    variants i d vs hd hv := by
      by_cases hi : id = i
      · subst hi
        simp [parts?, hd, hv] at hblank
      · rw [modifyMix, Array.getElem?_modify, if_neg hi, hd]
    depth := by simp only [modifyMix, depth, Array.size_modify]; exact Nat.le_refl _ }

theorem Edit.retains (h : t.Edit t') : t.Retains t' := by
  cases h with
  | same h hwidth => exact h.retains hwidth
  | addStruct _ => exact retains_addStruct t _
  | addMix _ => exact retains_addMix t _
  | addChoice _ => exact retains_addChoice t _
  | setFields hblank _ => exact retains_setFields hblank
  | setVariants hblank _ => exact retains_modifyMix hblank

/-! ## Evolution -/

abbrev Evolves : TypeTable → TypeTable → Prop := Relation.ReflTransGen Edit

theorem Edit.evolves (h : t.Edit t') : t.Evolves t' := .single h

namespace Evolves

theorem grows (h : t.Evolves t') : t.Grows t' := by
  induction h with
  | refl => exact .refl
  | tail _ h ih => exact ih.trans h.grows

theorem retains (h : t.Evolves t') : t.Retains t' := by
  induction h with
  | refl => exact .refl t
  | tail _ h ih => exact ih.trans h.retains

end Evolves

end TypeTable

end Staged
