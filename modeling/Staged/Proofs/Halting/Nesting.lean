/-
  Staged.Proofs.Halting.Nesting — types do not hold themselves.

  A struct, a mix and a choice hold other types by value: their parts, once they are known.
  Recursion over values of a type follows the parts of its definitions, so it comes to an
  end when no chain of definitions goes on for ever (`TypeTable.NestsWithin`).

  What keeps chains short is that a definition is filled in only with parts that have a
  size, and those are made of definitions filled in before (`TypeTable.Grounded`). A table
  grows by use, by definitions of which nothing is known yet, and by filling in one of these
  (`TypeTable.Grows`); however it grows, it stays grounded.
-/

import Mathlib.Data.Finset.Card
import Mathlib.Data.Finset.Image
import Mathlib.Data.Finset.Range
import Staged.Proofs.Definitions
import Staged.Proofs.Lists
import Staged.Ty.Layout

namespace Staged

namespace TypeTable

/-! ## Parts of definitions -/

/-- The types that a definition holds by value, if they are known. -/
def parts? (t : TypeTable) : Ty → Option (List Ty)
  | .struct id => (t.structs[id]?).bind fun d => d.fields?.map (·.map FieldDef.type)
  | .mix id => (t.mixes[id]?).bind fun d => d.variants?.map (·.filterMap MixVariant.payload)
  | .choice id => (t.choices[id]?).map fun d => [d.underlying]
  | _ => none

mutual

/-- One definition deep: all definitions in a type have parts that satisfy a property. -/
def NestsStep (t : TypeTable) (part : Ty → Prop) : Ty → Prop
  | .array element _ => t.NestsStep part element
  | .vector element _ _ => t.NestsStep part element
  | .tuple members _ => t.NestAllStep part members
  | .maybe sub => t.NestsStep part sub
  | ty => ∀ ps, t.parts? ty = some ps → ∀ p ∈ ps, part p

def NestAllStep (t : TypeTable) (part : Ty → Prop) : List Ty → Prop
  | [] => True
  | ty :: tys => t.NestsStep part ty ∧ t.NestAllStep part tys

end

/-- Going from definitions to their parts ends after less than so many steps. -/
def NestsWithin (t : TypeTable) : Nat → Ty → Prop
  | 0 => fun _ => False
  | n + 1 => t.NestsStep (t.NestsWithin n)

variable {t t' : TypeTable} {id : Nat} {ty : Ty} {ps : List Ty} {n m : Nat}

theorem parts_struct : t.parts? (.struct id) = some ps ↔
    ∃ d, t.structs[id]? = some d ∧ d.isComplete = true ∧ d.fieldTypes = ps := by
  unfold parts? StructDef.isComplete StructDef.fieldTypes StructDef.fields
  cases hd : t.structs[id]? with
  | none => simp [hd]
  | some d => cases h : d.fields? <;> simp [hd, h]

theorem parts_mix : t.parts? (.mix id) = some ps ↔
    ∃ d, t.mixes[id]? = some d ∧ d.variants?.isSome = true ∧ d.payloads = ps := by
  unfold parts? MixDef.payloads MixDef.variants
  cases hd : t.mixes[id]? with
  | none => simp [hd]
  | some d => cases h : d.variants? <;> simp [hd, h]

theorem parts_choice : t.parts? (.choice id) = some ps ↔
    ∃ d, t.choices[id]? = some d ∧ [d.underlying] = ps := by
  unfold parts?
  exact Option.map_eq_some_iff

/-! ## Chains of definitions -/

section

variable {part : Ty → Prop}

theorem NestsStep.fieldTypes {d : StructDef} (h : t.NestsStep part (.struct id))
    (hd : t.structs[id]? = some d) : ∀ p ∈ d.fieldTypes, part p := by
  cases hf : d.fields? with
  | none => simp [StructDef.fieldTypes, StructDef.fields, hf]
  | some fields => exact h _ (parts_struct.mpr ⟨d, hd, by simp [StructDef.isComplete, hf], rfl⟩)

theorem NestsStep.payloads {d : MixDef} (h : t.NestsStep part (.mix id))
    (hd : t.mixes[id]? = some d) : ∀ p ∈ d.payloads, part p := by
  cases hv : d.variants? with
  | none => simp [MixDef.payloads, MixDef.variants, hv]
  | some variants => exact h _ (parts_mix.mpr ⟨d, hd, by simp [hv], rfl⟩)

theorem NestsStep.underlying {d : ChoiceDef} (h : t.NestsStep part (.choice id))
    (hd : t.choices[id]? = some d) : part d.underlying :=
  h _ (parts_choice.mpr ⟨d, hd, rfl⟩) _ List.mem_cons_self

end

/-! ## Sizes -/

theorem isSome_bind_some {α β : Type} {x : Option α} {f : α → β} :
    (x.bind fun a => some (f a)).isSome = x.isSome := by
  cases x <;> rfl

variable {parts parts' : Ty → Option Layout}

/-- A definition has a layout if its parts are known and have one. -/
theorem isSome_layoutStep_struct : (t.layoutStep parts (.struct id)).isSome = true ↔
    ∃ ps, t.parts? (.struct id) = some ps ∧ ∀ p ∈ ps, (parts p).isSome = true := by
  unfold layoutStep parts?
  cases hd : t.structs[id]? with
  | none => simp [hd]
  | some d =>
    cases h : d.fields? with
    | none => simp [hd, h]
    | some fields => simp [hd, h, isSome_bind_some, isSome_mapM]

theorem isSome_layoutStep_mix : (t.layoutStep parts (.mix id)).isSome = true ↔
    ∃ ps, t.parts? (.mix id) = some ps ∧ ∀ p ∈ ps, (parts p).isSome = true := by
  unfold layoutStep parts? MixDef.payloads MixDef.variants
  cases hd : t.mixes[id]? with
  | none => simp [hd]
  | some d =>
    cases h : d.variants? with
    | none => simp [hd, h]
    | some variants => simp [hd, h, isSome_bind_some, isSome_mapM]

theorem isSome_layoutStep_choice : (t.layoutStep parts (.choice id)).isSome = true ↔
    ∃ ps, t.parts? (.choice id) = some ps ∧ ∀ p ∈ ps, (parts p).isSome = true := by
  unfold layoutStep parts?
  cases hd : t.choices[id]? <;> simp [hd]

mutual

/-- A type keeps a layout when the parts of definitions do. -/
theorem isSome_layoutStep
    (h : ∀ ty ps, t.parts? ty = some ps → (∀ p ∈ ps, (parts p).isSome = true) →
      t'.parts? ty = some ps ∧ ∀ p ∈ ps, (parts' p).isSome = true) :
    ∀ ty, (t.layoutStep parts ty).isSome = true → (t'.layoutStep parts' ty).isSome = true
  | .struct id, hty => by
    obtain ⟨ps, hps, hsized⟩ := isSome_layoutStep_struct.mp hty
    exact isSome_layoutStep_struct.mpr ⟨ps, h _ ps hps hsized⟩
  | .mix id, hty => by
    obtain ⟨ps, hps, hsized⟩ := isSome_layoutStep_mix.mp hty
    exact isSome_layoutStep_mix.mpr ⟨ps, h _ ps hps hsized⟩
  | .choice id, hty => by
    obtain ⟨ps, hps, hsized⟩ := isSome_layoutStep_choice.mp hty
    exact isSome_layoutStep_choice.mpr ⟨ps, h _ ps hps hsized⟩
  | .array element _, hty | .vector element _ _, hty | .maybe element, hty => by
    unfold layoutStep at hty ⊢
    rw [Option.isSome_map] at hty ⊢
    exact isSome_layoutStep h element hty
  | .tuple members _, hty => by
    unfold layoutStep at hty ⊢
    rw [Option.isSome_map] at hty ⊢
    exact isSome_layoutsStep h members hty
  | .float kind, _ => by cases kind <;> rfl
  | .int _, _ | .uint _, _ | .char, _ | .bool, _ | .str, _ | .mark .., _ | .ref .., _
  | .future .., _ | .native _, _ => rfl

theorem isSome_layoutsStep
    (h : ∀ ty ps, t.parts? ty = some ps → (∀ p ∈ ps, (parts p).isSome = true) →
      t'.parts? ty = some ps ∧ ∀ p ∈ ps, (parts' p).isSome = true) :
    ∀ tys, (t.layoutsStep parts tys).isSome = true → (t'.layoutsStep parts' tys).isSome = true
  | [], _ => rfl
  | ty :: tys, htys => by
    unfold layoutsStep at htys ⊢
    obtain ⟨hty, hrest⟩ : (t.layoutStep parts ty).isSome = true ∧
        (t.layoutsStep parts tys).isSome = true := by
      cases hl : t.layoutStep parts ty <;> cases hls : t.layoutsStep parts tys <;>
        simp [hl, hls] at htys ⊢
    obtain ⟨l, hl⟩ := Option.isSome_iff_exists.mp (isSome_layoutStep h ty hty)
    obtain ⟨ls, hls⟩ := Option.isSome_iff_exists.mp (isSome_layoutsStep h tys hrest)
    rw [hl, hls]
    rfl

end

/-- A type has a size that is found through less than so many definitions. -/
def SizedWithin (t : TypeTable) (n : Nat) (ty : Ty) : Prop := (t.layoutWithin? n ty).isSome = true

/-- What is known stays known, and whatever has a size keeps it. -/
theorem SizedWithin.mono (h : t.SizedWithin n ty) (hkept : ∀ ty ps, t.parts? ty = some ps →
    t'.parts? ty = some ps) (hle : n ≤ m) : t'.SizedWithin m ty := by
  induction n generalizing m ty with
  | zero => cases h
  | succ n ih =>
    obtain ⟨m, rfl⟩ : ∃ k, m = k + 1 := ⟨m - 1, by omega⟩
    exact isSome_layoutStep (fun ty ps hps hsized =>
      ⟨hkept ty ps hps, fun p hp => ih (hsized p hp) (by omega)⟩) ty h

mutual

/-- Parts that have a layout have a property, so definitions in a type that has one do. -/
theorem nestsStep_of_isSome {part : Ty → Prop} (h : ∀ p, (parts p).isSome = true → part p) :
    ∀ ty, (t.layoutStep parts ty).isSome = true → t.NestsStep part ty
  | .struct id, hty => by
    obtain ⟨ps, hps, hsized⟩ := isSome_layoutStep_struct.mp hty
    intro ps' hps' p hp
    cases hps.symm.trans hps'
    exact h p (hsized p hp)
  | .mix id, hty => by
    obtain ⟨ps, hps, hsized⟩ := isSome_layoutStep_mix.mp hty
    intro ps' hps' p hp
    cases hps.symm.trans hps'
    exact h p (hsized p hp)
  | .choice id, hty => by
    obtain ⟨ps, hps, hsized⟩ := isSome_layoutStep_choice.mp hty
    intro ps' hps' p hp
    cases hps.symm.trans hps'
    exact h p (hsized p hp)
  | .array element _, hty | .vector element _ _, hty | .maybe element, hty => by
    unfold layoutStep at hty
    rw [Option.isSome_map] at hty
    exact nestsStep_of_isSome h element hty
  | .tuple members _, hty => by
    unfold layoutStep at hty
    rw [Option.isSome_map] at hty
    exact nestAllStep_of_isSome h members hty
  | .int _, _ | .uint _, _ | .float _, _ | .char, _ | .bool, _ | .str, _ | .mark .., _ | .ref .., _
  | .future .., _ | .native _, _ => fun _ hps => by cases hps

theorem nestAllStep_of_isSome {part : Ty → Prop} (h : ∀ p, (parts p).isSome = true → part p) :
    ∀ tys, (t.layoutsStep parts tys).isSome = true → t.NestAllStep part tys
  | [], _ => trivial
  | ty :: tys, htys => by
    unfold layoutsStep at htys
    cases hl : t.layoutStep parts ty with
    | none => simp [hl] at htys
    | some l =>
      cases hls : t.layoutsStep parts tys with
      | none => simp [hl, hls] at htys
      | some ls =>
        exact ⟨nestsStep_of_isSome h ty (Option.isSome_of_eq_some hl),
          nestAllStep_of_isSome h tys (Option.isSome_of_eq_some hls)⟩

end

/-- Chains of definitions end in a type that has a size. -/
theorem SizedWithin.nests (h : t.SizedWithin n ty) : t.NestsWithin n ty := by
  induction n generalizing ty with
  | zero => cases h
  | succ n ih => exact nestsStep_of_isSome (fun _ hp => ih hp) ty h

mutual

theorem nestsStep_of_parts {part : Ty → Prop}
    (h : ∀ ty ps, t.parts? ty = some ps → ∀ p ∈ ps, part p) : ∀ ty, t.NestsStep part ty
  | .array element _ | .vector element _ _ | .maybe element => nestsStep_of_parts h element
  | .tuple members _ => nestAllStep_of_parts h members
  | .struct _ | .mix _ | .choice _ => h _
  | .int _ | .uint _ | .float _ | .char | .bool | .void | .str | .mark .. | .ref ..
  | .function .. | .future .. | .typed _ | .native _ => h _

theorem nestAllStep_of_parts {part : Ty → Prop}
    (h : ∀ ty ps, t.parts? ty = some ps → ∀ p ∈ ps, part p) : ∀ tys, t.NestAllStep part tys
  | [] => trivial
  | ty :: tys => ⟨nestsStep_of_parts h ty, nestAllStep_of_parts h tys⟩

end

/-! ## Grounded tables -/

def nominal (t : TypeTable) : Finset Ty :=
  (Finset.range t.structs.size).image Ty.struct ∪ (Finset.range t.mixes.size).image Ty.mix ∪
    (Finset.range t.choices.size).image Ty.choice

def known (t : TypeTable) : Finset Ty := t.nominal.filter fun ty => (t.parts? ty).isSome = true

theorem mem_known : ty ∈ t.known ↔ (t.parts? ty).isSome = true := by
  refine Finset.mem_filter.trans (and_iff_right_of_imp fun h => ?_)
  obtain ⟨ps, hps⟩ := Option.isSome_iff_exists.mp h
  simp only [nominal, Finset.mem_union, Finset.mem_image, Finset.mem_range]
  cases ty with
  | struct id =>
    obtain ⟨d, hd, -⟩ := parts_struct.mp hps
    exact .inl (.inl ⟨id, (Array.getElem?_eq_some_iff.mp hd).1, rfl⟩)
  | mix id =>
    obtain ⟨d, hd, -⟩ := parts_mix.mp hps
    exact .inl (.inr ⟨id, (Array.getElem?_eq_some_iff.mp hd).1, rfl⟩)
  | choice id =>
    obtain ⟨d, hd, -⟩ := parts_choice.mp hps
    exact .inr ⟨id, (Array.getElem?_eq_some_iff.mp hd).1, rfl⟩
  | _ => cases hps

theorem card_known_lt (t : TypeTable) : t.known.card < t.depth := by
  have hcard : t.nominal.card ≤ t.structs.size + t.mixes.size + t.choices.size := by
    refine (Finset.card_union_le _ _).trans (Nat.add_le_add ((Finset.card_union_le _ _).trans
      (Nat.add_le_add ?_ ?_)) ?_)
    all_goals exact Finset.card_image_le.trans (Finset.card_range _).le
  have hfilter : t.known.card ≤ t.nominal.card := Finset.card_filter_le _ _
  unfold depth
  omega

theorem known_subset (h : ∀ ty ps, t.parts? ty = some ps → t'.parts? ty = some ps) :
    t.known ⊆ t'.known := by
  intro ty hty
  obtain ⟨ps, hps⟩ := Option.isSome_iff_exists.mp (mem_known.mp hty)
  exact mem_known.mpr (Option.isSome_of_eq_some (h ty ps hps))

/-- The parts of definitions are made of definitions that were filled in before. -/
def Grounded (t : TypeTable) : Prop :=
  ∀ ty ps, t.parts? ty = some ps → ∀ p ∈ ps, t.SizedWithin t.known.card p

/-- In a grounded table, no chain of definitions is longer than there are definitions. -/
theorem Grounded.nests (h : t.Grounded) (ty : Ty) : t.NestsWithin (t.known.card + 1) ty :=
  nestsStep_of_parts (fun _ _ hps p hp => (h _ _ hps p hp).nests) ty

theorem Grounded.sized (h : t.Grounded) (hty : t.SizedWithin n ty) :
    t.SizedWithin (t.known.card + 1) ty := by
  cases n with
  | zero => cases hty
  | succ n => exact isSome_layoutStep (fun _ _ hps _ => ⟨hps, h _ _ hps⟩) ty hty

theorem grounded_ofPointerWidth (width : Nat) : (ofPointerWidth width).Grounded := by
  intro ty ps hps
  cases ty <;> cases hps

/-! ## Growing -/

/-- Definitions are added, and nothing is filled in: a choice has its numbers' type, which is
a scalar, from the start. -/
structure Extends (t t' : TypeTable) : Prop where
  kept : ∀ ty ps, t.parts? ty = some ps → t'.parts? ty = some ps
  added : ∀ ty ps, t'.parts? ty = some ps → t.parts? ty = some ps ∨
    (∃ id, ty = .choice id) ∧ ∀ p ∈ ps, t'.SizedWithin 1 p
  structs : t.structs.size ≤ t'.structs.size
  mixes : t.mixes.size ≤ t'.mixes.size

structure Fills (t : TypeTable) (ty : Ty) (t' : TypeTable) : Prop where
  unknown : t.parts? ty = none
  sized : ∀ ps, t'.parts? ty = some ps → ∀ p ∈ ps, t.isSized p = true
  other : ∀ ty', ty' ≠ ty → t'.parts? ty' = t.parts? ty'
  structs : t'.structs.size = t.structs.size
  mixes : t'.mixes.size = t.mixes.size

inductive Grows (t : TypeTable) : TypeTable → Prop
  | refl : Grows t t
  | extends {t₁ t₂ : TypeTable} : Grows t t₁ → t₁.Extends t₂ → Grows t t₂
  | fills {t₁ t₂ : TypeTable} {ty : Ty} : Grows t t₁ → t₁.Fills ty t₂ → Grows t t₂

theorem Extends.refl (t : TypeTable) : t.Extends t :=
  ⟨fun _ _ h => h, fun _ _ h => .inl h, Nat.le_refl _, Nat.le_refl _⟩

theorem Extends.trans {t'' : TypeTable} (h : t.Extends t') (h' : t'.Extends t'') :
    t.Extends t'' where
  kept ty ps hps := h'.kept ty ps (h.kept ty ps hps)
  added ty ps hps := by
    rcases h'.added ty ps hps with hps | hnew
    · refine (h.added ty ps hps).imp_right (And.imp_right fun hsized p hp => ?_)
      exact (hsized p hp).mono h'.kept (Nat.le_refl 1)
    · exact .inr hnew
  structs := h.structs.trans h'.structs
  mixes := h.mixes.trans h'.mixes

theorem SameParts.parts_eq (h : t.SameParts t') (ty : Ty) : t'.parts? ty = t.parts? ty := by
  cases ty with
  | struct id =>
    have hparts (t : TypeTable) : t.parts? (.struct id) =
        ((t.structs[id]?).map StructDef.fields?).bind fun fs => fs.map (·.map FieldDef.type) := by
      simp only [parts?]
      cases t.structs[id]? <;> rfl
    rw [hparts, hparts, h.fields]
  | mix id => simp only [parts?, h.mixes]
  | choice id => simp only [parts?, h.choices]
  | _ => rfl

theorem SameParts.extends (h : t.SameParts t') : t.Extends t' where
  kept ty _ hps := (h.parts_eq ty).trans hps
  added ty _ hps := .inl ((h.parts_eq ty).symm.trans hps)
  structs := h.structs_size.ge
  mixes := (congrArg Array.size h.mixes).ge

theorem Extends.grows (h : t.Extends t') : t.Grows t' := .extends .refl h

theorem Grows.trans {t'' : TypeTable} (h : t.Grows t') (h' : t'.Grows t'') : t.Grows t'' := by
  induction h' with
  | refl => exact h
  | «extends» _ hext ih => exact ih.extends hext
  | fills _ hfill ih => exact ih.fills hfill

theorem Grounded.extends (ht : t.Grounded) (h : t.Extends t') : t'.Grounded := by
  have hcard : t.known.card ≤ t'.known.card := Finset.card_le_card (known_subset h.kept)
  intro ty ps hps p hp
  rcases h.added ty ps hps with hold | ⟨-, hsized⟩
  · exact (ht ty ps hold p hp).mono h.kept hcard
  · refine (hsized p hp).mono (fun _ _ h => h) (Finset.card_pos.mpr ⟨ty, ?_⟩)
    exact mem_known.mpr (Option.isSome_of_eq_some hps)

theorem Fills.kept (h : t.Fills ty t') (ty' : Ty) (ps : List Ty) (hps : t.parts? ty' = some ps) :
    t'.parts? ty' = some ps := by
  refine (h.other ty' ?_).trans hps
  rintro rfl
  rw [h.unknown] at hps
  cases hps

/-- Its parts were there before, so what is filled in is one longer than what they are. -/
theorem Grounded.fills (ht : t.Grounded) (h : t.Fills ty t') : t'.Grounded := by
  have hcard : t.known.card ≤ t'.known.card := Finset.card_le_card (known_subset h.kept)
  intro ty' ps hps p hp
  by_cases hty : ty' = ty
  · subst hty
    have hsized := ht.sized (h.sized ps hps p hp)
    refine hsized.mono h.kept (Finset.card_lt_card ⟨known_subset h.kept, fun hsub => ?_⟩)
    have hold := mem_known.mp (hsub (mem_known.mpr (Option.isSome_of_eq_some hps)))
    rw [h.unknown] at hold
    cases hold
  · rw [h.other ty' hty] at hps
    exact (ht ty' ps hps p hp).mono h.kept hcard

/-- However a table grows, no type comes to hold itself. -/
theorem Grounded.grows (ht : t.Grounded) (h : t.Grows t') : t'.Grounded := by
  induction h with
  | refl => exact ht
  | «extends» _ hext ih => exact ih.extends hext
  | fills _ hfill ih => exact ih.fills hfill

end TypeTable

end Staged
