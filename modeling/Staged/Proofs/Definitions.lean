/-
  Staged.Proofs.Definitions — tables with the same definitions.

  A type table lists the types that have been used and holds the definitions behind nominal
  types. Using a type leaves the definitions alone, and with them all that depends on
  nothing else.
-/

import Staged.Ty.Table

namespace Staged

namespace TypeTable

structure SameDefinitions (t t' : TypeTable) : Prop where
  structs : t'.structs = t.structs
  mixes : t'.mixes = t.mixes
  choices : t'.choices = t.choices
  done : t'.done = t.done
  pointerWidth : t'.pointerWidth = t.pointerWidth

structure SameParts (t t' : TypeTable) : Prop where
  fields : ∀ id : Nat, t'.structs[id]?.map StructDef.fields? = t.structs[id]?.map StructDef.fields?
  mixes : t'.mixes = t.mixes
  choices : t'.choices = t.choices

variable {t t' t'' : TypeTable}

theorem SameDefinitions.refl (t : TypeTable) : t.SameDefinitions t := ⟨rfl, rfl, rfl, rfl, rfl⟩

theorem SameDefinitions.symm (h : t.SameDefinitions t') : t'.SameDefinitions t :=
  ⟨h.structs.symm, h.mixes.symm, h.choices.symm, h.done.symm, h.pointerWidth.symm⟩

theorem SameDefinitions.trans (h : t.SameDefinitions t') (h' : t'.SameDefinitions t'') :
    t.SameDefinitions t'' :=
  ⟨h'.structs.trans h.structs, h'.mixes.trans h.mixes, h'.choices.trans h.choices,
    h'.done.trans h.done, h'.pointerWidth.trans h.pointerWidth⟩

theorem same_intern (t : TypeTable) (ty : Ty) : t.SameDefinitions (t.intern ty) := by
  unfold TypeTable.intern
  split
  · exact .refl t
  · exact ⟨rfl, rfl, rfl, rfl, rfl⟩

theorem SameDefinitions.intern (h : t.SameDefinitions t') (ty : Ty) :
    t.SameDefinitions (t'.intern ty) := h.trans (t'.same_intern ty)

theorem SameDefinitions.intInfo? (h : t.SameDefinitions t') (ty : Ty) :
    t'.intInfo? ty = t.intInfo? ty := by
  unfold TypeTable.intInfo?
  rw [h.pointerWidth]

theorem SameDefinitions.isIntegral (h : t.SameDefinitions t') (ty : Ty) :
    t'.isIntegral ty = t.isIntegral ty :=
  congrArg Option.isSome (h.intInfo? ty)

theorem SameDefinitions.floatKind? (h : t.SameDefinitions t') (ty : Ty) :
    t'.floatKind? ty = t.floatKind? ty := by
  unfold TypeTable.floatKind?
  rw [h.pointerWidth]

theorem SameDefinitions.structOf? (h : t.SameDefinitions t') (ty : Ty) :
    t'.structOf? ty = t.structOf? ty := by
  unfold TypeTable.structOf?
  rw [h.structs]

theorem SameDefinitions.mixOf? (h : t.SameDefinitions t') (ty : Ty) :
    t'.mixOf? ty = t.mixOf? ty := by
  unfold TypeTable.mixOf?
  rw [h.mixes]

theorem SameDefinitions.choiceOf? (h : t.SameDefinitions t') (ty : Ty) :
    t'.choiceOf? ty = t.choiceOf? ty := by
  unfold TypeTable.choiceOf?
  rw [h.choices]

theorem SameDefinitions.membersOf (h : t.SameDefinitions t') (ty : Ty) :
    t'.membersOf ty = t.membersOf ty := by
  unfold TypeTable.membersOf TypeTable.doneFor
  rw [h.structOf?, h.done]

/-! ## The same parts -/

theorem SameDefinitions.sameParts (h : t.SameDefinitions t') : t.SameParts t' :=
  ⟨fun _ => by rw [h.structs], h.mixes, h.choices⟩

theorem SameParts.refl (t : TypeTable) : t.SameParts t := (SameDefinitions.refl t).sameParts

theorem SameParts.trans (h : t.SameParts t') (h' : t'.SameParts t'') : t.SameParts t'' :=
  ⟨fun id => (h'.fields id).trans (h.fields id), h'.mixes.trans h.mixes, h'.choices.trans h.choices⟩

theorem SameParts.structs_size (h : t.SameParts t') : t'.structs.size = t.structs.size := by
  have hle (i : Nat) : t'.structs.size ≤ i ↔ t.structs.size ≤ i := by
    rw [← Array.getElem?_eq_none_iff, ← Array.getElem?_eq_none_iff, ← Option.map_eq_none_iff,
      h.fields, Option.map_eq_none_iff]
  exact Nat.le_antisymm ((hle _).mpr (Nat.le_refl _)) ((hle _).mp (Nat.le_refl _))

/-- A struct changes, but not its fields. -/
theorem sameParts_modifyStruct (t : TypeTable) (id : Nat) {f : StructDef → StructDef}
    (hf : ∀ d, (f d).fields? = d.fields?) : t.SameParts (t.modifyStruct id f) := by
  refine ⟨fun i => ?_, rfl, rfl⟩
  unfold modifyStruct
  rw [Array.getElem?_modify]
  split
  · rw [Option.map_map]
    exact congrArg (Option.map · t.structs[i]?) (funext hf)
  · rfl

end TypeTable

end Staged
