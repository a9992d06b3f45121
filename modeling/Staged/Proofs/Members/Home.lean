/-
  Staged.Proofs.Members.Home — the members of a type and where they are kept.

  The members of a type are those that its homes keep: its definition, if it is a struct, and
  the implementations of skills for it (`TypeTable.mem_membersOf_iff`). A definition that is
  added or filled in has no members yet and changes nobody's; a member that a home is handed is
  one more for the type the home belongs to, and for no other
  (`TypeTable.mem_membersOf_addMember`).
-/

import Staged.Proofs.Code.Members
import Staged.Proofs.Layouts.Evolve

namespace Staged

namespace TypeTable

variable {t : TypeTable} {ty : Ty} {m m' : MemberFunction} {w : Home}

/-- The type whose members a home keeps, if there is such a home. -/
def typeAt (t : TypeTable) : Home → Option Ty
  | .struct id => t.structs[id]?.map fun _ => .struct id
  | .done id => t.done[id]?.map DoneSkill.target

theorem SameDefinitions.typeAt {t' : TypeTable} (h : t.SameDefinitions t') (w : Home) :
    t'.typeAt w = t.typeAt w := by
  cases w <;> simp only [TypeTable.typeAt, h.structs, h.done]

/-- A home that has a type keeps members. -/
theorem membersAt_of_typeAt (h : t.typeAt w = some ty) : ∃ ms, t.membersAt w = some ms := by
  cases w with
  | struct id =>
    obtain ⟨d, hd, -⟩ := Option.map_eq_some_iff.mp h
    exact ⟨d.members, congrArg (Option.map StructDef.members) hd⟩
  | done id =>
    obtain ⟨d, hd, -⟩ := Option.map_eq_some_iff.mp h
    exact ⟨d.members, congrArg (Option.map DoneSkill.members) hd⟩

theorem mem_membersOf_iff : m ∈ t.membersOf ty ↔
    ∃ w ms, t.typeAt w = some ty ∧ t.membersAt w = some ms ∧ m ∈ ms := by
  unfold membersOf doneFor
  rw [List.mem_append, List.mem_flatMap]
  constructor
  · rintro (hm | ⟨d, hd, hm⟩)
    · cases ty with
      | struct id =>
        rw [structOf?] at hm
        cases hd : t.structs[id]? with
        | none =>
          rw [hd] at hm
          cases hm
        | some d =>
          rw [hd] at hm
          exact ⟨.struct id, d.members, congrArg (Option.map _) hd, congrArg (Option.map _) hd, hm⟩
      | _ => cases hm
    · obtain ⟨hd, htarget⟩ := List.mem_filter.mp hd
      obtain ⟨k, hk⟩ := List.mem_iff_getElem?.mp hd
      rw [Array.getElem?_toList] at hk
      refine ⟨.done k, d.members, ?_, congrArg (Option.map _) hk, hm⟩
      rw [← eq_of_beq htarget]
      exact congrArg (Option.map _) hk
  · rintro ⟨w, ms, hty, hms, hm⟩
    cases w with
    | struct id =>
      obtain ⟨d, hd, rfl⟩ := Option.map_eq_some_iff.mp hms
      rw [typeAt, hd] at hty
      cases hty
      refine .inl ?_
      rw [structOf?, hd]
      exact hm
    | done k =>
      obtain ⟨d, hd, rfl⟩ := Option.map_eq_some_iff.mp hms
      rw [typeAt, hd] at hty
      cases hty
      refine .inr ⟨d, List.mem_filter.mpr ⟨?_, beq_self_eq_true _⟩, hm⟩
      exact Array.mem_toList_iff.mpr (Array.mem_of_getElem? hd)

theorem typeAt_struct {id : Nat} (h : t.Has (.struct id)) :
    t.typeAt (.struct id) = some (.struct id) := by
  rw [typeAt, Array.getElem?_eq_getElem h]
  rfl

/-- A new implementation is a home of the type it is for. -/
theorem typeAt_addDone (t : TypeTable) (d : DoneSkill) :
    (t.addDone d).1.typeAt (.done t.done.size) = some d.target := by
  rw [typeAt, addDone, Array.getElem?_push_size]
  rfl

theorem membersOf_addStruct {d : StructDef} (hd : d.members = []) (ty : Ty) :
    (t.addStruct d).1.membersOf ty = t.membersOf ty := by
  refine ((same_intern _ _).membersOf ty).trans ?_
  refine congrArg (· ++ (t.doneFor ty).flatMap DoneSkill.members) ?_
  cases ty with
  | struct id =>
    simp only [structOf?, Array.getElem?_push]
    split
    · subst id
      simp [hd]
    · rfl
  | _ => rfl

theorem membersOf_addMix (d : MixDef) (ty : Ty) :
    (t.addMix d).1.membersOf ty = t.membersOf ty := (same_intern _ _).membersOf ty

theorem membersOf_addChoice (d : ChoiceDef) (ty : Ty) :
    (t.addChoice d).1.membersOf ty = t.membersOf ty := (same_intern _ _).membersOf ty

theorem membersOf_addDone {d : DoneSkill} (hd : d.members = []) (ty : Ty) :
    (t.addDone d).1.membersOf ty = t.membersOf ty := by
  refine congrArg (((t.structOf? ty).map StructDef.members).getD [] ++ ·) ?_
  simp only [addDone, doneFor, Array.toList_push, List.filter_append, List.flatMap_append]
  cases h : d.target == ty <;> simp [h, hd]

theorem membersOf_setFields (sid : Nat) (fields : Option (List FieldDef)) (ty : Ty) :
    (t.setFields (.struct sid) fields).membersOf ty = t.membersOf ty := by
  refine congrArg (· ++ (t.doneFor ty).flatMap DoneSkill.members) ?_
  cases ty with
  | struct id =>
    simp only [structOf?, setFields, modifyStruct, Array.getElem?_modify]
    split
    · rw [Option.map_map]
      rfl
    · rfl
  | _ => rfl

theorem typeAt_setFields (sid : Nat) (fields : Option (List FieldDef)) (w : Home) :
    (t.setFields (.struct sid) fields).typeAt w = t.typeAt w := by
  cases w with
  | struct id =>
    simp only [typeAt, setFields, modifyStruct, Array.getElem?_modify]
    split
    · rw [Option.map_map]
      rfl
    · rfl
  | done id => rfl

theorem typeAt_addMember (m : MemberFunction) (w w' : Home) :
    (t.addMember m w).typeAt w' = t.typeAt w' := by
  cases w <;> cases w' <;>
    simp only [addMember, typeAt, modifyStruct, modifyDone, Array.getElem?_modify]
  all_goals
    split
    · rw [Option.map_map]
      rfl
    · rfl

theorem pointerWidth_addMember (t : TypeTable) (m : MemberFunction) (w : Home) :
    (t.addMember m w).pointerWidth = t.pointerWidth := by
  cases w <;> rfl

theorem retains_addMember (t : TypeTable) (m : MemberFunction) (w : Home) :
    t.Retains (t.addMember m w) :=
  (sameParts_addMember t m w).retains (pointerWidth_addMember t m w)

/-- A type gets a member when one of its homes does. -/
theorem mem_membersOf_addMember : m' ∈ (t.addMember m w).membersOf ty ↔
    m' ∈ t.membersOf ty ∨ m' = m ∧ t.typeAt w = some ty := by
  simp only [mem_membersOf_iff, typeAt_addMember, membersAt_addMember]
  constructor
  · rintro ⟨w', ms, hty, hms, hm⟩
    split at hms
    · subst w'
      obtain ⟨ms', hms', rfl⟩ := Option.map_eq_some_iff.mp hms
      rcases List.mem_append.mp hm with hm | hm
      · exact .inl ⟨w, ms', hty, hms', hm⟩
      · exact .inr ⟨List.mem_singleton.mp hm, hty⟩
    · exact .inl ⟨w', ms, hty, hms, hm⟩
  · rintro (⟨w', ms, hty, hms, hm⟩ | ⟨rfl, hty⟩)
    · by_cases h : w = w'
      · exact ⟨w', ms ++ [m], hty, by rw [if_pos h, hms]; rfl, List.mem_append_left _ hm⟩
      · exact ⟨w', ms, hty, (if_neg h).trans hms, hm⟩
    · obtain ⟨ms, hms⟩ := membersAt_of_typeAt hty
      exact ⟨w, ms ++ [m'], hty, by rw [if_pos rfl, hms]; rfl,
        List.mem_append_right _ List.mem_cons_self⟩

end TypeTable

end Staged
