/-
  Staged.Proofs.Members.Lifecycle — lifecycle members of structs.

  Whether values are copied and moved bit by bit is asked of a type and of all that it
  contains by value, and the members are looked at where a struct is met. So no type that
  contains a struct with a copy constructor or a destructor, at whatever depth, has a simple
  copy, and the same with move constructors and simple moves (`TypeTable.custom_not_simple`).
  Members of other types play no part in it.

  A value in memory that contains such a struct is never copied implicitly
  (`Emit.passValue_custom`), and an explicit copy of one that is such a struct is made by its
  copy constructor (`Emit.lowerCopy_custom`).
-/

import Staged.Emit.Copy
import Staged.Proofs.Layouts.Compile
import Staged.Proofs.Typing.Accept

namespace Staged

namespace TypeTable

variable {t t' : TypeTable} {trait : Trait} {ty whole part : Ty} {id depth : Nat}

/-! ## Choices -/

def ChoicesIntegral (t : TypeTable) : Prop := ∀ d ∈ t.choices, t.isIntegral d.underlying = true

theorem Edit.choicesIntegral (h : t.Edit t') (ht : t.ChoicesIntegral) : t'.ChoicesIntegral := by
  have hold (hchoices : t'.choices = t.choices) : t'.ChoicesIntegral := by
    intro d hd
    rw [hchoices] at hd
    rw [isIntegral_table t]
    exact ht d hd
  cases h with
  | same h _ => exact hold h.choices
  | addStruct _ | addMix _ => exact hold (same_intern _ _).choices
  | setFields _ _ | setVariants _ _ => exact hold rfl
  | @addChoice c hnew =>
    intro d hd
    rw [show (t.addChoice c).1.choices = t.choices.push c from (same_intern _ _).choices] at hd
    rw [isIntegral_table t]
    rcases Array.mem_push.mp hd with hd | rfl
    · exact ht d hd
    · exact hnew

theorem Evolves.choicesIntegral (h : t.Evolves t') (ht : t.ChoicesIntegral) :
    t'.ChoicesIntegral := by
  induction h with
  | refl => exact ht
  | tail _ h ih => exact h.choicesIntegral ih

/-- An integer contains nothing. -/
theorem not_contains_of_isIntegral (h : t.isIntegral whole = true) : ¬t.Contains whole part := by
  intro hc
  cases hc <;> cases h

/-- No choice contains a struct. -/
theorem ChoicesIntegral.not_contains (ht : t.ChoicesIntegral) {k : Nat}
    (h : t.Contains (.choice k) part) : ¬Relation.ReflTransGen t.Contains part (.struct id) := by
  cases h with
  | underlying hd =>
    intro hpath
    have hint := ht _ (Array.mem_of_getElem? hd)
    rcases hpath.cases_head with heq | ⟨_, hc, -⟩
    · rw [heq] at hint
      cases hint
    · exact not_contains_of_isIntegral hint hc

/-! ## Traits -/

theorem allHaveTrait_mem {f : Ty → Option Bool} {tys : List Ty}
    (h : Unbounded.allHaveTrait f tys = some true) : ∀ ty ∈ tys, f ty = some true := by
  induction tys with
  | nil =>
    intro ty hty
    cases hty
  | cons ty tys ih =>
    obtain ⟨b, hb, h⟩ := Option.bind_eq_some_iff.mp h
    cases b with
    | false => cases h
    | true => exact List.forall_mem_cons.mpr ⟨hb, ih h⟩

/-- What has a trait has it in the parts it contains. -/
theorem hasTrait_part (hc : t.Contains whole part) (hchoice : ∀ k, whole ≠ .choice k)
    (h : Unbounded.hasTrait t trait (depth + 1) whole = some true) :
    Unbounded.hasTrait t trait depth part = some true := by
  cases hc with
  | array | maybe => exact h
  | vector =>
    simp only [Unbounded.hasTrait] at h
    split at h
    · exact h
    · cases h
  | tuple _ hmember => exact allHaveTrait_mem h _ hmember
  | field hd hf =>
    simp only [Unbounded.hasTrait, hd] at h
    split at h
    · exact allHaveTrait_mem h _ (List.mem_map_of_mem hf)
    · cases h
  | payload hd hty =>
    simp only [Unbounded.hasTrait, hd] at h
    exact allHaveTrait_mem h _ hty
  | underlying _ => exact absurd rfl (hchoice _)

theorem hasTrait_struct (h : Unbounded.hasTrait t trait (depth + 1) (.struct id) = some true) :
    ∃ d, trait.struct (.struct id) d = true := by
  simp only [Unbounded.hasTrait] at h
  split at h
  · rename_i d _
    split at h
    · exact ⟨d, ‹_›⟩
    · cases h
  · cases h

/-- A type that contains a struct which does not satisfy the trait itself does not have it. -/
theorem Grounded.not_has (ht : t.Grounded) (hchoices : t.ChoicesIntegral)
    (hpath : Relation.ReflTransGen t.Contains ty (.struct id))
    (hstruct : ∀ d, trait.struct (.struct id) d = false) : t.has trait ty = false := by
  induction hpath using Relation.ReflTransGen.head_induction_on with
  | refl =>
    obtain ⟨enough, hends⟩ := ht.hasTrait trait (.struct id)
    refine Bool.eq_false_iff.mpr fun h => ?_
    obtain ⟨d, hd⟩ := hasTrait_struct (h ▸ hends (enough + 1) (Nat.le_succ _))
    rw [hstruct d] at hd
    cases hd
  | @head whole part hc hpath ih =>
    have hchoice (k : Nat) : whole ≠ .choice k := by
      rintro rfl
      exact hchoices.not_contains hc hpath
    -- looked at deep enough for both, the whole has it only if the part does
    obtain ⟨enough, hends⟩ := ht.hasTrait trait whole
    obtain ⟨enough', hends'⟩ := ht.hasTrait trait part
    refine Bool.eq_false_iff.mpr fun h => ?_
    have hwhole := hends (max enough enough' + 1) (by omega)
    have hpart := hasTrait_part hc hchoice (h ▸ hwhole)
    cases hpart.symm.trans ((hends' _ (Nat.le_max_right ..)).trans (congrArg some ih))

/-! ## Copying and moving -/

/-- A table that came about by edits from one without definitions. -/
def Arises (t : TypeTable) : Prop := ∃ width, (ofPointerWidth width).Evolves t

theorem Arises.not_has (ht : t.Arises)
    (hpath : Relation.ReflTransGen t.Contains ty (.struct id))
    (hstruct : ∀ d, trait.struct (.struct id) d = false) : t.has trait ty = false := by
  obtain ⟨width, ht⟩ := ht
  exact ((grounded_ofPointerWidth width).grows ht.grows).not_has
    (ht.choicesIntegral nofun) hpath hstruct

/-- A type that contains a struct with a copy constructor or a destructor has no simple copy,
and one that contains a struct with a move constructor or a destructor has no simple move. -/
theorem custom_not_simple (ht : t.Arises)
    (hpath : Relation.ReflTransGen t.Contains ty (.struct id)) :
    (t.hasMember (.struct id) .copyConstructor = true ∨
      t.hasMember (.struct id) .destructor = true → t.hasSimpleCopy ty = false) ∧
    (t.hasMember (.struct id) .moveConstructor = true ∨
      t.hasMember (.struct id) .destructor = true → t.hasSimpleMove ty = false) := by
  refine ⟨fun h => ht.not_has hpath fun _ => ?_, fun h => ht.not_has hpath fun _ => ?_⟩
  · rcases h with h | h <;> simp [copyTrait, h]
  · rcases h with h | h <;> simp [moveTrait, h]

end TypeTable

/-- The tables of a compilation arise by edits. -/
theorem arises_typeTables (p : Program) (o : Options) : ∀ t ∈ typeTables p o, t.Arises :=
  fun t ht => ⟨o.pointerWidth, (changes_typeTables p o t ht).evolves⟩

namespace Emit

variable {o : Options} {s : Compiler} {v : Value} {range : Span} {id : Nat}

/-- A value in memory that contains a struct with a copy constructor or a destructor is not
copied implicitly. -/
theorem passValue_custom (ht : s.types.Arises)
    (hpath : Relation.ReflTransGen s.types.Contains v.type (.struct id))
    (hcustom : s.types.hasMember (.struct id) .copyConstructor = true ∨
      s.types.hasMember (.struct id) .destructor = true)
    (hgiven : v.type.refInfo? = none) (hstored : v.isTemporary = false)
    (hslot : v.isTempSlot = false) :
    passValue v v.type range o s = .error (.fault (.implicitCopy v.type) range) s := by
  have hsimple := (s.types.custom_not_simple ht hpath).1 hcustom
  have hfault : handingFault? s.types v.type v = some (.implicitCopy v.type) := by
    simp [handingFault?, hgiven, Ty.value_eq_self hgiven, hstored, hslot, hsimple]
  rw [passValue_eq, hfault]

/-- A struct in memory that has a copy constructor is copied by it. -/
theorem lowerCopy_custom {inner : Operand} {expect : Expect} {s₁ : Compiler} {m : MemberFunction}
    (ht : s₁.types.Arises) (hinner : inner.lower expect.hint o s = .ok v s₁)
    (htype : v.type = .struct id) (hstored : v.isTemporary = false)
    (hm : s₁.types.member? (.struct id) .copyConstructor = some m) :
    lowerCopy inner expect range o s = (do
      let slot ← targetSlot v.type expect range
      let _ ← callMember m (some slot.ir) [v.ir] range
      return slot) o s₁ := by
  have hmember : s₁.types.hasMember (.struct id) .copyConstructor = true := by
    unfold TypeTable.member? at hm
    have hkind := List.find?_some hm
    exact List.any_eq_true.mpr ⟨m, List.mem_of_find?_eq_some hm, hkind⟩
  have hself : Relation.ReflTransGen s₁.types.Contains (.struct id) (.struct id) := .refl
  have hsimple := (s₁.types.custom_not_simple ht hself).1 (.inl hmember)
  have hgiven : v.type.refInfo? = none := by
    rw [htype]
    rfl
  unfold lowerCopy
  rw [bind_apply, hinner]
  dsimp only
  rw [place?_of_not_ref hgiven, hstored, if_neg Bool.false_ne_true, pure_bind]
  dsimp only
  rw [bind_apply]
  show (if s₁.types.hasSimpleCopy v.type = true then rvalue v
    else buildFrom .copyConstructor v (.noCopy v.type) expect range) o s₁ = _
  rw [htype, if_neg (by simp [hsimple])]
  unfold buildFrom
  rw [bind_apply]
  show (require (s₁.types.member? v.type .copyConstructor) _ range >>= _) o s₁ = _
  rw [htype, hm]
  rfl

end Emit

end Staged
