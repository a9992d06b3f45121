/-
  Staged.Proofs.Typing.Accept — what parameters accept and what is handed to them.

  An overload is chosen by asking its parameters whether they accept the values
  (`Emit.accepts`), and only then are the values handed on (`Emit.passValue`). The two decide by
  different cases. What handing on comes to is said without writing code: the fault it ends with,
  if there is one (`Emit.handingFault?`), and the code that is written otherwise (`passValue_eq`).

  For a value whose type is no reference to a reference the two agree: it is accepted if and only
  if it is handed on, or could be but for an implicit copy (`passValue_accepts`). A reference to a
  reference, such as the item of a loop over references, is accepted where the inner reference is
  wanted, and is then refused there (`passValue_nested`).
-/

import Staged.Emit.Construct
import Staged.Proofs.Code.Instr
import Staged.Proofs.Ssa.Grow

namespace Staged

/-! ## Writing code -/

def Compiler.Writes (s : Compiler) : Prop :=
  ∃ f, s.func = some f ∧ (f.function.block? f.current).isSome = true

namespace Emit

variable {α β : Type} {o : Options} {s : Compiler} {param : Ty} {v : Value} {range : Span}

/-- An action that only writes code, and so succeeds where code can be written. -/
def Written (a : Emit α) (Q : α → Prop := fun _ => True) : Prop :=
  ∀ o s, s.Writes → ∃ x s', a o s = .ok x s' ∧ s'.Writes ∧ Q x

namespace Written

variable {a : Emit α} {k : α → Emit β} {Q : α → Prop} {R : β → Prop}

theorem pure {x : α} (h : Q x) : Written (pure x) Q := fun _ s hs => ⟨x, s, rfl, hs, h⟩

theorem bind (ha : Written a Q) (hk : ∀ x, Q x → Written (k x) R) : Written (a >>= k) R := by
  intro o s hs
  obtain ⟨x, s₁, hx, hs₁, hq⟩ := ha o s hs
  obtain ⟨y, s₂, hy, hs₂, hr⟩ := hk x hq o s₁ hs₁
  refine ⟨y, s₂, ?_, hs₂, hr⟩
  rw [bind_apply, hx]
  exact hy

end Written

theorem written_fresh (type : Ty) : Written (fresh type) := by
  rintro o s ⟨f, hf, hblock⟩
  unfold fresh
  rw [bind_apply, function_apply hf]
  exact ⟨_, _, rfl, ⟨_, rfl, hblock⟩, trivial⟩

theorem written_push (i : Ir.Instr) : Written (push i) := by
  rintro o s ⟨f, hf, hblock⟩
  unfold push
  have hsome : ¬ (f.function.block? f.current).isNone = true := by
    rw [Option.isNone_iff_eq_none]
    exact Option.isSome_iff_ne_none.mp hblock
  rw [modifyCurrent_apply _ hf, if_neg hsome]
  refine ⟨_, _, rfl, ⟨_, rfl, ?_⟩, trivial⟩
  show ((f.function.modifyBlock f.current _).block? f.current).isSome = true
  rw [Ir.Function.block?_modifyBlock, if_pos rfl, Option.isSome_map]
  exact hblock

theorem written_load (ptr : Ir.Value) (type : Ty) : Written (load ptr type) :=
  (written_fresh type).bind fun _ _ => (written_push _).bind fun _ _ => .pure trivial

theorem written_emitted (c : Constant) : Written (emitted c) :=
  fun _ _ hs => ⟨_, _, rfl, hs, trivial⟩

theorem written_referenceAddress (v : Value) : Written (referenceAddress v) := by
  unfold referenceAddress
  split
  · exact .pure trivial
  · exact (written_load _ _).bind fun _ _ => .pure trivial

theorem written_rvalue (v : Value) : Written (rvalue v) := by
  unfold rvalue
  split
  · exact (written_referenceAddress v).bind fun _ _ => (written_load _ _).bind fun _ _ =>
      .pure trivial
  · split
    · exact .pure trivial
    · split
      · exact (written_emitted _).bind fun _ _ => .pure trivial
      · exact (written_load _ _).bind fun _ _ => .pure trivial

/-! ## Handing on -/

/-- The fault that handing a value on to a parameter ends with, if it does not give the value. -/
def handingFault? (t : TypeTable) (param : Ty) (v : Value) : Option Fault :=
  match param.refInfo?, v.type.refInfo? with
  | some (sub, isVar), some (source, sourceVar) =>
    if source ≠ sub then some (.mismatch param v.type)
    else if isVar && !sourceVar then some (.widened sub) else none
  | some (sub, isVar), none =>
    if v.type ≠ sub then some (.mismatch param v.type)
    else if v.isTemporary then some .bindTemporary
    else if isVar && !v.isMutable then some (.widened sub) else none
  | none, source =>
    if v.type.value ≠ param then some (.mismatch param v.type)
    else if v.isTemporary && source.isNone then none
    else if v.isTempSlot || t.hasSimpleCopy param then none else some (.implicitCopy param)

/-- The code that hands a value on. -/
def handed (param : Ty) (v : Value) : Emit Ir.Value := do
  match param.refInfo?, v.type.refInfo? with
  | some _, some _ => return (← referenceAddress v).ir
  | some _, none => return v.ir
  | none, source => if v.isTemporary && source.isNone then return v.ir else return (← rvalue v).ir

theorem written_handed (param : Ty) (v : Value) : Written (handed param v) := by
  unfold handed
  split
  · exact (written_referenceAddress v).bind fun _ _ => .pure trivial
  · exact .pure trivial
  · split
    · exact .pure trivial
    · exact (written_rvalue v).bind fun _ _ => .pure trivial

theorem place?_of_not_ref (h : v.type.refInfo? = none) :
    place? v = pure (if v.isTemporary then none else some v) := by
  unfold place?
  rw [h]

theorem passValue_eq : passValue v param range o s = match handingFault? s.types param v with
    | some f => .error (.fault f range) s
    | none => handed param v o s := by
  unfold passValue handingFault? handed
  cases hparam : param.refInfo? with
  | some wanted =>
    obtain ⟨sub, isVar⟩ := wanted
    cases hgiven : v.type.refInfo? with
    | some given =>
      dsimp only
      split_ifs <;> rfl
    | none =>
      rw [place?_of_not_ref hgiven]
      dsimp only
      have hrequire : require (some v) .bindTemporary range = pure v := rfl
      by_cases htemp : v.isTemporary = true
      · rw [if_pos htemp, if_pos htemp]
        split_ifs <;> rfl
      · rw [if_neg htemp, if_neg htemp, pure_bind, hrequire, pure_bind]
        split_ifs <;> rfl
  | none =>
    dsimp only
    by_cases hcopy : (v.isTempSlot || s.types.hasSimpleCopy param) = true
    · have hlast : (types >>= fun t => if (v.isTempSlot || t.hasSimpleCopy param) = true then
          (do return (← rvalue v).ir) else refuse (.implicitCopy param) range) o s =
          (do return (← rvalue v).ir : Emit Ir.Value) o s := by
        rw [bind_apply]
        exact congrFun (congrFun (if_pos hcopy) o) s
      rw [if_pos hcopy]
      split_ifs <;> first | rfl | exact hlast
    · have hlast : (types >>= fun t => if (v.isTempSlot || t.hasSimpleCopy param) = true then
          (do return (← rvalue v).ir) else refuse (.implicitCopy param) range) o s =
          .error (.fault (.implicitCopy param) range) s := by
        rw [bind_apply]
        exact congrFun (congrFun (if_neg hcopy) o) s
      rw [if_neg hcopy]
      split_ifs <;> first | rfl | exact hlast

/-! ## Accepting -/

theorem ne_ref_of_not_isRef {ty sub : Ty} {isVar : Bool} (h : ty.isRef = false) :
    ty ≠ .ref sub isVar := by
  rintro rfl
  cases h

/-- A reference is accepted for a reference to the same type, if that is not variable in
addition. -/
theorem accepts_ref_ref {sub source : Ty} {isVar sourceVar : Bool}
    (hgiven : v.type = .ref source sourceVar) (hsource : source.isRef = false) :
    accepts (.ref sub isVar) v = true ↔ source = sub ∧ (isVar = true → sourceVar = true) := by
  have hne : (Ty.ref sub isVar == source) = false :=
    beq_eq_false_iff_ne.mpr (ne_ref_of_not_isRef hsource).symm
  unfold accepts
  rw [hgiven]
  simp only [Ty.value, Ty.refInfo?, hne, Bool.or_false, Bool.or_eq_true, beq_iff_eq, Ty.ref.injEq,
    Bool.and_eq_true, Bool.not_eq_true']
  constructor
  · rintro (⟨rfl, rfl⟩ | ⟨rfl, hvar⟩)
    · exact ⟨rfl, id⟩
    · exact ⟨rfl, fun h => hvar.resolve_left (by rw [h]; exact Bool.noConfusion)⟩
  · rintro ⟨rfl, hvar⟩
    refine .inr ⟨rfl, ?_⟩
    cases isVar with
    | false => exact .inl rfl
    | true => exact .inr (hvar rfl)

/-- A value is accepted for a reference to it if it is in memory. -/
theorem accepts_ref_value {sub : Ty} {isVar : Bool} (hgiven : v.type.refInfo? = none) :
    accepts (.ref sub isVar) v = true ↔
      v.type = sub ∧ v.isTemporary = false ∧ (isVar = true → v.isMutable = true) := by
  have hne : (Ty.ref sub isVar == v.type) = false := by
    refine beq_eq_false_iff_ne.mpr fun h => ?_
    rw [← h] at hgiven
    cases hgiven
  have hstored : v.isStored = !v.isTemporary := rfl
  unfold accepts
  rw [hgiven, Ty.value_eq_self hgiven, hne, hstored]
  simp only [Ty.refInfo?, Bool.or_false, Bool.false_or, Bool.and_eq_true, beq_iff_eq,
    Bool.not_eq_true', Bool.or_eq_true]
  constructor
  · rintro ⟨⟨rfl, htemp⟩, hvar⟩
    exact ⟨rfl, htemp, fun h => hvar.resolve_left (by rw [h]; exact Bool.noConfusion)⟩
  · rintro ⟨rfl, htemp, hvar⟩
    refine ⟨⟨rfl, htemp⟩, ?_⟩
    cases isVar with
    | false => exact .inl rfl
    | true => exact .inr (hvar rfl)

/-- A value, or what a reference leads to, is accepted for its type. -/
theorem accepts_value (hparam : param.refInfo? = none) :
    accepts param v = true ↔ v.type.value = param := by
  unfold accepts
  rw [hparam, Bool.or_false, Bool.or_eq_true, beq_iff_eq, beq_iff_eq]
  constructor
  · rintro (rfl | rfl)
    · exact Ty.value_eq_self hparam
    · rfl
  · rintro rfl
    exact .inr rfl

/-- What can be handed on, or could but for a copy, is accepted, whatever its type. -/
theorem accepts_of_handingFault {t : TypeTable} (h : handingFault? t param v = none ∨
    handingFault? t param v = some (.implicitCopy param)) : accepts param v = true := by
  unfold handingFault? at h
  cases hparam : param.refInfo? with
  | some wanted =>
    obtain ⟨sub, isVar⟩ := wanted
    obtain rfl := Ty.eq_ref_of_refInfo? hparam
    cases hgiven : v.type.refInfo? with
    | some given =>
      obtain ⟨source, sourceVar⟩ := given
      rw [hparam, hgiven] at h
      dsimp only at h
      unfold accepts
      rw [hparam, hgiven]
      split_ifs at h with hsub hvar
      · simp at h
      · simp at h
      · cases isVar <;> simp_all
    | none =>
      rw [hparam, hgiven] at h
      rw [accepts_ref_value hgiven]
      dsimp only at h
      split_ifs at h <;> simp_all
  | none =>
    rw [hparam] at h
    rw [accepts_value hparam]
    dsimp only at h
    split_ifs at h <;> simp_all

/-- What is accepted and no reference to a reference can be handed on, or could but for a copy. -/
theorem handingFault_of_accepts (t : TypeTable) (hv : v.type.value.isRef = false)
    (h : accepts param v = true) : handingFault? t param v = none ∨
      handingFault? t param v = some (.implicitCopy param) := by
  unfold handingFault?
  cases hparam : param.refInfo? with
  | some wanted =>
    obtain ⟨sub, isVar⟩ := wanted
    obtain rfl := Ty.eq_ref_of_refInfo? hparam
    cases hgiven : v.type.refInfo? with
    | some given =>
      obtain ⟨source, sourceVar⟩ := given
      have htype := Ty.eq_ref_of_refInfo? hgiven
      rw [htype] at hv
      rw [accepts_ref_ref htype hv] at h
      dsimp only
      split_ifs <;> simp_all
    | none =>
      rw [accepts_ref_value hgiven] at h
      dsimp only
      split_ifs <;> simp_all
  | none =>
    rw [accepts_value hparam] at h
    dsimp only
    split_ifs <;> simp_all

/-- What is handed on was accepted. -/
theorem accepts_of_passValue {r : Ir.Value} {s' : Compiler}
    (h : passValue v param range o s = .ok r s') : accepts param v = true := by
  rw [passValue_eq] at h
  cases hfault : handingFault? s.types param v with
  | none => exact accepts_of_handingFault (.inl hfault)
  | some f =>
    rw [hfault] at h
    cases h

/-- A value whose type is no reference to a reference is accepted if and only if it is handed
on, or could be but for an implicit copy. -/
theorem passValue_accepts (hw : s.Writes) (hv : v.type.value.isRef = false) :
    accepts param v = true ↔ (∃ r s', passValue v param range o s = .ok r s') ∨
      ∃ s', passValue v param range o s = .error (.fault (.implicitCopy param) range) s' := by
  constructor
  · intro h
    rcases handingFault_of_accepts s.types hv h with hnone | hcopy
    · obtain ⟨r, s', hr, -⟩ := written_handed param v o s hw
      refine .inl ⟨r, s', ?_⟩
      rw [passValue_eq, hnone]
      exact hr
    · refine .inr ⟨s, ?_⟩
      rw [passValue_eq, hcopy]
  · rintro (⟨r, s', h⟩ | ⟨s', h⟩)
    · exact accepts_of_passValue h
    · rw [passValue_eq] at h
      cases hfault : handingFault? s.types param v with
      | none =>
        rw [hfault] at h
        obtain ⟨r, s₁, hr, -⟩ := written_handed param v o s hw
        cases hr.symm.trans h
      | some f =>
        rw [hfault] at h
        cases h
        exact accepts_of_handingFault (.inr hfault)

theorem ref_ne_self (ty : Ty) (isVar : Bool) : Ty.ref ty isVar ≠ ty := by
  intro h
  have hsize := congrArg sizeOf h
  simp at hsize
  omega

/-- A reference to a reference is accepted where the inner reference is wanted, and refused
there for its type. -/
theorem passValue_nested {sub : Ty} {isVar outer : Bool}
    (hv : v.type = .ref (.ref sub isVar) outer) :
    accepts (.ref sub isVar) v = true ∧ passValue v (.ref sub isVar) range o s =
      .error (.fault (.mismatch (.ref sub isVar) v.type) range) s := by
  refine ⟨?_, ?_⟩
  · unfold accepts
    rw [hv]
    simp [Ty.value]
  · rw [passValue_eq, handingFault?, hv]
    simp only [Ty.refInfo?]
    rw [if_pos (ref_ne_self sub isVar)]

end Emit

end Staged
