/-
  Staged.Proofs.Variability.Place — what may be assigned to.

  A path starts at a name or at `self` and goes on with members and with positions in tuples
  and arrays (`isPath`). What it leads to is variable if its declarations say so
  (`isVariable`): a name and `self` by themselves, a field if it is variable and its struct
  is, a member of a tuple and an element of an array if the whole is. A reference starts
  anew: what it refers to is variable if the reference is, whatever holds it.

  A value may be changed where it lives without being variable in this sense: a temporary
  slot may always be changed, and nobody sees what is written to it. A change to a value
  lasts if the value may be changed and is in no temporary slot (`Value.isLasting`). Changes
  to a part last only where changes to the whole do (`returns_memberAt`,
  `returns_arrayElement`), so a path is variable if it leads to such a value
  (`isVariable_of_isLasting`). What an assignment changes is variable or a temporary slot
  (`returns_assignedPlace`).
-/

import Staged.Proofs.Code.Expr
import Staged.Proofs.Compile.Enter

namespace Staged

/-! ## Variable paths -/

/-- Whether values of a type stand for something variable: references to variables, and
references to such references. -/
def Ty.refersToVar : Ty → Bool
  | ref sub isVar => isVar || sub.refersToVar
  | _ => false

/-- Whether a value of a type consists of parts that have positions. -/
def Ty.isSequence : Ty → Bool
  | tuple _ _ | array _ _ => true
  | _ => false

namespace Compiler

/-- The local a name means. -/
def localOf? (s : Compiler) (name : QName) : Option LocalVar :=
  name.single?.bind fun n => s.func.bind (·.findLocal? n.text)

def namesVarGlobal (s : Compiler) (view : Viewpoint) (name : QName) : Bool :=
  match s.modules.resolve view.module name view with
  | .ok (.item item) => match s.symbols.lookup item.entity with
    | some (.global _ _ isVar _) => isVar
    | _ => false
  | _ => false

/-- Whether a name means a variable local, parameter or global. A local hides all else of
its name. -/
def namesVar (s : Compiler) (view : Viewpoint) (name : QName) : Bool :=
  match s.localOf? name with
  | some v => v.isVar
  | none => s.namesVarGlobal view name

/-- Whether the function under construction may change its instance. -/
def selfIsVar (s : Compiler) : Bool := (s.func.bind FunctionState.self).any (·.isVar)

end Compiler

section

variable (o : Options) (view : Viewpoint) (s : Compiler)

/-- The type of an expression where nothing is expected of it. -/
def typeOf? (e : Expr) : Option Ty :=
  match Emit.lowerExpr view e .nothing o s with
  | .ok v _ => some v.type
  | .error _ _ => none

/-- A name or `self`, followed by members and by positions in tuples and arrays. -/
def isPath : Expr → Bool
  | .entity _ _ | .self _ | .selfMember _ _ => true
  | .member _ base _ => isPath base
  | .index _ base _ => isPath base && (typeOf? o view s base).any (·.value.isSequence)
  | _ => false

/-- A reference is variable by its type, and anything else as it was declared. -/
def variableIf (declared : Bool) (e : Expr) : Bool :=
  (typeOf? o view s e).any fun ty => if ty.isRef then ty.refersToVar else declared

/-- Whether a part that has a name is variable in a variable whole; only fields say so. -/
def namesVarPart (base : Expr) (name : Ident) : Bool :=
  (typeOf? o view s base).all fun ty => match ty.value with
    | .struct id => ((s.types.structs[id]?).bind (·.field? name.text)).all (·.2.isVar)
    | _ => true

/-- Whether what a path leads to may be changed, by its declarations. -/
def isVariable : Expr → Bool
  | .entity range name => variableIf o view s (s.namesVar view name) (.entity range name)
  | .self range => variableIf o view s s.selfIsVar (.self range)
  | .selfMember range name => variableIf o view s
      (variableIf o view s s.selfIsVar (.self range) && namesVarPart o view s (.self range) name)
      (.selfMember range name)
  | .member range base name => variableIf o view s
      (isVariable base && namesVarPart o view s base name) (.member range base name)
  | .index range base position =>
    variableIf o view s (isVariable base) (.index range base position)
  | _ => false

end

/-! ## Values whose changes last -/

theorem Ty.not_isRef_of_refInfo? {ty : Ty} (h : ty.refInfo? = none) : ty.isRef = false := by
  cases ty <;> first | rfl | cases h

theorem Ty.refInfo?_of_not_isRef {ty : Ty} (h : ty.isRef = false) : ty.refInfo? = none := by
  cases ty <;> first | rfl | cases h

namespace Value

/-- Whether a change to the value lasts: the value may be changed where it lives, which is
no temporary slot. -/
def isLasting (v : Value) : Bool :=
  match v.type.refInfo? with
  | some (_, isVar) => isVar
  | none => v.isStored && v.isVar && !v.isTempSlot

/-- A change to the value itself, and not to what it refers to, lasts only under a
condition. -/
def LastsIf (v : Value) (C : Prop) : Prop := v.type.isRef = false → v.isLasting = true → C

variable {v : Value}

theorem isLasting_of_ref {sub : Ty} {isVar : Bool} (h : v.type = .ref sub isVar) :
    v.isLasting = isVar := by
  unfold isLasting
  rw [h]
  rfl

theorem isLasting_of_not_ref (h : v.type.isRef = false) :
    v.isLasting = (v.isStored && v.isVar && !v.isTempSlot) := by
  unfold isLasting
  rw [Ty.refInfo?_of_not_isRef h]

/-- A value that may be changed and is in no temporary slot. -/
theorem isLasting_of_isMutable (h : v.isMutable = true) (htemp : v.isTempSlot = false) :
    v.isLasting = true := by
  unfold isMutable at h
  unfold isLasting
  split <;> simp_all

theorem LastsIf.imp {C D : Prop} (h : v.LastsIf C) (hCD : C → D) : v.LastsIf D :=
  fun href hv => hCD (h href hv)

theorem lastsIf_of_not_stored {C : Prop} (h : v.isStored = false) : v.LastsIf C := by
  intro href hv
  rw [isLasting_of_not_ref href, h] at hv
  cases hv

theorem lastsIf_of_stored {C : Prop} (h : v.isVar = true → v.isTempSlot = false → C) :
    v.LastsIf C := by
  intro href hv
  rw [isLasting_of_not_ref href] at hv
  simp only [Bool.and_eq_true, Bool.not_eq_true'] at hv
  exact h hv.1.2 hv.2

end Value

namespace Emit

variable {α β : Type} {o : Options} {view : Viewpoint} {s s' : Compiler} {v whole : Value}
  {range : Span} {type : Ty}

/-! ## Places -/

/-- The place of a value: what a reference refers to, or the value itself. -/
theorem returns_placeOf : Returns o s (place? whole) fun found _ => ∀ p, found = some p →
    (∃ sub isVar, whole.type = .ref sub isVar ∧ p.type = sub ∧ p.isVar = isVar) ∨
      whole.type.isRef = false ∧ whole.isStored = true ∧ p = whole := by
  unfold place?
  split
  next sub isVar hty =>
    refine .step fun address t => .pure ?_
    rintro p ⟨⟩
    exact .inl ⟨sub, isVar, Ty.eq_ref_of_refInfo? hty, rfl, rfl⟩
  next hty =>
    refine .pure fun p hp => .inr ⟨Ty.not_isRef_of_refInfo? hty, ?_⟩
    split at hp
    · cases hp
    · rename_i htemporary
      cases hp
      exact ⟨by simpa [Value.isStored, Value.isTemporary] using htemporary, rfl⟩

/-- Changes to a value last where its place is variable and no temporary slot. -/
theorem returns_placeOf_lasts : Returns o s (place? whole) fun found _ =>
    ∀ p, found = some p → p.isVar = true → p.isTempSlot = false → whole.isLasting = true := by
  refine returns_placeOf.mono fun found t h p hp hvar htemp => ?_
  rcases h p hp with ⟨sub, isVar, hty, -, hp⟩ | ⟨href, hstored, rfl⟩
  · rw [Value.isLasting_of_ref hty, ← hp]
    exact hvar
  · rw [Value.isLasting_of_not_ref href, hstored, hvar, htemp]
    rfl

theorem returns_place : Returns o s (place whole) fun p _ =>
    p.isVar = true → p.isTempSlot = false → whole.isLasting = true := by
  refine returns_placeOf_lasts.bind fun found t hfound => ?_
  split
  · exact .pure (hfound _ rfl)
  · refine .step fun slot _ => .step fun _ _ => .pure fun _ htemp => ?_
    cases htemp

/-- A part that is in no temporary slot is not part of one. -/
theorem isTempSlot_of_partStorage {storage : Storage}
    (h : (partStorage storage == .tempSlot) = false) : (storage == .tempSlot) = false := by
  cases storage <;> first | rfl | cases h

/-! ## Values without a place -/

variable {C : Prop}

theorem returns_constant (c : Constant) : Returns o s (constant c range) fun v _ => v.LastsIf C :=
  .step fun _ _ => .pure (Value.lastsIf_of_not_stored rfl)

theorem returns_register {a : Emit Ir.Register} :
    Returns o s (do return Value.temporary (.reg (← a)) type range) fun v _ => v.LastsIf C :=
  .step fun _ _ => .pure (Value.lastsIf_of_not_stored rfl)

/-! ## Parts -/

/-- A change to a member lasts only if the member and the whole are variable. -/
theorem returns_memberAt (aggregate : Ty) (index : Nat) (isVar : Bool) :
    Returns o s (memberAt whole aggregate index type isVar range) fun v _ =>
      v.LastsIf (isVar = true ∧ whole.isLasting = true) := by
  unfold memberAt
  split
  · exact returns_constant _
  · refine returns_placeOf_lasts.bind fun found t hfound => ?_
    split
    next p =>
      refine .step fun _ _ => .step fun _ _ => .pure (Value.lastsIf_of_stored ?_)
      intro hvar htemp
      have hvars : p.isVar = true ∧ isVar = true := Bool.and_eq_true_iff.mp hvar
      exact ⟨hvars.2, hfound p rfl hvars.1 (isTempSlot_of_partStorage htemp)⟩
    next => exact returns_register

/-- A change to an element lasts only if the array is variable. -/
theorem returns_arrayElement (length : Nat) (position : Value) (positionRange : Span) :
    Returns o s (arrayElement whole type length position positionRange range) fun v _ =>
      v.LastsIf (whole.isLasting = true) := by
  have hstored : Returns o s (do
      let p ← place whole
      let ptr ← elementPtr p.ir type p.isVar position.ir
      return Value.stored ptr type p.isVar (partStorage p.storage) range) fun v _ =>
        v.LastsIf (whole.isLasting = true) := by
    refine returns_place.bind fun p t hp => .step fun _ _ => .pure (Value.lastsIf_of_stored ?_)
    exact fun hvar htemp => hp hvar (isTempSlot_of_partStorage htemp)
  unfold arrayElement
  dsimp only
  split
  · refine .guard fun _ => ?_
    split
    · exact returns_constant _
    · exact hstored
  · split
    · exact returns_constant _
    · exact hstored

theorem returns_stringLength : Returns o s (stringLength whole range) fun v _ => v.LastsIf C := by
  refine .step fun v t => ?_
  split
  · exact returns_constant _
  · exact .step fun _ _ => .pure (Value.lastsIf_of_not_stored rfl)

/-- A change to what a member leads to lasts only if the whole is variable, and so is the
field if it is one. -/
theorem returns_lowerMember (name : Ident) :
    Returns o s (lowerMember view whole name range) fun v _ =>
      v.LastsIf (whole.isLasting = true ∧ ∀ id index f, whole.type.value = .struct id →
        (s.types.structs[id]?).bind (·.field? name.text) = some (index, f) → f.isVar = true) := by
  unfold lowerMember
  dsimp only
  generalize whole.type.value = ty
  split
  · exact returns_constant _
  · exact returns_stringLength
  · exact .step fun _ _ => returns_register
  · refine returns_types.bind fun _ _ ⟨htypes, _⟩ => ?_
    refine (Returns.require _ _).bind fun found _ ⟨hf, _⟩ => ?_
    refine .step fun _ _ => .check fun _ => (returns_memberAt _ _ _).mono fun v _ hv => ?_
    refine hv.imp fun ⟨hvar, hwhole⟩ => ⟨hwhole, ?_⟩
    rintro _ index f ⟨⟩ hfield
    rw [htypes, hfield] at hf
    cases hf
    exact hvar
  · refine (Returns.require _ _).bind fun _ _ _ => (Returns.require _ _).bind fun _ _ _ => ?_
    exact (returns_memberAt _ _ _).mono fun v _ hv => hv.imp fun h => ⟨h.2, nofun⟩
  · exact .refuse _ _

/-- A change to what a position leads to lasts only if the whole is variable. -/
theorem returns_lowerIndex {base position : Operand}
    (hbase : ∀ v s', base.lower .nothing o s = .ok v s' → v.type.value.isSequence = true) :
    Returns o s (lowerIndex view base position range) fun v _ =>
      v.LastsIf (∃ whole s', base.lower .nothing o s = .ok whole s' ∧ whole.isLasting = true) := by
  refine .bind (Q := fun whole t => base.lower .nothing o s = .ok whole t) (fun _ _ h => h) ?_
  intro whole t hwhole
  have hsequence := hbase whole t hwhole
  generalize hty : whole.type.value = ty at hsequence ⊢
  cases ty with
  | tuple members packed =>
    refine .step fun c _ => (Returns.require _ _).bind fun found _ _ => ?_
    exact (returns_memberAt _ _ _).mono fun v _ hv => hv.imp fun h => ⟨whole, t, hwhole, h.2⟩
  | array element length =>
    refine .step fun at_ _ => .step fun _ _ => .check fun _ => ?_
    unfold elementOf
    rw [hty]
    exact (returns_arrayElement _ _ _).mono fun v _ hv => hv.imp fun h => ⟨whole, t, hwhole, h⟩
  | _ => cases hsequence

/-! ## Names -/

theorem localOf_apply (name : QName) : localOf? name o s = .ok (s.localOf? name) s := by
  unfold localOf? Compiler.localOf?
  cases name.single? <;> rfl

/-- A change to what an entity has become lasts only if that is a variable global. -/
theorem returns_symbolValue (name : QName) (symbol : Symbol) :
    Returns o s (symbolValue name symbol) fun v _ => v.LastsIf (match symbol with
      | .global _ _ isVar _ => isVar = true
      | _ => False) := by
  unfold symbolValue
  dsimp only
  split
  · exact .pure (Value.lastsIf_of_not_stored rfl)
  · exact .step fun _ _ => .pure (Value.lastsIf_of_stored fun hvar _ => hvar)
  · exact returns_constant _
  · exact .step fun _ _ => returns_constant _
  · exact .refuse _ _
  · exact .refuse _ _
  · exact .refuse _ _
  · exact .refuse _ _

theorem returns_bareVariant (ty : Ty) (variant : Ident) :
    Returns o s (bareVariant ty variant range) fun v _ => v.LastsIf C :=
  .step fun _ _ => .step fun _ _ => returns_constant _

/-- A variant that carries nothing is known. -/
theorem returns_lowerVariant (ty : Ty) (variant : Ident) (expect : Expect) :
    Returns o s (lowerVariant ty variant none expect range) fun v _ => v.LastsIf C := by
  refine .step fun t _ => ?_
  dsimp only
  split
  · refine .step fun t _ => .guard fun _ => ?_
    exact returns_bareVariant _ _
  · refine .step fun found _ => ?_
    exact returns_bareVariant _ _

/-- A change to what a name means lasts only if it means something variable. -/
theorem returns_lowerName (name : QName) : Returns o s (lowerName view name .nothing) fun v _ =>
    v.LastsIf (s.namesVar view name = true) := by
  refine .bind (Q := fun found t => found = s.localOf? name ∧ s = t)
    (fun found t h => by cases (localOf_apply name).symm.trans h; exact ⟨rfl, rfl⟩) ?_
  rintro _ _ ⟨rfl, rfl⟩
  unfold Compiler.namesVar
  cases s.localOf? name with
  | some v =>
    refine .pure ?_
    unfold localValue
    split
    · exact Value.lastsIf_of_not_stored rfl
    · exact Value.lastsIf_of_stored fun hvar _ => hvar
  | none =>
    refine .bind (Q := fun r t => r = s.modules.resolve view.module name view ∧ s = t)
      (fun r t h => by cases h; exact ⟨rfl, rfl⟩) ?_
    rintro _ _ ⟨rfl, rfl⟩
    unfold Compiler.namesVarGlobal
    cases s.modules.resolve view.module name view with
    | ok found =>
      cases found with
      | item item =>
        refine .bind (fun _ _ h => (symbolOf_ok h).1) fun y t hy => ?_
        refine (returns_symbolValue name y).mono fun v _ hv => hv.imp fun h => ?_
        simp only [hy]
        cases y with
        | global id ty isVar value => exact h
        | _ => exact h.elim
      | module _ => exact .refuse _ _
    | error e =>
      dsimp only
      split
      · exact .step fun _ _ => returns_lowerVariant _ _ _
      · exact .step fun _ _ => returns_constant _

/-! ## Paths -/

theorem sameDefinitions_lowerExpr {e : Expr} {expect : Expect}
    (h : lowerExpr view e expect o s = .ok v s') : s.types.SameDefinitions s'.types :=
  (sound_lowerExpr (E := s'.core.extent) view e False expect False.elim o s v s' h).2.1.types

variable {e : Expr}

theorem typeOf?_of_ok (h : lowerExpr view e .nothing o s = .ok v s') :
    typeOf? o view s e = some v.type := by
  rw [typeOf?, h]

/-- A path that leads to lasting changes is variable, by its type or by its declarations. -/
theorem variableIf_of_isLasting {declared : Bool} (h : lowerExpr view e .nothing o s = .ok v s')
    (hv : v.isLasting = true) (hdeclared : v.LastsIf (declared = true)) :
    variableIf o view s declared e = true := by
  rw [variableIf, typeOf?_of_ok h, Option.any_some]
  cases hty : v.type with
  | ref sub isVar =>
    rw [Value.isLasting_of_ref hty] at hv
    rw [hv]
    rfl
  | _ => exact hdeclared (by rw [hty]; rfl) hv

theorem returns_selfValue : Returns o s (selfValue range) fun v _ =>
    v.LastsIf (s.selfIsVar = true) := by
  refine .bind (Q := fun t s' => s = t ∧ s = s') (fun t s' h => by cases h; exact ⟨rfl, rfl⟩) ?_
  rintro _ _ ⟨rfl, rfl⟩
  refine (Returns.require _ _).bind fun self t ⟨hself, _⟩ => .pure ?_
  refine Value.lastsIf_of_stored fun hvar _ => ?_
  unfold Compiler.selfIsVar
  rw [hself]
  exact hvar

theorem variable_self (h : lowerExpr view (.self range) .nothing o s = .ok v s')
    (hv : v.isLasting = true) : variableIf o view s s.selfIsVar (.self range) = true := by
  have hself : selfValue range o s = .ok v s' := by rwa [lowerExpr] at h
  exact variableIf_of_isLasting h hv (returns_selfValue v s' hself)

/-- A member that leads to lasting changes has been declared variable. -/
theorem namesVarPart_of_lowerMember {base : Expr} {name : Ident} {s₁ : Compiler}
    (hbase : lowerExpr view base .nothing o s = .ok whole s₁)
    (h : ∀ id index f, whole.type.value = .struct id →
      (s₁.types.structs[id]?).bind (·.field? name.text) = some (index, f) → f.isVar = true) :
    namesVarPart o view s base name = true := by
  rw [namesVarPart, typeOf?_of_ok hbase, Option.all_some]
  split
  next id hstruct =>
    rw [Option.all_eq_true]
    rintro ⟨index, f⟩ hfield
    rw [← (sameDefinitions_lowerExpr hbase).structs] at hfield
    exact h id index f hstruct hfield
  next => rfl

/-- A member that leads to lasting changes is variable if its whole is. -/
theorem variableIf_member {base : Expr} {name : Ident} {t : Compiler} {declared : Bool}
    (hbase : lowerExpr view base .nothing o s = .ok whole t)
    (hmember : lowerMember view whole name range o t = .ok v s')
    (h : lowerExpr view e .nothing o s = .ok v s') (hv : v.isLasting = true)
    (hwhole : whole.isLasting = true → declared = true) :
    variableIf o view s (declared && namesVarPart o view s base name) e = true := by
  refine variableIf_of_isLasting h hv ((returns_lowerMember name v s' hmember).imp ?_)
  rintro ⟨hlasts, hfield⟩
  rw [hwhole hlasts, namesVarPart_of_lowerMember hbase hfield]
  rfl

/-- A path leads to lasting changes only if it is variable. -/
theorem isVariable_of_isLasting (hpath : isPath o view s e = true)
    (h : lowerExpr view e .nothing o s = .ok v s') (hv : v.isLasting = true) :
    isVariable o view s e = true := by
  fun_induction isPath o view s e generalizing v s' with
  | case1 range name =>
    have hname : lowerName view name .nothing o s = .ok v s' := by rwa [lowerExpr] at h
    exact variableIf_of_isLasting h hv (returns_lowerName name v s' hname)
  | case2 range => exact variable_self h hv
  | case3 range name =>
    have hmember := h
    rw [lowerExpr] at hmember
    obtain ⟨whole, t, hself, hmember⟩ := bind_ok hmember
    have hbase : lowerExpr view (.self range) .nothing o s = .ok whole t := by rwa [lowerExpr]
    exact variableIf_member hbase hmember h hv (variable_self hbase)
  | case4 range base name ih =>
    have hmember := h
    rw [lowerExpr] at hmember
    obtain ⟨whole, t, hbase, hmember⟩ := bind_ok hmember
    exact variableIf_member hbase hmember h hv (ih hpath hbase)
  | case5 range base position ih =>
    obtain ⟨hbasePath, hsequence⟩ := Bool.and_eq_true_iff.mp hpath
    have hindex := h
    rw [lowerExpr] at hindex
    have hseq (whole : Value) (t : Compiler)
        (hbase : lowerExpr view base .nothing o s = .ok whole t) :
        whole.type.value.isSequence = true := by
      rwa [typeOf?_of_ok hbase] at hsequence
    refine variableIf_of_isLasting h hv ((returns_lowerIndex hseq v s' hindex).imp ?_)
    rintro ⟨whole, t, hbase, hlasts⟩
    exact ih hbasePath hbase hlasts
  | case6 => cases hpath

theorem isVariable_of_refersToVar (hpath : isPath o view s e = true) {ty : Ty}
    (hty : typeOf? o view s e = some ty) (h : ty.refersToVar = true) :
    isVariable o view s e = true := by
  have href : ty.isRef = true := by
    cases ty <;> first | rfl | cases h
  have hif (declared : Bool) : variableIf o view s declared e = true := by
    rw [variableIf, hty, Option.any_some, if_pos href]
    exact h
  cases e <;> first | exact hif _ | cases hpath

/-- What an assignment to a path changes is a temporary slot, or the path is variable. -/
theorem returns_assignedPlace (hpath : isPath o view s e = true) :
    Returns o s (assignedPlace (operand view e)) fun p _ =>
      p.isTempSlot = true ∨ isVariable o view s e = true := by
  refine .bind (Q := fun v t => lowerExpr view e .nothing o s = .ok v t) (fun _ _ h => h) ?_
  intro v t hv
  refine returns_placeOf.bind fun found _ hfound => (Returns.require _ _).bind fun p _ ⟨hp, _⟩ => ?_
  refine .check fun hmutable => .pure ?_
  rcases hfound p hp with ⟨sub, isVar, hty, hsub, hvar⟩ | ⟨-, -, rfl⟩
  · refine .inr (isVariable_of_refersToVar hpath (typeOf?_of_ok hv) ?_)
    rw [Value.isMutable, hsub] at hmutable
    rw [hty]
    cases sub with
    | ref inner innerVar =>
      have hinner : innerVar = true := hmutable
      simp [Ty.refersToVar, hinner]
    | _ =>
      have hstored : (p.isStored && p.isVar) = true := hmutable
      rw [hvar, Bool.and_eq_true] at hstored
      simp [Ty.refersToVar, hstored.2]
  · cases htemp : p.isTempSlot with
    | true => exact .inl rfl
    | false =>
      exact .inr (isVariable_of_isLasting hpath hv (Value.isLasting_of_isMutable hmutable htemp))

end Emit

end Staged
