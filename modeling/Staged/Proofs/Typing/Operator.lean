/-
  Staged.Proofs.Typing.Operator — typing an operator with and without its values.

  An operator on two known values is folded, and folding goes by what the values are; on other
  values it is computed by an instruction, and that is chosen by the type of the left one. For
  numbers and booleans the two tables are one: folding gives a value of the type that the
  instruction gives, or both refuse with the same code, except that only folding sees a
  division by zero or a shift out of range (`TypeTable.foldBinary_alike`). The same is true of
  comparisons of characters and of choices, and of every operator on one value but the minus
  of an unsigned number (`TypeTable.foldUnary_alike`).

  It is not true of anything else that can be computed with a choice: folding gives a number
  of the underlying type, the machine refuses or gives the choice
  (`TypeTable.not_alike_choice`).
-/

import Staged.Emit.Unary
import Staged.Proofs.Arithmetic.Fold
import Staged.Proofs.Values.Shape

namespace Staged

variable {t : TypeTable} {ty : Ty} {info : IntInfo} {class_ : OperandClass} {op : BinaryOp}

/-! ## Values of a class -/

theorem TypeTable.floatKind?_of_intInfo? (h : t.intInfo? ty = some info) :
    t.floatKind? ty = none := by
  cases ty with
  | native kind =>
    unfold TypeTable.intInfo? at h
    unfold TypeTable.floatKind?
    dsimp only at h ⊢
    cases hkind : kind.repr t.pointerWidth with
    | float k => rw [hkind] at h; cases h
    | _ => rfl
  | _ => first | rfl | cases h

namespace Data

variable {d : Data}

theorem int_of_fits (h : d.fits t ty = true) (hty : t.intInfo? ty = some info) :
    ∃ v, d = .int v := by
  cases d with
  | int v => exact ⟨v, rfl⟩
  | float x =>
    have hfloat : (t.floatKind? ty).isSome = true := h
    rw [TypeTable.floatKind?_of_intInfo? hty] at hfloat
    cases hfloat
  | _ =>
    cases ty with
    | int _ | uint _ | native _ => cases h
    | _ => cases hty

theorem float_of_fits {kind : FloatKind} (h : d.fits t ty = true)
    (hty : t.floatKind? ty = some kind) : ∃ x, d = .float x := by
  cases d with
  | float x => exact ⟨x, rfl⟩
  | int v =>
    obtain hint | ⟨d, hd, -⟩ := fits_int.mp h
    · obtain ⟨info, hinfo⟩ := Option.isSome_iff_exists.mp hint
      rw [TypeTable.floatKind?_of_intInfo? hinfo] at hty
      cases hty
    · cases ty with
      | choice _ => cases hty
      | _ => cases hd
  | _ =>
    cases ty with
    | float _ | native _ => cases h
    | _ => cases hty

theorem bool_of_fits (h : d.fits t .bool = true) : ∃ b, d = .bool b := by
  cases d with
  | bool b => exact ⟨b, rfl⟩
  | _ => cases h

theorem char_of_fits (h : d.fits t .char = true) : ∃ c, d = .char c := by
  cases d with
  | char c => exact ⟨c, rfl⟩
  | _ => cases h

theorem choice_of_fits {id : Nat} (h : d.fits t (.choice id) = true) : ∃ v, d = .int v := by
  cases d with
  | int v => exact ⟨v, rfl⟩
  | _ => cases h

end Data

namespace TypeTable

/-- The types of every class but that of the pointers. -/
theorem operandClass?_cases (h : t.operandClass? ty = some class_) :
    (∃ info, t.intInfo? ty = some info ∧ class_ = info.operandClass) ∨
      (∃ kind, t.floatKind? ty = some kind ∧ class_ = .float) ∨
      ty = .bool ∧ class_ = .bool ∨ (ty = .char ∨ ∃ id, ty = .choice id) ∧ class_ = .ordinal ∨
      class_ = .pointer := by
  unfold operandClass? at h
  split at h
  · exact .inl ⟨_, ‹_›, (Option.some.inj h).symm⟩
  · split at h
    · obtain ⟨kind, hkind⟩ := Option.isSome_iff_exists.mp ‹_›
      exact .inr (.inl ⟨kind, hkind, (Option.some.inj h).symm⟩)
    · split at h
      · exact .inr (.inr (.inl ⟨rfl, (Option.some.inj h).symm⟩))
      · exact .inr (.inr (.inr (.inl ⟨.inl rfl, (Option.some.inj h).symm⟩)))
      · exact .inr (.inr (.inr (.inl ⟨.inr ⟨_, rfl⟩, (Option.some.inj h).symm⟩)))
      · exact .inr (.inr (.inr (.inr (Option.some.inj h).symm)))
      · exact .inr (.inr (.inr (.inr (Option.some.inj h).symm)))
      · cases h

end TypeTable

/-! ## The two tables -/

/-- The type of what an instruction computes of operands of a class, if there is one. -/
def OperandClass.computed (class_ : OperandClass) (op : BinaryOp) (left result : Ty) :
    Except Fault Ty :=
  if op.isComparison then
    if (pred? op class_).isSome then .ok .bool else .error (.unsupported op.symbol left)
  else if (arith? op class_).isSome then .ok result
  else .error (.unsupported op.symbol left)

namespace TypeTable

/-- The type of what an instruction computes for an operator on values of two types. -/
def computed (t : TypeTable) (op : BinaryOp) (left right : Ty) : Except Fault Ty :=
  match t.operandClass? (t.operandType left right) with
  | some class_ => class_.computed op left (t.resultType op left right)
  | none => .error (.unsupported op.symbol left)

/-- The type of what an instruction computes for an operator on a value of a type. -/
def computedUnary (t : TypeTable) (op : UnaryOp) (ty : Ty) (operand : Ir.Value)
    (dest : Ir.Register) : Except Fault Ty :=
  match Emit.unaryInstr? t op ty operand dest with
  | some _ => .ok ty
  | none => .error (.unsupported op.symbol ty)

end TypeTable

/-- Folding and the machine agree on an operator: they give values of one type, or refuse it
with one code, or folding alone sees a division by zero or a shift out of range. -/
inductive TypedAlike : Except FoldError Constant → Except Fault Ty → Prop
  | type (c : Constant) : TypedAlike (.ok c) (.ok c.type)
  | refused {e : FoldError} {f : Fault} : (Fault.fold e).code = f.code →
    TypedAlike (.error e) (.error f)
  | division (ty : Ty) : TypedAlike (.error .divisionByZero) (.ok ty)
  | shift (amount : Int) (bits : Nat) (ty : Ty) :
    TypedAlike (.error (.shiftOutOfRange amount bits)) (.ok ty)

theorem TypedAlike.eq_type {c : Constant} (h : TypedAlike (.ok c) (.ok ty)) : c.type = ty := by
  cases h
  rfl

namespace Emit

/-- On values that are not known, an operator comes to one instruction with a result of the
computed type, or is refused. -/
theorem nativeBinary_computed (t : TypeTable) (op : BinaryOp) (left right : Value) (range : Span) :
    ∃ instr, ∀ o s, s.types = t → nativeBinary op left right range o s = (do
      let ty ← orRefuse (t.computed op left.type right.type) range
      let r ← compute ty instr
      return .temporary r ty range : Emit Value) o s := by
  unfold TypeTable.computed OperandClass.computed
  cases hclass : t.operandClass? (t.operandType left.type right.type) with
  | none =>
    refine ⟨(.compare · .eq left.ir right.ir), ?_⟩
    rintro o s rfl
    show (do
      let class_ ← require (s.types.operandClass? _) _ range
      _ : Emit Value) o s = _
    rw [hclass]
    rfl
  | some class_ =>
    dsimp only
    cases hcompare : op.isComparison with
    | true =>
      cases hpred : OperandClass.pred? op class_ with
      | none =>
        refine ⟨(.compare · .eq left.ir right.ir), ?_⟩
        rintro o s rfl
        rw [nativeBinary_class range hclass, hcompare, hpred]
        rfl
      | some pred =>
        refine ⟨(.compare · pred left.ir right.ir), ?_⟩
        rintro o s rfl
        rw [nativeBinary_class range hclass, hcompare, hpred]
        rfl
    | false =>
      cases harith : OperandClass.arith? op class_ with
      | none =>
        refine ⟨(.compare · .eq left.ir right.ir), ?_⟩
        rintro o s rfl
        rw [nativeBinary_class range hclass, hcompare, harith]
        rfl
      | some arith =>
        refine ⟨(.arith · arith left.ir right.ir), ?_⟩
        rintro o s rfl
        rw [nativeBinary_class range hclass, hcompare, harith]
        rfl

end Emit

namespace TypeTable

/-! ## Numbers, booleans and comparisons -/

/-- An operator on a type other than a choice goes by its class. -/
theorem computed_self (hchoice : t.choiceOf? ty = none) (hclass : t.operandClass? ty = some class_)
    (op : BinaryOp) (right : Ty) : t.computed op ty right = class_.computed op ty ty := by
  unfold computed
  rw [Emit.operandType_self hchoice, hclass, Emit.resultType_self hchoice]

theorem computed_same (hclass : t.operandClass? ty = some class_) (op : BinaryOp) :
    t.computed op ty ty = class_.computed op ty (t.resultType op ty ty) := by
  unfold computed
  rw [Emit.operandType_same, hclass]

theorem computed_integer (ty : Ty) (hlogical : op.isLogical = false) :
    info.operandClass.computed op ty ty = .ok (if op.isComparison then .bool else ty) := by
  unfold IntInfo.operandClass
  split <;> cases op <;> first | rfl | cases hlogical

theorem rawInt_alike (hcompare : op.isComparison = false) (hlogical : op.isLogical = false)
    (a b : Int) :
    TypedAlike ((rawInt op ty info a b).map fun raw => .int ty (info.wrap raw)) (.ok ty) := by
  cases op with
  | div | rem =>
    unfold rawInt
    dsimp only
    split
    · exact .division ty
    · exact .type (.int ty _)
  | shl | shr =>
    unfold rawInt
    dsimp only
    split
    · exact .shift _ _ ty
    · exact .type (.int ty _)
  | and | or => cases hlogical
  | eq | ne | lt | le | gt | ge => cases hcompare
  | _ => exact .type (.int ty _)

theorem foldInt_alike (h : t.intInfo? ty = some info) (hlogical : op.isLogical = false)
    (a b : Int) (right : Ty) : TypedAlike (t.foldInt op ty a b) (t.computed op ty right) := by
  rw [computed_self (choiceOf?_of_intInfo? h) (operandClass?_of_intInfo? h),
    computed_integer ty hlogical, foldInt_int h]
  cases hcompare : op.isComparison with
  | true =>
    cases op with
    | eq | ne | lt | le | gt | ge => exact .type (.bool _)
    | _ => cases hcompare
  | false =>
    rw [compareInt?_eq_none hcompare]
    exact rawInt_alike hcompare hlogical a b

theorem foldFloat_alike (ty : Ty) (hlogical : op.isLogical = false) (a b : Binary64) :
    TypedAlike (t.foldFloat op ty a b) (OperandClass.float.computed op ty ty) := by
  cases op with
  | eq | ne | lt | le | gt | ge => exact .type (.bool _)
  | add | sub | mul | div | rem => exact .type ⟨.float _, ty⟩
  | bitAnd | bitOr | bitXor | shl | shr => exact .refused rfl
  | and | or => cases hlogical

theorem foldBool_alike (hlogical : op.isLogical = false) (a b : Bool) :
    TypedAlike (foldBool op .bool a b) (OperandClass.bool.computed op .bool .bool) := by
  cases op with
  | eq | ne | bitAnd | bitOr | bitXor => exact .type (.bool _)
  | and | or => cases hlogical
  | _ => exact .refused rfl

/-- A comparison of numbers is typed as the machine types one of characters and choices. -/
theorem compareInt?_alike (hcompare : op.isComparison = true) (left result : Ty) (a b : Int)
    {otherwise : Except FoldError Constant} :
    TypedAlike (match compareInt? op a b with
      | some holds => .ok (.bool holds)
      | none => otherwise) (OperandClass.ordinal.computed op left result) := by
  cases op with
  | eq | ne | lt | le | gt | ge => exact .type (.bool _)
  | _ => cases hcompare

variable {l r : Constant}

/-- Operands are of one type, of integer types that are alike, or a choice and its type. -/
theorem checkOperands_cases (h : t.checkOperands op l.type r.type = .ok ()) :
    l.type = r.type ∨ (∃ info, t.intInfo? l.type = some info ∧ t.intInfo? r.type = some info) ∨
      op.isBitwise = true ∧ t.isUnderlying l.type r.type = true := by
  unfold checkOperands at h
  extract_lets otherwise at h
  have hotherwise (hok : otherwise = .ok ()) :
      op.isBitwise = true ∧ t.isUnderlying l.type r.type = true := by
    have hif : (if op.isBitwise && t.isUnderlying l.type r.type then .ok ()
      else .error (.operands op l.type r.type)) = (.ok () : Except Fault Unit) := hok
    split at hif
    · exact Bool.and_eq_true_iff.mp ‹_›
    · cases hif
  split at h
  · exact .inl ‹_›
  · split at h
    · rename_i a b ha hb
      split at h
      · cases h
      · split at h
        · rename_i heq
          exact .inr (.inl ⟨a, ha, heq ▸ hb⟩)
        · exact .inr (.inr (hotherwise h))
    · exact .inr (.inr (hotherwise h))

/-- The right operand of an integer is an integer too, or a choice. -/
theorem right_int (hr : r.Fits t) (h : t.checkOperands op l.type r.type = .ok ())
    (hint : t.intInfo? l.type = some info) : ∃ v, r.data = .int v := by
  obtain heq | ⟨info', -, hr'⟩ | ⟨-, hunder⟩ := checkOperands_cases h
  · exact Data.int_of_fits hr (heq ▸ hint)
  · exact Data.int_of_fits hr hr'
  · unfold isUnderlying at hunder
    rw [choiceOf?_of_intInfo? hint, Option.any_none, Bool.false_or] at hunder
    obtain ⟨d, hd, -⟩ := (Option.any_eq_true ..).mp hunder
    obtain ⟨data, type⟩ := r
    cases type with
    | choice id => exact Data.choice_of_fits hr
    | _ => cases hd

/-- Other operands that are no choices are of one type. -/
theorem right_type (h : t.checkOperands op l.type r.type = .ok ())
    (hint : t.intInfo? l.type = none) (hchoice : t.choiceOf? l.type = none)
    (hchoices : ∀ d, t.choiceOf? r.type = some d → t.isIntegral d.underlying = true) :
    l.type = r.type := by
  obtain heq | ⟨info, hl, -⟩ | ⟨-, hunder⟩ := checkOperands_cases h
  · exact heq
  · rw [hint] at hl
    cases hl
  · unfold isUnderlying at hunder
    rw [hchoice, Option.any_none, Bool.false_or] at hunder
    obtain ⟨d, hd, heq⟩ := (Option.any_eq_true ..).mp hunder
    have hintegral := hchoices d hd
    rw [eq_of_beq heq] at hintegral
    unfold isIntegral at hintegral
    rw [hint] at hintegral
    cases hintegral

/-- The operands of a comparison of characters or choices are of one type. -/
theorem right_ordinal (h : t.checkOperands op l.type r.type = .ok ())
    (hcompare : op.isComparison = true) (hint : t.intInfo? l.type = none) : l.type = r.type := by
  obtain heq | ⟨info, hl, -⟩ | ⟨hbitwise, -⟩ := checkOperands_cases h
  · exact heq
  · rw [hint] at hl
    cases hl
  · cases op with
    | eq | ne | lt | le | gt | ge => cases hbitwise
    | _ => cases hcompare

theorem foldBinary_alike_int (hl : l.Fits t) (hr : r.Fits t)
    (hcheck : t.checkOperands op l.type r.type = .ok ()) (hlogical : op.isLogical = false)
    (hint : t.intInfo? l.type = some info) :
    TypedAlike (t.foldBinary op l r) (t.computed op l.type r.type) := by
  obtain ⟨data, left⟩ := l
  obtain ⟨data', right⟩ := r
  obtain ⟨a, rfl⟩ := Data.int_of_fits hl hint
  obtain ⟨b, rfl⟩ := right_int hr hcheck hint
  exact foldInt_alike hint hlogical a b right

theorem foldBinary_alike_float {kind : FloatKind} (hl : l.Fits t) (hr : r.Fits t)
    (hcheck : t.checkOperands op l.type r.type = .ok ()) (hlogical : op.isLogical = false)
    (hchoices : ∀ d, t.choiceOf? r.type = some d → t.isIntegral d.underlying = true)
    (hclass : t.operandClass? l.type = some .float) (hkind : t.floatKind? l.type = some kind) :
    TypedAlike (t.foldBinary op l r) (t.computed op l.type r.type) := by
  obtain ⟨data, left⟩ := l
  obtain ⟨data', right⟩ := r
  have hint : t.intInfo? left = none := by
    cases h : t.intInfo? left with
    | none => rfl
    | some info =>
      rw [floatKind?_of_intInfo? h] at hkind
      cases hkind
  have hchoice : t.choiceOf? left = none := by
    cases left with
    | choice id => cases hkind
    | _ => rfl
  obtain rfl : left = right := right_type hcheck hint hchoice hchoices
  obtain ⟨x, rfl⟩ := Data.float_of_fits hl hkind
  obtain ⟨y, rfl⟩ := Data.float_of_fits hr hkind
  rw [computed_self hchoice hclass]
  exact foldFloat_alike left hlogical x y

theorem foldBinary_alike_bool (hl : l.Fits t) (hr : r.Fits t)
    (hcheck : t.checkOperands op l.type r.type = .ok ()) (hlogical : op.isLogical = false)
    (hchoices : ∀ d, t.choiceOf? r.type = some d → t.isIntegral d.underlying = true)
    (hbool : l.type = .bool) :
    TypedAlike (t.foldBinary op l r) (t.computed op l.type r.type) := by
  obtain ⟨data, left⟩ := l
  obtain ⟨data', right⟩ := r
  obtain rfl : left = .bool := hbool
  obtain rfl : .bool = right := right_type hcheck rfl rfl hchoices
  obtain ⟨a, rfl⟩ := Data.bool_of_fits hl
  obtain ⟨b, rfl⟩ := Data.bool_of_fits hr
  exact foldBool_alike hlogical a b

theorem foldBinary_alike_ordinal (hl : l.Fits t) (hr : r.Fits t)
    (hcheck : t.checkOperands op l.type r.type = .ok ()) (hcompare : op.isComparison = true)
    (htype : l.type = .char ∨ ∃ id, l.type = .choice id) :
    TypedAlike (t.foldBinary op l r) (t.computed op l.type r.type) := by
  obtain ⟨data, left⟩ := l
  obtain ⟨data', right⟩ := r
  obtain hchar | ⟨id, hchoice⟩ := htype
  · obtain rfl : left = .char := hchar
    obtain rfl : .char = right := right_ordinal hcheck hcompare rfl
    obtain ⟨a, rfl⟩ := Data.char_of_fits hl
    obtain ⟨b, rfl⟩ := Data.char_of_fits hr
    rw [computed_same rfl]
    exact compareInt?_alike hcompare _ _ a.toNat b.toNat
  · obtain rfl : left = .choice id := hchoice
    obtain rfl : .choice id = right := right_ordinal hcheck hcompare rfl
    obtain ⟨a, rfl⟩ := Data.choice_of_fits hl
    obtain ⟨b, rfl⟩ := Data.choice_of_fits hr
    rw [computed_same rfl]
    exact compareInt?_alike hcompare _ _ a b

/-- Whether the operands are known makes no difference to the type of an operator on numbers
and booleans, nor to that of a comparison of characters or choices. Choices have to be over
integers. -/
theorem foldBinary_alike (hl : l.Fits t) (hr : r.Fits t)
    (hcheck : t.checkOperands op l.type r.type = .ok ()) (hlogical : op.isLogical = false)
    (hchoices : ∀ d, t.choiceOf? r.type = some d → t.isIntegral d.underlying = true)
    (hclass : t.operandClass? l.type = some class_) (hpointer : class_ ≠ .pointer)
    (hordinal : class_ = .ordinal → op.isComparison = true) :
    TypedAlike (t.foldBinary op l r) (t.computed op l.type r.type) := by
  obtain ⟨info, hint, -⟩ | ⟨kind, hkind, rfl⟩ | ⟨hbool, -⟩ | ⟨htype, rfl⟩ | rfl :=
    operandClass?_cases hclass
  · exact foldBinary_alike_int hl hr hcheck hlogical hint
  · exact foldBinary_alike_float hl hr hcheck hlogical hchoices hclass hkind
  · exact foldBinary_alike_bool hl hr hcheck hlogical hchoices hbool
  · exact foldBinary_alike_ordinal hl hr hcheck (hordinal rfl) htype
  · exact absurd rfl hpointer

/-! ## Choices -/

theorem foldBinary_choice_raw {d : ChoiceDef} (hd : t.choiceOf? ty = some d)
    (hu : t.intInfo? d.underlying = some info) (hcompare : op.isComparison = false) (a b : Int) :
    t.foldBinary op (.int ty a) (.int ty b) =
      (rawInt op ty info a b).map fun raw => .int d.underlying (info.wrap raw) := by
  have hordinal : t.ordinal? ty = some info := by
    cases ty with
    | choice id => exact (congrArg (·.bind fun d => t.intInfo? d.underlying) hd).trans hu
    | _ => cases hd
  show t.foldInt op ty a b = _
  unfold foldInt computedType
  rw [compareInt?_eq_none hcompare, hordinal, hd]
  dsimp only
  cases rawInt op ty info a b <;> rfl

theorem computed_choice {d : ChoiceDef} (hd : t.choiceOf? ty = some d) (op : BinaryOp) :
    t.computed op ty ty = OperandClass.ordinal.computed op ty (if op.isBitwise then ty else
      t.operandType ty ty) := by
  rw [computed_same (operandClass?_of_choiceOf? hd)]
  unfold resultType
  rw [hd]
  rfl

/-- Whatever is computed with two values of a choice, except a comparison, is typed in another
way if they are known: as a number, or with a fault of its own. -/
theorem not_alike_choice {d : ChoiceDef} (hd : t.choiceOf? ty = some d)
    (hu : t.intInfo? d.underlying = some info) (hcompare : op.isComparison = false)
    (hlogical : op.isLogical = false) (a b : Int) :
    ¬TypedAlike (t.foldBinary op (.int ty a) (.int ty b)) (t.computed op ty ty) := by
  have hunderlying : d.underlying ≠ ty := by
    rintro rfl
    rw [choiceOf?_of_intInfo? hu] at hd
    cases hd
  rw [foldBinary_choice_raw hd hu hcompare, computed_choice hd]
  intro h
  cases op with
  | add | sub | mul => cases h
  | div | rem | shl | shr =>
    unfold rawInt at h
    dsimp only at h
    split at h
    · cases h with
      | refused hcode => cases hcode
    · cases h
  | bitAnd | bitOr | bitXor => exact hunderlying (TypedAlike.eq_type h)
  | and | or => cases hlogical
  | _ => cases hcompare

/-! ## One operand -/

variable {c : Constant}

theorem foldUnary_int (op : UnaryOp) {v : Int} (hdata : c.data = .int v)
    (h : t.intInfo? c.type = some info) (hnot : op ≠ .not) :
    ∃ result, t.foldUnary op c = .ok (.int c.type result) := by
  unfold foldUnary
  rw [hdata, h]
  cases op with
  | negate => exact ⟨_, rfl⟩
  | not => exact absurd rfl hnot
  | bitNot => exact ⟨_, rfl⟩

/-- Only numbers have a minus and a complement. -/
theorem foldUnary_unsupported (op : UnaryOp) (hc : c.Fits t) (hnot : op ≠ .not)
    (hint : t.intInfo? c.type = none) (hfloat : op = .negate → t.floatKind? c.type = none) :
    t.foldUnary op c = .error (.unsupported op.symbol c.type) := by
  obtain ⟨data, type⟩ := c
  cases data with
  | int v =>
    cases op with
    | not => exact absurd rfl hnot
    | _ =>
      unfold foldUnary
      dsimp only
      rw [hint]
  | float x =>
    have hkind : (t.floatKind? type).isSome = true := hc
    cases op with
    | negate => rw [hfloat rfl] at hkind; cases hkind
    | not => exact absurd rfl hnot
    | bitNot => rfl
  | _ =>
    cases op with
    | not => exact absurd rfl hnot
    | _ => rfl

/-- Whether the operand is known makes no difference to the type of an operator on one value,
unless it is the minus of an unsigned number. -/
theorem foldUnary_alike {op : UnaryOp} (hc : c.Fits t)
    (hminus : op = .negate → ∀ info, t.intInfo? c.type = some info → info.signed = true)
    (operand : Ir.Value) (dest : Ir.Register) :
    TypedAlike (t.foldUnary op c) (t.computedUnary op c.type operand dest) := by
  unfold computedUnary Emit.unaryInstr?
  cases op with
  | negate =>
    dsimp only
    cases hint : t.intInfo? c.type with
    | some info =>
      have hs := hminus rfl info hint
      obtain ⟨v, hdata⟩ := Data.int_of_fits hc hint
      obtain ⟨result, hfold⟩ := foldUnary_int .negate hdata hint (by decide)
      rw [hfold, floatKind?_of_intInfo? hint, Option.any_some, hs]
      exact .type (.int c.type result)
    | none =>
      cases hkind : t.floatKind? c.type with
      | some kind =>
        obtain ⟨data, type⟩ := c
        obtain ⟨x, rfl⟩ := Data.float_of_fits hc hkind
        exact .type ⟨.float x.neg, type⟩
      | none =>
        rw [foldUnary_unsupported .negate hc (by decide) hint fun _ => hkind]
        exact .refused rfl
  | not =>
    obtain ⟨data, type⟩ := c
    dsimp only
    by_cases hbool : type = .bool
    · subst hbool
      obtain ⟨b, rfl⟩ := Data.bool_of_fits hc
      exact .type ⟨.bool !b, .bool⟩
    · rw [if_neg hbool]
      cases data with
      | bool b => exact absurd (eq_of_beq hc) hbool
      | _ => exact .refused rfl
  | bitNot =>
    cases hint : t.intInfo? c.type with
    | some info =>
      obtain ⟨v, hdata⟩ := Data.int_of_fits hc hint
      obtain ⟨result, hfold⟩ := foldUnary_int .bitNot hdata hint (by decide)
      rw [hfold]
      exact .type (.int c.type result)
    | none =>
      rw [foldUnary_unsupported .bitNot hc (by decide) hint nofun]
      exact .refused rfl

/-- The minus of an unsigned number is a number if that is known, and refused if not. -/
theorem not_alike_minus (h : t.intInfo? ty = some info) (hs : info.signed = false) (v : Int)
    (operand : Ir.Value) (dest : Ir.Register) :
    ¬TypedAlike (t.foldUnary .negate (.int ty v))
      (t.computedUnary .negate ty operand dest) := by
  have hnone : t.computedUnary .negate ty operand dest = .error (.unsupported "-" ty) := by
    unfold computedUnary Emit.unaryInstr?
    rw [floatKind?_of_intInfo? h, h, Option.any_some, hs]
    rfl
  obtain ⟨result, hfold⟩ := foldUnary_int .negate (c := .int ty v) rfl h (by decide)
  rw [hfold, hnone]
  intro halike
  cases halike

end TypeTable

end Staged
