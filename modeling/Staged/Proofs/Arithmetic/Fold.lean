/-
  Staged.Proofs.Arithmetic.Fold — folding integers and computing with them agree.

  An operator on two integers is folded if both are known, and otherwise computed by an
  instruction that is chosen by the sign of their type. Folding is one path for all types:
  exact, then back into 128 bits, then back into the type. For every type of 1 to 128 bits
  it comes to what the instruction computes of the two words (`foldBinary_machine`). It is
  refused for a division by zero and for a shift by less than nothing or by the width or
  more, and these are just the cases in which the instruction computes nothing.

  A choice is a word of its underlying integer type. Two known values are compared as
  numbers, two that are not known by an instruction that reads their words without a sign,
  whatever the sign of the underlying type. A number and its word without a sign are in the
  same order as long as neither is negative, or both are (`IntInfo.ult_word_iff`). So equality
  is the same both ways for all values, and the four orders are the same unless exactly one of
  the values is negative (`foldBinary_choice`).
-/

import Staged.Emit.Binary
import Staged.Proofs.Arithmetic.Word

namespace Staged

variable {t : TypeTable} {ty : Ty} {info : IntInfo} {op : BinaryOp} {a b : Int}

def IntInfo.operandClass (info : IntInfo) : OperandClass :=
  if info.signed then .signed else .unsigned

theorem IntInfo.operandClass_of_signed (hs : info.signed = true) :
    info.operandClass = .signed := by
  rw [operandClass, hs]
  rfl

theorem IntInfo.operandClass_of_unsigned (hs : info.signed = false) :
    info.operandClass = .unsigned := by
  rw [operandClass, hs]
  rfl

namespace TypeTable

theorem operandClass?_of_intInfo? (h : t.intInfo? ty = some info) :
    t.operandClass? ty = some info.operandClass := by
  unfold operandClass?
  rw [h]
  rfl

theorem choiceOf?_of_intInfo? (h : t.intInfo? ty = some info) : t.choiceOf? ty = none := by
  cases ty <;> first | rfl | cases h

theorem ordinal?_of_intInfo? (h : t.intInfo? ty = some info) : t.ordinal? ty = some info := by
  cases ty <;> first | exact h | cases h

/-- Comparisons give a truth value, everything else a value of the same type. -/
theorem foldInt_int (h : t.intInfo? ty = some info) (op : BinaryOp) (a b : Int) :
    t.foldInt op ty a b =
      match compareInt? op a b with
      | some holds => .ok (.bool holds)
      | none => (rawInt op ty info a b).map fun raw => .int ty (info.wrap raw) := by
  unfold foldInt computedType
  rw [ordinal?_of_intInfo? h, choiceOf?_of_intInfo? h]
  cases compareInt? op a b with
  | some holds => rfl
  | none =>
    dsimp only
    cases rawInt op ty info a b <;> rfl

theorem foldBinary_int (h : t.intInfo? ty = some info) (op : BinaryOp) (a b : Int) :
    t.foldBinary op (.int ty a) (.int ty b) =
      match compareInt? op a b with
      | some holds => .ok (.bool holds)
      | none => (rawInt op ty info a b).map fun raw => .int ty (info.wrap raw) :=
  foldInt_int h op a b

end TypeTable

/-! ## The instruction for an operator -/

namespace Emit

/-- Unless it is folded, an operator on two values of the type is computed by this
instruction, with a result of that type. -/
def ComputesBy (t : TypeTable) (op : BinaryOp) (ty result : Ty)
    (instr : Ir.Register → Ir.Value → Ir.Value → Ir.Instr) : Prop :=
  ∀ o s (left right : Value) range, s.types = t → left.type = ty → right.type = ty →
    nativeBinary op left right range o s = (do
      let r ← compute result (instr · left.ir right.ir)
      return .temporary r result range : Emit Value) o s

theorem operandType_self (h : t.choiceOf? ty = none) (right : Ty) : t.operandType ty right = ty := by
  unfold TypeTable.operandType
  rw [h]

theorem resultType_self (h : t.choiceOf? ty = none) (op : BinaryOp) (right : Ty) :
    t.resultType op ty right = ty := by
  unfold TypeTable.resultType
  rw [h, operandType_self h]
  rfl

theorem operandType_same (t : TypeTable) (ty : Ty) : t.operandType ty ty = ty := by
  unfold TypeTable.operandType
  split
  · split
    · exact Eq.symm ‹_›
    · rfl
  · rfl

/-- An operator goes by the class of its left operand. -/
theorem nativeBinary_class {o : Options} {s : Compiler} {left right : Value} {class_ : OperandClass}
    (range : Span)
    (h : s.types.operandClass? (s.types.operandType left.type right.type) = some class_) :
    nativeBinary op left right range o s = (
      if op.isComparison then do
        let pred ← require (OperandClass.pred? op class_) (.unsupported op.symbol left.type) range
        let r ← compute .bool (.compare · pred left.ir right.ir)
        return .temporary r .bool range
      else do
        let arith ← require (OperandClass.arith? op class_) (.unsupported op.symbol left.type) range
        let type := s.types.resultType op left.type right.type
        let r ← compute type (.arith · arith left.ir right.ir)
        return .temporary r type range : Emit Value) o s := by
  show (do
    let class_ ← require (s.types.operandClass? (s.types.operandType left.type right.type)) _ range
    _ : Emit Value) o s = _
  rw [h]
  rfl

theorem computesBy_compare {class_ : OperandClass} (hclass : t.operandClass? ty = some class_)
    (hop : op.isComparison = true) {pred : Ir.Pred}
    (hpred : OperandClass.pred? op class_ = some pred) :
    ComputesBy t op ty .bool (.compare · pred · ·) := by
  rintro o s left right range rfl rfl hright
  rw [nativeBinary_class range (by rwa [hright, operandType_same]), if_pos hop, hpred]
  rfl

theorem computesBy_arith (h : t.intInfo? ty = some info) (hop : op.isComparison = false)
    {arith : Ir.Arith} (harith : OperandClass.arith? op info.operandClass = some arith) :
    ComputesBy t op ty ty (.arith · arith · ·) := by
  rintro o s left right range rfl rfl hright
  have hclass := TypeTable.operandClass?_of_intInfo? h
  rw [nativeBinary_class range (by rwa [hright, operandType_same]),
    if_neg (by rw [hop]; exact Bool.false_ne_true), harith,
    resultType_self (TypeTable.choiceOf?_of_intInfo? h)]
  rfl

end Emit

/-! ## One operator at a time -/

namespace IntInfo

/-- A comparison holds of two constants if it holds of their words. -/
theorem onWords?_compareInt? (hpos : 0 < info.bits) (ha : info.InRange a)
    (hb : info.InRange b) (hop : op.isComparison = true) :
    ∃ pred holds, OperandClass.pred? op info.operandClass = some pred ∧
      compareInt? op a b = some holds ∧
      pred.onWords? (info.word a) (info.word b) = some holds := by
  have heq := beq_word ha hb hpos
  cases hs : info.signed with
  | true =>
    rw [operandClass_of_signed hs]
    cases op with
    | eq => exact ⟨.eq, _, rfl, rfl, congrArg some heq⟩
    | ne => exact ⟨.ne, _, rfl, rfl, congrArg (fun r => some !r) heq⟩
    | lt => exact ⟨.slt, _, rfl, rfl, congrArg some (slt_word ha hb hs hpos)⟩
    | le => exact ⟨.sle, _, rfl, rfl, congrArg some (sle_word ha hb hs hpos)⟩
    | gt => exact ⟨.sgt, _, rfl, rfl, congrArg some (slt_word hb ha hs hpos)⟩
    | ge => exact ⟨.sge, _, rfl, rfl, congrArg some (sle_word hb ha hs hpos)⟩
    | _ => cases hop
  | false =>
    rw [operandClass_of_unsigned hs]
    cases op with
    | eq => exact ⟨.eq, _, rfl, rfl, congrArg some heq⟩
    | ne => exact ⟨.ne, _, rfl, rfl, congrArg (fun r => some !r) heq⟩
    | lt => exact ⟨.ult, _, rfl, rfl, congrArg some (ult_word ha hb hs)⟩
    | le => exact ⟨.ule, _, rfl, rfl, congrArg some (ule_word ha hb hs)⟩
    | gt => exact ⟨.ugt, _, rfl, rfl, congrArg some (ult_word hb ha hs)⟩
    | ge => exact ⟨.uge, _, rfl, rfl, congrArg some (ule_word hb ha hs)⟩
    | _ => cases hop

/-- The instruction for an operator computes the word of this constant. -/
def Computes (info : IntInfo) (op : BinaryOp) (a b raw : Int) : Prop :=
  ∃ arith, OperandClass.arith? op info.operandClass = some arith ∧
    arith.onWords? (info.word a) (info.word b) = some (info.word raw)

/-- Signs make no difference to these operators. -/
theorem computes_of_both {arith : Ir.Arith} {raw : Int}
    (hs : OperandClass.arith? op .signed = some arith)
    (hu : OperandClass.arith? op .unsigned = some arith)
    (h : arith.onWords? (info.word a) (info.word b) = some (info.word raw)) :
    info.Computes op a b raw := by
  refine ⟨arith, ?_, h⟩
  unfold operandClass
  split
  · exact hs
  · exact hu

theorem computes_add (hbits : info.bits ≤ 128) : info.Computes .add a b (wide (a + b)) :=
  computes_of_both rfl rfl (by rw [word_wide hbits, word_add]; rfl)

theorem computes_sub (hbits : info.bits ≤ 128) : info.Computes .sub a b (wide (a - b)) :=
  computes_of_both rfl rfl (by rw [word_wide hbits, word_sub]; rfl)

theorem computes_mul (hbits : info.bits ≤ 128) : info.Computes .mul a b (wide (a * b)) :=
  computes_of_both rfl rfl (by rw [word_wide hbits, word_mul]; rfl)

theorem computes_bitAnd (hbits : info.bits ≤ 128) :
    info.Computes .bitAnd a b (bitwise (· &&& ·) a b) :=
  computes_of_both rfl rfl (by rw [word_and hbits]; rfl)

theorem computes_bitOr (hbits : info.bits ≤ 128) :
    info.Computes .bitOr a b (bitwise (· ||| ·) a b) :=
  computes_of_both rfl rfl (by rw [word_or hbits]; rfl)

theorem computes_bitXor (hbits : info.bits ≤ 128) :
    info.Computes .bitXor a b (bitwise (· ^^^ ·) a b) :=
  computes_of_both rfl rfl (by rw [word_xor hbits]; rfl)

theorem computes_div (hpos : 0 < info.bits) (hbits : info.bits ≤ 128) (ha : info.InRange a)
    (hb : info.InRange b) (hzero : b ≠ 0) : info.Computes .div a b (wide (a.tdiv b)) := by
  have hword : info.word b ≠ 0 := fun h => hzero ((word_eq_zero hb hpos).mp h)
  cases hs : info.signed with
  | true =>
    refine ⟨.sdiv, by rw [operandClass_of_signed hs]; rfl, ?_⟩
    rw [word_wide hbits, word_sdiv ha hb hs hpos]
    exact if_neg hword
  | false =>
    refine ⟨.udiv, by rw [operandClass_of_unsigned hs]; rfl, ?_⟩
    rw [word_wide hbits, word_udiv ha hb hs]
    exact if_neg hword

theorem computes_rem (hpos : 0 < info.bits) (hbits : info.bits ≤ 128) (ha : info.InRange a)
    (hb : info.InRange b) (hzero : b ≠ 0) : info.Computes .rem a b (wide (a.tmod b)) := by
  have hword : info.word b ≠ 0 := fun h => hzero ((word_eq_zero hb hpos).mp h)
  cases hs : info.signed with
  | true =>
    refine ⟨.srem, by rw [operandClass_of_signed hs]; rfl, ?_⟩
    rw [word_wide hbits, word_srem ha hb hs hpos]
    exact if_neg hword
  | false =>
    refine ⟨.urem, by rw [operandClass_of_unsigned hs]; rfl, ?_⟩
    rw [word_wide hbits, word_urem ha hb hs]
    exact if_neg hword

/-- An amount in range is the same modulo 128, and in range as a word. -/
theorem amount_in_range (hbits : info.bits ≤ 128) (hle : 0 ≤ b) (hlt : b < info.bits) :
    b.toNat % 128 = b.toNat ∧ (info.word b).toNat < info.bits := by
  refine ⟨Nat.mod_eq_of_lt (by omega), ?_⟩
  rw [toNat_word_amount hle hlt]
  omega

theorem computes_shl (hbits : info.bits ≤ 128) (hle : 0 ≤ b) (hlt : b < info.bits) :
    info.Computes .shl a b (wide (a * Int.pow 2 (b.toNat % 128))) := by
  obtain ⟨hamount, hword⟩ := amount_in_range hbits hle hlt
  refine computes_of_both rfl rfl ?_
  rw [word_wide hbits, hamount]
  exact (if_pos hword).trans (congrArg some (word_shl hle hlt).symm)

theorem computes_shr (hpos : 0 < info.bits) (hbits : info.bits ≤ 128) (ha : info.InRange a)
    (hle : 0 ≤ b) (hlt : b < info.bits) :
    info.Computes .shr a b (a.fdiv (Int.pow 2 (b.toNat % 128))) := by
  obtain ⟨hamount, hword⟩ := amount_in_range hbits hle hlt
  rw [hamount]
  cases hs : info.signed with
  | true =>
    refine ⟨.ashr, by rw [operandClass_of_signed hs]; rfl, ?_⟩
    exact (if_pos hword).trans (congrArg some (word_ashr ha hs hpos hle hlt).symm)
  | false =>
    refine ⟨.lshr, by rw [operandClass_of_unsigned hs]; rfl, ?_⟩
    exact (if_pos hword).trans (congrArg some (word_lshr ha hs hle hlt).symm)

end IntInfo

/-! ## Folding -/

/-- Why an operator cannot be folded for its right side, if it cannot: a division by zero,
or a shift by less than nothing or by the width or more. -/
def IntInfo.refusal? (info : IntInfo) (op : BinaryOp) (b : Int) : Option FoldError :=
  match op with
  | .div | .rem => if b = 0 then some .divisionByZero else none
  | .shl | .shr => if b < 0 ∨ b ≥ info.bits then some (.shiftOutOfRange b info.bits) else none
  | _ => none

theorem IntInfo.refusal?_divisionByZero :
    info.refusal? op b = some .divisionByZero ↔ (op = .div ∨ op = .rem) ∧ b = 0 := by
  cases op <;> simp [refusal?]

theorem IntInfo.refusal?_shiftOutOfRange {amount : Int} {bits : Nat} :
    info.refusal? op b = some (.shiftOutOfRange amount bits) ↔
      (op = .shl ∨ op = .shr) ∧ (b < 0 ∨ info.bits ≤ b) ∧ b = amount ∧ info.bits = bits := by
  cases op <;> simp [refusal?]

theorem IntInfo.refusal?_eq_none :
    info.refusal? op b = none ↔ ¬((op = .div ∨ op = .rem) ∧ b = 0) ∧
      ¬((op = .shl ∨ op = .shr) ∧ (b < 0 ∨ info.bits ≤ b)) := by
  cases op <;> simp [refusal?]

namespace TypeTable

theorem rawInt_refused {e : FoldError} (ty : Ty) (h : info.refusal? op b = some e) :
    rawInt op ty info a b = .error e := by
  cases op with
  | div | rem | shl | shr =>
    obtain ⟨hc, he⟩ := Option.ite_none_right_eq_some.mp h
    rw [← Option.some.inj he]
    exact if_pos hc
  | _ => cases h

/-- An operator that is not refused gives what the instruction computes. -/
theorem rawInt_computes (ty : Ty) (hpos : 0 < info.bits) (hbits : info.bits ≤ 128)
    (ha : info.InRange a) (hb : info.InRange b) (hcompare : op.isComparison = false)
    (hlogical : op.isLogical = false) (h : info.refusal? op b = none) :
    ∃ raw, rawInt op ty info a b = .ok raw ∧ info.Computes op a b raw := by
  obtain ⟨hdiv, hshift⟩ := IntInfo.refusal?_eq_none.mp h
  cases op with
  | add => exact ⟨_, rfl, IntInfo.computes_add hbits⟩
  | sub => exact ⟨_, rfl, IntInfo.computes_sub hbits⟩
  | mul => exact ⟨_, rfl, IntInfo.computes_mul hbits⟩
  | div =>
    have hzero : b ≠ 0 := fun hzero => hdiv ⟨.inl rfl, hzero⟩
    exact ⟨_, if_neg hzero, IntInfo.computes_div hpos hbits ha hb hzero⟩
  | rem =>
    have hzero : b ≠ 0 := fun hzero => hdiv ⟨.inr rfl, hzero⟩
    exact ⟨_, if_neg hzero, IntInfo.computes_rem hpos hbits ha hb hzero⟩
  | bitAnd => exact ⟨_, rfl, IntInfo.computes_bitAnd hbits⟩
  | bitOr => exact ⟨_, rfl, IntInfo.computes_bitOr hbits⟩
  | bitXor => exact ⟨_, rfl, IntInfo.computes_bitXor hbits⟩
  | shl =>
    have hin : ¬(b < 0 ∨ b ≥ info.bits) := fun hout => hshift ⟨.inl rfl, hout⟩
    exact ⟨_, if_neg hin, IntInfo.computes_shl hbits (by omega) (by omega)⟩
  | shr =>
    have hin : ¬(b < 0 ∨ b ≥ info.bits) := fun hout => hshift ⟨.inr rfl, hout⟩
    exact ⟨_, if_neg hin, IntInfo.computes_shr hpos hbits ha (by omega) (by omega)⟩
  | and | or => cases hlogical
  | _ => cases hcompare

theorem compareInt?_eq_none (hcompare : op.isComparison = false) (a b : Int) :
    compareInt? op a b = none := by
  cases op <;> first | rfl | cases hcompare

/-- What is refused is refused before anything is computed. -/
theorem foldBinary_refused {e : FoldError} (h : t.intInfo? ty = some info)
    (hcompare : op.isComparison = false) (he : info.refusal? op b = some e) :
    t.foldBinary op (.int ty a) (.int ty b) = .error e := by
  rw [foldBinary_int h, compareInt?_eq_none hcompare, rawInt_refused ty he]
  rfl

theorem refusal?_of_isComparison (hcompare : op.isComparison = true) :
    info.refusal? op b = none := by
  cases op <;> first | rfl | cases hcompare

/-- An operator on two integers is refused exactly for what stands on its right. -/
theorem foldBinary_eq_error {e : FoldError} (h : t.intInfo? ty = some info) (hpos : 0 < info.bits)
    (hbits : info.bits ≤ 128) (ha : info.InRange a) (hb : info.InRange b)
    (hlogical : op.isLogical = false) :
    t.foldBinary op (.int ty a) (.int ty b) = .error e ↔ info.refusal? op b = some e := by
  cases hcompare : op.isComparison with
  | true =>
    obtain ⟨pred, holds, -, hfold, -⟩ := IntInfo.onWords?_compareInt? hpos ha hb hcompare
    rw [foldBinary_int h, hfold, refusal?_of_isComparison hcompare]
    exact iff_of_false nofun nofun
  | false =>
    cases hr : info.refusal? op b with
    | some e' =>
      rw [foldBinary_refused h hcompare hr, Except.error.injEq, Option.some.injEq]
    | none =>
      obtain ⟨raw, hraw, -⟩ := rawInt_computes ty hpos hbits ha hb hcompare hlogical hr
      rw [foldBinary_int h, compareInt?_eq_none hcompare, hraw]
      exact iff_of_false nofun nofun

/-- For every type of 1 to 128 bits and all constants that it holds, an operator is refused
for a division by zero and for a shift out of range, and for nothing else. A comparison
gives what the emitted comparison says of the two words; any other operator gives a
constant whose word is the one that the emitted instruction computes. -/
theorem foldBinary_machine (hty : t.intInfo? ty = some info) (hpos : 0 < info.bits)
    (hbits : info.bits ≤ 128) (ha : info.Holds a) (hb : info.Holds b)
    (hlogical : op.isLogical = false) :
    (t.foldBinary op (.int ty a) (.int ty b) = .error .divisionByZero ↔
      (op = .div ∨ op = .rem) ∧ b = 0) ∧
    ((∃ amount bits, t.foldBinary op (.int ty a) (.int ty b) =
        .error (.shiftOutOfRange amount bits)) ↔
      (op = .shl ∨ op = .shr) ∧ (b < 0 ∨ info.bits ≤ b)) ∧
    (op.isComparison = true → ∃ pred holds,
      Emit.ComputesBy t op ty .bool (.compare · pred · ·) ∧
      t.foldBinary op (.int ty a) (.int ty b) = .ok (.bool holds) ∧
      pred.onWords? (info.word a) (info.word b) = some holds) ∧
    (op.isComparison = false → ¬((op = .div ∨ op = .rem) ∧ b = 0) →
      ¬((op = .shl ∨ op = .shr) ∧ (b < 0 ∨ info.bits ≤ b)) → ∃ arith v,
      Emit.ComputesBy t op ty ty (.arith · arith · ·) ∧
      t.foldBinary op (.int ty a) (.int ty b) = .ok (.int ty v) ∧
      arith.onWords? (info.word a) (info.word b) = some (info.word v)) := by
  replace ha := ha.inRange hpos hbits
  replace hb := hb.inRange hpos hbits
  refine ⟨?_, ?_, fun hcompare => ?_, fun hcompare hdiv hshift => ?_⟩
  · rw [foldBinary_eq_error hty hpos hbits ha hb hlogical, IntInfo.refusal?_divisionByZero]
  · simp only [foldBinary_eq_error hty hpos hbits ha hb hlogical,
      IntInfo.refusal?_shiftOutOfRange]
    exact ⟨fun ⟨_, _, hop, hout, _⟩ => ⟨hop, hout⟩, fun ⟨hop, hout⟩ => ⟨_, _, hop, hout, rfl, rfl⟩⟩
  · obtain ⟨pred, holds, hpred, hfold, hword⟩ :=
      IntInfo.onWords?_compareInt? hpos ha hb hcompare
    have hclass := operandClass?_of_intInfo? hty
    refine ⟨pred, holds, Emit.computesBy_compare hclass hcompare hpred, ?_, hword⟩
    rw [foldBinary_int hty, hfold]
  · have hr := IntInfo.refusal?_eq_none.mpr ⟨hdiv, hshift⟩
    obtain ⟨raw, hraw, arith, harith, hword⟩ :=
      rawInt_computes ty hpos hbits ha hb hcompare hlogical hr
    refine ⟨arith, info.wrap raw, Emit.computesBy_arith hty hcompare harith, ?_, ?_⟩
    · rw [foldBinary_int hty, compareInt?_eq_none hcompare, hraw]
      rfl
    · rw [hword, IntInfo.word_wrap]

/-- The quotient that does not fit: the least `i8` by minus one is the least `i8` again. -/
theorem foldBinary_machine_least :
    let t := TypeTable.ofPointerWidth 64
    let i8 : IntInfo := ⟨8, true⟩
    t.intInfo? (.int 8) = some i8 ∧ i8.Holds (-128) ∧ i8.Holds (-1) ∧
      ∃ arith v, Emit.ComputesBy t .div (.int 8) (.int 8) (.arith · arith · ·) ∧
        t.foldBinary .div (.int (.int 8) (-128)) (.int (.int 8) (-1)) = .ok (.int (.int 8) v) ∧
        arith.onWords? (i8.word (-128)) (i8.word (-1)) = some (i8.word v) := by
  intro t i8
  have hleast : i8.Holds (-128) := ⟨by decide, by decide, by decide⟩
  have hminus : i8.Holds (-1) := ⟨by decide, by decide, by decide⟩
  obtain ⟨-, -, -, harith⟩ := @foldBinary_machine t (.int 8) i8 .div (-128) (-1) rfl (by decide)
    (by decide) hleast hminus rfl
  exact ⟨rfl, hleast, hminus, harith rfl (by decide) (by decide)⟩

end TypeTable

/-! ## Choices -/

variable {d : ChoiceDef} {v : Int}

namespace IntInfo

theorem msb_word (h : info.InRange v) (hs : info.signed = true) (hpos : 0 < info.bits) :
    (info.word v).msb = decide (v < 0) := by
  rw [BitVec.msb_eq_toInt, toInt_word h hs hpos]

/-- Without a sign, words are in the order of the values that have the same sign. -/
theorem ult_word_iff (ha : info.InRange a) (hb : info.InRange b) (hpos : 0 < info.bits) :
    (info.word a).ult (info.word b) = decide (a < b) ↔ (a < 0 ↔ b < 0) := by
  cases hs : info.signed with
  | true =>
    have hmsb : (info.word a).msb = (info.word b).msb ↔ (a < 0 ↔ b < 0) := by
      rw [msb_word ha hs hpos, msb_word hb hs hpos, decide_eq_decide]
    rw [← hmsb, ← slt_word ha hb hs hpos]
    constructor
    · intro h
      by_contra hne
      rw [BitVec.slt_eq_not_ult_of_msb_neq hne] at h
      exact Bool.not_ne_self _ h.symm
    · intro h
      exact (BitVec.slt_eq_ult_of_msb_eq h).symm
  | false =>
    have hneg : ¬a < 0 ∧ ¬b < 0 := ⟨(ha.unsigned hs).1.not_gt, (hb.unsigned hs).1.not_gt⟩
    exact iff_of_true (ult_word ha hb hs) (iff_of_false hneg.1 hneg.2)

theorem ule_word_iff (ha : info.InRange a) (hb : info.InRange b) (hpos : 0 < info.bits) :
    (info.word a).ule (info.word b) = decide (a ≤ b) ↔ (a < 0 ↔ b < 0) := by
  have hle : decide (a ≤ b) = !decide (b < a) := by
    rw [← decide_not, decide_eq_decide, Int.not_lt]
  rw [BitVec.ule_eq_not_ult, hle, Bool.not_inj_iff, ult_word_iff hb ha hpos]
  exact Iff.comm

end IntInfo

namespace TypeTable

theorem operandClass?_of_choiceOf? (h : t.choiceOf? ty = some d) :
    t.operandClass? ty = some .ordinal := by
  cases ty with
  | choice id => rfl
  | _ => cases h

/-- A comparison of two values of a choice is emitted as one of words without a sign, whatever
integer type `info` underlies the choice. It is what folding says for equality, and for an
order if both values are negative or neither is. -/
theorem foldBinary_choice (hd : t.choiceOf? ty = some d) (hpos : 0 < info.bits)
    (ha : info.InRange a) (hb : info.InRange b) (hop : op.isComparison = true) :
    ∃ pred holds, Emit.ComputesBy t op ty .bool (.compare · pred · ·) ∧
      t.foldBinary op (.int ty a) (.int ty b) = .ok (.bool holds) ∧
      (pred.onWords? (info.word a) (info.word b) = some holds ↔
        op.isEquality = true ∨ (a < 0 ↔ b < 0)) := by
  have hclass := operandClass?_of_choiceOf? hd
  have hby {pred : Ir.Pred} (hpred : OperandClass.pred? op .ordinal = some pred) :=
    Emit.computesBy_compare hclass hop hpred
  have hequal {same folded : Bool} (h : same = folded) :
      some same = some folded ↔ true = true ∨ (a < 0 ↔ b < 0) :=
    iff_of_true (congrArg some h) (.inl rfl)
  have horder {holds folded : Bool} (h : holds = folded ↔ (a < 0 ↔ b < 0)) :
      some holds = some folded ↔ false = true ∨ (a < 0 ↔ b < 0) := by
    rw [Option.some.injEq, h, or_iff_right Bool.false_ne_true]
  have heq := IntInfo.beq_word ha hb hpos
  cases op with
  | eq => exact ⟨.eq, _, hby rfl, rfl, hequal heq⟩
  | ne => exact ⟨.ne, _, hby rfl, rfl, hequal (congrArg not heq)⟩
  | lt => exact ⟨.ult, _, hby rfl, rfl, horder (IntInfo.ult_word_iff ha hb hpos)⟩
  | le => exact ⟨.ule, _, hby rfl, rfl, horder (IntInfo.ule_word_iff ha hb hpos)⟩
  | gt => exact ⟨.ugt, _, hby rfl, rfl, horder ((IntInfo.ult_word_iff hb ha hpos).trans Iff.comm)⟩
  | ge => exact ⟨.uge, _, hby rfl, rfl, horder ((IntInfo.ule_word_iff hb ha hpos).trans Iff.comm)⟩
  | _ => cases hop

/-- In a choice of the values -1 and 0, the first is less if both are known, and not if not. -/
example : compareInt? .lt (-1) 0 = some true ∧
    Ir.Pred.ult.onWords? (IntInfo.word ⟨1, true⟩ (-1)) (IntInfo.word ⟨1, true⟩ 0) =
      some false := by
  decide

end TypeTable

end Staged
