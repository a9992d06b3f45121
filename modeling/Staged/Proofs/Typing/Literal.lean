/-
  Staged.Proofs.Typing.Literal — literals beside operands that have a type.

  A literal without a suffix takes the type of the other operand, and is therefore lowered
  after it, on whichever side it stands (`Expr.needsInference`). Beside an operand of an
  integer type that can hold it, both orders come to the same: the operator is computed at
  that type, and only a division by zero or a shift out of range is refused
  (`Emit.IntegerOperand.computes_left`, `Emit.IntegerOperand.computes_right`, and those of
  `Emit.IntegerValue` for evaluation).

  A literal with a minus sign takes the type of its place as well, but is not counted among
  the expressions that need one. So it is fine on the right, while on the left it is lowered
  first, as a 32-bit integer, and refused beside integers of any other kind
  (`Emit.lowerBinary_minus`).
-/

import Staged.Emit.Expr
import Staged.Proofs.Arithmetic.Cast
import Staged.Proofs.Typing.Accept
import Staged.Proofs.Typing.Operator

namespace Staged

variable {t : TypeTable} {info : IntInfo} {op : BinaryOp} {n : Int}

/-! ## Integer values -/

def Value.KnownInt (v : Value) (ty : Ty) : Prop := ∀ c, v.known = some c → ∃ n, c = .int ty n

/-- A result of the type, or a refusal that only folding gives: a division by zero or a shift
out of range. -/
inductive Computes {α : Type} (typeOf : α → Ty) (ty : Ty) (range : Span) :
    EStateM.Result Failure Compiler α → Prop
  | ok {a : α} {s : Compiler} : typeOf a = ty → Computes typeOf ty range (.ok a s)
  | division {s : Compiler} :
    Computes typeOf ty range (.error (.fault (.fold .divisionByZero) range) s)
  | shift {amount : Int} {bits : Nat} {s : Compiler} :
    Computes typeOf ty range (.error (.fault (.fold (.shiftOutOfRange amount bits)) range) s)

/-- The type of what an operator gives for two integers of a type. -/
def BinaryOp.resultOf (op : BinaryOp) (ty : Ty) : Ty := if op.isComparison then .bool else ty

theorem TypedAlike.ok_cases {folded : Except FoldError Constant} {ty : Ty}
    (h : TypedAlike folded (.ok ty)) : (∃ c, folded = .ok c ∧ c.type = ty) ∨
      folded = .error .divisionByZero ∨
      ∃ amount bits, folded = .error (.shiftOutOfRange amount bits) := by
  generalize hresult : (Except.ok ty : Except Fault Ty) = result at h
  cases h with
  | type c => exact .inl ⟨c, rfl, (Except.ok.inj hresult).symm⟩
  | refused => cases hresult
  | division => exact .inr (.inl rfl)
  | shift amount bits => exact .inr (.inr ⟨amount, bits, rfl⟩)

namespace TypeTable

variable {ty : Ty}

/-- Folding two integers of a type gives a value of the result type, or one of the refusals. -/
theorem foldBinary_integers (hty : t.intInfo? ty = some info) (hlogical : op.isLogical = false)
    (a b : Int) : TypedAlike (t.foldBinary op (.int ty a) (.int ty b)) (.ok (op.resultOf ty)) := by
  have halike := foldInt_alike hty hlogical a b ty
  rw [computed_self (choiceOf?_of_intInfo? hty) (operandClass?_of_intInfo? hty),
    computed_integer ty hlogical] at halike
  exact halike

theorem checkOperands_self (op : BinaryOp) (ty : Ty) : t.checkOperands op ty ty = .ok () :=
  if_pos rfl

theorem value_of_intInfo? (hty : t.intInfo? ty = some info) : ty.value = ty := by
  cases ty <;> first | rfl | cases hty

theorem inferredInt_of_intInfo? (hty : t.intInfo? ty = some info) :
    t.inferredInt (some ty) = ty := by
  have hnumeric : t.isNumeric ty = true := by simp [isNumeric, hty]
  simp [inferredInt, value_of_intInfo? hty, hnumeric]

theorem intLiteral_holds (negative : Bool) (hty : t.intInfo? ty = some info) {value : Nat}
    (hraw : (if negative then -(value : Int) else value) = n) (hn : info.Holds n)
    (hmax : (value : Int) ≤ wideMax) : t.intLiteral value negative ty = .ok (.int ty n) := by
  unfold intLiteral
  dsimp only
  rw [floatKind?_of_intInfo? hty, if_neg (by simp), if_neg (by omega), hty, hraw]
  dsimp only
  rw [hn.fits]
  rfl

end TypeTable

namespace Emit

variable {o : Options} {s s' : Compiler} {v w l r : Value} {range : Span} {ty : Ty}

theorem knownInt_constant (ty : Ty) (n : Int) :
    (Value.constant (.int ty n) (.int ty n) range).KnownInt ty := by
  rintro c ⟨⟩
  exact ⟨n, rfl⟩

theorem knownInt_temporary (ir : Ir.Value) : (Value.temporary ir ty range).KnownInt ty := nofun

/-- An integer is loaded as an integer. -/
theorem returns_rvalue_int (hty : s.types.intInfo? ty = some info) (hv : v.type.value = ty)
    (hknown : v.KnownInt ty) :
    Returns o s (rvalue v) fun w s' =>
      w.type = ty ∧ w.KnownInt ty ∧ s'.types.intInfo? ty = some info := by
  have hload (ptr : Ir.Value) (s₁ : Compiler) (hs₁ : s₁.types = s.types) :
      Returns o s₁ (do return Value.temporary (← load ptr ty) ty v.range : Emit Value)
        fun w s' => w.type = ty ∧ w.KnownInt ty ∧ s'.types.intInfo? ty = some info :=
    (ignores_load ptr ty).returns.bind fun r s' hs' =>
      .pure ⟨rfl, knownInt_temporary _, by rw [hs', hs₁, hty]⟩
  unfold rvalue
  split
  · rename_i sub isVar href
    obtain rfl : sub = ty := by
      rw [← hv, Ty.eq_ref_of_refInfo? href]
      rfl
    refine Returns.bind (Q := fun _ s' => s'.types = s.types) ?_ fun a s₁ hs₁ => hload a.ir s₁ hs₁
    unfold referenceAddress
    split
    · exact .pure rfl
    · exact (ignores_load v.ir v.type).returns.bind fun r s' hs' => .pure hs'
  · rename_i href
    obtain rfl : v.type = ty := (Ty.value_eq_self href).symm.trans hv
    split
    · exact .pure ⟨rfl, hknown, hty⟩
    · split
      · rename_i c hfixed
        obtain ⟨n, rfl⟩ : ∃ n, c = .int v.type n := by
          unfold Value.fixed? at hfixed
          split at hfixed
          · cases hfixed
          · exact hknown c hfixed
        rintro w s' ⟨⟩
        exact ⟨rfl, knownInt_constant _ _, hty⟩
      · exact hload v.ir s rfl

/-- Operands that are known are folded, and others are computed with. -/
theorem foldOrCompute_known {a b : Constant} (hsame : l.type = r.type) (hl : l.known = some a)
    (hr : r.known = some b) :
    foldOrCompute op l r range o s = (do
      constant (← orRefuseFold (s.types.foldBinary op a b) range) range : Emit Value) o s := by
  show (orRefuse (s.types.checkOperands op l.type r.type) range >>= _ : Emit Value) o s = _
  rw [hsame, TypeTable.checkOperands_self, hl, hr]
  rfl

theorem foldOrCompute_unknown (hsame : l.type = r.type) (h : l.known = none ∨ r.known = none) :
    foldOrCompute op l r range o s = nativeBinary op l r range o s := by
  show (orRefuse (s.types.checkOperands op l.type r.type) range >>= _ : Emit Value) o s = _
  rw [hsame, TypeTable.checkOperands_self]
  rcases h with h | h
  · rw [h]
    rfl
  · rw [h]
    cases l.known <;> rfl

/-- An operator on two values of an integer type is computed at that type. -/
theorem computes_foldOrCompute (hty : s.types.intInfo? ty = some info)
    (hlogical : op.isLogical = false) (hs : s.Writes) (hl : l.type = ty) (hr : r.type = ty)
    (hl' : l.KnownInt ty) (hr' : r.KnownInt ty) :
    Computes Value.type (op.resultOf ty) range (foldOrCompute op l r range o s) := by
  have hsame : l.type = r.type := hl.trans hr.symm
  have hnative : Computes Value.type (op.resultOf ty) range (nativeBinary op l r range o s) := by
    obtain ⟨instr, hinstr⟩ := nativeBinary_computed s.types op l r range
    have hcomputed : s.types.computed op ty ty = .ok (op.resultOf ty) := by
      rw [TypeTable.computed_self (TypeTable.choiceOf?_of_intInfo? hty)
        (TypeTable.operandClass?_of_intInfo? hty), TypeTable.computed_integer ty hlogical]
      rfl
    have hwritten : Written (compute (op.resultOf ty) instr) :=
      (written_fresh _).bind fun _ _ => (written_push _).bind fun _ _ => .pure trivial
    obtain ⟨r, s', hrun, -⟩ := hwritten o s hs
    rw [hinstr o s rfl, hl, hr, hcomputed]
    show Computes _ _ _ ((compute (op.resultOf ty) instr >>= _ : Emit Value) o s)
    rw [bind_apply, hrun]
    exact .ok rfl
  cases hlk : l.known with
  | none =>
    rw [foldOrCompute_unknown hsame (.inl hlk)]
    exact hnative
  | some a => cases hrk : r.known with
    | none =>
      rw [foldOrCompute_unknown hsame (.inr hrk)]
      exact hnative
    | some b =>
      obtain ⟨m, rfl⟩ := hl' a hlk
      obtain ⟨n, rfl⟩ := hr' b hrk
      have halike := TypeTable.foldBinary_integers hty hlogical m n
      rw [foldOrCompute_known hsame hlk hrk]
      rcases halike.ok_cases with ⟨c, hfold, htype⟩ | hfold | ⟨amount, bits, hfold⟩
      · rw [hfold]
        exact .ok htype
      · rw [hfold]
        exact .division
      · rw [hfold]
        exact .shift

/-! ## Literals -/

inductive Unsuffixed : Expr → Int → Prop
  | plain (range : Span) {value : Nat} : (value : Int) ≤ wideMax →
    Unsuffixed (.int range value none) value
  | minus (range inner : Span) {value : Nat} : (value : Int) ≤ wideMax →
    Unsuffixed (.unary range .negate (.int inner value none)) (-value)

variable {e : Expr} {call : Caller} {view : Viewpoint}

/-- A literal is its number at the type that is inferred. -/
theorem evaluateWith_unsuffixed (he : Unsuffixed e n) {expected : Option Ty}
    (hinfer : s.types.inferredInt expected = ty) (hty : s.types.intInfo? ty = some info)
    (hn : info.Holds n) : evaluateWith call view e expected o s = .ok (.int ty n) s := by
  cases he with
  | plain range hmax =>
    show orRefuse (s.types.intLiteral _ false (s.types.inferredInt expected)) range o s = _
    rw [hinfer, TypeTable.intLiteral_holds false hty rfl hn hmax]
    rfl
  | minus range inner hmax =>
    show orRefuse (s.types.intLiteral _ true (s.types.inferredInt expected)) range o s = _
    rw [hinfer, TypeTable.intLiteral_holds true hty rfl hn hmax]
    rfl

theorem lowerExpr_unsuffixed (he : Unsuffixed e n) {expect : Expect}
    (hinfer : s.types.inferredInt expect.type = ty) (hty : s.types.intInfo? ty = some info)
    (hn : info.Holds n) :
    lowerExpr view e expect o s = .ok (.constant (.int ty n) (.int ty n) e.range) s := by
  have hlower : lowerExpr view e expect = lowerKnown view e expect := by
    cases he <;> rfl
  have hevaluate : evaluate view e expect.type o s = .ok (.int ty n) s :=
    evaluateWith_unsuffixed he hinfer hty hn
  rw [hlower, lowerKnown, bind_apply, hevaluate]
  rfl

/-! ## Lowering -/

variable {lhs rhs : Operand} {left right : Value} {s₁ : Compiler}

/-- An operator on integers for which their type has no member. -/
theorem lowerBinary_noMember (hoperands : lowerOperands lhs rhs o s = .ok (left, right) s₁)
    (hty : s₁.types.intInfo? ty = some info) (hmembers : s₁.types.operators ty op = [])
    (hlogical : op.isLogical = false) (hleft : left.type.value = ty) :
    lowerBinary op lhs rhs range o s = (do
      let left ← rvalue left
      let right ← rvalue right
      if left.type = .str ∧ right.type = .str ∧ op.isEquality then
        lowerStringEquality op left right range
      else foldOrCompute op left right range : Emit Value) o s₁ := by
  have hstruct : s₁.types.structOf? ty = none := by
    cases ty <;> first | rfl | cases hty
  unfold lowerBinary
  rw [hlogical, if_neg Bool.false_ne_true, bind_apply, hoperands]
  show (if (s₁.types.structOf? left.type.value).isSome ||
    !(s₁.types.operators left.type.value op).isEmpty then _ else _ : Emit Value) o s₁ = _
  rw [hleft, hstruct, hmembers]
  rfl

/-- The operands are used as what they are, the left one as an integer. -/
theorem lowerBinary_used {l r : Value} {s₂ s₃ : Compiler}
    (hoperands : lowerOperands lhs rhs o s = .ok (left, right) s₁)
    (hty : s₁.types.intInfo? ty = some info) (hmembers : s₁.types.operators ty op = [])
    (hlogical : op.isLogical = false) (hleft : left.type.value = ty)
    (hl : rvalue left o s₁ = .ok l s₂) (hltype : l.type = ty) (hr : rvalue right o s₂ = .ok r s₃) :
    lowerBinary op lhs rhs range o s = foldOrCompute op l r range o s₃ := by
  have hstr : ¬(l.type = .str ∧ r.type = .str ∧ op.isEquality = true) := by
    rintro ⟨hstr, -⟩
    rw [← hltype, hstr] at hty
    cases hty
  rw [lowerBinary_noMember hoperands hty hmembers hlogical hleft, bind_apply, hl]
  dsimp only
  rw [bind_apply, hr]
  dsimp only
  rw [if_neg hstr]

/-- An operator on two operands of an integer type without a member for it is computed at that
type. -/
theorem computes_lowerBinary (hoperands : lowerOperands lhs rhs o s = .ok (left, right) s₁)
    (hs : s₁.Writes) (hty : s₁.types.intInfo? ty = some info)
    (hmembers : s₁.types.operators ty op = []) (hlogical : op.isLogical = false)
    (hleft : left.type.value = ty) (hleft' : left.KnownInt ty)
    (hright : right.type.value = ty) (hright' : right.KnownInt ty) :
    Computes Value.type (op.resultOf ty) range (lowerBinary op lhs rhs range o s) := by
  obtain ⟨l, s₂, hl, hs₂, -⟩ := written_rvalue left o s₁ hs
  obtain ⟨hltype, hl', hty₂⟩ := returns_rvalue_int hty hleft hleft' l s₂ hl
  obtain ⟨r, s₃, hr, hs₃, -⟩ := written_rvalue right o s₂ hs₂
  obtain ⟨hrtype, hr', hty₃⟩ := returns_rvalue_int hty₂ hright hright' r s₃ hr
  rw [lowerBinary_used hoperands hty hmembers hlogical hleft hl hltype hr]
  exact computes_foldOrCompute hty₃ hlogical hs₃ hltype hrtype hl' hr'

/-- An operand with an integer type of its own that has no member for the operator: the value
it is lowered to, and the state after that. -/
structure IntegerOperand (view : Viewpoint) (x : Expr) (op : BinaryOp) (o : Options)
    (s : Compiler) (v : Value) (s' : Compiler) (ty : Ty) (info : IntInfo) : Prop where
  own : x.needsInference = false
  lower : lowerExpr view x .nothing o s = .ok v s'
  writes : s'.Writes
  info : s'.types.intInfo? ty = some info
  noMember : s'.types.operators ty op = []
  type : v.type.value = ty
  known : v.KnownInt ty

namespace IntegerOperand

variable {lit x : Expr} {s' : Compiler} (h : IntegerOperand view x op o s v s' ty info)
include h

theorem lower_literal (hlit : Unsuffixed lit n) (hn : info.Holds n) :
    lowerExpr view lit (.of v.type.value) o s' =
      .ok (.constant (.int ty n) (.int ty n) lit.range) s' := by
  refine lowerExpr_unsuffixed hlit ?_ h.info hn
  rw [h.type]
  exact TypeTable.inferredInt_of_intInfo? h.info

/-- To the right of such an operand, a literal that its type can hold is computed with at that
type, also with a minus sign. -/
theorem computes_right (hlit : Unsuffixed lit n) (hn : info.Holds n)
    (hlogical : op.isLogical = false) :
    Computes Value.type (op.resultOf ty) range
      (lowerBinary op (operand view x) (operand view lit) range o s) := by
  have hoperands : lowerOperands (operand view x) (operand view lit) o s =
      .ok (v, .constant (.int ty n) (.int ty n) lit.range) s' := by
    unfold lowerOperands operand
    dsimp only
    rw [h.own, Bool.false_and, if_neg Bool.false_ne_true, bind_apply, h.lower]
    dsimp only
    rw [bind_apply, h.lower_literal hlit hn]
    rfl
  exact computes_lowerBinary hoperands h.writes h.info h.noMember hlogical h.type h.known
    (TypeTable.value_of_intInfo? h.info) (knownInt_constant _ _)

/-- To the left of such an operand, so is a literal without a sign. -/
theorem computes_left (hlit : Unsuffixed lit n) (hplain : lit.needsInference = true)
    (hn : info.Holds n) (hlogical : op.isLogical = false) :
    Computes Value.type (op.resultOf ty) range
      (lowerBinary op (operand view lit) (operand view x) range o s) := by
  have hoperands : lowerOperands (operand view lit) (operand view x) o s =
      .ok (.constant (.int ty n) (.int ty n) lit.range, v) s' := by
    unfold lowerOperands operand
    dsimp only
    rw [hplain, h.own, Bool.not_false, Bool.and_true, if_pos rfl, bind_apply, h.lower]
    dsimp only
    rw [bind_apply, h.lower_literal hlit hn]
    rfl
  exact computes_lowerBinary hoperands h.writes h.info h.noMember hlogical
    (TypeTable.value_of_intInfo? h.info) (knownInt_constant _ _) h.type h.known

end IntegerOperand

/-! ## A sign on the left -/

theorem checkOperands_i32 (hty : t.intInfo? ty = some info) (hne : info ≠ ⟨32, true⟩) :
    t.checkOperands op .i32 ty = .error (.bitwidths op .i32 32 ty info.bits) ∨
      t.checkOperands op .i32 ty = .error (.operands op .i32 ty) := by
  have hi32 : t.intInfo? .i32 = some ⟨32, true⟩ := rfl
  have hdiffer : Ty.i32 ≠ ty := by
    rintro rfl
    exact hne (Option.some.inj (hty.symm.trans hi32))
  have hchoice : t.isUnderlying .i32 ty = false := by
    unfold TypeTable.isUnderlying
    rw [TypeTable.choiceOf?_of_intInfo? hi32, TypeTable.choiceOf?_of_intInfo? hty]
    rfl
  unfold TypeTable.checkOperands
  rw [if_neg hdiffer, hi32, hty, hchoice, Bool.and_false]
  dsimp only
  by_cases hbits : 32 = info.bits
  · right
    rw [if_neg (not_not.mpr hbits), if_neg (Ne.symm hne)]
    rfl
  · left
    rw [if_pos hbits]

theorem foldOrCompute_refused {f : Fault}
    (h : s.types.checkOperands op l.type r.type = .error f) :
    foldOrCompute op l r range o s = .error (.fault f range) s := by
  show (orRefuse (s.types.checkOperands op l.type r.type) range >>= _ : Emit Value) o s = _
  rw [h]
  rfl

/-- A literal with a minus sign on the left is a 32-bit integer, and beside an integer of any
other kind it is refused. -/
theorem lowerBinary_minus {lit x : Expr} {s' : Compiler} (hlit : Unsuffixed lit n)
    (hsign : lit.needsInference = false) (hn : (⟨32, true⟩ : IntInfo).Holds n)
    (hx : lowerExpr view x (.of .i32) o s = .ok v s') (hs : s'.Writes)
    (hmembers : s'.types.operators .i32 op = []) (hlogical : op.isLogical = false)
    (hty : s'.types.intInfo? ty = some info) (hne : info ≠ ⟨32, true⟩) (hv : v.type.value = ty)
    (hknown : v.KnownInt ty) :
    ∃ f s₁, lowerBinary op (operand view lit) (operand view x) range o s =
        .error (.fault f range) s₁ ∧
      (f = .bitwidths op .i32 32 ty info.bits ∨ f = .operands op .i32 ty) := by
  have hliteral : lowerExpr view lit .nothing o s =
      .ok (.constant (.int .i32 n) (.int .i32 n) lit.range) s :=
    lowerExpr_unsuffixed hlit rfl rfl hn
  have hoperands : lowerOperands (operand view lit) (operand view x) o s =
      .ok (.constant (.int .i32 n) (.int .i32 n) lit.range, v) s' := by
    unfold lowerOperands operand
    dsimp only
    rw [hsign, Bool.false_and, if_neg Bool.false_ne_true, bind_apply, hliteral]
    dsimp only
    show (lowerExpr view x (.of .i32) >>= _ : Emit _) o s = _
    rw [bind_apply, hx]
    rfl
  obtain ⟨w, s₁, hw, -, -⟩ := written_rvalue v o s' hs
  obtain ⟨hwtype, -, hty₁⟩ := returns_rvalue_int hty hv hknown w s₁ hw
  have hused : lowerBinary op (operand view lit) (operand view x) range o s =
      foldOrCompute op (.constant (.int .i32 n) (.int .i32 n) lit.range) w range o s₁ :=
    lowerBinary_used hoperands rfl hmembers hlogical rfl rfl rfl hw
  rcases checkOperands_i32 hty₁ hne with hcheck | hcheck
  · exact ⟨_, s₁, hused.trans (foldOrCompute_refused (by rw [hwtype]; exact hcheck)), .inl rfl⟩
  · exact ⟨_, s₁, hused.trans (foldOrCompute_refused (by rw [hwtype]; exact hcheck)), .inr rfl⟩

/-! ## Evaluation -/

structure IntegerValue (call : Caller) (view : Viewpoint) (x : Expr) (o : Options) (s : Compiler)
    (m : Int) (s' : Compiler) (ty : Ty) (info : IntInfo) : Prop where
  own : x.needsInference = false
  value : evaluateWith call view x none o s = .ok (.int ty m) s'
  info : s'.types.intInfo? ty = some info

theorem computes_folded {folded : Except FoldError Constant} (h : TypedAlike folded (.ok ty)) :
    Computes Constant.type ty range (orRefuseFold folded range o s) := by
  rcases h.ok_cases with ⟨c, rfl, htype⟩ | rfl | ⟨amount, bits, rfl⟩
  · exact .ok htype
  · exact .division
  · exact .shift

theorem computes_checked {a b : Int} (hty : s.types.intInfo? ty = some info)
    (hlogical : op.isLogical = false) :
    Computes Constant.type (op.resultOf ty) range ((do
      orRefuse ((← types).checkOperands op ty ty) range
      orRefuseFold ((← types).foldBinary op (.int ty a) (.int ty b)) range : Emit Constant) o s) := by
  show Computes _ _ _ ((orRefuse (s.types.checkOperands op ty ty) range >>= _ : Emit Constant)
    o s)
  rw [TypeTable.checkOperands_self]
  exact computes_folded (TypeTable.foldBinary_integers hty hlogical a b)

namespace IntegerValue

variable {lit x : Expr} {m : Int} {s' : Compiler} {expected : Option Ty}
  (h : IntegerValue call view x o s m s' ty info)
include h

theorem evaluate_literal (hlit : Unsuffixed lit n) (hn : info.Holds n) :
    evaluateWith call view lit (some ty) o s' = .ok (.int ty n) s' :=
  evaluateWith_unsuffixed hlit (TypeTable.inferredInt_of_intInfo? h.info) h.info hn

/-- Evaluation, too, takes a literal to the right of an integer at the type of the integer, with
or without a sign, -/
theorem computes_right (hlit : Unsuffixed lit n) (hn : info.Holds n)
    (hlogical : op.isLogical = false) :
    Computes Constant.type (op.resultOf ty) range
      (evaluateWith call view (.binary range op x lit) expected o s) := by
  unfold evaluateWith
  rw [hlogical, if_neg Bool.false_ne_true, h.own, Bool.false_and, if_neg Bool.false_ne_true,
    bind_apply, h.value]
  dsimp only
  show Computes _ _ _ ((evaluateWith call view lit (some ty) >>= _ : Emit Constant) o s')
  rw [bind_apply, h.evaluate_literal hlit hn]
  exact computes_checked h.info hlogical

/-- and one without a sign to its left. -/
theorem computes_left (hlit : Unsuffixed lit n) (hplain : lit.needsInference = true)
    (hn : info.Holds n) (hlogical : op.isLogical = false) :
    Computes Constant.type (op.resultOf ty) range
      (evaluateWith call view (.binary range op lit x) expected o s) := by
  unfold evaluateWith
  rw [hlogical, if_neg Bool.false_ne_true, hplain, h.own, Bool.not_false, Bool.and_true,
    if_pos rfl, bind_apply, h.value]
  dsimp only
  show Computes _ _ _ ((evaluateWith call view lit (some ty) >>= _ : Emit Constant) o s')
  rw [bind_apply, h.evaluate_literal hlit hn]
  exact computes_checked h.info hlogical

end IntegerValue

/-- The two sides of `5i64`: `5i64 + -1` is `4i64`, and `-1 + 5i64` is refused. -/
example (call : Caller) (view : Viewpoint) :
    let at_ : Span := ⟨0, 0, 0⟩
    let minus : Expr := .unary at_ .negate (.int at_ 1 none)
    let five : Expr := .int at_ 5 (some (.int at_ 64))
    let s := Compiler.ofOptions {}
    (∃ s', evaluateWith call view (.binary at_ .add five minus) none {} s =
        .ok (.int (.int 64) 4) s') ∧
      ∃ s', evaluateWith call view (.binary at_ .add minus five) none {} s =
        .error (.fault (.bitwidths .add .i32 32 (.int 64) 64) at_) s' :=
  ⟨⟨_, rfl⟩, ⟨_, rfl⟩⟩

end Emit

end Staged
