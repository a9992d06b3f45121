/-
  Staged.Emit.Binary — binary operators.

  An operand whose type depends on its place is lowered after the other one. Structs, and
  other types that have the operator as a member, use their members; everything else is
  computed by the machine, or at once if both sides are known. `&&` and `||` evaluate
  their right side only if the left one does not decide. Strings are equal when their
  lengths and all their bytes are.
-/

import Staged.Emit.Call

namespace Staged

/-- How the machine treats the operands of an operator. -/
inductive OperandClass where
  | signed | unsigned | float | bool | ordinal | pointer
  deriving DecidableEq, Repr

namespace OperandClass

/-- The instruction that compares operands of a class. -/
def pred? : BinaryOp → OperandClass → Option Ir.Pred
  | .eq, float => some .oeq
  | .ne, float => some .one
  | .eq, _ => some .eq
  | .ne, _ => some .ne
  | .lt, signed => some .slt
  | .le, signed => some .sle
  | .gt, signed => some .sgt
  | .ge, signed => some .sge
  | .lt, unsigned | .lt, ordinal => some .ult
  | .le, unsigned | .le, ordinal => some .ule
  | .gt, unsigned | .gt, ordinal => some .ugt
  | .ge, unsigned | .ge, ordinal => some .uge
  | .lt, float => some .olt
  | .le, float => some .ole
  | .gt, float => some .ogt
  | .ge, float => some .oge
  | _, _ => none

/-- Whether values of a class are bit patterns. -/
def hasBits : OperandClass → Bool
  | signed | unsigned | bool | ordinal => true
  | float | pointer => false

/-- The instruction that computes with operands of a class. -/
def arith? : BinaryOp → OperandClass → Option Ir.Arith
  | .add, signed | .add, unsigned => some .add
  | .sub, signed | .sub, unsigned => some .sub
  | .mul, signed | .mul, unsigned => some .mul
  | .div, signed => some .sdiv
  | .div, unsigned => some .udiv
  | .rem, signed => some .srem
  | .rem, unsigned => some .urem
  | .add, float => some .fadd
  | .sub, float => some .fsub
  | .mul, float => some .fmul
  | .div, float => some .fdiv
  | .rem, float => some .frem
  | .bitAnd, c => if c.hasBits then some .and else none
  | .bitOr, c => if c.hasBits then some .or else none
  | .bitXor, c => if c.hasBits then some .xor else none
  | .shl, signed | .shl, unsigned => some .shl
  | .shr, signed => some .ashr
  | .shr, unsigned => some .lshr
  | _, _ => none

end OperandClass

namespace TypeTable

def operandClass? (t : TypeTable) (ty : Ty) : Option OperandClass :=
  match t.intInfo? ty with
  | some info => some (if info.signed then .signed else .unsigned)
  | none =>
    if (t.floatKind? ty).isSome then some .float
    else match ty with
      | .bool => some .bool
      | .char | .choice _ => some .ordinal
      | .mark _ _ _ false _ | .native .cstring => some .pointer
      | _ => none

/-- The members of a type for an operator, with and without variation. -/
def operators (t : TypeTable) (ty : Ty) (op : BinaryOp) : List MemberFunction :=
  (t.membersOf ty).filter fun m => m.kind == .binary op false || m.kind == .binary op true

/-- A choice that meets its underlying type is computed in that type. -/
def operandType (t : TypeTable) (left right : Ty) : Ty :=
  match t.choiceOf? left with
  | some d => if right = d.underlying then d.underlying else left
  | none => left

/-- The type of a computed result; bitwise operations on a choice give the choice. -/
def resultType (t : TypeTable) (op : BinaryOp) (left right : Ty) : Ty :=
  if (t.choiceOf? left).isSome && op.isBitwise then left else t.operandType left right

end TypeTable

namespace Emit

/-! ## Machine operators -/

def nativeBinary (op : BinaryOp) (left right : Value) (range : Span) : Emit Value := do
  let t ← types
  let unsupported := Fault.unsupported op.symbol left.type
  let class_ ← require (t.operandClass? (t.operandType left.type right.type)) unsupported range
  if op.isComparison then
    let pred ← require (OperandClass.pred? op class_) unsupported range
    let r ← compute .bool (.compare · pred left.ir right.ir)
    return .temporary r .bool range
  else
    let arith ← require (OperandClass.arith? op class_) unsupported range
    let type := t.resultType op left.type right.type
    let r ← compute type (.arith · arith left.ir right.ir)
    return .temporary r type range

/-- An operator on two values, computed at once if both are known. -/
def foldOrCompute (op : BinaryOp) (left right : Value) (range : Span) : Emit Value := do
  orRefuse ((← types).checkOperands op left.type right.type) range
  match left.known, right.known with
  | some l, some r => constant (← orRefuseFold ((← types).foldBinary op l r) range) range
  | _, _ => nativeBinary op left right range

/-! ## Logical operators -/

def lowerLogical (op : BinaryOp) (lhs rhs : Operand) (range : Span) : Emit Value := do
  let left ← lhs.condition
  let short := op == .or
  match left.known.bind Constant.asBool? with
  | some known => if known == short then constant (.bool known) range else rhs.condition
  | none =>
    let before ← currentBlock
    let rhsBlock ← newBlock "logic.rhs"
    let done ← newBlock "logic.end"
    if op == .and then branch left.ir rhsBlock done else branch left.ir done rhsBlock
    switchTo rhsBlock
    let right ← rhs.condition
    let rhsEnd ← currentBlock
    jump done
    switchTo done
    let r ← compute .bool
      (.phi · [(Ir.Const.bool .bool short, before), (right.ir, rhsEnd)])
    return .temporary r .bool range

/-! ## Operator members -/

/-- The member to use for an operator: one without variation if there is one. -/
def chooseOperator (op : BinaryOp) (ty : Ty) (left right : Value) (range : Span) :
    Emit MemberFunction := do
  let candidates := ((← types).operators ty op).filter fun m =>
    match m.argTypes with
    | [param] => accepts param right
    | _ => false
  match candidates.find? (!·.kind.isVariation), candidates with
  | some m, _ => return m
  | none, m :: _ =>
    if left.isMutable then return m
    else refuse (.onlyVariationOperator op ty right.type.value) range
  | none, [] => refuse (.noOperator op ty right.type.value) range

def lowerOperatorCall (op : BinaryOp) (left right : Value) (range : Span) : Emit Value := do
  let m ← chooseOperator op left.type.value left right range
  let self ← place left
  let args ← passValues range [right] m.argTypes
  callMember m (some self.ir) args range

/-! ## Strings -/

def byteAt (data position : Ir.Value) : Emit Ir.Register := do
  load (← elementPtr data .u8 false position) .u8

/-- Compare two strings byte by byte. -/
def compareStrings (left right : Ir.Value) : Emit Ir.Register := do
  let (leftData, leftLength) ← stringParts left
  let (rightData, rightLength) ← stringParts right
  let result ← alloca .bool (some "str.cmp.result")
  let index ← alloca .usize (some "str.cmp.index")
  store (Ir.Const.bool .bool false) result
  store (Ir.Const.int .usize 0) index
  let lengthBlock ← newBlock "str.cmp.length"
  let condBlock ← newBlock "str.cmp.cond"
  let bodyBlock ← newBlock "str.cmp.body"
  let nextBlock ← newBlock "str.cmp.next"
  let trueBlock ← newBlock "str.cmp.true"
  let endBlock ← newBlock "str.cmp.end"
  jump lengthBlock
  switchTo lengthBlock
  let sameLength ← compute .bool (.compare · .eq leftLength rightLength)
  branch sameLength condBlock endBlock
  switchTo condBlock
  let position ← load index .usize
  let inRange ← compute .bool (.compare · .ult position leftLength)
  branch inRange bodyBlock trueBlock
  switchTo bodyBlock
  let position ← load index .usize
  let leftByte ← byteAt leftData position
  let rightByte ← byteAt rightData position
  let sameByte ← compute .bool (.compare · .eq leftByte rightByte)
  branch sameByte nextBlock endBlock
  switchTo nextBlock
  let position ← load index .usize
  let advanced ← compute .usize (.arith · .add position (Ir.Const.int .usize 1))
  store advanced index
  jump condBlock
  switchTo trueBlock
  store (Ir.Const.bool .bool true) result
  jump endBlock
  switchTo endBlock
  load result .bool

def lowerStringEquality (op : BinaryOp) (left right : Value) (range : Span) : Emit Value := do
  let negate := op == .ne
  match left.known.bind Constant.asStr?, right.known.bind Constant.asStr? with
  | some l, some r => constant (.bool ((l == r) != negate)) range
  | _, _ =>
    let equal ← compareStrings left.ir right.ir
    if negate then
      let differs ← compute .bool (.arith · .xor equal (Ir.Const.bool .bool true))
      return .temporary differs .bool range
    else return .temporary equal .bool range

/-! ## All binary operators -/

/-- Lower two operands; one that takes its type from the other comes second. -/
def lowerOperands (lhs rhs : Operand) : Emit (Value × Value) := do
  if lhs.expr.needsInference && !rhs.expr.needsInference then
    let right ← rhs.lower .nothing
    let left ← lhs.lower (.of right.type.value)
    return (left, right)
  else
    let left ← lhs.lower .nothing
    let right ← rhs.lower (.of left.type.value)
    return (left, right)

def lowerBinary (op : BinaryOp) (lhs rhs : Operand) (range : Span) : Emit Value := do
  if op.isLogical then lowerLogical op lhs rhs range
  else
    let (left, right) ← lowerOperands lhs rhs
    let ty := left.type.value
    if ((← types).structOf? ty).isSome || !((← types).operators ty op).isEmpty then
      lowerOperatorCall op left right range
    else
      let left ← rvalue left
      let right ← rvalue right
      if left.type = .str ∧ right.type = .str ∧ op.isEquality then
        lowerStringEquality op left right range
      else foldOrCompute op left right range

end Emit

end Staged
