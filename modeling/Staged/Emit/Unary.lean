/-
  Staged.Emit.Unary — unary operators, marks and addresses.

  A minus sign in front of an integer literal belongs to the literal. What a mark points
  to is a place as variable as the mark says. The address of a place is a mark if one to
  its type is expected, and a reference otherwise; neither may allow more changes than
  the place itself.
-/

import Staged.Emit.Call

namespace Staged.Emit

/-- The instruction for an operator on a type. -/
def unaryInstr? (t : TypeTable) (op : UnaryOp) (ty : Ty) (operand : Ir.Value)
    (dest : Ir.Register) : Option Ir.Instr :=
  match op with
  | .negate =>
    if (t.floatKind? ty).isSome then some (.fneg dest operand)
    else if (t.intInfo? ty).any (·.signed) then
      some (.arith dest .sub (Ir.Const.int ty 0) operand)
    else none
  | .not =>
    if ty = .bool then some (.arith dest .xor operand (Ir.Const.bool ty true)) else none
  | .bitNot => (t.intInfo? ty).map fun info =>
    .arith dest .xor operand (Ir.Const.int ty (info.wrap (-1)))

/-- An operator on the value of an expression. -/
def unaryOn (op : UnaryOp) (v : Value) (range : Span) : Emit Value := do
  let ty := v.type.value
  match (← types).member? ty (.unary op) with
  | some m => callMember m (some (← place v).ir) [] range
  | none =>
    let v ← rvalue v
    match v.known with
    | some c => constant (← orRefuseFold ((← types).foldUnary op c) range) range
    | none =>
      let r ← fresh ty
      push (← require (unaryInstr? (← types) op ty v.ir r) (.unsupported op.symbol ty) range)
      return .temporary r ty range

def lowerUnary (view : Viewpoint) (op : UnaryOp) (operand : Operand) (expect : Expect)
    (range : Span) : Emit Value := do
  match op, operand.expr with
  | .negate, .int .. =>
    constant (← evaluate view (.unary range op operand.expr) expect.type) range
  | _, _ => unaryOn op (← operand.lower expect.hint) range

/-- What a mark points to. -/
def lowerDeref (operand : Operand) (range : Span) : Emit Value := do
  let pointer ← operand.rvalue .nothing
  match pointer.type with
  | .mark _ _ _ true _ => refuse (.derefSlice pointer.type) operand.range
  | .mark sub _ _ false isVar => return .stored pointer.ir sub isVar .pointee range
  | ty => refuse (.derefOther ty) operand.range

/-- The expected type, if it is a mark to single values of the type. -/
def expectedMark? (expect : Expect) (ty : Ty) : Option (Ty × Bool) :=
  match expect.type with
  | some (.mark sub owner nullable false isVar) =>
    if sub = ty then some (.mark sub owner nullable false isVar, isVar) else none
  | _ => none

def lowerAddressOf (operand : Operand) (isVar : Bool) (expect : Expect) (range : Span) :
    Emit Value := do
  let p ← require (← place? (← operand.lower .nothing)) .addressOfTemporary operand.range
  if isVar && !p.isMutable then refuse (.widened p.type) operand.range
  match expectedMark? expect p.type with
  | some (mark, markVar) =>
    if markVar && !p.isMutable then refuse (.widenedMark p.type) operand.range
    return .temporary p.ir (← intern mark) range
  | none => return .temporary p.ir (← intern (.ref p.type isVar)) range

end Staged.Emit
