/-
  Staged.Emit.Assign — assignments.

  The target has to be a variable place. A value that cannot be copied bit by bit is
  assigned by a member of its type: copy assignment from a place, move assignment from
  anything else. `a op= b` uses a variation operator if the type has one.
-/

import Staged.Emit.Expr

namespace Staged.Emit

/-- The place that is assigned to. -/
def assignedPlace (lhs : Operand) : Emit Value := do
  let p ← require (← place? (← lhs.lower .nothing)) .assignTemporary lhs.range
  unless p.isMutable do refuse (.assignNotVariable p.type) lhs.range
  return p

/-- The member that assigns this value, for types that are not copied bit by bit. -/
def assignMember? (t : TypeTable) (ty : Ty) (v : Value) : Option MemberFunction :=
  if t.hasSimpleCopy ty then none
  else
    let isPlace := v.type.isRef || (v.isStored && !v.isTempSlot)
    t.member? ty (if isPlace then .copyAssignment else .moveAssignment)

def lowerAssign (lhs rhs : Operand) (range : Span) : Emit Unit := do
  let p ← assignedPlace lhs
  let v ← rhs.lower (.of p.type)
  if v.type.value ≠ p.type then mismatch p.type v.type rhs.range
  match assignMember? (← types) p.type v with
  | some m =>
    let source ← place v
    let _ ← callMember m (some p.ir) [source.ir] range
  | none => store (← passValue v p.type rhs.range) p.ir

/-- Members that change their instance by an operator and one operand. -/
def variations (t : TypeTable) (ty : Ty) (op : BinaryOp) : List MemberFunction :=
  (t.operators ty op).filter fun m => m.kind.isVariation && m.args.length == 1

/-- The operand type, if only one variation operator comes into question. -/
def variationHint : List MemberFunction → Option Ty
  | [only] => only.argTypes.head?.map Ty.value
  | _ => none

def acceptsOperand (m : MemberFunction) (v : Value) : Bool :=
  m.argTypes.head?.any (accepts · v)

/-- `a op= b` by a variation operator. -/
def assignByMember (op : BinaryOp) (p : Value) (members : List MemberFunction) (rhs : Operand)
    (range : Span) : Emit Unit := do
  let v ← rhs.lower (.maybe (variationHint members))
  let m ← require (members.find? (acceptsOperand · v))
    (.noVariationOperatorFor op p.type v.type) range
  let args ← passValues rhs.range [v] m.argTypes
  let _ ← callMember m (some p.ir) args range

def lowerOpAssign (op : BinaryOp) (lhs rhs : Operand) (range : Span) : Emit Unit := do
  let p ← assignedPlace lhs
  let members := variations (← types) p.type op
  if !members.isEmpty then assignByMember op p members rhs range
  else
    if ((← types).structOf? p.type).isSome then refuse (.noVariationOperator p.type op) range
    let current ← rvalue p
    let right ← rhs.rvalue (.of p.type)
    let result ← foldOrCompute op current right range
    if result.type ≠ p.type then mismatch p.type result.type range
    store result.ir p.ir

end Staged.Emit
