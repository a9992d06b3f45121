/-
  Staged.Emit.Operand — the parts of a construct, and how their values are handed on.

  A construct is lowered from its operands: the syntax of a part together with the action
  that lowers it under any expectation. How the actions come about is settled in one
  place (`Staged.Emit.Expr`), so that the rule of each construct can be read by itself.

  A value is handed on as a reference if one is wanted, and as the value itself
  otherwise. Handing on a stored value copies it, which needs a type that is copied bit
  by bit; a temporary slot gives its value away. `accepts` says for which parameter types
  a value can be handed on, leaving copies aside.
-/

import Staged.Known.Evaluate

namespace Staged

structure Operand where
  expr : Expr
  lower : Expect → Emit Value

namespace Operand

def range (o : Operand) : Span := o.expr.range

/-- Lower to the value itself. -/
def rvalue (o : Operand) (expect : Expect) : Emit Value := do Emit.rvalue (← o.lower expect)

/-- Lower to a truth value. -/
def condition (o : Operand) : Emit Value := do
  let v ← o.rvalue (.of .bool)
  if v.type ≠ .bool then Emit.mismatch .bool v.type o.range
  return v

end Operand

namespace Emit

/-- Whether a value can be handed on to a parameter of a type. -/
def accepts (param : Ty) (v : Value) : Bool :=
  param == v.type || param == v.type.value ||
    match param.refInfo?, v.type.refInfo? with
    | some (wanted, wantedVar), some (given, givenVar) =>
      wanted == given && (!wantedVar || givenVar)
    | some (wanted, wantedVar), none =>
      wanted == v.type && v.isStored && (!wantedVar || v.isMutable)
    | none, _ => false

/-- Hand a value on as a value of a type. -/
def passValue (v : Value) (target : Ty) (range : Span) : Emit Ir.Value := do
  match target.refInfo?, v.type.refInfo? with
  | some (sub, isVar), some (source, sourceVar) =>
    if source ≠ sub then mismatch target v.type range
    if isVar && !sourceVar then refuse (.widened sub) range
    return (← referenceAddress v).ir
  | some (sub, isVar), none =>
    if v.type ≠ sub then mismatch target v.type range
    let p ← require (← place? v) .bindTemporary range
    if isVar && !p.isMutable then refuse (.widened sub) range
    return p.ir
  | none, source =>
    if v.type.value ≠ target then mismatch target v.type range
    if v.isTemporary && source.isNone then return v.ir
    if v.isTempSlot || (← types).hasSimpleCopy target then return (← rvalue v).ir
    refuse (.implicitCopy target) range

/-- Hand each value on as a value of the type at its position. -/
def passValues (range : Span) : List Value → List Ty → Emit (List Ir.Value)
  | v :: vs, ty :: tys => return (← passValue v ty range) :: (← passValues range vs tys)
  | _, _ => return []

/-- What is known of all of several values. -/
def fixedData? (vs : List Value) : Option (List Data) :=
  vs.mapM fun v => v.fixed?.map Constant.data

end Emit

end Staged
