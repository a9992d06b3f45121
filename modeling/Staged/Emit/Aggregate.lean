/-
  Staged.Emit.Aggregate — values put together from others, and values chosen by a
  condition.

  An aggregate of known parts is a constant; any other is built part by part. The type of
  a conditional value is that of its first alternative.
-/

import Staged.Emit.Operand

namespace Staged.Emit

/-- A constant if all parts are known, and code that builds the value otherwise. -/
def finishAggregate (type : Ty) (parts : List Value) (members : List Ty)
    (data : List Data → Data) (range : Span) : Emit Value := do
  match fixedData? parts with
  | some ds => constant ⟨data ds, type⟩ range
  | none => aggregate type (← passValues range parts members) range

def lowerSome (inner : Operand) (expect : Expect) (range : Span) : Emit Value := do
  let v ← inner.lower (.maybe (expect.value?.bind Ty.maybe?))
  let sub := v.type.value
  let type ← intern (.maybe sub)
  match v.fixed? with
  | some c => constant ⟨.maybe (some c.data), type⟩ range
  | none =>
    let payload ← passValue v sub range
    aggregate type [Ir.Const.bool .bool true, payload] range

/-- Lower operands under the hints at their positions, as far as there are any. -/
def lowerEach : List Operand → List Ty → Emit (List Value)
  | [], _ => return []
  | o :: os, hints => do
    let v ← o.lower (.maybe hints.head?)
    return v :: (← lowerEach os (hints.drop 1))

def lowerTuple (items : List Operand) (expect : Expect) (range : Span) : Emit Value := do
  let (hints, packed) := match expect.value? with
    | some (.tuple members packed) => (members, packed)
    | _ => ([], false)
  let vs ← lowerEach items hints
  let members := vs.map (·.type.value)
  let type ← intern (.tuple members packed)
  finishAggregate type vs members .tuple range

/-- Lower operands that must all have one type: the expected one, or that of the
first. -/
def lowerItems : List Operand → Option Ty → Emit (Option Ty × List Value)
  | [], element => return (element, [])
  | o :: os, element => do
    let v ← o.lower (.maybe element)
    if let some ty := element then
      if ty ≠ v.type.value then mismatch ty v.type.value o.range
    let (element, vs) ← lowerItems os (some v.type.value)
    return (element, v :: vs)

def lowerArray (items : List Operand) (expect : Expect) (range : Span) : Emit Value := do
  let (element, vs) ← lowerItems items (expect.value?.bind Ty.element?)
  let element ← require element .emptyArray range
  let type ← intern (.array element vs.length)
  finishAggregate type vs (vs.map fun _ => element) .array range

def lowerIf (condition thenValue elseValue : Operand) (expect : Expect) (range : Span) :
    Emit Value := do
  let cond ← condition.condition
  match cond.known.bind Constant.asBool? with
  | some true => thenValue.rvalue expect.hint
  | some false => elseValue.rvalue expect.hint
  | none =>
    let thenBlock ← newBlock "if.then"
    let elseBlock ← newBlock "if.else"
    let endBlock ← newBlock "if.end"
    branch cond.ir thenBlock elseBlock
    switchTo thenBlock
    let thenResult ← thenValue.rvalue expect.hint
    let thenEnd ← currentBlock
    jump endBlock
    switchTo elseBlock
    let elseResult ← elseValue.rvalue (.of thenResult.type)
    if elseResult.type ≠ thenResult.type then
      mismatch thenResult.type elseResult.type elseValue.range
    let elseEnd ← currentBlock
    jump endBlock
    switchTo endBlock
    if thenResult.type = .void then return .void range
    let r ← compute thenResult.type
      (.phi · [(thenResult.ir, thenEnd), (elseResult.ir, elseEnd)])
    return .temporary r thenResult.type range

end Staged.Emit
