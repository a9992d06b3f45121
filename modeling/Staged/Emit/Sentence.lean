/-
  Staged.Emit.Sentence — bodies of functions as code.

  Once the current block is closed, the rest of a list of sentences is dropped without
  being looked at. Branches whose condition is known are decided at once.
-/

import Staged.Emit.Assign
import Staged.Emit.Local
import Staged.Emit.Loop

namespace Staged.Emit

def lowerGive (value : Option Operand) (range : Span) : Emit Unit := do
  let result := (← function).result
  match value with
  | none =>
    if result ≠ .void then refuse (.giveNothing result) range
    terminate (.ret none)
  | some o =>
    if result = .void then refuse .giveInVoid o.range
    let v ← o.lower (.of result.value)
    if v.type.value ≠ result.value then mismatch result v.type o.range
    terminate (.ret (some (← passValue v result o.range)))

/-- One branch of a conditional sentence; `rest` lowers what follows it. -/
def lowerBranch (condition : Operand) (body : Emit Unit) (endBlock : Ir.BlockId)
    (rest : Emit Unit) : Emit Unit := do
  let cond ← condition.condition
  match cond.known.bind Constant.asBool? with
  | some true =>
    inScope body
    jump endBlock
    switchTo endBlock
  | some false => rest
  | none =>
    let thenBlock ← newBlock "if.then"
    let nextBlock ← newBlock "if.else"
    branch cond.ir thenBlock nextBlock
    switchTo thenBlock
    inScope body
    jump endBlock
    switchTo nextBlock
    rest

mutual

def lowerSentences (view : Viewpoint) : List Sentence → Emit Unit
  | [] => return
  | s :: rest => do
    unless ← isClosed do
      lowerSentence view s
      lowerSentences view rest

def lowerSentence (view : Viewpoint) : Sentence → Emit Unit
  | .localVar range name type value isVar isRef =>
    lowerLocal view name type (value.map (operand view)) isVar isRef range
  | .assign range lhs rhs => lowerAssign (operand view lhs) (operand view rhs) range
  | .opAssign range op lhs rhs => lowerOpAssign op (operand view lhs) (operand view rhs) range
  | .expr _ e => do
    let _ ← lowerExpr view e .nothing
  | .cond _ branches otherwise => do
    let endBlock ← newBlock "if.end"
    lowerBranches view endBlock branches do
      (match otherwise with
        | some body => inScope (lowerSentences view body)
        | none => return)
      jump endBlock
      switchTo endBlock
  | .whileDo _ condition body tag =>
    lowerWhile (operand view condition) (lowerSentences view body) tag
  | .times _ count index body tag =>
    lowerTimes (operand view count) index (lowerSentences view body) tag
  | .loop _ body tag => lowerLoop (lowerSentences view body) tag
  | .forIn _ iterable item index body tag =>
    lowerForIn (operand view iterable) item index (lowerSentences view body) tag
  | .breakLoop range tag => lowerJump tag "break" LoopTargets.breakTo range
  | .continueLoop range tag => lowerJump tag "continue" LoopTargets.continueTo range
  | .give range value => lowerGive (value.map (operand view)) range
  | .block _ body => inScope (lowerSentences view body)
  | .todo range message => unfinished message range

/-- The branches of a conditional sentence, in order; `otherwise` lowers what follows
the last of them. -/
def lowerBranches (view : Viewpoint) (endBlock : Ir.BlockId) :
    List Branch → Emit Unit → Emit Unit
  | [], otherwise => otherwise
  | .mk condition body :: rest, otherwise =>
    lowerBranch (operand view condition) (lowerSentences view body) endBlock
      (lowerBranches view endBlock rest otherwise)

end

end Staged.Emit
