/-
  Staged.Emit.Await — waiting for a future.

  A future is the address of its state: a flag that says whether it is done, followed by
  its result if it has one. Awaiting reads the flag until it is set.
-/

import Staged.Emit.Operand

namespace Staged.Emit

/-- The memory behind a future. -/
def futureState (sub : Ty) (packed : Bool) : Ty :=
  .tuple (if sub = .void then [.bool] else [.bool, sub]) packed

def lowerAwait (inner : Operand) (range : Span) : Emit Value := do
  let future ← inner.rvalue .nothing
  match future.type with
  | .future sub packed =>
    let state ← intern (futureState sub packed)
    let poll ← newBlock "await.poll"
    let done ← newBlock "await.done"
    jump poll
    switchTo poll
    let flagPtr ← fieldPtr future.ir state 0 .bool
    let flag ← load flagPtr .bool
    branch flag done poll
    switchTo done
    if sub = .void then return .void range
    let resultPtr ← fieldPtr future.ir state 1 sub
    return .temporary (← load resultPtr sub) sub range
  | ty => refuse (.notFuture ty) inner.range

end Staged.Emit
