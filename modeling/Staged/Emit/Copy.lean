/-
  Staged.Emit.Copy — explicit copies and moves.

  Copying or moving a temporary gives the temporary. A value that is copied bit by bit is
  loaded; otherwise its copy constructor makes the copy. Moving out of a place needs a
  variable place; what stays behind of a value that cannot be copied bit by bit is zero,
  and a warning says so.
-/

import Staged.Emit.Call

namespace Staged.Emit

/-- Build a value in memory from a place by a copy or move constructor. -/
def buildFrom (kind : MemberKind) (p : Value) (missing : Fault) (expect : Expect)
    (range : Span) : Emit Value := do
  let m ← require ((← types).member? p.type kind) missing range
  let slot ← targetSlot p.type expect range
  let _ ← callMember m (some slot.ir) [p.ir] range
  return slot

def lowerCopy (inner : Operand) (expect : Expect) (range : Span) : Emit Value := do
  let v ← inner.lower expect.hint
  match ← place? v with
  | none => return v
  | some p =>
    if (← types).hasSimpleCopy p.type then rvalue p
    else buildFrom .copyConstructor p (.noCopy p.type) expect range

def warnReset (type : Ty) (range : Span) : Emit Unit := do
  let message := s!"Moving this value of type `{(← types).name type}` resets its storage to zero"
  let d : Diagnostic := { severity := .warning, message }
  warn ((d.withCode Code.trivialMove.text).withPrimary range "moved out here")

/-- Move out of a place bit by bit. -/
def moveBits (p : Value) (source range : Span) : Emit Value := do
  let r ← load p.ir p.type
  unless (← types).hasSimpleCopy p.type do
    store (Ir.Const.zero p.type) p.ir
    warnReset p.type source
  return .temporary r p.type range

def lowerMove (inner : Operand) (expect : Expect) (range : Span) : Emit Value := do
  let v ← inner.lower expect.hint
  if v.isTempSlot then return v
  match ← place? v with
  | none => return v
  | some p =>
    unless p.isMutable do refuse (.moveNotVariable p.type) inner.range
    if (← types).hasSimpleMove p.type then moveBits p inner.range range
    else buildFrom .moveConstructor p (.noMove p.type) expect range

end Staged.Emit
