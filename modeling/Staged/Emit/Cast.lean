/-
  Staged.Emit.Cast — conversions between types.

  A convertor of the source type to exactly the target comes first, then the cast of a
  known value. At run time numbers, characters and booleans become numbers, integers
  become characters and booleans, marks become other marks or numbers as wide as a
  pointer, and strings become C strings. Only known numbers can become a choice, since
  only they can be checked against its variants.
-/

import Staged.Emit.Call

namespace Staged

/-- Between integers, by their widths and the sign of the source. -/
def IntInfo.resize (source target : IntInfo) : Ir.CastOp :=
  if source.bits > target.bits then .trunc
  else if source.bits < target.bits then (if source.signed then .sext else .zext)
  else .bitcast

/-- Between floating-point formats, by their widths. -/
def FloatKind.resize (source target : FloatKind) : Ir.CastOp :=
  if source.bitwidth > target.bitwidth then .fptrunc
  else if source.bitwidth < target.bitwidth then .fpext
  else .bitcast

namespace TypeTable

variable (t : TypeTable)

/-- The cast between two types of which at least one is a number. -/
def numericCast? (source target : Ty) : Option Ir.CastOp :=
  match t.machineInt? source, t.intInfo? target with
  | some s, some i => some (s.resize i)
  | sourceBits, targetInt =>
    match t.intInfo? source, target with
    | some s, .char => some (s.resize ⟨32, false⟩)
    | _, _ => match sourceBits, t.floatKind? target with
      | some s, some _ => some (if s.signed then .sitofp else .uitofp)
      | _, targetFloat => match t.floatKind? source, targetInt, targetFloat with
        | some _, some i, _ => some (if i.signed then .fptosi else .fptoui)
        | some s, none, some k => some (s.resize k)
        | _, _, _ => none

def isPointerSized (ty : Ty) : Bool := (t.intInfo? ty).any (·.bits == t.pointerWidth)

/-- The cast between two types of which at least one is an address. -/
def addressCast? (source target : Ty) : Option Ir.CastOp :=
  match source.pointee?, target.pointee? with
  | some _, some _ => some .bitcast
  | some _, none =>
    if target.isCString then some .bitcast
    else if t.isPointerSized target then some .ptrtoint
    else none
  | none, some sub =>
    if source.isCString && sub == .u8 then some .bitcast
    else if t.isPointerSized source then some .inttoptr
    else none
  | none, none => if source = .str ∧ target.isCString then some .bitcast else none

def runtimeCast? (source target : Ty) : Option Ir.CastOp :=
  (t.numericCast? source target).or (t.addressCast? source target)

/-- The member that converts a type to another. -/
def convertor? (source target : Ty) : Option MemberFunction :=
  (t.membersOf source).find? fun m => m.kind == .toConvertor && m.result == target

end TypeTable

namespace Emit

/-- A known value after a cast, if the cast can be done at once. -/
def foldedCast? (t : TypeTable) (v : Value) (target : Ty) : Option Constant :=
  v.known.bind fun c => (t.foldCast c target).toOption

/-- The same number as a value of another integer type. -/
def convertInt (v : Value) (target : Ty) : Emit Value := do
  let t ← types
  if v.type = target then return v
  match t.machineInt? v.type, t.machineInt? target with
  | some source, some info => match foldedCast? t v target with
    | some c => constant c v.range
    | none => return .temporary (← castTo (source.resize info) v.ir target) target v.range
  | _, _ => mismatch target v.type v.range

/-- Cast a value that is not known. -/
def castAtRuntime (v : Value) (target : Ty) (range : Span) : Emit Value := do
  let t ← types
  let refused := Fault.castRefused v.type target
  if target = .bool then
    unless t.isIntegral v.type do refuse refused range
    let r ← compute .bool (.compare · .ne v.ir (Ir.Const.int v.type 0))
    return .temporary r .bool range
  else if (t.choiceOf? target).isSome then refuse refused range
  else
    let op ← require (t.runtimeCast? v.type target) refused range
    let operand ← if v.type = .str then (return Ir.Value.reg (← stringParts v.ir).1)
      else pure v.ir
    return .temporary (← castTo op operand target) target range

def castValue (view : Viewpoint) (v : Value) (target : Ty) (range : Span) : Emit Value := do
  let source := v.type.value
  match (← types).convertor? source target with
  | some m =>
    unless ← isAccessible view m.vis do refuse (.convertorHidden source target m.vis) range
    callMember m (some (← place v).ir) [] range
  | none =>
    let v ← rvalue v
    if source = target then return v
    match foldedCast? (← types) v target with
    | some c => constant c range
    | none => castAtRuntime v target range

def lowerCast (view : Viewpoint) (value : Operand) (target : TypeExpr) (range : Span) :
    Emit Value := do
  let target ← resolveType view target
  castValue view (← value.lower .nothing) target range

end Emit

end Staged
