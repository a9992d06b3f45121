/-
  Staged.Emit.Local — declarations of locals.

  A local with a declared type has its memory before its value is lowered, so that the
  value can be built in place. A local without one adopts the memory of a value that was
  built in a temporary slot. What is known of the value is known of the local, unless the
  local is variable.
-/

import Staged.Emit.Expr

namespace Staged.Emit

def checkLocalType (name : Ident) (ty : Ty) (range : Span) : Emit Unit := do
  if ty = .void then refuse (.localVoid name.text) range
  requireSized ty range

/-- A local that holds its value. -/
def heldLocal (name : Ident) (address : Ir.Value) (type : Ty) (isVar : Bool)
    (known : Option Constant) : LocalVar :=
  { name, address, type, isVar, isRef := false, known := if isVar then none else known }

/-- Store the value of a local with a declared type, unless it was built in place. -/
def storeInitial (slot : Ir.Register) (v : Value) (ty : Ty) (range : Span) : Emit Unit := do
  unless v.ir.isReg slot && v.isStored do
    store (← passValue v ty range) slot

/-- A local whose type and value are given. -/
def typedLocal (name : Ident) (ty : Ty) (value : Operand) (isVar : Bool) (range : Span) :
    Emit LocalVar := do
  requireSized ty range
  let slot ← alloca ty (some name.text)
  let v ← value.lower (.inSlot (.stored slot ty true .tempSlot range))
  if v.type.value ≠ ty then mismatch ty v.type value.range
  checkLocalType name ty range
  storeInitial slot v ty value.range
  return heldLocal name slot ty isVar v.fixed?

/-- A local whose value is given and determines its type. -/
def inferredLocal (name : Ident) (value : Operand) (isVar : Bool) (range : Span) :
    Emit LocalVar := do
  let v ← value.lower .nothing
  let ty := v.type.value
  checkLocalType name ty range
  let address ← if v.isTempSlot && !v.type.isRef then pure v.ir
    else do
      let slot ← alloca ty (some name.text)
      store (← passValue v ty value.range) slot
      pure (Ir.Value.reg slot)
  return heldLocal name address ty isVar v.fixed?

def warnEmpty (name : Ident) (ty : Ty) : Emit Unit := do
  let message := s!"Local `{name.text}` of type `{(← types).name ty}` starts empty and is not variable, so it can never hold a value"
  let d : Diagnostic := { severity := .warning, message }
  warn ((d.withCode Code.maybeUnusable.text).withPrimary name.range "")

/-- A local whose type is given and which starts with the default value. -/
def defaultLocal (view : Viewpoint) (name : Ident) (ty : Ty) (isVar : Bool) (range : Span) :
    Emit LocalVar := do
  checkLocalType name ty range
  if ty.maybe?.isSome && !isVar then warnEmpty name ty
  let slot ← alloca ty (some name.text)
  let v ← lowerDefault view ty (.inSlot (.stored slot ty true .tempSlot range)) range
  unless v.ir.isReg slot do store (← passValue v ty range) slot
  return heldLocal name slot ty isVar v.known

/-- A local that refers to a place. -/
def referenceLocal (name : Ident) (declared : Option Ty) (value : Option Operand) (isVar : Bool)
    (range : Span) : Emit LocalVar := do
  let o ← require value (.referenceNeedsValue name.text) range
  let hint := declared.map Ty.value
  let v ← o.lower (.maybe hint)
  if let some expected := hint then
    if expected ≠ v.type.value then mismatch expected v.type o.range
  let ty ← intern (.ref v.type.value isVar)
  return { name, address := ← passValue v ty o.range, type := ty, isVar, isRef := true }

def lowerLocal (view : Viewpoint) (name : Ident) (type : Option TypeExpr)
    (value : Option Operand) (isVar isRef : Bool) (range : Span) : Emit Unit := do
  let declared ← resolveType? view type
  if isRef then declareLocal (← referenceLocal name declared value isVar range)
  else
    if let some ty := declared then
      if ty.isRef then refuse (.localReference name.text ty) range
    match declared, value with
    | some ty, some o => declareLocal (← typedLocal name ty o isVar range)
    | none, some o => declareLocal (← inferredLocal name o isVar range)
    | some ty, none => declareLocal (← defaultLocal view name ty isVar range)
    | none, none => refuse (.localNeeds name.text) range

end Staged.Emit
