/-
  Staged.Emit.Call — calls of functions and members.

  Arguments are lowered in order, each with the type of its parameter in mind. A variadic
  function takes further arguments as they are. A member function other than a static one
  gets the address of its instance first.
-/

import Staged.Emit.Operand

namespace Staged

/-- The method of a type with that name, whether or not it changes its instance. -/
def TypeTable.method? (t : TypeTable) (ty : Ty) (name : String) :
    Option MemberFunction :=
  (t.membersOf ty).find? fun m =>
    (m.kind == .method || m.kind == .variationMethod) && m.name == name

namespace Emit

def emitCall (callee : Ir.Callee) (args : List Ir.Value) (result : Ty) (range : Span) :
    Emit Value := do
  if result = .void then
    push (.call none callee args)
    return .void range
  else return .temporary (← compute result fun r => .call (some r) callee args) result range

/-- Call a member of a type on an instance. -/
def callMember (m : MemberFunction) (self : Option Ir.Value) (args : List Ir.Value)
    (range : Span) : Emit Value := do
  if m.kind.hasSelf then
    match self with
    | some self => emitCall (.function m.function) (self :: args) m.result range
    | none => breach (.noInstance m.kind m.name)
  else emitCall (.function m.function) args m.result range

/-- Lower arguments for the parameters that are left, from a position on. -/
def lowerArgsFrom (called : Called) : Nat → List Ty → List Operand → Emit (List Ir.Value)
  | _, _, [] => return []
  | i, [], a :: args => do
    let extra ← a.rvalue .nothing
    return extra.ir :: (← lowerArgsFrom called (i + 1) [] args)
  | i, param :: params, a :: args => do
    let v ← a.lower (.of param.value)
    if v.type.value ≠ param.value then
      refuse (.argumentType (i + 1) called param v.type) a.range
    let ir ← passValue v param a.range
    return ir :: (← lowerArgsFrom called (i + 1) params args)

def lowerArgs (called : Called) (params : List Ty) (variadic : Bool) (args : List Operand)
    (range : Span) : Emit (List Ir.Value) := do
  if args.length < params.length ∨ (!variadic ∧ args.length > params.length) then
    refuse (.argumentCount called variadic params.length args.length) range
  lowerArgsFrom called 0 params args

/-- Call a value that holds a function. -/
def callValue (f : Value) (called : Called) (args : List Operand) (range : Span) :
    Emit Value := do
  match f.type with
  | .function result params variadic =>
    let args ← lowerArgs called params variadic args range
    emitCall (.indirect f.ir) args result range
  | ty => refuse (.notCallableValue called ty) range

def checkMemberAccess (view : Viewpoint) (m : MemberFunction) (name : Ident) : Emit Unit := do
  unless ← isAccessible view m.vis do
    refuse (.memberHidden m.kind m.name m.parent m.vis) name.range

/-! ## Methods -/

/-- The instance of a method call and the type that has the method: a mark stands for
what it points to, unless it has the method itself. -/
def methodInstance (v : Value) (name : String) (range : Span) : Emit (Value × Ty) := do
  match v.type.value with
  | .mark sub owner nullable false isVar =>
    let ty := .mark sub owner nullable false isVar
    if ((← types).method? ty name).isSome then return (v, ty)
    let pointer ← rvalue v
    return (.stored pointer.ir sub isVar .pointee range, sub)
  | ty => return (v, ty)

def lowerMethodCall (view : Viewpoint) (base : Value) (name : Ident) (args : List Operand)
    (variation : Bool) (range : Span) : Emit Value := do
  let (self, ty) ← methodInstance base name.text range
  let m ← require ((← types).method? ty name.text) (.noMethod ty name.text) name.range
  checkMemberAccess view m name
  let isVariation := m.kind == .variationMethod
  if variation ≠ isVariation then
    refuse (if isVariation then .isVariationMethod name.text ty
      else .notVariationMethod name.text ty) name.range
  let p ← if isVariation then
      require ((← place? self).filter Value.isMutable) (.variationNeedsVariable name.text ty) range
    else place self
  let args ← lowerArgs (.method name.text ty) m.argTypes false args range
  callMember m (some p.ir) args range

end Emit

end Staged
