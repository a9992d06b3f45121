/-
  Staged.Declare.Global — globals, and values and functions of compile time.

  The value of a global is always known. A compile-time value has to be of a type whose
  values can be known, and so have the arguments and the result of a compile-time
  function.
-/

import Staged.Declare.Type

namespace Staged.Emit

/-- The value of a declaration and its type, which has to be the declared one. -/
def declaredValue (view : Viewpoint) (type : Option TypeExpr) (value : Expr) :
    Emit Constant := do
  let declared ← resolveType? view type
  let c ← evaluate view value declared
  if let some ty := declared then
    if ty ≠ c.type then mismatch ty c.type value.range
  return c

def addGlobal (g : Ir.Global) : Emit Ir.GlobalId :=
  modifyGet fun s =>
    let (ir, id) := s.ir.addGlobal g
    (id, { s with ir })

def globalValue (view : Viewpoint) (id : EntityId) (d : GlobalDecl) : Emit Unit := do
  let c ← declaredValue view d.type d.value
  if c.type == .void || c.type.isRef then
    refuse (.globalType d.name.text c.type) ((d.type.map TypeExpr.range).getD d.value.range)
  requireSized c.type d.name.range
  let init ← emitted c
  let name ← fullNameOf view.module d.name
  let g ← addGlobal ⟨name, c.type, init, d.isVar⟩
  setSymbol id (.global g c.type d.isVar c)

def requirePrerun (ty : Ty) (place : PrerunPlace) (range : Span) : Emit Unit := do
  unless (← types).canBePrerun ty do refuse (.noPrerunValues place ty) range

def prerunGlobal (view : Viewpoint) (id : EntityId) (d : PrerunGlobalDecl) : Emit Unit := do
  let c ← declaredValue view d.type d.value
  requirePrerun c.type (.global d.name.text) d.value.range
  setSymbol id (.prerunGlobal c)

def prerunArg (view : Viewpoint) (function : Ident) (a : Argument) : Emit PrerunArg := do
  if a.member then refuse (.memberArgOutside a.name.text) a.range
  let ty ← require a.type
    (.argNeedsType a.name.text (some (.prerunFunction function.text))) a.range
  let ty ← resolveType view ty
  requirePrerun ty (.argument a.name.text) a.range
  return ⟨a.name, ty, a.isVar⟩

def prerunResult (view : Viewpoint) (function : Ident) (result : Option TypeExpr) : Emit Ty := do
  match result with
  | none => return .void
  | some e =>
    let ty ← resolveType view e
    if ty ≠ .void then requirePrerun ty (.result function.text) e.range
    return ty

def prerunFunction (view : Viewpoint) (id : EntityId) (d : PrerunFunctionDecl) (range : Span) :
    Emit Unit := do
  checkUnique "Argument" (d.args.map Argument.name)
  let args ← d.args.mapM (prerunArg view d.name)
  let result ← prerunResult view d.name d.result
  let fullName ← fullNameOf view.module d.name
  setSymbol id (.prerunFunction ⟨fullName, view.module, args, result, d.body, range⟩)

end Staged.Emit
