/-
  Staged.Emit.Name — names as values and as callees.

  A single name is a local first. `Type::member` is a variant of the type, or a static
  function when it is called. Calling a type builds a value of it, and calling a
  compile-time function runs it at once.
-/

import Staged.Emit.Construct

namespace Staged.Emit

/-- The value of what an entity has become. -/
def symbolValue (name : QName) (symbol : Symbol) : Emit Value := do
  let range := name.range
  match symbol with
  | .function id type => return .temporary (Ir.Const.functionAddr type id) type range
  | .global id type isVar value =>
    let address := Ir.Const.globalAddr (← intern (.markTo type isVar)) id
    return { Value.stored address type isVar .global range with
      known := if isVar then none else some value }
  | .prerunGlobal value => constant value range
  | .type ty => constant (← typeConstant ty) range
  | .prerunFunction _ => refuse (.notAValue name.text .prerunFunction) range
  | .skill _ => refuse (.notAValue name.text .skill) range
  | .doneSkill _ | .bring => refuse (.notAValue name.text .declaration) range

def lowerName (view : Viewpoint) (name : QName) (expect : Expect) : Emit Value := do
  match ← localOf? name with
  | some v => return localValue v name.range
  | none => match ← resolveName view name with
    | .ok (.item item) => symbolValue name (← symbolOf item.entity name.range)
    | .ok (.module _) => refuse (.notAValue name.text .module) name.range
    | .error e =>
      if e.isNotAModule && name.segments.length > 1 then
        let (ty, member) ← typeMember view name
        lowerVariant ty member none expect name.range
      else constant (← definedAs name e expect.type) name.range

/-! ## Callees -/

/-- A member of a type that is called: a static function, or a variant with its
payload. -/
def lowerStaticCall (view : Viewpoint) (ty : Ty) (name : Ident) (args : List Operand)
    (expect : Expect) (range : Span) : Emit Value := do
  if name.text = "from" then construct view ty args expect range
  else
    match ((← types).membersOf ty).find? fun m => m.kind == .static && m.name == name.text with
    | some m =>
      checkMemberAccess view m name
      let args ← lowerArgs (.static ty name.text) m.argTypes false args range
      callMember m none args range
    | none =>
      let isVariant := ((← types).mixOf? ty).any fun d => (d.variant? name.text).isSome
      match isVariant, args with
      | true, [arg] => lowerVariant ty name (some arg) expect range
      | _, _ => refuse (.noStatic ty name.text) name.range

/-- Call what an entity has become. -/
def callSymbol (view : Viewpoint) (name : QName) (symbol : Symbol) (callee : Operand)
    (args : List Operand) (expect : Expect) (range : Span) : Emit Value := do
  match symbol with
  | .function id (.function result params variadic) =>
    let args ← lowerArgs (.function name.text) params variadic args range
    emitCall (.function id) args result range
  | .function _ _ => breach (.notAFunction name.text)
  | .prerunFunction f =>
    checkArgCount f args.length range
    let vs ← evaluateEach view (args.map Operand.expr) (f.args.map PrerunArg.type)
    constant (← callPrerun f vs range) range
  | .type ty => construct view ty args expect range
  | .global .. => callValue (← callee.rvalue .nothing) (.global name.text) args range
  | .prerunGlobal _ | .skill _ | .doneSkill _ | .bring =>
    refuse (.notCallable name.text) range

/-- Call what a name means. -/
def callName (view : Viewpoint) (name : QName) (callee : Operand) (args : List Operand)
    (expect : Expect) (range : Span) : Emit Value := do
  match ← localOf? name with
  | some _ => callValue (← callee.rvalue .nothing) (.localNamed name.text) args range
  | none => match ← resolveName view name with
    | .ok (.item item) =>
      callSymbol view name (← symbolOf item.entity name.range) callee args expect range
    | .ok (.module _) => refuse (.notCallable name.text) range
    | .error e =>
      if e.isNotAModule && name.segments.length > 1 then
        let (ty, member) ← typeMember view name
        lowerStaticCall view ty member args expect range
      else refuseName e

def lowerCall (view : Viewpoint) (callee : Operand) (args : List Operand) (expect : Expect)
    (range : Span) : Emit Value := do
  match callee.expr with
  | .entity _ name => callName view name callee args expect range
  | _ => callValue (← callee.rvalue .nothing) .value args range

end Staged.Emit
