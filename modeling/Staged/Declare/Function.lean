/-
  Staged.Declare.Function — functions.

  The prototype of a function is known after its first phase, so that bodies can call
  functions whose body comes later. A parameter is stored in memory, unless it is a
  reference, which is used as it comes.
-/

import Staged.Emit.Sentence
import Staged.Emit.Heap

namespace Staged.Emit

/-- Refuse names that occur twice. -/
def checkUniqueAfter (what : String) : List Ident → List Ident → Emit Unit
  | _, [] => return
  | seen, name :: rest => do
    match seen.find? (·.text == name.text) with
    | some existing => refuse (.declaredTwice what name.text existing.range) name.range
    | none => checkUniqueAfter what (seen ++ [name]) rest

def checkUnique (what : String) (names : List Ident) : Emit Unit := checkUniqueAfter what [] names

/-- The type of a parameter of a function that is no member. -/
def paramType (view : Viewpoint) (signature : Signature) (a : Argument) : Emit Ty := do
  if a.member then refuse (.memberArgOutside a.name.text) a.range
  let ty ← require a.type (.argNeedsType a.name.text (some signature)) a.range
  let ty ← resolveType view ty
  if ty = .void then refuse (.argVoid a.name.text) a.range
  return ty

def paramTypes (view : Viewpoint) (signature : Signature) (args : List Argument) :
    Emit (List Ty) := do
  checkUnique "Argument" (args.map Argument.name)
  args.mapM (paramType view signature)

def resultTypeOf (view : Viewpoint) (ty : Option TypeExpr) : Emit Ty :=
  return (← resolveType? view ty).getD .void

/-- Make a parameter a local of the body. -/
def bindParam (name : Ident) (r : Ir.Register) (ty : Ty) (isVar : Bool) : Emit Unit := do
  match ty.refInfo? with
  | some (_, refVar) =>
    declareLocal { name, address := r, type := ty, isVar := refVar, isRef := true }
  | none =>
    requireSized ty name.range
    let slot ← alloca ty (some name.text)
    store r slot
    declareLocal { name, address := slot, type := ty, isVar, isRef := false }

def addFunction (f : Ir.Function) : Emit Ir.FunctionId :=
  modifyGet fun s =>
    let (ir, id) := s.ir.addFunction f
    (id, { s with ir })

def functionPrototype (view : Viewpoint) (id : EntityId) (d : FunctionDecl) (range : Span) :
    Emit Unit := do
  let params ← paramTypes view (.function d.name.text) d.args
  let result ← resultTypeOf view d.result
  let f ← match d.body with
    | none => declareExternal d.name.text params result d.variadic
    | some _ => do
      if d.variadic then refuse (.variadicBody d.name.text) range
      let name := (← modules).fullNameOf view.module d.name.text
      addFunction (.ofSignature name params result)
  let ty ← intern (.function result params d.variadic)
  setSymbol id (.function f ty)

/-- Bind parameters to the arguments they belong to. -/
def bindParams : List Argument → List Ir.Register → Emit Unit
  | a :: args, r :: rs => do
    bindParam a.name r r.type a.isVar
    bindParams args rs
  | _, _ => return

def functionBody (view : Viewpoint) (id : EntityId) (d : FunctionDecl) (range : Span) :
    Emit Unit := do
  match d.body with
  | none => return
  | some body => match ← symbolOf id d.name.range with
    | .function f (.function result _ _) =>
      let params := (← prototype f).params
      beginFunction f result none
      bindParams d.args params
      lowerSentences view body
      finishFunction range
    | _ => breach (.noPrototype d.name.text)

end Staged.Emit
