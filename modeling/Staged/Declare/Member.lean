/-
  Staged.Declare.Member — members of types.

  A member becomes a function named after its type, its name and its position. Members
  that read another instance have it as an argument named `other`. An argument may stand
  for a field of its name; the field is then set before the body runs. No two members of
  a type may be impossible to tell apart.
-/

import Staged.Declare.Function
import Staged.Entity.Uses

namespace Staged.Emit

/-- An argument that initialises the field of its name. -/
def fieldArg (view : Viewpoint) (parent : Ty) (kind : MemberKind) (a : Argument) :
    Emit MemberArg := do
  unless kind.allowsMemberArgs do refuse (.memberArgIn a.name.text kind) a.range
  let field := ((← types).structOf? parent).bind (·.field? a.name.text)
  let (index, f) ← require field (.noField parent a.name.text) a.range
  if let some declared := a.type then
    let ty ← resolveType view declared
    if ty ≠ f.type then mismatch f.type ty a.range
  return ⟨a.name, f.type, a.isVar, some index⟩

def memberArg (view : Viewpoint) (parent : Ty) (kind : MemberKind) (a : Argument) :
    Emit MemberArg := do
  if a.member then fieldArg view parent kind a
  else
    let declared ← require a.type (.argNeedsType a.name.text none) a.range
    let ty ← resolveType view declared
    if ty = .void then refuse (.argVoid a.name.text) a.range
    return ⟨a.name, ty, a.isVar, none⟩

/-- The argument through which a member reads another instance. -/
def otherArg (parent : Ty) (kind : MemberKind) (range : Span) : Emit (List MemberArg) := do
  match kind.otherIsVar? with
  | some isVar =>
    let ty ← intern (.ref parent isVar)
    return [⟨⟨otherName, range⟩, ty, isVar, none⟩]
  | none => return []

def memberResult (view : Viewpoint) (kind : MemberKind) (d : MemberDecl) : Emit Ty := do
  if kind.givesVoid then
    match d.result with
    | some ty => refuse (.givesValue kind) ty.range
    | none => return .void
  else if kind = .toConvertor then
    resolveType view (← require d.result .convertorNeedsType d.range)
  else resultTypeOf view d.result

def checkArity (parent : Ty) (kind : MemberKind) (d : MemberDecl) : Emit Unit := do
  if let some expected := kind.fixedArity? then
    if d.args.length ≠ expected then
      refuse (.memberArity kind parent expected d.args.length) d.range

def checkClash (m : MemberFunction) : Emit Unit := do
  match ((← types).membersOf m.parent).find? (·.clashes m) with
  | some existing => refuse (.memberClash m.parent m.kind existing.range) m.range
  | none => return

/-- Declare a member of a type; `owner` is what its function is named after. -/
def memberPrototype (view : Viewpoint) (parent : Ty) (owner : String) (position : Nat)
    (d : MemberDecl) : Emit MemberFunction := do
  let kind := d.form.kind
  let name := d.form.name
  checkArity parent kind d
  checkUnique "Argument" (d.args.map Argument.name)
  let args ← d.args.mapM (memberArg view parent kind)
  let args := args ++ (← otherArg parent kind d.range)
  let result ← memberResult view kind d
  let self ← if kind.hasSelf then (return [← intern (.markTo parent kind.isVariation)])
    else pure []
  let params := self ++ args.map MemberArg.type
  let function ← addFunction (.ofSignature s!"{owner}'{name}.{position}" params result)
  let vis := (← modules).visibility d.vis view.module (some parent)
  let m : MemberFunction := ⟨kind, name, function, parent, args, result, vis, d.range⟩
  checkClash m
  return m

/-- Declare members in order, handing each to `add` before the next. -/
def memberPrototypes (view : Viewpoint) (parent : Ty) (owner : String)
    (add : MemberFunction → Emit Unit) : Nat → List MemberDecl → Emit Unit
  | _, [] => return
  | position, d :: ds => do
    add (← memberPrototype view parent owner position d)
    memberPrototypes view parent owner add (position + 1) ds

/-! ## Bodies -/

/-- The instance of a member and the registers of its arguments. -/
def splitParams (m : MemberFunction) (params : List Ir.Register) :
    Emit (Option Instance × List Ir.Register) := do
  if m.kind.hasSelf then
    match params with
    | r :: rest => return (some ⟨r, m.parent, m.kind.isVariation⟩, rest)
    | [] => breach (.lostInstance m.name)
  else return (none, params)

/-- Bind the arguments of a member, or store them in the fields they stand for. -/
def bindMemberArgs (parent : Ty) (self : Option Instance) :
    List MemberArg → List Ir.Register → Emit Unit
  | a :: args, r :: rs => do
    match a.field, self with
    | some field, some self =>
      let ptr ← fieldPtr self.address parent field a.type
      store r ptr
    | _, _ => bindParam a.name r a.type a.isVar
    bindMemberArgs parent self args rs
  | _, _ => return

def memberBody (module : ModId) (m : MemberFunction) (d : MemberDecl) : Emit Unit := do
  let (self, args) ← splitParams m (← prototype m.function).params
  beginFunction m.function m.result self
  bindMemberArgs m.parent self m.args args
  lowerSentences { module, memberOf := some m.parent } d.body
  finishFunction d.range

def memberBodies (module : ModId) : List MemberFunction → List MemberDecl → Emit Unit
  | m :: ms, d :: ds => do
    memberBody module m d
    memberBodies module ms ds
  | _, _ => return

end Staged.Emit
