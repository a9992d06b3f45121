/-
  Staged.Declare.Type — structs, mixes, choices and type definitions.

  A struct and a mix exist after their first phase and are filled in by the second, so
  marks may point to types that are not known yet. A field or payload has to have a size,
  which rules out types that contain themselves. The variants of a choice are numbered by
  counting up from the one before, and the underlying type is the narrowest that holds
  all numbers unless one is given.
-/

import Staged.Declare.Member

namespace Staged

/-! ## Numbers of choice variants -/

/-- The numbers of variants, given those that are written and the next free one. -/
def numberFrom (next : Int) : List (Option Int) → List Int
  | [] => []
  | written :: rest =>
    let value := written.getD next
    value :: numberFrom (min (value + 1) wideMax) rest

/-- The numbers of variants, given those that are written. -/
def numberVariants (written : List (Option Int)) : List Int := numberFrom 0 written

/-- The first item that equals one before it, and that one's item. -/
def firstDuplicate? {α : Type} : List (Int × α) → Option ((Int × α) × (Int × α))
  | [] => none
  | all => (List.range all.length).findSome? fun later =>
    all[later]?.bind fun b =>
      ((all.take later).find? (·.1 == b.1)).map (·, b)

/-- Widen an integer type until it holds all values, by at most `fuel` bits. -/
def widen (values : List Int) : Nat → IntInfo → IntInfo
  | 0, info => info
  | fuel + 1, info =>
    if values.all info.fits then info else widen values fuel { info with bits := info.bits + 1 }

/-- The narrowest integer type, of at most 128 bits, that holds all values; signed if one
of them is negative. -/
def smallestInt (values : List Int) : IntInfo := widen values 127 ⟨1, values.any (· < 0)⟩

namespace Emit

def typeSymbol (id : EntityId) (range : Span) : Emit Ty := do
  match ← symbolOf id range with
  | .type ty => return ty
  | _ => breach (.notATypeEntity ((← get).entities.displayName id))

def visibilityOf (vis : VisSpec) (module : ModId) (parent : Option Ty) : Emit Visibility :=
  return (← modules).visibility vis module parent

def fullNameOf (module : ModId) (name : Ident) : Emit String :=
  return (← modules).fullNameOf module name.text

/-- Add a definition to the type table and make it what an entity has become. -/
def defineType (id : EntityId) (add : TypeTable → TypeTable × Ty) : Emit Unit := do
  let ty ← modifyGet fun s =>
    let (types, ty) := add s.types
    (ty, { s with types })
  setSymbol id (.type ty)

def modifyTypes (f : TypeTable → TypeTable) : Emit Unit :=
  modify fun s => { s with types := f s.types }

/-! ## Structs -/

def structSkeleton (view : Viewpoint) (id : EntityId) (d : StructDecl) : Emit Unit := do
  let fullName ← fullNameOf view.module d.name
  let vis ← visibilityOf d.vis view.module none
  defineType id (·.addStruct ⟨d.name, fullName, view.module, vis, none, []⟩)

def structField (view : Viewpoint) (type : Ty) (owner : Ident) (f : FieldDecl) :
    Emit FieldDef := do
  let ty ← resolveType view f.type
  if ty == .void || ty.isRef then refuse (.fieldType f.name.text ty) f.type.range
  if ty = type then refuse (.fieldInfinite f.name.text owner.text) f.type.range
  requireSized ty f.type.range
  return ⟨f.name, ty, f.isVar, ← visibilityOf f.vis view.module (some type)⟩

/-- The fields of a struct after those before them. -/
def structFields (view : Viewpoint) (type : Ty) (owner : Ident) :
    List FieldDef → List FieldDecl → Emit (List FieldDef)
  | done, [] => return done
  | done, f :: fs => do
    match done.find? (·.name.text == f.name.text) with
    | some existing =>
      refuse (.duplicateField owner.text f.name.text existing.name.range) f.name.range
    | none => structFields view type owner (done ++ [← structField view type owner f]) fs

def structLayout (view : Viewpoint) (id : EntityId) (d : StructDecl) : Emit Unit := do
  match ← typeSymbol id d.name.range with
  | .struct sid =>
    let fields ← structFields view (.struct sid) d.name [] d.fields
    modifyTypes (·.setFields (.struct sid) (some fields))
    memberPrototypes { view with memberOf := some (.struct sid) } (.struct sid)
      ((← types).name (.struct sid))
      (fun m => modifyTypes (·.modifyStruct sid fun s => { s with members := s.members ++ [m] }))
      0 d.members
  | _ => breach (.notAnExpandedType d.name.text)

def structBodies (view : Viewpoint) (id : EntityId) (d : StructDecl) : Emit Unit := do
  match ← typeSymbol id d.name.range with
  | .struct sid =>
    memberBodies view.module (((← types).structs[sid]?.map StructDef.members).getD []) d.members
  | _ => breach (.notAnExpandedType d.name.text)

/-! ## Mixes -/

def mixSkeleton (view : Viewpoint) (id : EntityId) (d : MixDecl) : Emit Unit := do
  let fullName ← fullNameOf view.module d.name
  let vis ← visibilityOf d.vis view.module none
  defineType id (·.addMix ⟨d.name, fullName, view.module, vis, none, none, d.packed⟩)

def mixPayload (view : Viewpoint) (type : Ty) (variant : Ident) (payload : TypeExpr) :
    Emit Ty := do
  let ty ← resolveType view payload
  if ty = .void ∨ ty = type then refuse (.variantType variant.text ty) payload.range
  requireSized ty payload.range
  return ty

/-- The variants of a mix after those before them. -/
def mixVariantList (view : Viewpoint) (type : Ty) (owner : Ident) :
    List MixVariant → List MixVariantDecl → Emit (List MixVariant)
  | done, [] => return done
  | done, v :: vs => do
    match done.find? (·.name.text == v.name.text) with
    | some existing =>
      refuse (.duplicateMixVariant owner.text v.name.text existing.name.range) v.name.range
    | none =>
      let payload ← match v.payload with
        | some p => some <$> mixPayload view type v.name p
        | none => pure none
      mixVariantList view type owner (done ++ [⟨v.name, payload⟩]) vs

/-- The position of the default variant of a mix, which must not carry a value. -/
def mixDefault (owner : Ident) (variants : List MixVariant) (name : Option Ident) :
    Emit (Option Nat) := do
  match name with
  | none => return none
  | some name =>
    let (v, index) ← require (variants.zipIdx.find? (·.1.name.text == name.text))
      (.mixNoVariant owner.text name.text) name.range
    if v.payload.isSome then refuse (.defaultCarries owner.text) v.name.range
    return some index

def mixVariants (view : Viewpoint) (id : EntityId) (d : MixDecl) : Emit Unit := do
  match ← typeSymbol id d.name.range with
  | .mix mid =>
    let variants ← mixVariantList view (.mix mid) d.name [] d.variants
    let default ← mixDefault d.name variants d.default
    modifyTypes (·.modifyMix mid fun m => { m with variants? := some variants, default })
  | _ => breach (.notAMix d.name.text)

/-! ## Choices -/

/-- The underlying type that is written. -/
def choiceUnderlying (view : Viewpoint) (ty : Option TypeExpr) :
    Emit (Option (Ty × IntInfo)) := do
  match ty with
  | none => return none
  | some e =>
    let ty ← resolveType view e
    let info ← require ((← types).intInfo? ty) (.choiceUnderlying ty) e.range
    return some (ty, info)

/-- The number that is written for a variant, as a 128-bit word. -/
def writtenNumber (view : Viewpoint) (expected : Option Ty) (v : ChoiceVariantDecl) :
    Emit (Option Int) := do
  match v.value with
  | none => return none
  | some e =>
    let c ← evaluate view e expected
    let number := if (← types).isIntegral c.type then c.asInt?.map wide else none
    return some (← require number (.variantNotInt v.name.text c.type) e.range)

/-- The type of the variants' numbers, which has to hold all of them. -/
def numberType (underlying : Option (Ty × IntInfo)) (variants : List ChoiceVariantDecl)
    (values : List Int) : Emit Ty := do
  match underlying with
  | some (ty, info) =>
    match (values.zip variants).find? (!info.fits ·.1) with
    | some (value, v) =>
      refuse (.variantOverflow value v.name.text ty) ((v.value.map Expr.range).getD v.name.range)
    | none => return ty
  | none =>
    let info := smallestInt values
    intern (if info.signed then .int info.bits else .uint info.bits)

def choiceDefault (d : ChoiceDecl) : Emit (Option Nat) := do
  match d.default with
  | none => return none
  | some name =>
    return some (← require (d.variants.findIdx? (·.name.text == name.text))
      (.choiceNoVariant d.name.text name.text) name.range)

def choiceType (view : Viewpoint) (id : EntityId) (d : ChoiceDecl) : Emit Unit := do
  let written ← choiceUnderlying view d.underlying
  let numbers ← d.variants.mapM (writtenNumber view (written.map (·.1)))
  let names := d.variants.map ChoiceVariantDecl.name
  checkUnique "Variant" names
  let values := numberVariants numbers
  match firstDuplicate? (values.zip names) with
  | some ((_, first), (value, second)) =>
    refuse (.sameValue first.text second.text d.name.text value first.range) second.range
  | none =>
    let underlying ← numberType written d.variants values
    let default ← choiceDefault d
    let variants := (names.zip values).map fun (name, value) => (⟨name, value⟩ : ChoiceVariant)
    let fullName ← fullNameOf view.module d.name
    let vis ← visibilityOf d.vis view.module none
    defineType id (·.addChoice ⟨d.name, fullName, view.module, vis, variants, underlying, default⟩)

/-! ## Type definitions -/

def typeDefinition (view : Viewpoint) (id : EntityId) (d : TypeDecl) : Emit Unit := do
  setSymbol id (.type (← resolveType view d.type))

/-- The second phase of a type definition only waits for its type to be complete. -/
def checkTypeDefinition (id : EntityId) (d : TypeDecl) : Emit Unit := do
  let _ ← typeSymbol id d.name.range

end Emit

end Staged
