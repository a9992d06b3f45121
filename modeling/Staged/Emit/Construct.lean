/-
  Staged.Emit.Construct — new values of nominal types.

  A constructor or a convertor of one argument builds a value in memory; convertors are
  tried first, and the first candidate that accepts all arguments is taken. When there is
  only one candidate, its parameter types guide the arguments. Plain initializers and
  variants whose parts are all known are constants, if their type allows it.
-/

import Staged.Emit.Call

namespace Staged.Emit

def constructorHidden {α : Type} (m : MemberFunction) (ty : Ty) (range : Span) : Emit α :=
  refuse (.constructorHidden m.kind ty m.vis) range

/-! ## Defaults -/

/-- Whether zeroed memory will do as a value, when nothing else does. -/
def isZeroable (t : TypeTable) (ty : Ty) : Bool :=
  (t.structOf? ty).isSome && t.isSized ty && !t.hasMember ty .constructor &&
    !t.hasMember ty .fromConvertor

def lowerDefault (view : Viewpoint) (ty : Ty) (expect : Expect) (range : Span) :
    Emit Value := do
  match (← types).member? ty .defaultConstructor with
  | some m =>
    unless ← isAccessible view m.vis do constructorHidden m ty range
    let slot ← targetSlot ty expect range
    let _ ← callMember m (some slot.ir) [] range
    return slot
  | none => match (← types).default ty with
    | .ok c => constant c range
    | .error f =>
      unless isZeroable (← types) ty do refuse f range
      let slot ← targetSlot ty expect range
      store (Ir.Const.zero ty) slot.ir
      return slot

/-! ## Constructors -/

/-- Members that build a value from that many arguments, convertors first. -/
def constructors (t : TypeTable) (ty : Ty) (count : Nat) : List MemberFunction :=
  let fit := (t.membersOf ty).filter (·.args.length == count)
  fit.filter (fun m => m.kind == .fromConvertor && count == 1) ++
    fit.filter (·.kind == .constructor)

/-- Lower arguments under the hints at their positions. -/
def lowerHinted : List Operand → List (Option Ty) → Emit (List Value)
  | a :: args, hint :: hints => return (← a.lower (.maybe hint)) :: (← lowerHinted args hints)
  | _, _ => return []

/-- Whether a member takes all the values. -/
def acceptsAll (m : MemberFunction) (vs : List Value) : Bool :=
  (m.argTypes.zip vs).all fun (ty, v) => accepts ty v

/-- Hand on each value to the parameter at its position. -/
def passEach : List Value → List Ty → Emit (List Ir.Value)
  | v :: vs, ty :: tys => return (← passValue v ty v.range) :: (← passEach vs tys)
  | _, _ => return []

/-- Build a value from arguments when no member does. -/
def constructPlainly (ty : Ty) (args : List Operand) (range : Span) : Emit Value := do
  let missing {α : Type} : Emit α := refuse (.noConstructor ty args.length) range
  match args, (← types).structOf? ty with
  | [only], none =>
    let v ← only.lower (.of ty)
    if v.type.value = ty then rvalue v else missing
  | _, _ => missing

def construct (view : Viewpoint) (type : Ty) (args : List Operand) (expect : Expect)
    (range : Span) : Emit Value := do
  let ty := type.value
  if args.isEmpty then lowerDefault view ty expect range
  else
    match constructors (← types) ty args.length with
    | [] => constructPlainly ty args range
    | first :: others =>
      let hints := if others.isEmpty then first.argTypes.map (some ·.value)
        else List.replicate args.length none
      let vs ← lowerHinted args hints
      let m ← require ((first :: others).find? (acceptsAll · vs))
        (.noConstructorFor ty (vs.map Value.type) first.range) range
      unless ← isAccessible view m.vis do constructorHidden m ty range
      let operands ← passEach vs m.argTypes
      let slot ← targetSlot ty expect range
      let _ ← callMember m (some slot.ir) operands range
      return slot

/-! ## Plain initializers -/

/-- Lower the values of fields, each with the position and type of its field. -/
def lowerFields (fieldTypes : List Ty) : List Operand → List Nat → Emit (List (Nat × Ty × Value))
  | o :: os, i :: order => do
    let ty := fieldTypes[i]?.getD .void
    let v ← o.lower (.of ty)
    if v.type.value ≠ ty then mismatch ty v.type o.range
    return (i, ty, v) :: (← lowerFields fieldTypes os order)
  | _, _ => return []

/-- Store the values of fields. -/
def storeFields (slot : Ir.Value) (type : Ty) : List (Nat × Ty × Value) → Emit Unit
  | [] => return
  | (i, ty, v) :: rest => do
    let operand ← passValue v ty v.range
    let ptr ← fieldPtr slot type i ty
    store operand ptr
    storeFields slot type rest

/-- The fields as constants, if every one has a value that is known. -/
def knownFields? (count : Nat) (fields : List (Nat × Ty × Value)) : Option (List Data) := do
  let known ← fields.mapM fun (i, _, v) => v.fixed?.map fun c => (i, c.data)
  placed count known

def lowerPlain (view : Viewpoint) (type : Ty) (names : Option (List Ident))
    (values : List Operand) (expect : Expect) (range : Span) : Emit Value := do
  let ty := type.value
  let order ← fieldOrder view ty names values.length range
  let fieldTypes := (((← types).structOf? ty).map StructDef.fieldTypes).getD []
  let fields ← lowerFields fieldTypes values order
  let known := if (← types).canBePrerun ty then knownFields? fieldTypes.length fields else none
  match known with
  | some items => constant ⟨.struct items, ty⟩ range
  | none =>
    let slot ← targetSlot ty expect range
    storeFields slot.ir ty fields
    return slot

/-! ## Variants -/

/-- A variant without a payload. -/
def bareVariant (ty : Ty) (variant : Ident) (range : Span) : Emit Value := do
  let c ← orRefuse ((← types).knownVariant ty variant.text none) variant.range
  constant c range

def lowerVariant (type : Ty) (variant : Ident) (value : Option Operand)
    (expect : Expect) (range : Span) : Emit Value := do
  let ty := type.value
  match (← types).mixOf? ty with
  | none =>
    if ((← types).choiceOf? ty).isNone then
      refuse (.noVariants ty variant.text) variant.range
    if let some o := value then refuse (.choiceCarries ty) o.range
    bareVariant ty variant range
  | some d =>
    let (index, v) ← require (d.variant? variant.text) (.noVariant ty variant.text) variant.range
    match v.payload, value with
    | _, none => bareVariant ty variant range
    | none, some o => refuse (.variantCarries variant.text ty) o.range
    | some payloadType, some o =>
      let payload ← o.lower (.of payloadType)
      if payload.type.value ≠ payloadType then mismatch payloadType payload.type o.range
      let known := if (← types).canBePrerun ty then payload.fixed? else none
      match known with
      | some c => constant (← orRefuse ((← types).knownVariant ty variant.text (some c))
          variant.range) range
      | none =>
        let operand ← passValue payload payloadType o.range
        let slot ← targetSlot ty expect range
        let tag ← intern (.uint d.tagBits)
        let tagPtr ← fieldPtr slot.ir ty 0 tag
        store (Ir.Const.int tag index) tagPtr
        let payloadPtr ← fieldPtr slot.ir ty 1 payloadType
        store operand payloadPtr
        return slot

end Staged.Emit
