/-
  Staged.Known.Shape — parts of known values, and rules that evaluation shares with
  lowering.

  Two operands fit an operator when they have one type, or integer types of one width
  and sign; in bitwise operations a choice also fits its underlying type. A literal has
  the type of its suffix, else a numeric type that its place asks for, else a 32-bit
  integer. Named initializers give each field once (`StructDef.fieldOrder`).
-/

import Staged.Fault
import Staged.Number.Integer

namespace Staged

/-- The bytes of a text. -/
def textBytes (s : String) : List UInt8 := s.toUTF8.toList

/-- The item of a list at a constant position. -/
def itemAt? {α : Type} (items : List α) (i : Int) : Option α :=
  if 0 ≤ i then items[i.toNat]? else none

/-- An element of a known array or a byte of a known text. -/
def Constant.index (c : Constant) (i : Int) : Except Fault Constant :=
  match c.data, c.type with
  | .array items, .array element _ => match itemAt? items i with
    | some item => .ok ⟨item, element⟩
    | none => .error (.indexOutOfLength i items.length)
  | .str s, _ => match itemAt? (textBytes s) i with
    | some byte => .ok (.int .u8 byte.toNat)
    | none => .error (.indexOutOfLength i (textBytes s).length)
  | _, _ => .error (.notPrerun .indexing)

namespace TypeTable

variable (t : TypeTable)

/-! ## Operands -/

/-- Whether one of two types is a choice over the other. -/
def isUnderlying (l r : Ty) : Bool :=
  (t.choiceOf? l).any (·.underlying == r) || (t.choiceOf? r).any (·.underlying == l)

def checkOperands (op : BinaryOp) (l r : Ty) : Except Fault Unit :=
  let otherwise : Except Fault Unit :=
    if op.isBitwise && t.isUnderlying l r then .ok () else .error (.operands op l r)
  if l = r then .ok ()
  else match t.intInfo? l, t.intInfo? r with
    | some a, some b =>
      if a.bits ≠ b.bits then .error (.bitwidths op l a.bits r b.bits)
      else if a = b then .ok ()
      else otherwise
    | _, _ => otherwise

/-! ## Literals -/

/-- The type of an integer literal without a suffix. -/
def inferredInt (expected : Option Ty) : Ty :=
  match expected.map Ty.value with
  | some ty => if t.isNumeric ty then ty else .i32
  | none => .i32

/-- The type of a floating-point literal without a suffix. -/
def inferredFloat (expected : Option Ty) : Ty :=
  match expected.map Ty.value with
  | some ty => if (t.floatKind? ty).isSome then ty else .f64
  | none => .f64

/-- The value of an integer literal at a numeric type. -/
def intLiteral (value : Nat) (negative : Bool) (ty : Ty) : Except Fault Constant :=
  let tooLarge : Except Fault Constant := .error (.literalTooLarge negative value ty)
  if (t.floatKind? ty).isSome then
    let f := Binary64.ofNat value
    .ok ⟨.float (if negative then f.neg else f), ty⟩
  else if wideMax < (value : Int) then tooLarge
  else
    let raw : Int := if negative then -(value : Int) else value
    match t.intInfo? ty with
    | some info => if info.fits raw then .ok (.int ty raw) else tooLarge
    | none => tooLarge

/-! ## Parts -/

/-- A member of a known value. -/
def knownMember (c : Constant) (name : String) : Except Fault Constant :=
  let missing : Except Fault Constant := .error (.knownNoMember c.type name)
  match c.data with
  | .array items => if name = "length" then .ok (.int .usize items.length) else missing
  | .str s => if name = "length" then .ok (.int .usize s.utf8ByteSize) else missing
  | .struct items => match (t.structOf? c.type).bind (·.field? name) with
    | some (i, field) => match items[i]? with
      | some d => .ok ⟨d, field.type⟩
      | none => missing
    | none => missing
  | _ => missing

/-- A variant of a choice or a mix, with the payload it is given. -/
def knownVariant (ty : Ty) (variant : String) (payload : Option Constant) :
    Except Fault Constant :=
  match t.choiceOf? ty, t.mixOf? ty with
  | some d, _ =>
    if payload.isSome then .error (.choiceCarries ty)
    else match d.variant? variant with
      | some (_, v) => .ok (.int ty v.value)
      | none => .error (.noVariant ty variant)
  | none, some d => match d.variant? variant with
    | none => .error (.noVariant ty variant)
    | some (i, v) => match v.payload, payload with
      | none, none => .ok ⟨.mix i none, ty⟩
      | some expected, some given =>
        if given.type = expected then .ok ⟨.mix i (some given.data), ty⟩
        else .error (.mismatch expected given.type)
      | some expected, none => .error (.variantNeeds variant ty expected)
      | none, some _ => .error (.variantCarries variant ty)
  | none, none => .error (.noVariant ty variant)

end TypeTable

/-! ## Named initializers -/

/-- The position of each named field, after the names before it. -/
def StructDef.namedOrder (d : StructDef) (ty : Ty) :
    List Ident → List Ident → Except (Fault × Span) (List Nat)
  | _, [] => .ok []
  | before, name :: rest => do
    match d.field? name.text with
    | none => .error (.noField ty name.text, name.range)
    | some (i, _) => match before.find? (·.text == name.text) with
      | some first => .error (.fieldTwice name.text first.range, name.range)
      | none => .ok (i :: (← d.namedOrder ty (before ++ [name]) rest))

/-- The field that each value of an initializer is for. -/
def StructDef.fieldOrder (d : StructDef) (ty : Ty) (names : Option (List Ident)) (count : Nat)
    (range : Span) : Except (Fault × Span) (List Nat) :=
  match names with
  | none =>
    if count ≠ d.fields.length then .error (.fieldCount ty d.fields.length count, range)
    else .ok (List.range count)
  | some names => do
    let order ← d.namedOrder ty [] names
    match d.fields.zipIdx.find? (!order.contains ·.2) with
    | some (missing, _) => .error (.fieldMissing missing.name.text ty, range)
    | none => .ok order

end Staged
