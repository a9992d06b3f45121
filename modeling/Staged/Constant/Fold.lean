/-
  Staged.Constant.Fold — operators and casts on known values.

  Integers are computed in 128-bit words and wrapped to the width of the left operand's
  type. A bitwise operation on a choice gives its underlying integer. Division by zero
  and shifts by the width or more are refused. Numbers of the narrow formats are rounded
  to single precision. Casts to a choice accept only the values of its variants.
-/

import Staged.Constant.Basic
import Staged.Number.Integer

namespace Staged

inductive FoldError where
  | divisionByZero
  | shiftOutOfRange (amount : Int) (bits : Nat)
  | unsupported (op : String) (type : Ty)
  | invalidCast (source target : Ty)
  deriving Repr

namespace FoldError

def message (t : TypeTable) : FoldError → String
  | divisionByZero => "Division by zero in a compile-time expression"
  | shiftOutOfRange amount bits =>
    s!"Shift by {amount} is out of range for a value of {bits} bits"
  | unsupported op ty =>
    s!"Operator `{op}` is not supported for compile-time values of type `{t.name ty}`"
  | invalidCast source target =>
    s!"Compile-time value of type `{t.name source}` cannot be converted to `{t.name target}`"

end FoldError

/-- Decide a comparison from its two strict orders; both fail when the values are
unordered, and then the values are unequal too. -/
def BinaryOp.compare? (op : BinaryOp) (eq lt le gt ge : Bool) : Option Bool :=
  match op with
  | .eq => some eq
  | .ne => some !eq
  | .lt => some lt
  | .le => some le
  | .gt => some gt
  | .ge => some ge
  | _ => none

def compareInt? (op : BinaryOp) (a b : Int) : Option Bool :=
  op.compare? (a == b) (a < b) (a ≤ b) (a > b) (a ≥ b)

def compareFloat? (op : BinaryOp) (a b : Binary64) : Option Bool :=
  op.compare? (a.eq b) (a.lt b) (a.le b) (b.lt a) (b.le a)

namespace TypeTable

variable (t : TypeTable)

/-! ## Binary operators -/

/-- The exact result of an integer operation as a 128-bit word, before it is wrapped to
its type. -/
def rawInt (op : BinaryOp) (type : Ty) (info : IntInfo) (a b : Int) : Except FoldError Int :=
  match op with
  | .add => .ok (wide (a + b))
  | .sub => .ok (wide (a - b))
  | .mul => .ok (wide (a * b))
  | .div => if b = 0 then .error .divisionByZero else .ok (wide (a.tdiv b))
  | .rem => if b = 0 then .error .divisionByZero else .ok (wide (a.tmod b))
  | .bitAnd => .ok (bitwise (· &&& ·) a b)
  | .bitOr => .ok (bitwise (· ||| ·) a b)
  | .bitXor => .ok (bitwise (· ^^^ ·) a b)
  | .shl =>
    if b < 0 ∨ b ≥ info.bits then .error (.shiftOutOfRange b info.bits)
    else .ok (wide (a * Int.pow 2 (b.toNat % 128)))
  | .shr =>
    if b < 0 ∨ b ≥ info.bits then .error (.shiftOutOfRange b info.bits)
    else .ok (a.fdiv (Int.pow 2 (b.toNat % 128)))
  | _ => .error (.unsupported op.symbol type)

/-- The type a computation with a value of this type gives. -/
def computedType (type : Ty) : Ty :=
  match t.choiceOf? type with
  | some d => d.underlying
  | none => type

def foldInt (op : BinaryOp) (type : Ty) (a b : Int) : Except FoldError Constant :=
  match compareInt? op a b with
  | some r => .ok (.bool r)
  | none => match t.ordinal? type with
    | none => .error (.unsupported op.symbol type)
    | some info => do
      let raw ← rawInt op type info a b
      .ok (.int (t.computedType type) (info.wrap raw))

/-- Round to the precision in which a format is computed. -/
def roundTo (kind : Option FloatKind) (x : Binary64) : Binary64 :=
  match kind with
  | some .f32 | some .half | some .brain => x.toSingle
  | _ => x

def foldFloat (op : BinaryOp) (type : Ty) (a b : Binary64) : Except FoldError Constant :=
  let rounded (x : Binary64) : Except FoldError Constant :=
    .ok ⟨.float (roundTo (t.floatKind? type) x), type⟩
  match compareFloat? op a b with
  | some r => .ok (.bool r)
  | none => match op with
    | .add => rounded (a.add b)
    | .sub => rounded (a.sub b)
    | .mul => rounded (a.mul b)
    | .div => rounded (a.div b)
    | .rem => rounded (a.remainder b)
    | _ => .error (.unsupported op.symbol type)

def foldBool (op : BinaryOp) (type : Ty) (a b : Bool) : Except FoldError Constant :=
  match op with
  | .eq => .ok (.bool (a == b))
  | .ne | .bitXor => .ok (.bool (a != b))
  | .and | .bitAnd => .ok (.bool (a && b))
  | .or | .bitOr => .ok (.bool (a || b))
  | _ => .error (.unsupported op.symbol type)

/-- Equality and nothing else. -/
def foldEquality (op : BinaryOp) (type : Ty) (equal : Bool) : Except FoldError Constant :=
  match op with
  | .eq => .ok (.bool equal)
  | .ne => .ok (.bool !equal)
  | _ => .error (.unsupported op.symbol type)

def foldBinary (op : BinaryOp) (l r : Constant) : Except FoldError Constant :=
  match l.data, r.data with
  | .int a, .int b => t.foldInt op l.type a b
  | .float a, .float b => t.foldFloat op l.type a b
  | .bool a, .bool b => foldBool op l.type a b
  | .char a, .char b => match compareInt? op a.toNat b.toNat with
    | some r => .ok (.bool r)
    | none => .error (.unsupported op.symbol l.type)
  | .str a, .str b => foldEquality op l.type (a == b)
  | .type a, .type b => foldEquality op l.type (a == b)
  | a, b =>
    if l.type = r.type then foldEquality op l.type (a.same b)
    else .error (.unsupported op.symbol l.type)

/-! ## Unary operators -/

def foldUnary (op : UnaryOp) (v : Constant) : Except FoldError Constant :=
  match v.data, op with
  | .int a, .negate => match t.intInfo? v.type with
    | some info => .ok (.int v.type (info.wrap (wide (-a))))
    | none => .error (.unsupported op.symbol v.type)
  | .int a, .bitNot => match t.intInfo? v.type with
    | some info => .ok (.int v.type (info.wrap (-a - 1)))
    | none => .error (.unsupported op.symbol v.type)
  | .float a, .negate => .ok ⟨.float a.neg, v.type⟩
  | .bool b, .not => .ok ⟨.bool !b, v.type⟩
  | _, _ => .error (.unsupported op.symbol v.type)

/-! ## Casts -/

/-- The character with that code point. -/
def charOf? (v : Int) : Option Char :=
  if 0 ≤ v ∧ v < 0xd800 ∨ 0xdfff < v ∧ v < 0x110000 then some (Char.ofNat v.toNat) else none

def castToInt? (info : IntInfo) : Data → Option Int
  | .int v => some (info.wrap v)
  | .bool b => some (info.wrap b.toNat)
  | .char c => some (info.wrap c.toNat)
  | .float f => some (info.wrap (f.truncate wideMin wideMax))
  | _ => none

def castToFloat? (kind : FloatKind) : Data → Option Binary64
  | .int v => some (roundTo (some kind) (.ofInt v))
  | .float f => some (roundTo (some kind) f)
  | _ => none

/-- The value after a cast, where there is one. -/
def castData? (v : Constant) (target : Ty) : Option Data :=
  match t.choiceOf? target with
  | some d => match v.asInt? with
    | some raw => if d.variants.any (·.value == raw) then some (.int raw) else none
    | none => none
  | none => match t.intInfo? target with
    | some info => (castToInt? info v.data).map .int
    | none => match t.floatKind? target with
      | some kind => (castToFloat? kind v.data).map .float
      | none => match target, v.data with
        | .char, .int a => (charOf? a).map .char
        | .bool, .int a => if (t.choiceOf? v.type).isNone then some (.bool (a != 0)) else none
        | _, _ => none

def foldCast (v : Constant) (target : Ty) : Except FoldError Constant :=
  if v.type = target then .ok v
  else match t.castData? v target with
    | some data => .ok ⟨data, target⟩
    | none => .error (.invalidCast v.type target)

end TypeTable

end Staged
