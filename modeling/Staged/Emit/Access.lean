/-
  Staged.Emit.Access — members and elements.

  A part of a known value is known. A part of a value in memory is a place, variable only
  if both the whole and the part are; a part of a temporary slot is one too. Arrays,
  strings and slices have a length. Positions that are known are checked.
-/

import Staged.Emit.Call

namespace Staged.Emit

/-- Where a part of a place lives. -/
def partStorage (whole : Storage) : Storage :=
  if whole = .tempSlot then .tempSlot else .pointee

/-- The part of an aggregate at a position. -/
def memberAt (whole : Value) (aggregateType : Ty) (index : Nat) (type : Ty) (isVar : Bool)
    (range : Span) : Emit Value := do
  match (whole.fixed?.bind (·.data.parts?)).bind (·[index]?) with
  | some d => constant ⟨d, type⟩ range
  | none => match ← place? whole with
    | some p =>
      let isVar := p.isVar && isVar
      let r ← compute (← intern (.markTo type isVar)) (.fieldPtr · p.ir aggregateType index)
      return .stored r type isVar (partStorage p.storage) range
    | none =>
      let r ← compute type (.extract · whole.ir index)
      return .temporary r type range

/-- A decimal number below `2 ^ 64`, with an optional plus sign. -/
def parseIndex? (s : String) : Option Nat :=
  let digits := match s.toList with
    | '+' :: rest => rest
    | all => all
  if digits.isEmpty || !digits.all Char.isDigit then none
  else
    let n := digits.foldl (fun n c => n * 10 + (c.toNat - '0'.toNat)) 0
    if n < Nat.pow 2 64 then some n else none

/-- The length of a string value. -/
def stringLength (v : Value) (range : Span) : Emit Value := do
  let v ← rvalue v
  match v.known.bind Constant.asStr? with
  | some s => constant (.int .usize s.utf8ByteSize) range
  | none => return .temporary (← stringParts v.ir).2 .usize range

def lowerMember (view : Viewpoint) (whole : Value) (name : Ident) (range : Span) :
    Emit Value := do
  let ty := whole.type.value
  let missing := Fault.noMember ty name.text
  match ty, name.text with
  | .array _ length, "length" => constant (.int .usize length) range
  | .str, "length" => stringLength whole range
  | .mark _ _ _ true _, "length" =>
    let v ← rvalue whole
    return .temporary (← compute .usize (.extract · v.ir 1)) .usize range
  | .struct id, _ =>
    let (index, field) ← require (((← types).structs[id]?).bind (·.field? name.text)) missing
      name.range
    unless ← isAccessible view field.vis do
      refuse (.fieldHiddenAs name.text ty field.vis) name.range
    memberAt whole ty index field.type field.isVar range
  | .tuple members _, _ =>
    let index ← require (parseIndex? name.text) missing name.range
    let type ← require members[index]? missing name.range
    memberAt whole ty index type true range
  | _, _ => refuse missing name.range

/-! ## Elements -/

/-- A member of a tuple at a position that has to be known. -/
def tupleMember (view : Viewpoint) (whole : Value) (type : Ty) (members : List Ty)
    (position : Expr) (range : Span) : Emit Value := do
  let c ← evaluate view position (some .usize)
  let found := c.asInt?.bind fun i => (itemAt? members i).map (i.toNat, ·)
  let (index, member) ← require found
    (.tupleIndex (c.data.text (← types)) members.length) position.range
  memberAt whole type index member true range

/-- An element of an array. -/
def arrayElement (whole : Value) (element : Ty) (length : Nat) (position : Value)
    (positionRange range : Span) : Emit Value := do
  let at? := position.known.bind Constant.asInt?
  if let some i := at? then
    if i < 0 ∨ i ≥ length then refuse (.arrayIndex i length) positionRange
  let item? := at?.bind fun i => (whole.fixed?.bind (·.data.items?)).bind (itemAt? · i)
  match item? with
  | some d => constant ⟨d, element⟩ range
  | none =>
    let p ← place whole
    let ptr ← elementPtr p.ir element p.isVar position.ir
    return .stored ptr element p.isVar (partStorage p.storage) range

/-- A byte of a string. -/
def stringElement (whole position : Value) (positionRange range : Span) : Emit Value := do
  let v ← rvalue whole
  match v.known.bind Constant.asStr?, position.known.bind Constant.asInt? with
  | some s, some i =>
    let bytes := textBytes s
    let byte ← require (itemAt? bytes i) (.stringIndex i bytes.length) positionRange
    constant (.int .u8 byte.toNat) range
  | _, _ =>
    let (data, _) ← stringParts v.ir
    let ptr ← elementPtr data .u8 false position.ir
    return .temporary (← load ptr .u8) .u8 range

def elementOf (whole : Value) (position : Value) (wholeRange positionRange range : Span) :
    Emit Value := do
  match whole.type.value with
  | .array element length => arrayElement whole element length position positionRange range
  | .vector element _ _ =>
    let p ← place whole
    let ptr ← elementPtr p.ir element p.isVar position.ir
    return .stored ptr element p.isVar .pointee range
  | .mark sub _ _ slice isVar =>
    let pointer ← rvalue whole
    let data ← if slice then (return Ir.Value.reg (← sliceData pointer.ir sub isVar))
      else pure pointer.ir
    let ptr ← elementPtr data sub isVar position.ir
    return .stored ptr sub isVar .pointee range
  | .str => stringElement whole position positionRange range
  | .native .cstring =>
    let pointer ← rvalue whole
    let ptr ← elementPtr pointer.ir .u8 false position.ir
    return .temporary (← load ptr .u8) .u8 range
  | ty => refuse (.notIndexable ty) wholeRange

def lowerIndex (view : Viewpoint) (base position : Operand) (range : Span) : Emit Value := do
  let whole ← base.lower .nothing
  match whole.type.value with
  | .tuple members packed =>
    tupleMember view whole (.tuple members packed) members position.expr range
  | _ =>
    let at_ ← position.rvalue (.of .usize)
    unless (← types).isIntegral at_.type do mismatch .usize at_.type position.range
    elementOf whole at_ base.range position.range range

end Staged.Emit
