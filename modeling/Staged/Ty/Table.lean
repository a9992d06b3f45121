/-
  Staged.Ty.Table — every type that has been used, in the order of first use, and the
  definitions behind nominal types.

  A type's number is its position in that order; numbers show in emitted code when it
  is printed without names. Eight types are there from the start. Members of a type are
  its own, if it is a struct, followed by those of every implementation for it in the
  order they were added.
-/

import Staged.Ty.Definition

namespace Staged

/-- Width and sign of an integer type. -/
structure IntInfo where
  bits : Nat
  signed : Bool
  deriving DecidableEq, Repr

structure TypeTable where
  types : Array Ty
  structs : Array StructDef
  mixes : Array MixDef
  choices : Array ChoiceDef
  skills : Array SkillDef
  done : Array DoneSkill
  pointerWidth : Nat
  deriving Repr, Inhabited

namespace TypeTable

/-- Types that have a number before anything is declared. -/
def builtin : List Ty :=
  [.void, .bool, .char, .str, Ty.usize, Ty.i32, Ty.u8, Ty.f64]

def ofPointerWidth (width : Nat) : TypeTable :=
  ⟨builtin.toArray, #[], #[], #[], #[], #[], width⟩

/-! ## Numbering -/

def contains (t : TypeTable) (ty : Ty) : Bool := t.types.any (· == ty)

/-- Give a type the next number, unless it has one. -/
def intern (t : TypeTable) (ty : Ty) : TypeTable :=
  if t.contains ty then t else { t with types := t.types.push ty }

def number? (t : TypeTable) (ty : Ty) : Option Nat := t.types.findIdx? (· == ty)

/-- The name of a type by its number alone. -/
def label (t : TypeTable) (ty : Ty) : String :=
  s!"type{(t.number? ty).getD t.types.size}"

/-! ## Definitions -/

def addStruct (t : TypeTable) (d : StructDef) : TypeTable × Ty :=
  let ty := Ty.struct t.structs.size
  ({ t with structs := t.structs.push d }.intern ty, ty)

def addMix (t : TypeTable) (d : MixDef) : TypeTable × Ty :=
  let ty := Ty.mix t.mixes.size
  ({ t with mixes := t.mixes.push d }.intern ty, ty)

def addChoice (t : TypeTable) (d : ChoiceDef) : TypeTable × Ty :=
  let ty := Ty.choice t.choices.size
  ({ t with choices := t.choices.push d }.intern ty, ty)

def addSkill (t : TypeTable) (d : SkillDef) : TypeTable × SkillId :=
  ({ t with skills := t.skills.push d }, t.skills.size)

def addDone (t : TypeTable) (d : DoneSkill) : TypeTable × DoneSkillId :=
  ({ t with done := t.done.push d }, t.done.size)

def modifyStruct (t : TypeTable) (id : Nat) (f : StructDef → StructDef) : TypeTable :=
  { t with structs := t.structs.modify id f }

def modifyMix (t : TypeTable) (id : Nat) (f : MixDef → MixDef) : TypeTable :=
  { t with mixes := t.mixes.modify id f }

/-- What is known of a struct's fields from now on. -/
def setFields (t : TypeTable) (ty : Ty) (fields : Option (List FieldDef)) : TypeTable :=
  match ty with
  | .struct id => t.modifyStruct id fun d => { d with fields? := fields }
  | _ => t

/-- What is known of a mix's variants from now on. -/
def setVariants (t : TypeTable) (ty : Ty) (variants : Option (List MixVariant)) : TypeTable :=
  match ty with
  | .mix id => t.modifyMix id fun d => { d with variants? := variants }
  | _ => t

def modifyDone (t : TypeTable) (id : Nat) (f : DoneSkill → DoneSkill) : TypeTable :=
  { t with done := t.done.modify id f }

def structOf? (t : TypeTable) : Ty → Option StructDef
  | .struct id => t.structs[id]?
  | _ => none

def mixOf? (t : TypeTable) : Ty → Option MixDef
  | .mix id => t.mixes[id]?
  | _ => none

def choiceOf? (t : TypeTable) : Ty → Option ChoiceDef
  | .choice id => t.choices[id]?
  | _ => none

/-- The nominal type of a full name: structs before mixes before choices. -/
def findNamed? (t : TypeTable) (fullName : String) : Option Ty :=
  ((t.structs.findIdx? (·.fullName == fullName)).map Ty.struct <|>
    (t.mixes.findIdx? (·.fullName == fullName)).map Ty.mix <|>
    (t.choices.findIdx? (·.fullName == fullName)).map Ty.choice)

/-- More than the number of definitions a chain of distinct nominal types can pass. -/
def depth (t : TypeTable) : Nat := t.structs.size + t.mixes.size + t.choices.size + 1

/-! ## Members -/

def doneFor (t : TypeTable) (ty : Ty) : List DoneSkill :=
  t.done.toList.filter (·.target == ty)

def membersOf (t : TypeTable) (ty : Ty) : List MemberFunction :=
  ((t.structOf? ty).map StructDef.members).getD [] ++ (t.doneFor ty).flatMap DoneSkill.members

def member? (t : TypeTable) (ty : Ty) (kind : MemberKind) : Option MemberFunction :=
  (t.membersOf ty).find? (·.kind == kind)

def hasMember (t : TypeTable) (ty : Ty) (kind : MemberKind) : Bool :=
  (t.membersOf ty).any (·.kind == kind)

/-! ## Numbers -/

def intInfo? (t : TypeTable) : Ty → Option IntInfo
  | .int bits => some ⟨bits, true⟩
  | .uint bits => some ⟨bits, false⟩
  | .native kind => match kind.repr t.pointerWidth with
    | .signed bits => some ⟨bits, true⟩
    | .unsigned bits => some ⟨bits, false⟩
    | _ => none
  | _ => none

def floatKind? (t : TypeTable) : Ty → Option FloatKind
  | .float kind => some kind
  | .native kind => match kind.repr t.pointerWidth with
    | .float kind => some kind
    | _ => none
  | _ => none

def isIntegral (t : TypeTable) (ty : Ty) : Bool := (t.intInfo? ty).isSome

def isNumeric (t : TypeTable) (ty : Ty) : Bool :=
  (t.intInfo? ty).isSome || (t.floatKind? ty).isSome

/-- The integer type behind a choice, a character or an integer. -/
def ordinal? (t : TypeTable) (ty : Ty) : Option IntInfo :=
  match ty with
  | .choice _ => (t.choiceOf? ty).bind fun d => t.intInfo? d.underlying
  | .char => some ⟨32, false⟩
  | _ => t.intInfo? ty

/-- As `ordinal?`, with booleans as one-bit numbers. -/
def machineInt? (t : TypeTable) (ty : Ty) : Option IntInfo :=
  match ty with
  | .bool => some ⟨1, false⟩
  | _ => t.ordinal? ty

def scalarWidth? (t : TypeTable) (ty : Ty) : Option Nat :=
  match ty with
  | .bool => some 1
  | .char => some 32
  | .float kind => some kind.bitwidth
  | .native .cstring => some t.pointerWidth
  | _ => ((t.intInfo? ty).map IntInfo.bits).or ((t.floatKind? ty).map FloatKind.bitwidth)

/-- Bits of a scalar value, through a bounded chain of choices. -/
def bitwidthWithin? (t : TypeTable) : Nat → Ty → Option Nat
  | 0, _ => none
  | fuel + 1, ty => match t.choiceOf? ty with
    | some d => t.bitwidthWithin? fuel d.underlying
    | none => t.scalarWidth? ty

/-- Bits of a scalar value; a choice has those of its underlying type. -/
def bitwidth? (t : TypeTable) (ty : Ty) : Option Nat := t.bitwidthWithin? t.depth ty

/-! ## Names -/

mutual

/-- The name of a type as the language writes it. -/
def name (t : TypeTable) : Ty → String
  | .int bits => s!"i{bits}"
  | .uint bits => s!"u{bits}"
  | .float kind => kind.name
  | .char => "char"
  | .bool => "bool"
  | .void => "void"
  | .str => "str"
  | .mark sub owner nullable slice isVar =>
    (if slice then "multi:[" else "mark:[") ++ (if isVar then "var " else "") ++ t.name sub ++
      t.ownerName owner ++ "]" ++ (if nullable then "?" else "")
  | .ref sub isVar => "ref:[" ++ (if isVar then "var " else "") ++ t.name sub ++ "]"
  | .array element length => t.name element ++ s!"[{length}]"
  | .vector element count scalable =>
    "vec:[" ++ (if scalable then "?" else "") ++ s!"{count}, " ++ t.name element ++ "]"
  | .tuple members packed =>
    (if packed then "pack:" else "") ++ "(" ++ ", ".intercalate (t.names members) ++ ")"
  | .struct id => ((t.structs[id]?).map StructDef.fullName).getD ""
  | .mix id => ((t.mixes[id]?).map MixDef.fullName).getD ""
  | .choice id => ((t.choices[id]?).map ChoiceDef.fullName).getD ""
  | .function result args variadic =>
    "fn(" ++ ", ".intercalate (t.names args ++ if variadic then ["..."] else []) ++ ") -> " ++
      t.name result
  | .future sub packed => "future:[" ++ (if packed then "pack, " else "") ++ t.name sub ++ "]"
  | .maybe sub => "maybe:[" ++ t.name sub ++ "]"
  | .typed sub => "type:[" ++ t.name sub ++ "]"
  | .native kind => kind.name

def ownerName (t : TypeTable) : Owner Ty → String
  | .anonymous => ""
  | .heap => ", heap"
  | .type owner => ", type(" ++ t.name owner ++ ")"

def names (t : TypeTable) : List Ty → List String
  | [] => []
  | ty :: tys => t.name ty :: t.names tys

end

end TypeTable

end Staged
