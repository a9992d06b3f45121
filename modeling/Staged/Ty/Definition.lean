/-
  Staged.Ty.Definition — what is known of nominal types and of members.

  A struct exists before its fields are known, and a mix before its variants; both are
  filled in once. Members belong to a type, are lowered to a function and are told
  apart by kind, name and argument types. A member other than a static function takes
  the instance as its first parameter, which it may change exactly when it is a
  variation.
-/

import Staged.Source.Decl
import Staged.Module.Visibility

namespace Staged

abbrev FunctionId := Nat
abbrev SkillId := Nat
abbrev DoneSkillId := Nat

structure FieldDef where
  name : Ident
  type : Ty
  isVar : Bool
  vis : Visibility
  deriving Repr

inductive MemberKind where
  | method
  | variationMethod
  | static
  | defaultConstructor
  | constructor
  | fromConvertor
  | toConvertor
  | binary (op : BinaryOp) (variation : Bool)
  | unary (op : UnaryOp)
  | copyConstructor
  | moveConstructor
  | copyAssignment
  | moveAssignment
  | destructor
  deriving DecidableEq, Repr

namespace MemberKind

def hasSelf : MemberKind → Bool
  | static => false
  | _ => true

/-- Whether the member may change its instance. -/
def isVariation : MemberKind → Bool
  | method | static | toConvertor | unary _ => false
  | binary _ variation => variation
  | _ => true

/-- Whether arguments may initialise fields directly. -/
def allowsMemberArgs : MemberKind → Bool
  | variationMethod | constructor | fromConvertor | binary _ true => true
  | _ => false

def describe : MemberKind → String
  | method => "method"
  | variationMethod => "variation method"
  | static => "static function"
  | defaultConstructor => "default constructor"
  | constructor => "constructor"
  | fromConvertor => "from convertor"
  | toConvertor => "to convertor"
  | binary _ _ => "operator"
  | unary _ => "unary operator"
  | copyConstructor => "copy constructor"
  | moveConstructor => "move constructor"
  | copyAssignment => "copy assignment"
  | moveAssignment => "move assignment"
  | destructor => "destructor"

/-- Members that replace or end what copying and moving do by default. -/
def isLifecycle : MemberKind → Bool
  | copyConstructor | moveConstructor | copyAssignment | moveAssignment | destructor => true
  | _ => false

/-- Members that are called by their name. -/
def isNamed : MemberKind → Bool
  | method | variationMethod | static => true
  | _ => false

/-- The number of declared arguments, where the kind fixes it. -/
def fixedArity? : MemberKind → Option Nat
  | fromConvertor | binary _ _ => some 1
  | defaultConstructor | toConvertor | unary _ | copyConstructor | moveConstructor
  | copyAssignment | moveAssignment | destructor => some 0
  | method | variationMethod | static | constructor => none

/-- Members that never give a value. -/
def givesVoid : MemberKind → Bool
  | defaultConstructor | constructor | fromConvertor | copyConstructor | moveConstructor
  | copyAssignment | moveAssignment | destructor => true
  | _ => false

/-- For the members that read another instance: whether they may change it. -/
def otherIsVar? : MemberKind → Option Bool
  | copyConstructor | copyAssignment => some false
  | moveConstructor | moveAssignment => some true
  | _ => none

end MemberKind

namespace MemberForm

def kind : MemberForm → MemberKind
  | method _ true => .variationMethod
  | method _ false => .method
  | static _ => .static
  | defaultConstructor => .defaultConstructor
  | constructor => .constructor
  | fromConvertor => .fromConvertor
  | toConvertor => .toConvertor
  | binary op variation => .binary op variation
  | unary op => .unary op
  | copyConstructor => .copyConstructor
  | moveConstructor => .moveConstructor
  | copyAssignment => .copyAssignment
  | moveAssignment => .moveAssignment
  | destructor => .destructor

def name : MemberForm → String
  | method name _ | static name => name.text
  | defaultConstructor => "default"
  | constructor => "new"
  | fromConvertor => "from"
  | toConvertor => "to"
  | binary op variation => "operator" ++ op.symbol ++ (if variation then "=" else "")
  | unary op => "operator" ++ op.symbol
  | copyConstructor => "copy"
  | moveConstructor => "move"
  | copyAssignment => "copy="
  | moveAssignment => "move="
  | destructor => "end"

end MemberForm

structure MemberArg where
  name : Ident
  type : Ty
  isVar : Bool
  /-- The field the argument initialises. -/
  field : Option Nat
  deriving Repr

structure MemberFunction where
  kind : MemberKind
  name : String
  function : FunctionId
  parent : Ty
  args : List MemberArg
  result : Ty
  vis : Visibility
  range : Span
  deriving Repr

namespace MemberFunction

def argTypes (m : MemberFunction) : List Ty := m.args.map MemberArg.type

/-- Two members that no use could tell apart: named ones by their name, overloads of
one kind by their argument types, convertors by their target; of every other kind a
type has at most one. -/
def clashes (a b : MemberFunction) : Bool :=
  if a.kind.isNamed || b.kind.isNamed then
    a.kind.isNamed && b.kind.isNamed && a.name == b.name
  else if a.kind ≠ b.kind then false
  else match a.kind with
    | .constructor | .fromConvertor | .binary _ _ => a.argTypes == b.argTypes
    | .toConvertor => a.result == b.result
    | _ => true

end MemberFunction

structure StructDef where
  name : Ident
  fullName : String
  module : ModId
  vis : Visibility
  /-- Absent until the struct is laid out. -/
  fields? : Option (List FieldDef)
  members : List MemberFunction
  deriving Repr

namespace StructDef

def fields (d : StructDef) : List FieldDef := d.fields?.getD []

def isComplete (d : StructDef) : Bool := d.fields?.isSome

def fieldTypes (d : StructDef) : List Ty := d.fields.map FieldDef.type

/-- The first field of that name and its position. -/
def field? (d : StructDef) (name : String) : Option (Nat × FieldDef) :=
  (d.fields.zipIdx.find? (·.1.name.text == name)).map fun (f, i) => (i, f)

end StructDef

structure MixVariant where
  name : Ident
  payload : Option Ty
  deriving Repr

/-- The least number of bits, at least one, that tells `count` things apart. -/
def bitsForCount (count : Nat) : Nat :=
  if count ≤ 2 then 1 else (count - 1).log2 + 1

structure MixDef where
  name : Ident
  fullName : String
  module : ModId
  vis : Visibility
  /-- Absent until the payload types are known. -/
  variants? : Option (List MixVariant)
  default : Option Nat
  packed : Bool
  deriving Repr

namespace MixDef

def variants (d : MixDef) : List MixVariant := d.variants?.getD []

def variant? (d : MixDef) (name : String) : Option (Nat × MixVariant) :=
  (d.variants.zipIdx.find? (·.1.name.text == name)).map fun (v, i) => (i, v)

/-- Width of the number that says which variant a value holds. -/
def tagBits (d : MixDef) : Nat := bitsForCount d.variants.length

/-- The payload types, variant by variant. -/
def payloads (d : MixDef) : List Ty := d.variants.filterMap MixVariant.payload

end MixDef

structure ChoiceVariant where
  name : Ident
  value : Int
  deriving Repr

structure ChoiceDef where
  name : Ident
  fullName : String
  module : ModId
  vis : Visibility
  variants : List ChoiceVariant
  underlying : Ty
  default : Option Nat
  deriving Repr

namespace ChoiceDef

def variant? (d : ChoiceDef) (name : String) : Option (Nat × ChoiceVariant) :=
  (d.variants.zipIdx.find? (·.1.name.text == name)).map fun (v, i) => (i, v)

end ChoiceDef

structure SkillPrototype where
  name : Ident
  variation : Bool
  args : List Ty
  result : Ty
  deriving Repr

structure SkillDef where
  name : Ident
  fullName : String
  module : ModId
  vis : Visibility
  prototypes : List SkillPrototype
  deriving Repr

/-- Members given to a type from outside, with or without a skill that asks for them. -/
structure DoneSkill where
  skill : Option SkillId
  target : Ty
  module : ModId
  members : List MemberFunction
  range : Span
  deriving Repr

end Staged
