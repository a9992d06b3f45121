/-
  Staged.Ty.Lifecycle — which values can be copied and moved bit by bit, and which can
  be known before the program runs.

  A value is copied bit by bit unless its type, or a type it holds by value, frees heap
  memory, is a future, or has a copy constructor or a destructor. Moving is the same
  with move constructors, and futures and heap marks may be moved. Values of a type can
  be known at compile time when they hold no addresses and no member takes over their
  lifecycle.

  As with layouts, one step follows a type's tree and the rest goes through a bounded
  number of definitions.
-/

import Staged.Ty.Table

namespace Staged

namespace TypeTable

/-- A question about a type that is answered for aggregates by answering it for every
part held by value. -/
structure Trait where
  /-- The answer for a type that holds no other by value. -/
  leaf : Ty → Bool
  /-- Whether vectors of a length known only at run time can have the trait. -/
  scalable : Bool
  /-- What a struct itself has to satisfy, apart from its fields. -/
  struct : Ty → StructDef → Bool

mutual

def traitStep (t : TypeTable) (trait : Trait) (parts : Ty → Bool) : Ty → Bool
  | .array element _ => t.traitStep trait parts element
  | .vector element _ scalable =>
    (trait.scalable || !scalable) && t.traitStep trait parts element
  | .tuple members _ => t.traitsStep trait parts members
  | .maybe sub => t.traitStep trait parts sub
  | .struct id => match t.structs[id]? with
    | some d => trait.struct (.struct id) d && d.fieldTypes.all parts
    | none => false
  | .mix id => match t.mixes[id]? with
    | some d => d.payloads.all parts
    | none => false
  | ty => trait.leaf ty

def traitsStep (t : TypeTable) (trait : Trait) (parts : Ty → Bool) : List Ty → Bool
  | [] => true
  | ty :: tys => t.traitStep trait parts ty && t.traitsStep trait parts tys

end

def traitWithin (t : TypeTable) (trait : Trait) : Nat → Ty → Bool
  | 0 => fun _ => false
  | fuel + 1 => t.traitStep trait (t.traitWithin trait fuel)

def has (t : TypeTable) (trait : Trait) (ty : Ty) : Bool := t.traitWithin trait t.depth ty

/-! ## Compile-time values -/

def hasCustomLifecycle (t : TypeTable) (ty : Ty) : Bool :=
  (t.membersOf ty).any (·.kind.isLifecycle)

def prerunTrait (t : TypeTable) : Trait where
  leaf
    | .int _ | .uint _ | .float _ | .char | .bool | .str | .choice _ | .typed _ => true
    | .native kind => kind ≠ .cstring
    | _ => false
  scalable := false
  struct ty d := d.isComplete && !t.hasCustomLifecycle ty

def canBePrerun (t : TypeTable) (ty : Ty) : Bool := t.has t.prerunTrait ty

/-! ## Copying and moving -/

def copyTrait (t : TypeTable) : Trait where
  leaf
    | .mark _ .heap _ _ _ => false
    | .future .. => false
    | _ => true
  scalable := true
  struct ty _ := !t.hasMember ty .copyConstructor && !t.hasMember ty .destructor

def hasSimpleCopy (t : TypeTable) (ty : Ty) : Bool := t.has t.copyTrait ty

def moveTrait (t : TypeTable) : Trait where
  leaf _ := true
  scalable := true
  struct ty _ := !t.hasMember ty .moveConstructor && !t.hasMember ty .destructor

def hasSimpleMove (t : TypeTable) (ty : Ty) : Bool := t.has t.moveTrait ty

def isCopyConstructible (t : TypeTable) (ty : Ty) : Bool :=
  t.hasSimpleCopy ty || t.hasMember ty .copyConstructor

def isMoveConstructible (t : TypeTable) (ty : Ty) : Bool :=
  t.hasSimpleMove ty || t.hasMember ty .moveConstructor

end TypeTable

end Staged
