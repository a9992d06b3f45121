/-
  Staged.Compiler.Value — what an expression is lowered to.

  A temporary is the value itself; everything else is an address at which the value is
  stored. A temporary slot is memory that holds a value nobody else refers to, so the
  value may be taken out of it. A value may be known as well; what is known of a value
  that is variable must not be used in its place (`Value.fixed?`).
-/

import Staged.Constant.Basic
import Staged.Ir.Value

namespace Staged

inductive Storage where
  | temporary | tempSlot | stack | global | pointee
  deriving DecidableEq, Repr

structure Value where
  /-- The value, or the address at which it is stored. -/
  ir : Ir.Value
  type : Ty
  isVar : Bool := false
  storage : Storage := .temporary
  known : Option Constant := none
  range : Span
  deriving Repr

namespace Value

def temporary (ir : Ir.Value) (type : Ty) (range : Span) : Value := { ir, type, range }

def stored (address : Ir.Value) (type : Ty) (isVar : Bool) (storage : Storage) (range : Span) :
    Value :=
  { ir := address, type, isVar, storage, range }

def constant (ir : Ir.Const) (known : Constant) (range : Span) : Value :=
  { ir := .const ir, type := known.type, known := some known, range }

/-- The value of expressions that have none. -/
def void (range : Span) : Value := temporary (.const (.undef .void)) .void range

def isTemporary (v : Value) : Bool := v.storage == .temporary

/-- Whether the value lives in memory without being of a reference type. -/
def isStored (v : Value) : Bool := v.storage != .temporary

def isTempSlot (v : Value) : Bool := v.storage == .tempSlot

/-- Whether the value may be changed where it lives. -/
def isMutable (v : Value) : Bool :=
  match v.type.refInfo? with
  | some (_, isVar) => isVar
  | none => v.isStored && v.isVar

/-- What is known of a value that does not change. -/
def fixed? (v : Value) : Option Constant := if v.isVar then none else v.known

end Value

/-- What the surroundings of an expression ask for. -/
structure Expect where
  type : Option Ty := none
  /-- Memory in which the value may be built. -/
  slot : Option Value := none
  deriving Repr

namespace Expect

def nothing : Expect := {}

def of (type : Ty) : Expect := { type := some type }

def maybe (type : Option Ty) : Expect := { type }

def inSlot (slot : Value) : Expect := { type := some slot.type, slot := some slot }

/-- The same type, without memory to build in. -/
def hint (e : Expect) : Expect := { type := e.type }

/-- The expected type as values of it are used. -/
def value? (e : Expect) : Option Ty := e.type.map Ty.value

end Expect

end Staged
