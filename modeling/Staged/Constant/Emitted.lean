/-
  Staged.Constant.Emitted — known values as constants of emitted code.

  Strings become entries of the module's string list, and the number of a mix variant
  uses the tag type of its mix, so both the module and the type table may grow. Data
  whose shape does not fit the type has no form in code and becomes `undef`, as do types
  and `void`.
-/

import Staged.Constant.Basic
import Staged.Ir.Module

namespace Staged

/-- What emitting a constant may add to. -/
structure Pool where
  types : TypeTable
  ir : Ir.Module

namespace Pool

def intern (ty : Ty) : StateM Pool Ty := do
  modify fun p => { p with types := p.types.intern ty }
  return ty

def string (s : String) : StateM Pool Ir.StringId :=
  modifyGet fun p =>
    let (ir, id) := p.ir.internString s
    (id, { p with ir })

end Pool

/-- The element type of a sequence. -/
def Ty.sequenceElement? : Ty → Option Ty
  | .array element _ => some element
  | .vector element _ _ => some element
  | _ => none

/-- The member types of a tuple or a struct. -/
def TypeTable.memberTypes? (t : TypeTable) : Ty → Option (List Ty)
  | .tuple members _ => some members
  | .struct id => some (((t.structs[id]?).map StructDef.fieldTypes).getD [])
  | _ => none

namespace Data

mutual

def emitted (ty : Ty) : Data → StateM Pool Ir.Const
  | int v => return .int ty v
  | char c => return .int ty c.toNat
  | float f => return .float ty f
  | bool b => return .bool ty b
  | str s => return .str ty (← Pool.string s)
  | null => return .null ty
  | void | type _ => return .undef ty
  | array items => match ty.sequenceElement? with
    | some element => return .aggregate ty (← emittedAll element items)
    | none => return .undef ty
  | tuple items | struct items => do
    match (← get).types.memberTypes? ty with
    | some members => return .aggregate ty (← emittedEach members items)
    | none => return .undef ty
  | maybe inner => match ty.maybe? with
    | some sub => do
      let payload ← emittedOption sub inner
      return .aggregate ty [.bool .bool inner.isSome, payload]
    | none => return .undef ty
  | mix variant payload => do
    match (← get).types.mixOf? ty with
    | some d =>
      let tag ← Pool.intern (.uint d.tagBits)
      let members ← match (d.variants[variant]?).bind MixVariant.payload with
        | some payloadType => emittedPayload payloadType payload
        | none => pure []
      return .aggregate ty (.int tag variant :: members)
    | none => return .undef ty

/-- Items of one type. -/
def emittedAll (ty : Ty) : List Data → StateM Pool (List Ir.Const)
  | [] => return []
  | d :: ds => return (← emitted ty d) :: (← emittedAll ty ds)

/-- Items of the given types, as many as there are of both. -/
def emittedEach : List Ty → List Data → StateM Pool (List Ir.Const)
  | ty :: tys, d :: ds => return (← emitted ty d) :: (← emittedEach tys ds)
  | _, _ => return []

/-- What a maybe holds; memory for it is there even if it is empty. -/
def emittedOption (ty : Ty) : Option Data → StateM Pool Ir.Const
  | some d => emitted ty d
  | none => return .zero ty

/-- The payload of a variant, if there is one. -/
def emittedPayload (ty : Ty) : Option Data → StateM Pool (List Ir.Const)
  | some d => return [← emitted ty d]
  | none => return []

end

end Data

def Constant.emitted (c : Constant) : StateM Pool Ir.Const := c.data.emitted c.type

end Staged
