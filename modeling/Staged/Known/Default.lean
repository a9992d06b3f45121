/-
  Staged.Known.Default — the value a type has when none is given.

  Numbers are zero, texts and maybes empty, nullable marks null. Choices and mixes have
  the default variant they declare, and aggregates the defaults of their parts. A struct
  with a default constructor has no such value, since only running the constructor gives
  one, and neither has a struct whose values cannot be known.
-/

import Staged.Fault
import Staged.Ty.Lifecycle

namespace Staged.TypeTable

variable (t : TypeTable)

/-- The value of the default variant of a choice. -/
def defaultChoice (d : ChoiceDef) : Except Fault Data :=
  match d.default.bind fun i => d.variants[i]? with
  | some v => .ok (.int v.value)
  | none => .error (.choiceNoDefault d.fullName)

/-- The default variant of a mix, given the defaults of payloads. -/
def defaultMix (parts : Ty → Except Fault Data) (d : MixDef) : Except Fault Data :=
  match d.default with
  | none => .error (.mixNoDefault d.fullName)
  | some i => match (d.variants[i]?).bind MixVariant.payload with
    | none => .ok (.mix i none)
    | some payload => do .ok (.mix i (some (← parts payload)))

mutual

/-- One definition deep: the default of a type, given those of the parts of nominal
types. -/
def defaultStep (parts : Ty → Except Fault Data) : Ty → Except Fault Data
  | .int _ | .uint _ => .ok (.int 0)
  | .float _ => .ok (.float .zero)
  | .native kind => match kind.repr t.pointerWidth with
    | .signed _ | .unsigned _ => .ok (.int 0)
    | .float _ => .ok (.float .zero)
    | .pointer => .error (.noDefault (.native kind))
  | .bool => .ok (.bool false)
  | .char => .ok (.char (Char.ofNat 0))
  | .str => .ok (.str "")
  | .maybe _ => .ok (.maybe none)
  | .mark sub owner nullable slice isVar =>
    if nullable then .ok .null else .error (.noDefault (.mark sub owner nullable slice isVar))
  | .choice id => match t.choices[id]? with
    | some d => defaultChoice d
    | none => .error (.noDefault (.choice id))
  | .mix id => match t.mixes[id]? with
    | some d => defaultMix parts d
    | none => .error (.noDefault (.mix id))
  | .tuple members _ => do .ok (.tuple (← defaultsStep parts members))
  | .array element length => do
    .ok (.array (List.replicate length (← defaultStep parts element)))
  | .struct id =>
    if t.hasMember (.struct id) .defaultConstructor || !t.canBePrerun (.struct id) then
      .error (.noDefault (.struct id))
    else match t.structs[id]? with
      | some d => do .ok (.struct (← d.fieldTypes.mapM parts))
      | none => .ok (.struct [])
  | ty => .error (.noDefault ty)

def defaultsStep (parts : Ty → Except Fault Data) : List Ty → Except Fault (List Data)
  | [] => .ok []
  | ty :: tys => do
    let d ← defaultStep parts ty
    let ds ← defaultsStep parts tys
    .ok (d :: ds)

end

/-- The default of a type, through at most `fuel` definitions. -/
def defaultWithin : Nat → Ty → Except Fault Data
  | 0 => fun ty => .error (.noDefault ty)
  | fuel + 1 => t.defaultStep (defaultWithin fuel)

def default (ty : Ty) : Except Fault Constant := do
  .ok ⟨← t.defaultWithin t.depth ty, ty⟩

end Staged.TypeTable
