/-
  Staged.Ty.Layout — size and alignment in memory.

  Sizes are 64-bit words. A scalar takes the least power of two of bytes that holds it
  and is aligned to its size, at most 16. The members of an aggregate follow each other,
  each at the next multiple of its alignment, and the whole is padded to the largest of
  those; a packed aggregate has neither gaps nor padding. A mix is a tag followed by
  room for its largest payload.

  A type without a layout has no values in memory: void, functions, types as values,
  and nominal types that are not known yet.

  `layoutStep` follows a type's tree and asks for the layouts of a definition's parts;
  `layoutWithin?` answers those through a bounded number of definitions.
-/

import Staged.Ty.Table

namespace Staged

structure Layout where
  size : Nat
  align : Nat
  deriving DecidableEq, Repr

namespace Layout

/-- Sizes and offsets are kept modulo `2 ^ 64`. -/
def word (n : Nat) : Nat := n % Nat.pow 2 64

/-- The least power of two that is not below `n`, at least one. -/
def nextPowerOfTwo (n : Nat) : Nat := if n ≤ 1 then 1 else word (Nat.pow 2 ((n - 1).log2 + 1))

def scalar (bits : Nat) : Layout :=
  let bytes := nextPowerOfTwo ((bits + 7) / 8)
  ⟨bytes, min bytes 16⟩

/-- The least multiple of `align` that is not below `offset`. -/
def alignTo (offset align : Nat) : Nat :=
  if align ≤ 1 then offset else word ((offset + align - 1) / align * align)

/-- Where the next member ends and the alignment so far. -/
def place (packed : Bool) (sofar next : Layout) : Layout :=
  if packed then ⟨word (sofar.size + next.size), sofar.align⟩
  else ⟨word (alignTo sofar.size next.align + next.size), max sofar.align next.align⟩

def aggregate (packed : Bool) (members : List Layout) : Layout :=
  let all := members.foldl (place packed) ⟨0, 1⟩
  ⟨alignTo all.size all.align, all.align⟩

/-- Room for any one of several payloads. -/
def largest (members : List Layout) : Layout :=
  members.foldl (fun a b => ⟨max a.size b.size, max a.align b.align⟩) ⟨0, 1⟩

/-- A tag followed by a payload; a payload without size takes no room. -/
def tagged (packed : Bool) (tag payload : Layout) : Layout :=
  if payload.size = 0 then tag
  else if packed then ⟨word (tag.size + payload.size), 1⟩
  else
    let align := max tag.align payload.align
    ⟨alignTo (word (alignTo tag.size payload.align + payload.size)) align, align⟩

end Layout

namespace TypeTable

def pointerLayout (t : TypeTable) : Layout := ⟨t.pointerWidth / 8, t.pointerWidth / 8⟩

/-- A pointer and a length. -/
def fatPointerLayout (t : TypeTable) : Layout := ⟨t.pointerWidth / 8 * 2, t.pointerWidth / 8⟩

mutual

/-- One definition deep: the layout of a type, given those of the parts of nominal
types. -/
def layoutStep (t : TypeTable) (parts : Ty → Option Layout) : Ty → Option Layout
  | .void | .function .. | .typed _ => none
  | .int bits | .uint bits => some (.scalar bits)
  | .float .f80 => some ⟨16, 16⟩
  | .float kind => some (.scalar kind.bitwidth)
  | .char => some (.scalar 32)
  | .bool => some (.scalar 1)
  | .str => some t.fatPointerLayout
  | .mark _ _ _ slice _ => some (if slice then t.fatPointerLayout else t.pointerLayout)
  | .ref .. | .future .. => some t.pointerLayout
  | .array element length =>
    (t.layoutStep parts element).map fun e => ⟨Layout.word (e.size * length), e.align⟩
  | .vector element count _ =>
    (t.layoutStep parts element).map fun e =>
      let size := Layout.nextPowerOfTwo (Layout.word (e.size * count))
      ⟨size, min size 16⟩
  | .tuple members packed => (t.layoutsStep parts members).map (Layout.aggregate packed)
  | .struct id => do
    let fields ← (← t.structs[id]?).fields?
    let members ← fields.mapM fun f => parts f.type
    some (Layout.aggregate false members)
  | .mix id => do
    let d ← t.mixes[id]?
    let _ ← d.variants?
    let payloads ← d.payloads.mapM parts
    some (Layout.tagged d.packed (.scalar d.tagBits) (Layout.largest payloads))
  | .choice id => (t.choices[id]?).bind fun d => parts d.underlying
  | .maybe sub => (t.layoutStep parts sub).map fun s => Layout.aggregate false [.scalar 1, s]
  | .native kind => some (match kind.repr t.pointerWidth with
    | .signed bits | .unsigned bits => .scalar bits
    | .float kind => .scalar kind.bitwidth
    | .pointer => t.pointerLayout)

def layoutsStep (t : TypeTable) (parts : Ty → Option Layout) : List Ty → Option (List Layout)
  | [] => some []
  | ty :: tys => do
    let l ← t.layoutStep parts ty
    let ls ← t.layoutsStep parts tys
    some (l :: ls)

end

/-- The layout of a type, through at most `fuel` definitions. -/
def layoutWithin? (t : TypeTable) : Nat → Ty → Option Layout
  | 0 => fun _ => none
  | fuel + 1 => t.layoutStep (t.layoutWithin? fuel)

def layout? (t : TypeTable) (ty : Ty) : Option Layout := t.layoutWithin? t.depth ty

/-- Room for the payload of any variant of a mix. -/
def mixPayloadLayout? (t : TypeTable) (d : MixDef) : Option Layout :=
  (d.payloads.mapM t.layout?).map Layout.largest

def isSized (t : TypeTable) (ty : Ty) : Bool := (t.layout? ty).isSome

def sizeInBytes? (t : TypeTable) (ty : Ty) : Option Nat := (t.layout? ty).map Layout.size

end TypeTable

end Staged
