/-
  Staged.Proofs.Strings.Machine — running code on words and addresses.

  Memory consists of objects that do not overlap, and an address is an offset into one of
  them; offsets are words of the width of a pointer and wrap. A cell holds a whole value, and
  reading it gives the value that was written there. A machine keeps what its registers and
  cells hold and the addresses that it has read.

  Instructions work as those of the same name in LLVM, as far as they are on words, addresses
  and tuples: memory, arithmetic, comparisons, addresses of elements and members of tuples.
  Anything else, and reading what was never written, brings the machine to a halt, as does
  the end of a block that has no terminator yet (`step?_eq_none`).
-/

import Mathlib.Logic.Relation
import Staged.Known.Shape
import Staged.Proofs.Arithmetic.Word
import Staged.Ty.Layout
import Staged.Ir.Function

namespace Staged.Ir

/-! ## Data -/

inductive Object where
  /-- What an allocation reserves, by the register that holds the address. -/
  | slot (register : Nat)
  | text (id : StringId)
  | global (id : GlobalId)
  | heap (number : Nat)
  deriving DecidableEq, Repr

structure Address (width : Nat) where
  object : Object
  offset : BitVec width
  deriving DecidableEq, Repr

def Address.plus {width : Nat} (a : Address width) (n : Nat) : Address width :=
  { a with offset := a.offset + BitVec.ofNat width n }

inductive Datum (width : Nat) where
  | word (bits : Nat) (x : BitVec bits)
  | pointer (address : Address width)
  | tuple (members : List (Datum width))

structure Machine (width : Nat) where
  registers : Nat → Option (Datum width)
  memory : Address width → Option (Datum width)
  /-- The addresses that have been read, the last one first. -/
  reads : List (Address width)

namespace Machine

variable {width : Nat} (σ : Machine width)

def assign (r : Register) (d : Datum width) : Machine width :=
  { σ with registers := fun i => if i = r.id then some d else σ.registers i }

def write (a : Address width) (d : Datum width) : Machine width :=
  { σ with memory := fun b => if b = a then some d else σ.memory b }

def clear (o : Object) : Machine width :=
  { σ with memory := fun b => if b.object = o then none else σ.memory b }

def read (a : Address width) : Machine width := { σ with reads := a :: σ.reads }

variable (a b : Address width) (d : Datum width)

@[simp] theorem registers_assign (r : Register) (i : Nat) :
    (σ.assign r d).registers i = if i = r.id then some d else σ.registers i := rfl

@[simp] theorem memory_assign (r : Register) : (σ.assign r d).memory = σ.memory := rfl

@[simp] theorem reads_assign (r : Register) : (σ.assign r d).reads = σ.reads := rfl

@[simp] theorem registers_write : (σ.write a d).registers = σ.registers := rfl

@[simp] theorem memory_write :
    (σ.write a d).memory b = if b = a then some d else σ.memory b := rfl

@[simp] theorem reads_write : (σ.write a d).reads = σ.reads := rfl

@[simp] theorem registers_read : (σ.read a).registers = σ.registers := rfl

@[simp] theorem memory_read : (σ.read a).memory = σ.memory := rfl

@[simp] theorem reads_read : (σ.read a).reads = a :: σ.reads := rfl

end Machine

/-! ## Strings -/

structure Text (width : Nat) where
  address : Address width
  bytes : List UInt8

namespace Text

variable {width : Nat} (x : Text width)

def datum : Datum width :=
  .tuple [.pointer x.address, .word width (BitVec.ofNat width x.bytes.length)]

def StoredIn (σ : Machine width) : Prop :=
  ∀ i b, x.bytes[i]? = some b → σ.memory (x.address.plus i) = some (.word 8 b.toBitVec)

def Covers (a : Address width) : Prop := ∃ i < x.bytes.length, a = x.address.plus i

end Text

/-! ## Instructions -/

def Register.slot {width : Nat} (r : Register) : Address width := ⟨.slot r.id, 0⟩

def textDatum (width : Nat) (id : StringId) (s : String) : Datum width :=
  Text.datum ⟨⟨.text id, 0⟩, textBytes s⟩

section

variable (t : TypeTable) (strings : Array String)

def Const.datum? : Const → Option (Datum t.pointerWidth)
  | .int type v => (t.intInfo? type).map fun info => .word info.bits (info.word v)
  | .bool _ b => some (.word 1 (BitVec.ofBool b))
  | .str _ id => strings[id]?.map (textDatum t.pointerWidth id)
  | .globalAddr _ id => some (.pointer ⟨.global id, 0⟩)
  | _ => none

def Value.datum? (σ : Machine t.pointerWidth) : Value → Option (Datum t.pointerWidth)
  | .reg r => σ.registers r.id
  | .const c => c.datum? t strings

/-- The machine after an instruction. -/
def Instr.exec? (σ : Machine t.pointerWidth) : Instr → Option (Machine t.pointerWidth)
  | .alloca r _ _ => some ((σ.clear (.slot r.id)).assign r (.pointer r.slot))
  | .load r ptr => match ptr.datum? t strings σ with
    | some (.pointer a) => (σ.memory a).map ((σ.read a).assign r)
    | _ => none
  | .store value ptr => match value.datum? t strings σ, ptr.datum? t strings σ with
    | some d, some (.pointer a) => some (σ.write a d)
    | _, _ => none
  | .arith r op lhs rhs => match lhs.datum? t strings σ, rhs.datum? t strings σ with
    | some (.word w x), some (.word v y) =>
      if h : v = w then (op.onWords? x (y.cast h)).map fun z => σ.assign r (.word w z) else none
    | _, _ => none
  | .compare r pred lhs rhs => match lhs.datum? t strings σ, rhs.datum? t strings σ with
    | some (.word w x), some (.word v y) =>
      if h : v = w then
        (pred.onWords? x (y.cast h)).map fun b => σ.assign r (.word 1 (BitVec.ofBool b))
      else none
    | _, _ => none
  | .elementPtr r base element index =>
    match base.datum? t strings σ, index.datum? t strings σ, t.sizeInBytes? element with
    | some (.pointer a), some (.word _ x), some size =>
      some (σ.assign r (.pointer { a with
        offset := a.offset + x.signExtend t.pointerWidth * BitVec.ofNat t.pointerWidth size }))
    | _, _, _ => none
  | .extract r aggregate index => match aggregate.datum? t strings σ with
    | some (.tuple members) => members[index]?.map (σ.assign r)
    | _ => none
  | _ => none

def Terminator.next? (σ : Machine t.pointerWidth) : Terminator → Option BlockId
  | .jump j => some j
  | .branch cond i j => match cond.datum? t strings σ with
    | some (.word 1 x) => some (if x = 1 then i else j)
    | _ => none
  | .ret _ | .switch .. | .unreachable => none

/-! ## Runs -/

structure Config (width : Nat) where
  block : BlockId
  /-- The instructions of the block that have been executed. -/
  position : Nat
  machine : Machine width

variable (f : Function)

def step? (c : Config t.pointerWidth) : Option (Config t.pointerWidth) :=
  match f.block? c.block with
  | none => none
  | some b => match b.instrs[c.position]? with
    | some i => (i.exec? t strings c.machine).map fun σ =>
      { c with position := c.position + 1, machine := σ }
    | none => (b.term.bind (Terminator.next? t strings c.machine)).map fun j => ⟨j, 0, c.machine⟩

/-- The machine gets from one place to another. -/
def Runs : Config t.pointerWidth → Config t.pointerWidth → Prop :=
  Relation.ReflTransGen fun c c' => step? t strings f c = some c'

def execAll? (σ : Machine t.pointerWidth) (code : List Instr) : Option (Machine t.pointerWidth) :=
  code.foldlM (Instr.exec? t strings) σ

end

section

variable {t : TypeTable} {strings : Array String} {σ σ' σ'' : Machine t.pointerWidth}
  {r : Register} {v v' ptr : Value} {a : Address t.pointerWidth} {d : Datum t.pointerWidth}
  {w : Nat} {x y z : BitVec w} {i : Instr} {code code' : List Instr}

theorem datum?_assign : (Value.reg r).datum? t strings (σ.assign r d) = some d := if_pos rfl

/-- A value is the same when another register has been assigned. -/
theorem datum?_assign_of_ne (h : ∀ r', v = .reg r' → r'.id ≠ r.id) :
    v.datum? t strings (σ.assign r d) = v.datum? t strings σ := by
  cases v with
  | reg r' => exact if_neg (h r' rfl)
  | const k => rfl

theorem exec?_load (hptr : ptr.datum? t strings σ = some (.pointer a)) (ha : σ.memory a = some d) :
    (Instr.load r ptr).exec? t strings σ = some ((σ.read a).assign r d) := by
  simp only [Instr.exec?, hptr, ha, Option.map_some]

theorem exec?_store (hv : v.datum? t strings σ = some d)
    (hptr : ptr.datum? t strings σ = some (.pointer a)) :
    (Instr.store v ptr).exec? t strings σ = some (σ.write a d) := by
  simp only [Instr.exec?, hv, hptr]

theorem exec?_arith {op : Arith} (hv : v.datum? t strings σ = some (.word w x))
    (hv' : v'.datum? t strings σ = some (.word w y)) (hz : op.onWords? x y = some z) :
    (Instr.arith r op v v').exec? t strings σ = some (σ.assign r (.word w z)) := by
  simp only [Instr.exec?, hv, hv', dif_pos, BitVec.cast_eq, hz, Option.map_some]

theorem exec?_compare {p : Pred} {b : Bool} (hv : v.datum? t strings σ = some (.word w x))
    (hv' : v'.datum? t strings σ = some (.word w y)) (hb : p.onWords? x y = some b) :
    (Instr.compare r p v v').exec? t strings σ =
      some (σ.assign r (.word 1 (BitVec.ofBool b))) := by
  simp only [Instr.exec?, hv, hv', dif_pos, BitVec.cast_eq, hb, Option.map_some]

/-- The address of a byte. -/
theorem exec?_elementPtr {n : Nat} (hptr : ptr.datum? t strings σ = some (.pointer a))
    (hv : v.datum? t strings σ = some (.word t.pointerWidth (BitVec.ofNat t.pointerWidth n))) :
    (Instr.elementPtr r ptr .u8 v).exec? t strings σ =
      some (σ.assign r (.pointer (a.plus n))) := by
  have hsize : t.sizeInBytes? .u8 = some 1 := rfl
  simp only [Instr.exec?, hptr, hv, hsize, BitVec.signExtend_eq, BitVec.mul_one]
  rfl

theorem exec?_extract {ds : List (Datum t.pointerWidth)} {k : Nat}
    (hv : v.datum? t strings σ = some (.tuple ds)) (hd : ds[k]? = some d) :
    (Instr.extract r v k).exec? t strings σ = some (σ.assign r d) := by
  simp only [Instr.exec?, hv, hd, Option.map_some]

theorem execAll?_nil : execAll? t strings σ [] = some σ := rfl

theorem execAll?_cons (hi : i.exec? t strings σ = some σ')
    (hcode : execAll? t strings σ' code = some σ'') :
    execAll? t strings σ (i :: code) = some σ'' :=
  Option.bind_eq_some_iff.mpr ⟨σ', hi, hcode⟩

theorem execAll?_append (hcode : execAll? t strings σ code = some σ')
    (hcode' : execAll? t strings σ' code' = some σ'') :
    execAll? t strings σ (code ++ code') = some σ'' := by
  rw [execAll?, List.foldlM_append]
  exact Option.bind_eq_some_iff.mpr ⟨σ', hcode, hcode'⟩

/-- A branch on the outcome of a comparison. -/
theorem next?_branch {b : Bool} {j k : BlockId}
    (hv : v.datum? t strings σ = some (.word 1 (BitVec.ofBool b))) :
    (Terminator.branch v j k).next? t strings σ = some (if b then j else k) := by
  cases b <;> simp [Terminator.next?, hv]

end

variable {t : TypeTable} {strings : Array String} {f : Function} {c c' : Config t.pointerWidth}
  {σ σ' : Machine t.pointerWidth} {j k : BlockId} {b : Block} {code : List Instr}

theorem Runs.refl : Runs t strings f c c := Relation.ReflTransGen.refl

theorem Runs.trans {c'' : Config t.pointerWidth} (h : Runs t strings f c c')
    (h' : Runs t strings f c' c'') : Runs t strings f c c'' := Relation.ReflTransGen.trans h h'

/-- Code in a block is executed in order. -/
theorem runs_code (pre post : List Instr) (hb : f.block? j = some b)
    (hcode : b.instrs.toList = pre ++ code ++ post) (hσ : execAll? t strings σ code = some σ') :
    Runs t strings f ⟨j, pre.length, σ⟩ ⟨j, pre.length + code.length, σ'⟩ := by
  induction code generalizing pre σ with
  | nil =>
    cases hσ
    exact .refl
  | cons i code ih =>
    obtain ⟨σ₁, hi, hrest⟩ := Option.bind_eq_some_iff.mp hσ
    have hget : b.instrs[pre.length]? = some i := by
      rw [← Array.getElem?_toList, hcode]
      simp
    have hstep : step? t strings f ⟨j, pre.length, σ⟩ = some ⟨j, pre.length + 1, σ₁⟩ := by
      simp only [step?, hb, hget, hi, Option.map_some]
    have hrun := @ih σ₁ (pre ++ [i]) (by rw [hcode]; simp) hrest
    rw [List.length_append, List.length_singleton] at hrun
    rw [List.length_cons, Nat.add_comm code.length 1, ← Nat.add_assoc]
    exact .head hstep hrun

/-- A whole block is executed, and its terminator tells where to go on. -/
theorem runs_block (pre : List Instr) (hb : f.block? j = some b)
    (hcode : b.instrs.toList = pre ++ code)
    (hσ : execAll? t strings σ code = some σ')
    (hnext : b.term.bind (Terminator.next? t strings σ') = some k) :
    Runs t strings f ⟨j, pre.length, σ⟩ ⟨k, 0, σ'⟩ := by
  have hrun := runs_code pre [] hb (hcode.trans (List.append_nil _).symm) hσ
  refine hrun.tail ?_
  have hsize : b.instrs[pre.length + code.length]? = none := by
    rw [← Array.getElem?_toList, hcode, List.getElem?_eq_none]
    rw [List.length_append]
  simp only [step?, hb, hsize, hnext, Option.map_some]

/-- At the end of a block without terminator the machine halts. -/
theorem step?_eq_none (hb : f.block? j = some b) (hopen : b.term = none) :
    step? t strings f ⟨j, b.instrs.size, σ⟩ = none := by
  simp [step?, hb, hopen]

end Staged.Ir
