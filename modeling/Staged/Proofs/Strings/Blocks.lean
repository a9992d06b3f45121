/-
  Staged.Proofs.Strings.Blocks — the code that compares two strings.

  Writing code changes the function under construction in a few ways: instructions at the end
  of the current block, memory reserved in the entry block, a new block, the end of the
  current block, and another block to go on in. `Emit.Forms` says by which of them an action
  gets from one function to another; they are followed block by block.

  The comparison has six blocks of its own (`FunctionState.Compares`): the lengths, the loop
  condition, the bytes, the next position, equal strings, and the result.
-/

import Staged.Emit.Binary
import Staged.Proofs.Phis.Line
import Staged.Proofs.Ssa.Grow

namespace Staged

open Ir (BlockId Instr Register)

/-! ## Writing -/

def Ir.Block.append (b : Ir.Block) (code : List Instr) : Ir.Block :=
  { b with instrs := b.instrs ++ code.toArray }

namespace FunctionState

/-- Instructions at the end of the current block, with so many new registers. -/
def write (f : FunctionState) (registers : Nat) (code : List Instr) : FunctionState :=
  { f with function := { f.function.modifyBlock f.current (·.append code) with
    nextRegister := f.function.nextRegister + registers } }

def reserve (f : FunctionState) (type : Ty) (name : Option String) : FunctionState :=
  { f with function := { f.function.modifyBlock f.function.entry
      (·.pushAlloca (.alloca ⟨f.function.nextRegister, .markTo type true⟩ type name)) with
    nextRegister := f.function.nextRegister + 1 } }

/-- The end of the current block, and another one to go on in. -/
def leave (f : FunctionState) (t : Ir.Terminator) (next : BlockId) : FunctionState :=
  (f.close t).goTo next

variable (f : FunctionState) (registers : Nat) (code : List Instr) (t : Ir.Terminator)
  (next : BlockId) (label name : Option String) (type : Ty)

@[simp] theorem current_write : (f.write registers code).current = f.current := rfl

@[simp] theorem entry_write :
    (f.write registers code).function.entry = f.function.entry := rfl

@[simp] theorem nextRegister_write : (f.write registers code).function.nextRegister =
    f.function.nextRegister + registers := rfl

@[simp] theorem size_write : (f.write registers code).size = f.size :=
  Ir.Function.size_modifyBlock _

@[simp] theorem current_reserve : (f.reserve type name).current = f.current := rfl

@[simp] theorem entry_reserve :
    (f.reserve type name).function.entry = f.function.entry := rfl

@[simp] theorem nextRegister_reserve : (f.reserve type name).function.nextRegister =
    f.function.nextRegister + 1 := rfl

@[simp] theorem size_reserve : (f.reserve type name).size = f.size :=
  Ir.Function.size_modifyBlock _

attribute [simp] size_addBlock

@[simp] theorem current_addBlock : (f.addBlock label).current = f.current := rfl

@[simp] theorem entry_addBlock : (f.addBlock label).function.entry = f.function.entry := rfl

@[simp] theorem nextRegister_addBlock :
    (f.addBlock label).function.nextRegister = f.function.nextRegister := rfl

@[simp] theorem current_leave : (f.leave t next).current = next := rfl

@[simp] theorem entry_leave : (f.leave t next).function.entry = f.function.entry := rfl

@[simp] theorem nextRegister_leave :
    (f.leave t next).function.nextRegister = f.function.nextRegister := rfl

@[simp] theorem size_leave : (f.leave t next).size = f.size := Ir.Function.size_modifyBlock _

/-! ## Blocks -/

variable (j : BlockId)

theorem block?_write : (f.write registers code).function.block? j =
    if f.current = j then (f.function.block? j).map (·.append code) else f.function.block? j :=
  Ir.Function.block?_modifyBlock _ _ _ _

theorem block?_reserve : (f.reserve type name).function.block? j =
    if f.function.entry = j then (f.function.block? j).map (·.pushAlloca
      (.alloca ⟨f.function.nextRegister, .markTo type true⟩ type name))
    else f.function.block? j :=
  Ir.Function.block?_modifyBlock _ _ _ _

theorem block?_addBlock : (f.addBlock label).function.block? j =
    if j = f.size then some { label } else f.function.block? j :=
  Ir.Function.block?_newBlock _ _ _

theorem block?_leave : (f.leave t next).function.block? j =
    if f.current = j then (f.function.block? j).map (·.close t) else f.function.block? j :=
  Ir.Function.block?_modifyBlock _ _ _ _

theorem write_write (registers' : Nat) (code' : List Instr) :
    (f.write registers code).write registers' code' =
      f.write (registers + registers') (code ++ code') := by
  have hblocks : (f.function.blocks.modify f.current (·.append code)).modify f.current
      (·.append code') = f.function.blocks.modify f.current (·.append (code ++ code')) := by
    refine Array.ext_getElem? fun i => ?_
    rw [Array.getElem?_modify, Array.getElem?_modify, Array.getElem?_modify]
    split
    · rw [Option.map_map]
      refine congrArg (Option.map · _) (funext fun b => ?_)
      show Ir.Block.append (b.append code) code' = b.append (code ++ code')
      unfold Ir.Block.append
      rw [← List.append_toArray, Array.append_assoc]
    · rfl
  show ({ f with function := { f.function with
    blocks := (f.function.blocks.modify f.current (·.append code)).modify f.current (·.append code')
    nextRegister := f.function.nextRegister + registers + registers' } } : FunctionState) = _
  rw [hblocks, Nat.add_assoc]
  rfl

end FunctionState

namespace Emit

variable {α β : Type} {a : Emit α} {k : α → Emit β} {f g h : FunctionState} {v : α} {u : β}

/-- An action takes the function under construction from one form to another. -/
def Forms (a : Emit α) (f : FunctionState) (v : α) (g : FunctionState) : Prop :=
  ∀ o s, s.func = some f → ∃ s', a o s = .ok v s' ∧ s'.func = some g

theorem Forms.bind (ha : Forms a f v g) (hk : Forms (k v) g u h) : Forms (a >>= k) f u h := by
  intro o s hs
  obtain ⟨s₁, hr, hs₁⟩ := ha o s hs
  obtain ⟨s₂, hr', hs₂⟩ := hk o s₁ hs₁
  exact ⟨s₂, by rw [bind_apply, hr]; exact hr', hs₂⟩

theorem forms_return (v : α) : Forms (return v) f v f := fun _ s hs => ⟨s, rfl, hs⟩

theorem forms_intern (ty : Ty) : Forms (intern ty) f ty f :=
  fun _ s hs => ⟨{ s with types := s.types.intern ty }, rfl, hs⟩

theorem forms_newBlock (label : String) {n : Nat} (hn : f.size = n) :
    Forms (newBlock label) f n (f.addBlock (some label)) :=
  fun _ _ hs => ⟨_, by rw [newBlock_apply label hs, hn], rfl⟩

theorem forms_switchTo (j : BlockId) : Forms (switchTo j) f () (f.goTo j) :=
  fun _ _ hs => ⟨_, switchTo_apply j hs, rfl⟩

theorem forms_modifyCurrent (change : Ir.Block → Ir.Block) (hc : f.current < f.size) :
    Forms (modifyCurrent change) f () (f.modifyBlock f.current change) := by
  intro o s hs
  have hsome : ¬(f.function.block? f.current).isNone = true := by
    have : f.function.block? f.current = some f.function.blocks[f.current] :=
      Array.getElem?_eq_getElem hc
    simp [this]
  refine ⟨_, (modifyCurrent_apply change hs).trans (if_neg hsome), rfl⟩

theorem forms_terminate (t : Ir.Terminator) (hc : f.current < f.size) :
    Forms (terminate t) f () (f.close t) := forms_modifyCurrent _ hc

theorem forms_push (i : Instr) (hc : f.current < f.size) :
    Forms (push i) f () (f.write 0 [i]) := by
  have hpush : (fun b : Ir.Block => b.push i) = (·.append [i]) := by
    funext b
    unfold Ir.Block.push Ir.Block.append
    rw [Array.push_eq_append]
  have h := forms_modifyCurrent (·.push i) hc
  rw [hpush] at h
  unfold push
  rw [hpush]
  exact h

theorem forms_store (value ptr : Ir.Value) (hc : f.current < f.size) :
    Forms (store value ptr) f () (f.write 0 [.store value ptr]) := forms_push _ hc

variable {r : Nat}

theorem forms_compute (type : Ty) (instr : Register → Instr) (hr : f.function.nextRegister = r)
    (hc : f.current < f.size) :
    Forms (compute type instr) f ⟨r, type⟩ (f.write 1 [instr ⟨r, type⟩]) := by
  subst hr
  have hfresh : Forms (fresh type) f ⟨f.function.nextRegister, type⟩
      { f with function := (f.function.newRegister type).1 } :=
    fun _ _ hs => ⟨_, fresh_apply type hs, rfl⟩
  refine hfresh.bind (Forms.bind (v := ())
    (g := f.write 1 [instr ⟨f.function.nextRegister, type⟩]) ?_ (forms_return _))
  exact forms_push (f := { f with function := (f.function.newRegister type).1 }) _ hc

theorem forms_load (ptr : Ir.Value) (type : Ty) (hr : f.function.nextRegister = r)
    (hc : f.current < f.size) :
    Forms (load ptr type) f ⟨r, type⟩ (f.write 1 [.load ⟨r, type⟩ ptr]) :=
  forms_compute _ _ hr hc

theorem forms_alloca (type : Ty) (name : Option String) (hr : f.function.nextRegister = r)
    (he : f.function.entry < f.size) :
    Forms (alloca type name) f ⟨r, .markTo type true⟩ (f.reserve type name) := by
  subst hr
  have hfresh : Forms (fresh (.markTo type true)) f ⟨f.function.nextRegister, .markTo type true⟩
      { f with function := (f.function.newRegister (.markTo type true)).1 } :=
    fun _ _ hs => ⟨_, fresh_apply _ hs, rfl⟩
  refine (forms_intern _).bind (hfresh.bind ?_)
  intro o s hs
  have hsome : ¬((f.function.newRegister (.markTo type true)).1.block?
      (f.function.newRegister (.markTo type true)).1.entry).isNone = true := by
    have : f.function.block? f.function.entry = some f.function.blocks[f.function.entry] :=
      Array.getElem?_eq_getElem he
    show ¬(f.function.block? f.function.entry).isNone = true
    simp [this]
  refine ⟨{ s with func := some (f.reserve type name) }, ?_, rfl⟩
  rw [bind_apply, function_apply hs]
  dsimp only
  rw [if_neg hsome]
  rfl

theorem forms_leave {rest : Emit β} (t : Ir.Terminator) (next : BlockId)
    (hc : f.current < f.size) (hk : Forms rest (f.leave t next) u h) :
    Forms (do terminate t; switchTo next; rest) f u h :=
  (forms_terminate t hc).bind ((forms_switchTo next).bind hk)

end Emit

/-! ## The comparison -/

namespace Comparison

/-- The registers of a comparison, counted from the first one. -/
def leftData (r : Nat) : Register := ⟨r, .markTo .u8 false⟩
def leftLength (r : Nat) : Register := ⟨r + 1, .usize⟩
def rightData (r : Nat) : Register := ⟨r + 2, .markTo .u8 false⟩
def rightLength (r : Nat) : Register := ⟨r + 3, .usize⟩
def result (r : Nat) : Register := ⟨r + 4, .markTo .bool true⟩
def index (r : Nat) : Register := ⟨r + 5, .markTo .usize true⟩

variable (r : Nat) (left right : Ir.Value)

def partsCode : List Instr :=
  [.extract (leftData r) left 0, .extract (leftLength r) left 1,
    .extract (rightData r) right 0, .extract (rightLength r) right 1]

/-- Nothing is known to be equal, and the first position is next. -/
def initCode : List Instr :=
  [.store (Ir.Const.bool .bool false) (result r), .store (Ir.Const.int .usize 0) (index r)]

def lengthCode : List Instr := [.compare ⟨r + 6, .bool⟩ .eq (leftLength r) (rightLength r)]

def condCode : List Instr :=
  [.load ⟨r + 7, .usize⟩ (index r),
    .compare ⟨r + 8, .bool⟩ .ult (Register.mk (r + 7) .usize) (leftLength r)]

def bodyCode : List Instr :=
  [.load ⟨r + 9, .usize⟩ (index r),
    .elementPtr ⟨r + 10, .markTo .u8 false⟩ (leftData r) .u8 (Register.mk (r + 9) .usize),
    .load ⟨r + 11, .u8⟩ (Register.mk (r + 10) (.markTo .u8 false)),
    .elementPtr ⟨r + 12, .markTo .u8 false⟩ (rightData r) .u8 (Register.mk (r + 9) .usize),
    .load ⟨r + 13, .u8⟩ (Register.mk (r + 12) (.markTo .u8 false)),
    .compare ⟨r + 14, .bool⟩ .eq (Register.mk (r + 11) .u8) (Register.mk (r + 13) .u8)]

def nextCode : List Instr :=
  [.load ⟨r + 15, .usize⟩ (index r),
    .arith ⟨r + 16, .usize⟩ .add (Register.mk (r + 15) .usize) (Ir.Const.int .usize 1),
    .store (Register.mk (r + 16) .usize) (index r)]

def trueCode : List Instr := [.store (Ir.Const.bool .bool true) (result r)]

def endCode : List Instr := [.load ⟨r + 17, .bool⟩ (result r)]

end Comparison

open Comparison

namespace FunctionState

def compareHead (f : FunctionState) (r : Nat) (left right : Ir.Value) : FunctionState :=
  (((f.write 4 (partsCode r left right)).reserve .bool (some "str.cmp.result")).reserve .usize
    (some "str.cmp.index")).write 0 (initCode r)

def compareBlocks (f : FunctionState) : FunctionState :=
  (((((f.addBlock (some "str.cmp.length")).addBlock (some "str.cmp.cond")).addBlock
    (some "str.cmp.body")).addBlock (some "str.cmp.next")).addBlock
      (some "str.cmp.true")).addBlock (some "str.cmp.end")

section

variable (f : FunctionState) (r : Nat) (left right : Ir.Value)

@[simp] theorem current_compareHead : (f.compareHead r left right).current = f.current := by
  simp [compareHead]

@[simp] theorem size_compareHead : (f.compareHead r left right).size = f.size := by
  simp [compareHead]

@[simp] theorem nextRegister_compareHead : (f.compareHead r left right).function.nextRegister =
    f.function.nextRegister + 6 := by
  simp [compareHead]

@[simp] theorem entry_compareHead :
    (f.compareHead r left right).function.entry = f.function.entry := by
  simp [compareHead]

@[simp] theorem current_compareBlocks : f.compareBlocks.current = f.current := by
  simp [compareBlocks]

@[simp] theorem size_compareBlocks : f.compareBlocks.size = f.size + 6 := by
  simp [compareBlocks]

@[simp] theorem nextRegister_compareBlocks :
    f.compareBlocks.function.nextRegister = f.function.nextRegister := by
  simp [compareBlocks]

@[simp] theorem entry_compareBlocks :
    f.compareBlocks.function.entry = f.function.entry := by
  simp [compareBlocks]

end

def compareCode (f : FunctionState) (r n : Nat) : FunctionState :=
  let length := (f.leave (.jump n) n).write 1 (lengthCode r)
  let cond := (length.leave (.branch (Register.mk (r + 6) .bool) (n + 1) (n + 5)) (n + 1)).write 2
    (condCode r)
  let body := (cond.leave (.branch (Register.mk (r + 8) .bool) (n + 2) (n + 4)) (n + 2)).write 6
    (bodyCode r)
  let next := (body.leave (.branch (Register.mk (r + 14) .bool) (n + 3) (n + 5)) (n + 3)).write 2
    (nextCode r)
  let equal := (next.leave (.jump (n + 1)) (n + 4)).write 0 (trueCode r)
  (equal.leave (.jump (n + 5)) (n + 5)).write 1 (endCode r)

def compared (f : FunctionState) (left right : Ir.Value) : FunctionState :=
  (f.compareHead f.function.nextRegister left right).compareBlocks.compareCode
    f.function.nextRegister f.size

end FunctionState

namespace Emit

variable {f : FunctionState}

theorem forms_stringParts (v : Ir.Value) (hr : f.function.nextRegister = r)
    (hc : f.current < f.size) :
    Forms (stringParts v) f (⟨r, .markTo .u8 false⟩, ⟨r + 1, .usize⟩)
      (f.write 2 [.extract ⟨r, .markTo .u8 false⟩ v 0, .extract ⟨r + 1, .usize⟩ v 1]) := by
  refine (forms_intern _).bind ((forms_compute _ _ hr hc).bind ?_)
  refine (forms_compute (r := r + 1) _ _ (by simp [hr]) (by simpa using hc)).bind ?_
  rw [FunctionState.write_write]
  exact forms_return _

theorem forms_byteAt (data position : Ir.Value) (hr : f.function.nextRegister = r)
    (hc : f.current < f.size) :
    Forms (byteAt data position) f ⟨r + 1, .u8⟩
      (f.write 2 [.elementPtr ⟨r, .markTo .u8 false⟩ data .u8 position,
        .load ⟨r + 1, .u8⟩ (Register.mk r (.markTo .u8 false))]) := by
  refine Forms.bind ((forms_intern _).bind (forms_compute _ _ hr hc)) ?_
  have hload := forms_load (f := f.write 1 [.elementPtr ⟨r, .markTo .u8 false⟩ data .u8 position])
    (Register.mk r (.markTo .u8 false)) .u8 (r := r + 1) (by simp [hr]) (by simpa using hc)
  rw [FunctionState.write_write] at hload
  exact hload

theorem forms_compareStrings (left right : Ir.Value) (hc : f.current < f.size)
    (he : f.function.entry < f.size) :
    Forms (compareStrings left right) f ⟨f.function.nextRegister + 17, .bool⟩
      (f.compared left right) := by
  obtain ⟨r, hr⟩ : ∃ r, f.function.nextRegister = r := ⟨_, rfl⟩
  refine (forms_stringParts left hr hc).bind ?_
  refine (forms_stringParts (r := r + 2) right (by simp [hr]) (by simpa using hc)).bind ?_
  rw [FunctionState.write_write]
  refine (forms_alloca (r := r + 4) .bool _ (by simp [hr]) (by simpa using he)).bind ?_
  refine (forms_alloca (r := r + 5) .usize _ (by simp [hr]) (by simpa using he)).bind ?_
  refine (forms_store _ _ (by simpa using hc)).bind ?_
  refine (forms_store _ _ (by simpa using hc)).bind ?_
  rw [FunctionState.write_write]
  unfold FunctionState.compared
  rw [hr]
  change Forms _ (f.compareHead r left right) _ _
  have hsize : (f.compareHead r left right).size = f.size := by simp
  have hcurrent : (f.compareHead r left right).current < f.size := by simpa using hc
  have hnext : (f.compareHead r left right).function.nextRegister = r + 6 := by simp [hr]
  -- the rest is written from whatever the head has left
  generalize f.compareHead r left right = g at *
  generalize f.size = n at *
  refine (forms_newBlock (n := n) _ hsize).bind ?_
  refine (forms_newBlock (n := n + 1) _ (by simp [hsize])).bind ?_
  refine (forms_newBlock (n := n + 2) _ (by simp [hsize])).bind ?_
  refine (forms_newBlock (n := n + 3) _ (by simp [hsize])).bind ?_
  refine (forms_newBlock (n := n + 4) _ (by simp [hsize])).bind ?_
  refine (forms_newBlock (n := n + 5) _ (by simp [hsize])).bind ?_
  change Forms _ g.compareBlocks _ _
  have hsize : g.compareBlocks.size = n + 6 := by simp [hsize]
  have hcurrent : g.compareBlocks.current < n + 6 := Nat.lt_add_right 6 (by simpa using hcurrent)
  have hnext : g.compareBlocks.function.nextRegister = r + 6 := by simp [hnext]
  generalize g.compareBlocks = g at *
  refine forms_leave (.jump n) n (hsize ▸ hcurrent) ?_
  refine (forms_compute (r := r + 6) _ _ (by simp [hnext]) (by simp [hsize])).bind ?_
  refine forms_leave (.branch (Register.mk (r + 6) .bool) (n + 1) (n + 5)) (n + 1)
    (by simp [hsize]) ?_
  refine (forms_load (r := r + 7) _ _ (by simp [hnext]) (by simp [hsize])).bind ?_
  refine (forms_compute (r := r + 8) _ _ (by simp [hnext]) (by simp [hsize])).bind ?_
  rw [FunctionState.write_write]
  refine forms_leave (.branch (Register.mk (r + 8) .bool) (n + 2) (n + 4)) (n + 2)
    (by simp [hsize]) ?_
  refine (forms_load (r := r + 9) _ _ (by simp [hnext]) (by simp [hsize])).bind ?_
  refine (forms_byteAt (r := r + 10) _ _ (by simp [hnext]) (by simp [hsize])).bind ?_
  refine (forms_byteAt (r := r + 12) _ _ (by simp [hnext]) (by simp [hsize])).bind ?_
  refine (forms_compute (r := r + 14) _ _ (by simp [hnext]) (by simp [hsize])).bind ?_
  simp only [FunctionState.write_write]
  refine forms_leave (.branch (Register.mk (r + 14) .bool) (n + 3) (n + 5)) (n + 3)
    (by simp [hsize]) ?_
  refine (forms_load (r := r + 15) _ _ (by simp [hnext]) (by simp [hsize])).bind ?_
  refine (forms_compute (r := r + 16) _ _ (by simp [hnext]) (by simp [hsize])).bind ?_
  refine (forms_store _ _ (by simp [hsize])).bind ?_
  simp only [FunctionState.write_write]
  refine forms_leave (.jump (n + 1)) (n + 4) (by simp [hsize]) ?_
  refine (forms_store _ _ (by simp [hsize])).bind ?_
  refine forms_leave (.jump (n + 5)) (n + 5) (by simp [hsize]) ?_
  exact forms_load (r := r + 17) _ _ (by simp [hnext]) (by simp [hsize])

end Emit

/-! ## The blocks of a comparison -/

namespace Ir.Block

variable {b : Ir.Block} {code : List Instr} {i : Instr}

@[simp] theorem toList_append : (b.append code).instrs.toList = b.instrs.toList ++ code := by
  simp [append]

theorem append_append (code' : List Instr) :
    (b.append code).append code' = b.append (code ++ code') := by
  unfold append
  rw [← List.append_toArray, Array.append_assoc]

/-- An allocation goes ahead of code without allocations. -/
theorem pushAlloca_append (h : code.takeWhile Instr.isAlloca = []) :
    (b.append code).pushAlloca i = (b.pushAlloca i).append code := by
  have hlead : (b.instrs.toList ++ code).takeWhile Instr.isAlloca =
      b.instrs.toList.takeWhile Instr.isAlloca := by
    rw [List.takeWhile_append, h, List.append_nil]
    split
    · rename_i hall
      exact (List.takeWhile_prefix _).eq_of_length hall |>.symm
    · rfl
  have hle : (b.instrs.toList.takeWhile Instr.isAlloca).length ≤ b.instrs.toList.length :=
    (List.takeWhile_prefix _).length_le
  unfold pushAlloca
  simp only [toList_append, hlead, List.drop_append_of_le_length hle]
  unfold append
  simp

theorem size_pushAlloca : (b.pushAlloca i).instrs.size = b.instrs.size + 1 := by
  have hle : (b.instrs.toList.takeWhile Instr.isAlloca).length ≤ b.instrs.size :=
    (List.takeWhile_prefix _).length_le
  unfold pushAlloca
  simp
  omega

theorem mem_pushAlloca : i ∈ (b.pushAlloca i).instrs := by
  unfold pushAlloca
  simp

theorem mem_pushAlloca_of_mem {i' : Instr} (h : i' ∈ b.instrs) : i' ∈ (b.pushAlloca i).instrs := by
  have hmem : i' ∈ b.instrs.toList := Array.mem_toList_iff.mpr h
  rw [← List.takeWhile_append_dropWhile (p := Instr.isAlloca) (l := b.instrs.toList)] at hmem
  rw [← Array.mem_toList_iff, Function.pushAlloca_toList]
  rcases List.mem_append.mp hmem with h | h
  · exact List.mem_append_left _ h
  · exact List.mem_append_right _ (List.mem_cons_of_mem _ h)

def reserveTwo (b : Ir.Block) (r : Nat) : Ir.Block :=
  (b.pushAlloca (.alloca (result r) .bool (some "str.cmp.result"))).pushAlloca
    (.alloca (index r) .usize (some "str.cmp.index"))

@[simp] theorem term_reserveTwo (r : Nat) : (b.reserveTwo r).term = b.term := rfl

@[simp] theorem size_reserveTwo (r : Nat) :
    (b.reserveTwo r).instrs.size = b.instrs.size + 2 := by
  simp only [reserveTwo, size_pushAlloca]

theorem mem_reserveTwo (r : Nat) :
    .alloca (result r) .bool (some "str.cmp.result") ∈ (b.reserveTwo r).instrs ∧
      .alloca (index r) .usize (some "str.cmp.index") ∈ (b.reserveTwo r).instrs :=
  ⟨mem_pushAlloca_of_mem mem_pushAlloca, mem_pushAlloca⟩

theorem close_append {label : Option String} {t : Ir.Terminator} :
    ((⟨label, #[], none⟩ : Ir.Block).append code).close t = ⟨label, code.toArray, some t⟩ := by
  simp [append, close, isClosed]

end Ir.Block

namespace FunctionState

structure Writable (f : FunctionState) : Prop where
  current : f.current < f.size
  isOpen : f.IsOpen
  entry : f.function.entry < f.size

def position (f : FunctionState) : Nat :=
  ((f.function.block? f.current).map (·.instrs.size)).getD 0

/-- Where it is once two allocations have been put ahead of the code of the entry block. -/
def resume (f : FunctionState) : Nat := f.position + if f.current = f.function.entry then 2 else 0

/-- One function comes from another by comparing two strings and some code after that. Memory
is reserved ahead of what stands in the entry block. -/
structure Compares (f g : FunctionState) (left right : Ir.Value) (ending : List Instr) : Prop where
  head : ∃ (b : Ir.Block) (earlier : List Instr), g.function.block? f.current = some b ∧
    b.instrs.toList = earlier ++ (partsCode f.function.nextRegister left right ++
      initCode f.function.nextRegister) ∧
    earlier.length = f.resume ∧ b.term = some (.jump f.size)
  reserved : ∃ b : Ir.Block, g.function.block? g.function.entry = some b ∧
    .alloca (Comparison.result f.function.nextRegister) .bool (some "str.cmp.result") ∈ b.instrs ∧
    .alloca (index f.function.nextRegister) .usize (some "str.cmp.index") ∈ b.instrs
  length : g.function.block? f.size = some ⟨some "str.cmp.length",
    (lengthCode f.function.nextRegister).toArray,
    some (.branch (Register.mk (f.function.nextRegister + 6) .bool) (f.size + 1) (f.size + 5))⟩
  cond : g.function.block? (f.size + 1) = some ⟨some "str.cmp.cond",
    (condCode f.function.nextRegister).toArray,
    some (.branch (Register.mk (f.function.nextRegister + 8) .bool) (f.size + 2) (f.size + 4))⟩
  body : g.function.block? (f.size + 2) = some ⟨some "str.cmp.body",
    (bodyCode f.function.nextRegister).toArray,
    some (.branch (Register.mk (f.function.nextRegister + 14) .bool) (f.size + 3) (f.size + 5))⟩
  next : g.function.block? (f.size + 3) = some ⟨some "str.cmp.next",
    (nextCode f.function.nextRegister).toArray, some (.jump (f.size + 1))⟩
  equal : g.function.block? (f.size + 4) = some ⟨some "str.cmp.true",
    (trueCode f.function.nextRegister).toArray, some (.jump (f.size + 5))⟩
  ending : g.function.block? (f.size + 5) = some ⟨some "str.cmp.end",
    (endCode f.function.nextRegister ++ ending).toArray, none⟩
  current : g.current = f.size + 5

variable {f g : FunctionState} {left right : Ir.Value}

theorem block?_compareBlocks_of_lt {j : BlockId} (hj : j < f.size) :
    f.compareBlocks.function.block? j = f.function.block? j := by
  have hne (k : Nat) : ¬j = f.size + k := (Nat.lt_add_right k hj).ne
  simp [compareBlocks, block?_addBlock, Nat.add_assoc, hne, hj.ne]

/-- The code of the six blocks ends the block that it starts from, and no other. -/
theorem block?_compareCode_of_lt {j : BlockId} {r n : Nat} (hj : j < n) :
    (f.compareCode r n).function.block? j =
      if f.current = j then (f.function.block? j).map (·.close (.jump n))
      else f.function.block? j := by
  have hne : ¬n = j := hj.ne'
  have hne' (k : Nat) : ¬n + k = j := (Nat.lt_add_right k hj).ne'
  simp [compareCode, block?_write, block?_leave, hne, hne']

theorem block?_compareHead {j : BlockId} {r : Nat} (hr : f.function.nextRegister = r) :
    (f.compareHead r left right).function.block? j = (f.function.block? j).map fun b =>
      let b := if f.function.entry = j then b.reserveTwo r else b
      if f.current = j then b.append (partsCode r left right ++ initCode r) else b := by
  unfold compareHead
  rw [block?_write, block?_reserve, block?_reserve, block?_write]
  simp only [current_reserve, current_write, entry_reserve, entry_write, nextRegister_reserve,
    nextRegister_write, hr]
  have hcode : (partsCode r left right).takeWhile Instr.isAlloca = [] := rfl
  cases f.function.block? j with
  | none => simp
  | some b =>
    simp only [Option.map_some]
    by_cases he : f.function.entry = j <;> by_cases hcur : f.current = j
    · simp only [if_pos he, if_pos hcur, Option.map_some, Ir.Block.pushAlloca_append hcode,
        Ir.Block.append_append]
      rfl
    · simp only [if_pos he, if_neg hcur, Option.map_some]
      rfl
    · simp only [if_neg he, if_pos hcur, Option.map_some, Ir.Block.append_append]
    · simp only [if_neg he, if_neg hcur]

theorem block?_compared_of_lt {j : BlockId} (hj : j < f.size) :
    (f.compared left right).function.block? j = (f.function.block? j).map fun b =>
      let b := if f.function.entry = j then b.reserveTwo f.function.nextRegister else b
      if f.current = j then
        (b.append (partsCode f.function.nextRegister left right ++
          initCode f.function.nextRegister)).close (.jump f.size)
      else b := by
  unfold compared
  rw [block?_compareCode_of_lt hj, block?_compareBlocks_of_lt (by simpa using hj),
    block?_compareHead rfl]
  simp only [current_compareBlocks, current_compareHead]
  split
  · rw [Option.map_map]
    rfl
  · rfl

theorem compares_compared (left right : Ir.Value) (hf : f.Writable) :
    f.Compares (f.compared left right) left right [] := by
  have hc := hf.current
  have he := hf.entry
  have hne : ¬f.current = f.size := hc.ne
  have hne' (k : Nat) : ¬f.current = f.size + k := (Nat.lt_add_right k hc).ne
  constructor
  case length | cond | body | next | equal =>
    simp [compared, compareCode, block?_write, block?_leave, compareBlocks,
      block?_addBlock, Ir.Block.close_append, Nat.add_assoc, hne, hne']
  case ending =>
    simp [compared, compareCode, block?_write, block?_leave, compareBlocks,
      block?_addBlock, Ir.Block.append, hne']
  case current => rfl
  case head =>
    obtain ⟨b, hb⟩ : ∃ b, f.function.block? f.current = some b :=
      ⟨_, Array.getElem?_eq_getElem hc⟩
    have hopen : b.term = none := by simpa [IsOpen, Ir.Function.term?, hb] using hf.isOpen
    rw [block?_compared_of_lt hc, hb, Option.map_some]
    dsimp only
    rw [if_pos rfl]
    refine ⟨_, _, rfl, (congrArg _ (Ir.Function.instrs_close _ _)).trans Ir.Block.toList_append, ?_⟩
    by_cases hentry : f.function.entry = f.current
    · simp [resume, position, hb, hentry, Ir.Block.close, Ir.Block.append, Ir.Block.isClosed, hopen]
    · simp [resume, position, hb, hentry, Ne.symm hentry, Ir.Block.close, Ir.Block.append,
        Ir.Block.isClosed, hopen]
  case reserved =>
    obtain ⟨b, hb⟩ : ∃ b, f.function.block? f.function.entry = some b :=
      ⟨_, Array.getElem?_eq_getElem he⟩
    have hmem := b.mem_reserveTwo f.function.nextRegister
    have hentry : (f.compared left right).function.entry = f.function.entry := by
      simp [compared, compareCode]
    rw [hentry, block?_compared_of_lt he, hb]
    refine ⟨_, rfl, ?_⟩
    dsimp only
    rw [if_pos rfl]
    split
    · rw [Ir.Function.instrs_close]
      exact ⟨Array.mem_append_left _ hmem.1, Array.mem_append_left _ hmem.2⟩
    · exact hmem

/-- Code after a comparison is written to its last block. -/
theorem Compares.write (h : f.Compares g left right []) (hc : f.current < f.size)
    (registers : Nat) (code : List Instr) :
    f.Compares (g.write registers code) left right code := by
  have hsame {j : BlockId} (hj : j < f.size + 5) :
      (g.write registers code).function.block? j = g.function.block? j := by
    rw [block?_write, h.current, if_neg (Nat.ne_of_gt hj)]
  have hblock {k : Nat} (hk : k < 5) : f.size + k < f.size + 5 := Nat.add_lt_add_left hk _
  constructor
  case head =>
    rw [hsame (Nat.lt_add_right 5 hc)]
    exact h.head
  case length => exact (hsame (hblock (k := 0) (by decide))).trans h.length
  case cond => exact (hsame (hblock (by decide))).trans h.cond
  case body => exact (hsame (hblock (by decide))).trans h.body
  case next => exact (hsame (hblock (by decide))).trans h.next
  case equal => exact (hsame (hblock (by decide))).trans h.equal
  case ending =>
    rw [block?_write, h.current, if_pos rfl, h.ending]
    simp [Ir.Block.append]
  case current => exact h.current
  case reserved =>
    obtain ⟨b, hb, hresult, hindex⟩ := h.reserved
    rw [block?_write, entry_write, hb]
    split
    · exact ⟨b.append code, rfl, Array.mem_append_left _ hresult, Array.mem_append_left _ hindex⟩
    · exact ⟨b, rfl, hresult, hindex⟩

end FunctionState

namespace Comparison

def answer (op : BinaryOp) (r : Nat) : Register :=
  if op = .ne then ⟨r + 18, .bool⟩ else ⟨r + 17, .bool⟩

def answerCode (op : BinaryOp) (r : Nat) : List Instr :=
  if op = .ne then
    [.arith ⟨r + 18, .bool⟩ .xor (Register.mk (r + 17) .bool) (Ir.Const.bool .bool true)]
  else []

end Comparison

/-- Strings that are not both known are compared by code. -/
theorem Emit.forms_lowerStringEquality {f : FunctionState} (op : BinaryOp) {left right : Value}
    (range : Span)
    (hknown : left.known.bind Constant.asStr? = none ∨ right.known.bind Constant.asStr? = none)
    (hf : f.Writable) :
    ∃ g, f.Compares g left.ir right.ir (answerCode op f.function.nextRegister) ∧
      Forms (lowerStringEquality op left right range) f
        (.temporary (answer op f.function.nextRegister) .bool range) g := by
  have hrun := forms_compareStrings left.ir right.ir hf.current hf.entry
  have hcompares := FunctionState.compares_compared left.ir right.ir hf
  have hunknown : lowerStringEquality op left right range = (do
      let equal ← compareStrings left.ir right.ir
      if op == .ne then
        let differs ← compute .bool (.arith · .xor equal (Ir.Const.bool .bool true))
        return .temporary differs .bool range
      else return .temporary equal .bool range) := by
    unfold lowerStringEquality
    split
    · rename_i hl hr
      exact absurd hknown (by simp [hl, hr])
    · rfl
  rw [hunknown]
  by_cases hop : op = .ne
  · subst hop
    refine ⟨_, hcompares.write hf.current 1 _, hrun.bind ?_⟩
    exact (forms_compute (r := f.function.nextRegister + 18) _ _
      (by simp [FunctionState.compared, FunctionState.compareCode])
      (by simp [FunctionState.compared, FunctionState.compareCode])).bind (forms_return _)
  · refine ⟨f.compared left.ir right.ir, ?_, hrun.bind ?_⟩
    · simpa only [answerCode, if_neg hop] using hcompares
    · simp only [answer, beq_iff_eq, if_neg hop]
      exact forms_return _

end Staged
