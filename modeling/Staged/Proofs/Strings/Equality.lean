/-
  Staged.Proofs.Strings.Equality — comparing strings when the program runs.

  The loop keeps the position up to which the strings have been compared in one slot and the
  result in another one (`Scene.Comparing`), and the strings themselves stay as they are. What
  the code of each block does to the position and the result is a `Scene.Leads` lemma. Only the
  block that compares bytes reads from the strings, at a position below their common length.

  From a position on, the loop finds out whether the rest of the strings is the same
  (`Scene.leads_loop`); it does so in as many rounds as bytes are left.
-/

import Staged.Constant.Fold
import Staged.Proofs.Strings.Blocks
import Staged.Proofs.Strings.Machine

namespace Staged

open Ir (Address BlockId Config Datum Instr Machine Register Runs Text execAll?)
open Comparison (leftData leftLength rightData rightLength result index answer answerCode)

/-- An operand is a string. It was there before the code of a function that follows: its
register is one of the earlier ones, and its bytes are not in memory that is reserved later on.
A word can hold its length. -/
structure Ir.Text.Operand {t : TypeTable} (x : Text t.pointerWidth) (strings : Array String)
    (f : FunctionState) (σ : Machine t.pointerWidth) (v : Ir.Value) : Prop where
  datum : v.datum? t strings σ = some x.datum
  earlier : ∀ r, v = .reg r → r.id < f.function.nextRegister
  bytes : x.StoredIn σ
  short : x.bytes.length < 2 ^ t.pointerWidth
  apart : ∀ k, x.address.object = .slot k → k < f.function.nextRegister

theorem Ir.Text.Operand.assign {t : TypeTable} {x : Text t.pointerWidth} {strings : Array String}
    {f : FunctionState} {σ : Machine t.pointerWidth} {v : Ir.Value}
    (h : x.Operand strings f σ v) {r : Register} (hr : f.function.nextRegister ≤ r.id)
    (d : Datum t.pointerWidth) : x.Operand strings f (σ.assign r d) v where
  datum := (Ir.datum?_assign_of_ne fun r' hv => by have := h.earlier r' hv; omega).trans h.datum
  earlier := h.earlier
  bytes := h.bytes
  short := h.short
  apart := h.apart

def FunctionState.Reserved (f g : FunctionState) {width : Nat} (σ : Machine width) : Prop :=
  ∀ b, g.function.block? g.function.entry = some b → ∀ r type name,
    .alloca r type name ∈ b.instrs → f.function.nextRegister ≤ r.id →
      σ.registers r.id = some (.pointer r.slot)

structure Scene (t : TypeTable) where
  op : BinaryOp
  strings : Array String
  /-- The function before the code of the comparison is written, and after that. -/
  before : FunctionState
  after : FunctionState
  start : Machine t.pointerWidth
  leftOperand : Ir.Value
  rightOperand : Ir.Value
  left : Text t.pointerWidth
  right : Text t.pointerWidth
  compares : before.Compares after leftOperand rightOperand
    (answerCode op before.function.nextRegister)
  reserved : before.Reserved after start
  leftIs : left.Operand strings before start leftOperand
  rightIs : right.Operand strings before start rightOperand

namespace Scene

variable {t : TypeTable} (c : Scene t)

def first : Nat := c.before.function.nextRegister

def block : BlockId := c.before.size

/-- What the comparison may read: the bytes of the strings, and its own slots. -/
def MayRead (a : Address t.pointerWidth) : Prop :=
  a = (result c.first).slot ∨ a = (index c.first).slot ∨ c.left.Covers a ∨ c.right.Covers a

structure Comparing (position : Nat) (equal : Bool) (σ : Machine t.pointerWidth) : Prop where
  leftData : σ.registers c.first = some (.pointer c.left.address)
  leftLength : σ.registers (c.first + 1) =
    some (.word t.pointerWidth (BitVec.ofNat t.pointerWidth c.left.bytes.length))
  rightData : σ.registers (c.first + 2) = some (.pointer c.right.address)
  rightLength : σ.registers (c.first + 3) =
    some (.word t.pointerWidth (BitVec.ofNat t.pointerWidth c.right.bytes.length))
  resultSlot : σ.registers (c.first + 4) = some (.pointer (result c.first).slot)
  indexSlot : σ.registers (c.first + 5) = some (.pointer (index c.first).slot)
  result : σ.memory (result c.first).slot = some (.word 1 (BitVec.ofBool equal))
  index : σ.memory (index c.first).slot =
    some (.word t.pointerWidth (BitVec.ofNat t.pointerWidth position))
  left : c.left.StoredIn σ
  right : c.right.StoredIn σ
  reads : ∀ a ∈ σ.reads, a ∈ c.start.reads ∨ c.MayRead a

/-! ## What instructions keep -/

section

variable {c} {position : Nat} {equal : Bool} {σ : Machine t.pointerWidth}

theorem left_ne_slot (i k : Nat) (hk : c.first ≤ k) :
    c.left.address.plus i ≠ (Register.mk k .void).slot := fun h =>
  absurd (c.leftIs.apart k (congrArg Address.object h)) (Nat.not_lt.mpr hk)

theorem right_ne_slot (i k : Nat) (hk : c.first ≤ k) :
    c.right.address.plus i ≠ (Register.mk k .void).slot := fun h =>
  absurd (c.rightIs.apart k (congrArg Address.object h)) (Nat.not_lt.mpr hk)

theorem resultSlot_ne_indexSlot :
    ((result c.first).slot : Address t.pointerWidth) ≠ (index c.first).slot := by
  simp [Register.slot, result, index]

/-- Registers after the first six are free. -/
theorem Comparing.assign (h : c.Comparing position equal σ) {r : Register}
    (hr : c.first + 6 ≤ r.id) (d : Datum t.pointerWidth) :
    c.Comparing position equal (σ.assign r d) := by
  have hkeep {k : Nat} (hk : k < 6) :
      (σ.assign r d).registers (c.first + k) = σ.registers (c.first + k) := by
    rw [Machine.registers_assign, if_neg]
    omega
  exact {
    leftData := (hkeep (k := 0) (by decide)).trans h.leftData
    leftLength := (hkeep (by decide)).trans h.leftLength
    rightData := (hkeep (by decide)).trans h.rightData
    rightLength := (hkeep (by decide)).trans h.rightLength
    resultSlot := (hkeep (by decide)).trans h.resultSlot
    indexSlot := (hkeep (by decide)).trans h.indexSlot
    result := h.result
    index := h.index
    left := h.left
    right := h.right
    reads := h.reads }

theorem Comparing.read (h : c.Comparing position equal σ) {a : Address t.pointerWidth}
    (ha : c.MayRead a) : c.Comparing position equal (σ.read a) :=
  { h with
    reads := fun b hb => by
      rcases List.mem_cons.mp hb with rfl | hb
      · exact .inr ha
      · exact h.reads b hb }

theorem Comparing.setIndex (h : c.Comparing position equal σ) (i : Nat) :
    c.Comparing i equal (σ.write (Comparison.index c.first).slot
      (.word t.pointerWidth (BitVec.ofNat t.pointerWidth i))) :=
  { h with
    result := (if_neg resultSlot_ne_indexSlot).trans h.result
    index := if_pos rfl
    left := fun j b hb =>
      (if_neg (left_ne_slot j _ (Nat.le_add_right _ 5))).trans (h.left j b hb)
    right := fun j b hb =>
      (if_neg (right_ne_slot j _ (Nat.le_add_right _ 5))).trans (h.right j b hb) }

theorem Comparing.setResult (h : c.Comparing position equal σ) (b : Bool) :
    c.Comparing position b (σ.write (Comparison.result c.first).slot
      (.word 1 (BitVec.ofBool b))) :=
  { h with
    result := if_pos rfl
    index := (if_neg resultSlot_ne_indexSlot.symm).trans h.index
    left := fun j x hx =>
      (if_neg (left_ne_slot j _ (Nat.le_add_right _ 4))).trans (h.left j x hx)
    right := fun j x hx =>
      (if_neg (right_ne_slot j _ (Nat.le_add_right _ 4))).trans (h.right j x hx) }

theorem mayRead_result : c.MayRead (result c.first).slot := .inl rfl

theorem mayRead_index : c.MayRead (index c.first).slot := .inr (.inl rfl)

theorem mayRead_left {i : Nat} (hi : i < c.left.bytes.length) :
    c.MayRead (c.left.address.plus i) := .inr (.inr (.inl ⟨i, hi, rfl⟩))

theorem mayRead_right {i : Nat} (hi : i < c.right.bytes.length) :
    c.MayRead (c.right.address.plus i) := .inr (.inr (.inr ⟨i, hi, rfl⟩))

end

/-! ## The blocks -/

structure Stage where
  block : BlockId
  position : Nat
  equal : Bool

def Leads (s s' : Stage) : Prop :=
  ∀ σ, c.Comparing s.position s.equal σ → ∃ σ', c.Comparing s'.position s'.equal σ' ∧
    Runs t c.strings c.after.function ⟨s.block, 0, σ⟩ ⟨s'.block, 0, σ'⟩

variable {c} {s s' s'' : Stage} {i : Nat} {equal : Bool}

theorem Leads.trans (h : c.Leads s s') (h' : c.Leads s' s'') : c.Leads s s'' := by
  intro σ hσ
  obtain ⟨σ', hσ', hrun⟩ := h σ hσ
  obtain ⟨σ'', hσ'', hrun'⟩ := h' σ' hσ'
  exact ⟨σ'', hσ'', hrun.trans hrun'⟩

/-- A block is executed from its start. -/
theorem leads_of_execAll? {b : Ir.Block} {j k : BlockId} {i i' : Nat} {equal equal' : Bool}
    (hb : c.after.function.block? j = some b)
    (h : ∀ σ, c.Comparing i equal σ → ∃ σ', c.Comparing i' equal' σ' ∧
      execAll? t c.strings σ b.instrs.toList = some σ' ∧
      b.term.bind (Ir.Terminator.next? t c.strings σ') = some k) :
    c.Leads ⟨j, i, equal⟩ ⟨k, i', equal'⟩ := by
  intro σ hσ
  obtain ⟨σ', hσ', hexec, hnext⟩ := h σ hσ
  exact ⟨σ', hσ', Ir.runs_block [] hb rfl hexec hnext⟩

theorem ofNat_beq_ofNat {w m n : Nat} (hm : m < 2 ^ w) (hn : n < 2 ^ w) :
    (BitVec.ofNat w m == BitVec.ofNat w n) = decide (m = n) := by
  rw [Bool.eq_iff_iff, beq_iff_eq, decide_eq_true_iff, ← BitVec.toNat_inj, BitVec.toNat_ofNat,
    BitVec.toNat_ofNat, Nat.mod_eq_of_lt hm, Nat.mod_eq_of_lt hn]

theorem ult_ofNat {w m n : Nat} (hm : m < 2 ^ w) (hn : n < 2 ^ w) :
    (BitVec.ofNat w m).ult (BitVec.ofNat w n) = decide (m < n) := by
  rw [BitVec.ult, BitVec.toNat_ofNat, BitVec.toNat_ofNat, Nat.mod_eq_of_lt hm, Nat.mod_eq_of_lt hn]

/-- A block that ends with a branch on what it has found out. -/
theorem leads_branch {b : Ir.Block} {j k k' : BlockId} {n : Nat} {type : Ty} {p : Prop}
    [Decidable p] (hb : c.after.function.block? j = some b)
    (hterm : b.term = some (.branch (Register.mk (c.first + 6 + n) type) k k'))
    (h : ∀ σ, c.Comparing i equal σ → ∃ σ', c.Comparing i equal σ' ∧
      execAll? t c.strings σ b.instrs.toList =
        some (σ'.assign ⟨c.first + 6 + n, type⟩ (.word 1 (BitVec.ofBool (decide p))))) :
    c.Leads ⟨j, i, equal⟩ ⟨if p then k else k', i, equal⟩ := by
  refine leads_of_execAll? hb fun σ hσ => ?_
  obtain ⟨σ', hσ', hexec⟩ := h σ hσ
  refine ⟨_, hσ'.assign (Nat.le_add_right _ _) _, hexec, ?_⟩
  rw [hterm, Option.bind_some, Ir.next?_branch Ir.datum?_assign]
  simp only [decide_eq_true_eq]

/-- Strings of different lengths are not compared any further. -/
theorem leads_length (equal : Bool) : c.Leads ⟨c.block, i, equal⟩
    ⟨if c.left.bytes.length = c.right.bytes.length then c.block + 1 else c.block + 5, i,
      equal⟩ := by
  refine leads_branch (n := 0) c.compares.length rfl fun σ hσ => ?_
  exact ⟨σ, hσ, Ir.execAll?_cons (Ir.exec?_compare hσ.leftLength hσ.rightLength
    (congrArg some (ofNat_beq_ofNat c.leftIs.short c.rightIs.short))) Ir.execAll?_nil⟩

/-- The loop goes on as long as bytes are left. -/
theorem leads_cond (equal : Bool) (hi : i ≤ c.left.bytes.length) : c.Leads ⟨c.block + 1, i, equal⟩
    ⟨if i < c.left.bytes.length then c.block + 2 else c.block + 4, i, equal⟩ := by
  refine leads_branch (n := 2) c.compares.cond rfl fun σ hσ => ?_
  have hσ₁ := (hσ.read mayRead_index).assign (r := ⟨c.first + 7, .usize⟩) (by simp)
    (.word t.pointerWidth (BitVec.ofNat t.pointerWidth i))
  exact ⟨_, hσ₁, Ir.execAll?_cons (Ir.exec?_load hσ.indexSlot hσ.index) <|
    Ir.execAll?_cons (Ir.exec?_compare Ir.datum?_assign hσ₁.leftLength (congrArg some
      (ult_ofNat (Nat.lt_of_le_of_lt hi c.leftIs.short) c.leftIs.short))) Ir.execAll?_nil⟩

/-- Bytes that differ end the loop. -/
theorem leads_body (equal : Bool) (hl : i < c.left.bytes.length)
    (hr : i < c.right.bytes.length) :
    c.Leads ⟨c.block + 2, i, equal⟩
      ⟨if c.left.bytes[i] = c.right.bytes[i] then c.block + 3 else c.block + 5, i, equal⟩ := by
  refine leads_branch (n := 8) c.compares.body rfl fun σ hσ => ?_
  have hσ₁ := (hσ.read mayRead_index).assign (r := ⟨c.first + 9, .usize⟩) (by simp)
    (.word t.pointerWidth (BitVec.ofNat t.pointerWidth i))
  have hσ₂ := hσ₁.assign (r := ⟨c.first + 10, .markTo .u8 false⟩) (by simp)
    (.pointer (c.left.address.plus i))
  have hσ₃ := (hσ₂.read (mayRead_left hl)).assign (r := ⟨c.first + 11, .u8⟩) (by simp)
    (.word 8 c.left.bytes[i].toBitVec)
  have hσ₄ := hσ₃.assign (r := ⟨c.first + 12, .markTo .u8 false⟩) (by simp)
    (.pointer (c.right.address.plus i))
  have hσ₅ := (hσ₄.read (mayRead_right hr)).assign (r := ⟨c.first + 13, .u8⟩) (by simp)
    (.word 8 c.right.bytes[i].toBitVec)
  have hleft := List.getElem?_eq_getElem hl
  have hright := List.getElem?_eq_getElem hr
  have hbyte : Ir.Pred.eq.onWords? c.left.bytes[i].toBitVec c.right.bytes[i].toBitVec =
      some (decide (c.left.bytes[i] = c.right.bytes[i])) := by
    simp only [Ir.Pred.onWords?, UInt8.toBitVec_inj, beq_eq_decide]
  exact ⟨_, hσ₅,
    Ir.execAll?_cons (Ir.exec?_load hσ.indexSlot hσ.index) <|
    Ir.execAll?_cons (Ir.exec?_elementPtr hσ₁.leftData Ir.datum?_assign) <|
    Ir.execAll?_cons (Ir.exec?_load Ir.datum?_assign (hσ₂.left i _ hleft)) <|
    Ir.execAll?_cons (Ir.exec?_elementPtr hσ₃.rightData (by simp [Ir.Value.datum?])) <|
    Ir.execAll?_cons (Ir.exec?_load Ir.datum?_assign (hσ₄.right i _ hright)) <|
    Ir.execAll?_cons (Ir.exec?_compare (by simp [Ir.Value.datum?]) Ir.datum?_assign hbyte)
      Ir.execAll?_nil⟩

/-- The loop takes one byte after the other. -/
theorem leads_next : c.Leads ⟨c.block + 3, i, equal⟩ ⟨c.block + 1, i + 1, equal⟩ := by
  refine leads_of_execAll? c.compares.next fun σ hσ => ?_
  have hσ₁ := (hσ.read mayRead_index).assign (r := ⟨c.first + 15, .usize⟩) (by simp)
    (.word t.pointerWidth (BitVec.ofNat t.pointerWidth i))
  have hσ₂ := hσ₁.assign (r := ⟨c.first + 16, .usize⟩) (by simp)
    (.word t.pointerWidth (BitVec.ofNat t.pointerWidth (i + 1)))
  have hone {σ : Machine t.pointerWidth} : (Ir.Value.const (.int .usize 1)).datum? t c.strings σ =
      some (.word t.pointerWidth (BitVec.ofNat t.pointerWidth 1)) :=
    rfl
  exact ⟨_, hσ₂.setIndex (i + 1),
    Ir.execAll?_cons (Ir.exec?_load hσ.indexSlot hσ.index) <|
    Ir.execAll?_cons (Ir.exec?_arith Ir.datum?_assign hone
      (congrArg some (BitVec.ofNat_add_ofNat i 1))) <|
    Ir.execAll?_cons (Ir.exec?_store Ir.datum?_assign hσ₂.indexSlot) Ir.execAll?_nil, rfl⟩

/-- All bytes were the same. -/
theorem leads_equal : c.Leads ⟨c.block + 4, i, equal⟩ ⟨c.block + 5, i, true⟩ := by
  refine leads_of_execAll? c.compares.equal fun σ hσ => ?_
  exact ⟨_, hσ.setResult true,
    Ir.execAll?_cons (Ir.exec?_store rfl hσ.resultSlot) Ir.execAll?_nil, rfl⟩

/-! ## The loop -/

/-- From a position on, the loop compares the rest of the strings. -/
theorem leads_loop (hlength : c.left.bytes.length = c.right.bytes.length)
    (hi : i ≤ c.left.bytes.length) : ∃ i', c.Leads ⟨c.block + 1, i, false⟩
      ⟨c.block + 5, i', decide (c.left.bytes.drop i = c.right.bytes.drop i)⟩ := by
  -- as many rounds as bytes are left
  obtain ⟨k, hk⟩ := Nat.le.dest hi
  induction k generalizing i with
  | zero =>
    have hend : ¬i < c.left.bytes.length := by omega
    have hcond := leads_cond (c := c) false hi
    rw [if_neg hend] at hcond
    have hrest : c.left.bytes.drop i = c.right.bytes.drop i := by
      rw [List.drop_eq_nil_of_le (by omega), List.drop_eq_nil_of_le (by omega)]
    refine ⟨i, ?_⟩
    rw [decide_eq_true hrest]
    exact hcond.trans leads_equal
  | succ k ih =>
    have hl : i < c.left.bytes.length := by omega
    have hr : i < c.right.bytes.length := hlength ▸ hl
    have hcond := leads_cond (c := c) false hi
    rw [if_pos hl] at hcond
    have hbody := leads_body (c := c) false hl hr
    rw [List.drop_eq_getElem_cons hl, List.drop_eq_getElem_cons hr]
    by_cases hbyte : c.left.bytes[i] = c.right.bytes[i]
    · rw [if_pos hbyte] at hbody
      obtain ⟨i', hloop⟩ := ih hl (by omega)
      refine ⟨i', ?_⟩
      simp only [hbyte, List.cons.injEq, true_and]
      exact hcond.trans (hbody.trans (leads_next.trans hloop))
    · rw [if_neg hbyte] at hbody
      refine ⟨i, ?_⟩
      simp only [List.cons.injEq, hbyte, false_and, decide_false]
      exact hcond.trans hbody

/-- The comparison finds out whether the strings are the same. -/
theorem leads_comparison : ∃ i, c.Leads ⟨c.block, 0, false⟩
    ⟨c.block + 5, i, decide (c.left.bytes = c.right.bytes)⟩ := by
  have hlength := leads_length (c := c) (i := 0) false
  by_cases h : c.left.bytes.length = c.right.bytes.length
  · rw [if_pos h] at hlength
    obtain ⟨i, hloop⟩ := leads_loop (c := c) h (Nat.zero_le _)
    exact ⟨i, hlength.trans hloop⟩
  · rw [if_neg h] at hlength
    rw [decide_eq_false fun heq => h (congrArg List.length heq)]
    exact ⟨0, hlength⟩

/-! ## The ways in and out -/

variable (c) in
def opened : Machine t.pointerWidth :=
  (((c.start.assign (leftData c.first) (.pointer c.left.address)).assign (leftLength c.first)
    (.word t.pointerWidth (BitVec.ofNat t.pointerWidth c.left.bytes.length))).assign
      (rightData c.first) (.pointer c.right.address)).assign (rightLength c.first)
        (.word t.pointerWidth (BitVec.ofNat t.pointerWidth c.right.bytes.length))

theorem execAll?_parts : execAll? t c.strings c.start
    (Comparison.partsCode c.first c.leftOperand c.rightOperand) = some c.opened := by
  have hleft := c.leftIs.assign (r := leftData c.first) (Nat.le_refl _) (.pointer c.left.address)
  have hright := (c.rightIs.assign (r := leftData c.first) (Nat.le_refl _)
    (.pointer c.left.address)).assign (r := leftLength c.first) (Nat.le_add_right _ 1)
      (.word t.pointerWidth (BitVec.ofNat t.pointerWidth c.left.bytes.length))
  have hright' := hright.assign (r := rightData c.first) (Nat.le_add_right _ 2)
    (.pointer c.right.address)
  exact Ir.execAll?_cons (Ir.exec?_extract c.leftIs.datum rfl) <|
    Ir.execAll?_cons (Ir.exec?_extract hleft.datum rfl) <|
    Ir.execAll?_cons (Ir.exec?_extract hright.datum rfl) <|
    Ir.execAll?_cons (Ir.exec?_extract hright'.datum rfl) Ir.execAll?_nil

/-- The slots get their first values. -/
theorem runs_head : ∃ σ, c.Comparing 0 false σ ∧ Runs t c.strings c.after.function
    ⟨c.before.current, c.before.resume, c.start⟩ ⟨c.block, 0, σ⟩ := by
  obtain ⟨b, earlier, hb, hcode, hlength, hterm⟩ := c.compares.head
  obtain ⟨entry, hentry, hresult, hindex⟩ := c.compares.reserved
  have hresult : c.opened.registers (c.first + 4) = some (.pointer (result c.first).slot) := by
    refine Eq.trans ?_ (c.reserved entry hentry _ _ _ hresult (Nat.le_add_right _ _))
    simp [opened, leftData, leftLength, rightData, rightLength, first, result]
  have hindex : c.opened.registers (c.first + 5) = some (.pointer (index c.first).slot) := by
    refine Eq.trans ?_ (c.reserved entry hentry _ _ _ hindex (Nat.le_add_right _ _))
    simp [opened, leftData, leftLength, rightData, rightLength, first, index]
  have hinit : execAll? t c.strings c.opened (Comparison.initCode c.first) =
      some ((c.opened.write (result c.first).slot (.word 1 (BitVec.ofBool false))).write
        (index c.first).slot (.word t.pointerWidth (BitVec.ofNat t.pointerWidth 0))) :=
    Ir.execAll?_cons (Ir.exec?_store rfl hresult) <|
      Ir.execAll?_cons (Ir.exec?_store rfl hindex) Ir.execAll?_nil
  have hrun := Ir.runs_block (k := c.block) earlier hb hcode
    (Ir.execAll?_append execAll?_parts hinit) (by rw [hterm]; rfl)
  refine ⟨_, ?_, hlength ▸ hrun⟩
  exact {
    leftData := by simp [opened, leftData, leftLength, rightData, rightLength]
    leftLength := by simp [opened, leftLength, rightData, rightLength]
    rightData := by simp [opened, rightData, rightLength]
    rightLength := by simp [opened, rightLength]
    resultSlot := hresult
    indexSlot := hindex
    result := (if_neg resultSlot_ne_indexSlot).trans (if_pos rfl)
    index := if_pos rfl
    left := fun j x hx => (if_neg (left_ne_slot j _ (Nat.le_add_right _ 5))).trans <|
      (if_neg (left_ne_slot j _ (Nat.le_add_right _ 4))).trans (c.leftIs.bytes j x hx)
    right := fun j x hx => (if_neg (right_ne_slot j _ (Nat.le_add_right _ 5))).trans <|
      (if_neg (right_ne_slot j _ (Nat.le_add_right _ 4))).trans (c.rightIs.bytes j x hx)
    reads := fun a ha => .inl ha }

/-- The answer is computed from the result. -/
theorem runs_ending {i : Nat} {equal : Bool} {σ : Machine t.pointerWidth}
    (hσ : c.Comparing i equal σ) : ∃ σ', c.Comparing i equal σ' ∧
      Runs t c.strings c.after.function ⟨c.block + 5, 0, σ⟩
        ⟨c.after.current, c.after.position, σ'⟩ ∧
      (Ir.Value.reg (answer c.op c.first)).datum? t c.strings σ' =
        some (.word 1 (BitVec.ofBool (equal != (c.op == .ne)))) := by
  have hb := c.compares.ending
  have hposition : c.after.position =
      (Comparison.endCode c.first ++ answerCode c.op c.first).length := by
    rw [FunctionState.position, c.compares.current, hb]
    rfl
  obtain ⟨σ₁, hσ₁, hload, hresult⟩ : ∃ σ₁, c.Comparing i equal σ₁ ∧
      execAll? t c.strings σ (Comparison.endCode c.first) = some σ₁ ∧
      (Ir.Value.reg ⟨c.first + 17, .bool⟩).datum? t c.strings σ₁ =
        some (.word 1 (BitVec.ofBool equal)) :=
    ⟨_, (hσ.read mayRead_result).assign (by simp) _,
      Ir.execAll?_cons (Ir.exec?_load hσ.resultSlot hσ.result) Ir.execAll?_nil, Ir.datum?_assign⟩
  have hrun {σ' : Machine t.pointerWidth} (hanswer : execAll? t c.strings σ₁
      (answerCode c.op c.first) = some σ') : Runs t c.strings c.after.function
        ⟨c.block + 5, 0, σ⟩ ⟨c.after.current, c.after.position, σ'⟩ := by
    have h := Ir.runs_code [] [] hb (List.append_nil _).symm
      (Ir.execAll?_append hload hanswer)
    rw [List.length_nil, Nat.zero_add] at h
    rw [hposition, c.compares.current]
    exact h
  by_cases hop : c.op = .ne
  · have hσ₂ := hσ₁.assign (r := ⟨c.first + 18, .bool⟩) (by simp)
      (.word 1 (BitVec.ofBool (equal != true)))
    have hxor : Ir.Arith.xor.onWords? (BitVec.ofBool equal) (BitVec.ofBool true) =
        some (BitVec.ofBool (equal != true)) := by
      cases equal <;> rfl
    refine ⟨_, hσ₂, hrun ?_, ?_⟩
    · simp only [answerCode, if_pos hop]
      exact Ir.execAll?_cons (Ir.exec?_arith hresult rfl hxor) Ir.execAll?_nil
    · simp only [answer, hop, if_true]
      exact Ir.datum?_assign
  · refine ⟨_, hσ₁, hrun ?_, ?_⟩
    · simp only [answerCode, if_neg hop]
      exact Ir.execAll?_nil
    · simp only [answer, if_neg hop, beq_eq_false_iff_ne.mpr hop, Bool.bne_false]
      exact hresult

/-- The whole comparison. -/
theorem runs : ∃ σ, Runs t c.strings c.after.function
      ⟨c.before.current, c.before.resume, c.start⟩ ⟨c.after.current, c.after.position, σ⟩ ∧
    (Ir.Value.reg (answer c.op c.first)).datum? t c.strings σ =
      some (.word 1 (BitVec.ofBool (decide (c.left.bytes = c.right.bytes) != (c.op == .ne)))) ∧
    ∀ a ∈ σ.reads, a ∈ c.start.reads ∨ c.MayRead a := by
  obtain ⟨σ, hσ, hhead⟩ := runs_head (c := c)
  obtain ⟨i, hleads⟩ := leads_comparison (c := c)
  obtain ⟨σ', hσ', hrun⟩ := hleads σ hσ
  obtain ⟨σ'', hσ'', hending, hanswer⟩ := runs_ending hσ'
  exact ⟨σ'', hhead.trans (hrun.trans hending), hanswer, hσ''.reads⟩

/-- After that, the code goes on wherever it will be written. -/
theorem step?_eq_none {σ : Machine t.pointerWidth} :
    Ir.step? t c.strings c.after.function ⟨c.after.current, c.after.position, σ⟩ = none := by
  have hb := c.compares.ending
  rw [← c.compares.current] at hb
  rw [FunctionState.position, hb]
  exact Ir.step?_eq_none hb rfl

theorem MayRead.own_or_covers {a : Address t.pointerWidth} (h : c.MayRead a) :
    (∃ k, c.first ≤ k ∧ a.object = .slot k) ∨ c.left.Covers a ∨ c.right.Covers a := by
  rcases h with rfl | rfl | h
  · exact .inl ⟨c.first + 4, Nat.le_add_right _ _, rfl⟩
  · exact .inl ⟨c.first + 5, Nat.le_add_right _ _, rfl⟩
  · exact .inr h

end Scene

/-! ## Known strings -/

theorem toList_loop (b : ByteArray) (i : Nat) (bytes : List UInt8) :
    ByteArray.toList.loop b i bytes = bytes.reverse ++ b.data.toList.drop i := by
  fun_induction ByteArray.toList.loop b i bytes with
  | case1 i bytes hi ih =>
    have hget : b.get! i = b.data.toList[i] := getElem!_pos b.data i hi
    rw [ih, List.drop_eq_getElem_cons (i := i) hi, hget, List.reverse_cons, List.append_assoc]
    rfl
  | case2 i bytes hi =>
    rw [List.drop_eq_nil_of_le (Nat.le_of_not_lt hi), List.append_nil]

/-- A text is determined by its bytes. -/
theorem textBytes_inj {a b : String} : textBytes a = textBytes b ↔ a = b := by
  simp [textBytes, ByteArray.toList, toList_loop, ← String.toByteArray_inj, ByteArray.ext_iff,
    ← Array.toList_inj]

/-- Folding `==` and `!=` compares the bytes. -/
theorem TypeTable.foldBinary_str (t : TypeTable) {op : BinaryOp} (hop : op.isEquality)
    (a b : String) (type type' : Ty) : t.foldBinary op ⟨.str a, type⟩ ⟨.str b, type'⟩ =
      .ok (.bool (decide (textBytes a = textBytes b) != (op == .ne))) := by
  cases op with
  | eq | ne => simp [foldBinary, foldEquality, textBytes_inj, beq_eq_decide, bne]
  | _ => cases hop

namespace Emit

theorem lowerStringEquality_known (op : BinaryOp) {left right : Value} {a b : String}
    (ha : left.known.bind Constant.asStr? = some a) (hb : right.known.bind Constant.asStr? = some b)
    (range : Span) : lowerStringEquality op left right range =
      constant (.bool (decide (textBytes a = textBytes b) != (op == .ne))) range := by
  simp only [lowerStringEquality, ha, hb, textBytes_inj, beq_eq_decide]

/-- Strings are equal exactly if their bytes are.

Operands that are not both known are compared by code that is written to the current block and
to new ones. Whatever the strings are and wherever they are in memory, it gets to its end and
halts there with the answer. Apart from memory that it has reserved, it has read nothing but
bytes of the two strings. What is known of the same strings at compile time is the same answer. -/
theorem strings_equality {op : BinaryOp} (hop : op.isEquality) (left right : Value) (range : Span)
    (o : Options) (s : Compiler) {f : FunctionState} (hs : s.func = some f) (hf : f.Writable)
    (hknown : left.known.bind Constant.asStr? = none ∨ right.known.bind Constant.asStr? = none) :
    ∃ v s' g, lowerStringEquality op left right range o s = .ok v s' ∧ s'.func = some g ∧
      ∀ (t : TypeTable) (strings : Array String) (x y : Text t.pointerWidth)
        (σ : Machine t.pointerWidth), f.Reserved g σ → x.Operand strings f σ left.ir →
        y.Operand strings f σ right.ir →
        (∃ σ', Runs t strings g.function ⟨f.current, f.resume, σ⟩ ⟨g.current, g.position, σ'⟩ ∧
          Ir.step? t strings g.function ⟨g.current, g.position, σ'⟩ = none ∧
          v.ir.datum? t strings σ' =
            some (.word 1 (BitVec.ofBool (decide (x.bytes = y.bytes) != (op == .ne)))) ∧
          ∀ a ∈ σ'.reads, a ∈ σ.reads ∨ (∃ k, f.function.nextRegister ≤ k ∧ a.object = .slot k) ∨
            x.Covers a ∨ y.Covers a) ∧
        ∀ a b, textBytes a = x.bytes → textBytes b = y.bytes →
          (∀ type type', t.foldBinary op ⟨.str a, type⟩ ⟨.str b, type'⟩ =
            .ok (.bool (decide (x.bytes = y.bytes) != (op == .ne)))) ∧
          ∀ l r : Value, l.known.bind Constant.asStr? = some a →
            r.known.bind Constant.asStr? = some b → lowerStringEquality op l r range =
              constant (.bool (decide (x.bytes = y.bytes) != (op == .ne))) range := by
  obtain ⟨g, hcompares, hforms⟩ := forms_lowerStringEquality op range hknown hf
  obtain ⟨s', hrun, hg⟩ := hforms o s hs
  refine ⟨_, s', g, hrun, hg, fun t strings x y σ hreserved hx hy => ⟨?_, ?_⟩⟩
  · let c : Scene t := ⟨op, strings, f, g, σ, left.ir, right.ir, x, y, hcompares, hreserved, hx, hy⟩
    obtain ⟨σ', hruns, hanswer, hreads⟩ := c.runs
    exact ⟨σ', hruns, c.step?_eq_none, hanswer, fun a ha => (hreads a ha).imp_right
      Scene.MayRead.own_or_covers⟩
  · intro a b ha hb
    rw [← ha, ← hb]
    exact ⟨t.foldBinary_str hop a b, fun l r hl hr => lowerStringEquality_known op hl hr range⟩

/-- An argument that is a string is compared with a known string: `a != "cd"`. -/
def againstKnown : Compiler × FunctionState × Value × Value :=
  let range : Span := ⟨0, 0, 0⟩
  let f : FunctionState := {
    id := 0
    function := { Ir.Function.ofSignature "differs" [.str] .bool with blocks := #[{}] }
    current := 0
    result := .bool }
  ({ Compiler.ofOptions {} with func := some f }, f,
    .temporary (.reg ⟨0, .str⟩) .str range, .constant (.str .str 0) ⟨.str "cd", .str⟩ range)

def withArgument : Machine 64 where
  registers i := if i = 0 then some (Text.datum ⟨⟨.heap 0, 0⟩, textBytes "ce"⟩)
    else some (.pointer ⟨.slot i, 0⟩)
  memory a := match a.object with
    | .text 0 => (textBytes "cd")[a.offset.toNat]?.map fun b => .word 8 b.toBitVec
    | .heap 0 => (textBytes "ce")[a.offset.toNat]?.map fun b => .word 8 b.toBitVec
    | _ => none
  reads := []

theorem getElem?_textBytes_offset {s : String} (hs : (textBytes s).length < 2 ^ 64) (i : Nat)
    (b : UInt8) (hb : (textBytes s)[i]? = some b) :
    (textBytes s)[(0 + BitVec.ofNat 64 i : BitVec 64).toNat]?.map
      (fun b => (.word 8 b.toBitVec : Datum 64)) = some (.word 8 b.toBitVec) := by
  have hi : i < 2 ^ 64 := (List.getElem?_eq_some_iff.mp hb).1.trans hs
  rw [zero_add, BitVec.toNat_ofNat, Nat.mod_eq_of_lt hi, hb, Option.map_some]

theorem strings_equality_againstKnown :
    let (s, f, left, right) := againstKnown
    ∃ v s' g, lowerStringEquality .ne left right left.range {} s = .ok v s' ∧ s'.func = some g ∧
      ∃ σ', Runs (.ofPointerWidth 64) #["cd"] g.function ⟨f.current, f.resume, withArgument⟩
          ⟨g.current, g.position, σ'⟩ ∧
        v.ir.datum? (.ofPointerWidth 64) #["cd"] σ' = some (.word 1 1) := by
  have hop : BinaryOp.isEquality .ne := rfl
  obtain ⟨v, s', g, hrun, hg, hall⟩ := strings_equality hop againstKnown.2.2.1
    againstKnown.2.2.2 againstKnown.2.2.1.range {} againstKnown.1 (f := againstKnown.2.1) rfl
    ⟨by decide, rfl, by decide⟩ (.inl rfl)
  have hleft : (textBytes "ce").length < 2 ^ 64 := by decide +kernel
  have hright : (textBytes "cd").length < 2 ^ 64 := by decide +kernel
  have hdiffer : textBytes "ce" ≠ textBytes "cd" := fun h => absurd (textBytes_inj.mp h) (by decide)
  obtain ⟨⟨σ', hruns, -, hanswer, -⟩, -⟩ := hall (.ofPointerWidth 64) #["cd"]
    ⟨⟨.heap 0, 0⟩, textBytes "ce"⟩ ⟨⟨.text 0, 0⟩, textBytes "cd"⟩ withArgument
    (fun b _ r type name _ hr => if_neg (by have : 1 ≤ r.id := hr; omega))
    { datum := rfl
      earlier := by rintro r ⟨⟩; decide
      bytes := getElem?_textBytes_offset hleft
      short := hleft
      apart := by rintro k ⟨⟩ }
    { datum := rfl
      earlier := by rintro r ⟨⟩
      bytes := getElem?_textBytes_offset hright
      short := hright
      apart := by rintro k ⟨⟩ }
  refine ⟨v, s', g, hrun, hg, σ', hruns, hanswer.trans ?_⟩
  rw [decide_eq_false hdiffer]
  rfl

end Emit

end Staged
