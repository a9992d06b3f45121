/-
  Staged.Proofs.Ssa.Form — static single assignment, and how it is certified.

  A function is in SSA form when no register is assigned twice, every path from the entry
  to a use of a register passes its definition, nothing jumps to the entry, and memory is
  reserved by the first instructions of the entry only (`Function.IsSsa`). A phi uses its
  values at the end of the blocks they come from.

  Paths are awkward to speak of while a function is still being written, since a block may
  get new predecessors. A certificate (`Function.Certified`) names for every block what is
  at hand where the block starts, besides the parameters and the reserved memory; each jump
  has to bring that much with it, and each use has to find its registers there or among
  the instructions before it in the block. What a certificate says of a block then holds on
  every path to it (`Path.out`).
-/

import Mathlib
import Staged.Ir.Function

namespace Staged.Ir

/-! ## Uses and paths -/

@[simp] def Value.regs : Value → List Register
  | .reg r => [r]
  | .const _ => []

@[simp] def Callee.regs : Callee → List Register
  | .function _ => []
  | .indirect value => value.regs

@[simp] def Instr.uses : Instr → List Register
  | .alloca .. | .phi .. => []
  | .load _ v | .fneg _ v | .cast _ _ v | .fieldPtr _ v _ _ | .extract _ v _ => v.regs
  | .store v w | .arith _ _ v w | .compare _ _ v w | .elementPtr _ v _ w | .insert _ v w _ =>
    v.regs ++ w.regs
  | .call _ callee args => callee.regs ++ args.flatMap Value.regs
  | .select _ cond v w => cond.regs ++ v.regs ++ w.regs
  | .asm _ _ _ args _ => args.flatMap Value.regs

/-- The registers that a phi reads, each with the block at whose end it is read. -/
@[simp] def Instr.incoming : Instr → List (Register × BlockId)
  | .phi _ values => values.flatMap fun (v, b) => v.regs.map (·, b)
  | _ => []

@[simp] def Terminator.uses : Terminator → List Register
  | .jump _ | .ret none | .unreachable => []
  | .branch v _ _ | .ret (some v) | .switch v _ _ => v.regs

def dests (instrs : List Instr) : List Register := instrs.filterMap Instr.dest?

def Block.dests (b : Block) : List Register := Ir.dests b.instrs.toList

namespace Function

/-- The ways through a function: the blocks that were left, the last one first, and the
block that was reached. -/
inductive Path (f : Function) : List BlockId → BlockId → Prop
  | entry : f.Path [] f.entry
  | edge {past : List BlockId} {i next : BlockId} {b : Block} : f.Path past i →
      f.block? i = some b → next ∈ b.successors → f.Path (i :: past) next

def blockDests (f : Function) (i : BlockId) : List Register := ((f.block? i).map Block.dests).getD []

/-- What the parameters and the instructions of some blocks define. -/
def defined (f : Function) (past : List BlockId) : List Register :=
  f.params ++ past.flatMap f.blockDests

structure IsSsa (f : Function) : Prop where
  once : ((f.params ++ f.assigned).map Register.id).Nodup
  uses : ∀ past i, f.Path past i → ∀ b, f.block? i = some b →
    ∀ pre instr post, b.instrs.toList = pre ++ instr :: post →
    ∀ r ∈ instr.uses, r ∈ f.defined past ++ dests pre
  ends : ∀ past i, f.Path past i → ∀ b, f.block? i = some b → ∀ t, b.term = some t →
    ∀ r ∈ t.uses, r ∈ f.defined past ++ b.dests
  incoming : ∀ b ∈ f.blocks, ∀ instr ∈ b.instrs, ∀ r i, (r, i) ∈ instr.incoming →
    ∀ past, f.Path past i → r ∈ f.defined (i :: past)
  entry : ∀ b ∈ f.blocks, f.entry ∉ b.successors
  allocas : ∀ i b, f.block? i = some b → ∀ pre instr post, b.instrs.toList = pre ++ instr :: post →
    instr.isAlloca = true → i = f.entry ∧ ∀ x ∈ pre, x.isAlloca = true

/-! ## Certificates -/

/-- The memory that the first instructions of the entry reserve. -/
def slots (f : Function) : List Register :=
  ((f.block? f.entry).map fun b => dests (b.instrs.toList.takeWhile Instr.isAlloca)).getD []

/-- What is at hand in a block after some of its instructions. -/
def during (f : Function) (start : BlockId → Set Register) (i : BlockId) (pre : List Instr) :
    Set Register :=
  {r | r ∈ f.params ∨ r ∈ f.slots ∨ r ∈ start i ∨ r ∈ dests pre}

def out (f : Function) (start : BlockId → Set Register) (i : BlockId) : Set Register :=
  {r | r ∈ f.params ∨ r ∈ f.slots ∨ r ∈ start i ∨ r ∈ f.blockDests i}

/-- Each use finds its registers, and each jump brings what its target starts with. -/
structure Certified (f : Function) (start : BlockId → Set Register) : Prop where
  once : ((f.params ++ f.assigned).map Register.id).Nodup
  below : ∀ r ∈ f.params ++ f.assigned, r.id < f.nextRegister
  first : start f.entry = ∅
  uses : ∀ i b, f.block? i = some b → ∀ pre instr post, b.instrs.toList = pre ++ instr :: post →
    ∀ r ∈ instr.uses, r ∈ f.during start i pre
  ends : ∀ i b, f.block? i = some b → ∀ t, b.term = some t → ∀ r ∈ t.uses, r ∈ f.out start i
  incoming : ∀ i b, f.block? i = some b → ∀ instr ∈ b.instrs, ∀ r j, (r, j) ∈ instr.incoming →
    j < f.blocks.size ∧ r ∈ f.out start j
  edges : ∀ i b, f.block? i = some b → ∀ next ∈ b.successors,
    next < f.blocks.size ∧ next ≠ f.entry ∧ start next ⊆ f.out start i
  allocas : ∀ i b, f.block? i = some b → ∀ pre instr post, b.instrs.toList = pre ++ instr :: post →
    instr.isAlloca = true → i = f.entry ∧ ∀ x ∈ pre, x.isAlloca = true

variable {f : Function} {start : BlockId → Set Register} {i : BlockId} {past : List BlockId}

theorem blockDests_of_block? {b : Block} (h : f.block? i = some b) : f.blockDests i = b.dests := by
  simp only [blockDests, h, Option.map_some, Option.getD_some]

theorem slots_subset_blockDests {r : Register} (h : r ∈ f.slots) : r ∈ f.blockDests f.entry := by
  unfold slots at h
  unfold blockDests
  cases hb : f.block? f.entry with
  | none =>
    rw [hb] at h
    cases h
  | some b =>
    rw [hb] at h
    exact List.Sublist.subset ((List.takeWhile_sublist _).filterMap _) h

/-- Every path starts at the entry. -/
theorem Path.entry_mem (h : f.Path past i) : f.entry ∈ i :: past := by
  induction h with
  | entry => exact List.mem_cons_self
  | edge _ _ _ ih => exact List.mem_cons_of_mem _ ih

theorem mem_defined {r : Register} :
    r ∈ f.defined past ↔ r ∈ f.params ∨ ∃ j ∈ past, r ∈ f.blockDests j := by
  simp only [defined, List.mem_append, List.mem_flatMap]

/-- What is at hand when a block ends was defined on the way there. -/
theorem Path.out (hc : f.Certified start) (h : f.Path past i) {r : Register}
    (hr : r ∈ f.out start i) : r ∈ f.defined (i :: past) := by
  rw [mem_defined]
  rcases hr with hr | hr | hr | hr
  · exact .inl hr
  · exact .inr ⟨f.entry, h.entry_mem, slots_subset_blockDests hr⟩
  -- what a block starts with came out of the block before, and so on back to the entry
  · induction h with
    | entry =>
      rw [hc.first] at hr
      exact hr.elim
    | edge h hb hnext ih =>
      have hout := (hc.edges _ _ hb _ hnext).2.2 hr
      rcases hout with hr | hr | hr | hr
      · exact .inl hr
      · exact .inr ⟨f.entry, List.mem_cons_of_mem _ h.entry_mem, slots_subset_blockDests hr⟩
      · exact (ih hr).imp_right fun ⟨j, hj, hr⟩ => ⟨j, List.mem_cons_of_mem _ hj, hr⟩
      · exact .inr ⟨_, List.mem_cons_of_mem _ List.mem_cons_self, hr⟩
  · exact .inr ⟨i, List.mem_cons_self, hr⟩

/-- An instruction that is no allocation stands behind all reserved memory. -/
theorem takeWhile_isAlloca_subset {pre post : List Instr} {instr : Instr}
    (h : instr.isAlloca = false) {x : Instr}
    (hx : x ∈ (pre ++ instr :: post).takeWhile Instr.isAlloca) : x ∈ pre := by
  rw [List.takeWhile_append] at hx
  split at hx
  · rw [List.takeWhile_cons, h] at hx
    simpa using hx
  · exact List.takeWhile_subset _ hx

theorem isAlloca_of_mem_uses {instr : Instr} {r : Register} (h : r ∈ instr.uses) :
    instr.isAlloca = false := by
  cases instr with
  | alloca => cases h
  | _ => rfl

/-- A certified function is in SSA form. -/
theorem Certified.isSsa (hc : f.Certified start) : f.IsSsa where
  once := hc.once
  uses past i hpath b hb pre instr post hinstrs r hr := by
    rw [List.mem_append]
    rcases hc.uses i b hb pre instr post hinstrs r hr with h | h | h | h
    · exact .inl (mem_defined.mpr (.inl h))
    · -- reserved memory: behind us, or earlier in the entry
      cases hpath with
      | entry =>
        refine .inr ?_
        simp only [slots, hb, Option.map_some, Option.getD_some, hinstrs, dests,
          List.mem_filterMap] at h
        obtain ⟨x, hx, hdest⟩ := h
        exact List.mem_filterMap.mpr
          ⟨x, takeWhile_isAlloca_subset (isAlloca_of_mem_uses hr) hx, hdest⟩
      | edge h' _ _ =>
        exact .inl (mem_defined.mpr (.inr ⟨f.entry, h'.entry_mem, slots_subset_blockDests h⟩))
    · -- what the block starts with was brought along by the last jump
      cases hpath with
      | entry =>
        rw [hc.first] at h
        exact h.elim
      | edge h' hb' hnext => exact .inl (h'.out hc ((hc.edges _ _ hb' _ hnext).2.2 h))
    · exact .inr h
  ends past i hpath b hb t ht r hr := by
    have h := hpath.out hc (hc.ends i b hb t ht r hr)
    rw [mem_defined] at h
    rw [List.mem_append, mem_defined]
    rcases h with h | ⟨j, hj, hr⟩
    · exact .inl (.inl h)
    · rcases List.mem_cons.mp hj with rfl | hj
      · exact .inr (blockDests_of_block? hb ▸ hr)
      · exact .inl (.inr ⟨j, hj, hr⟩)
  incoming b hb instr hinstr r j hr past hpath := by
    obtain ⟨i, hi⟩ := Array.mem_iff_getElem?.mp hb
    exact hpath.out hc (hc.incoming i b hi instr hinstr r j hr).2
  entry b hb hentry := by
    obtain ⟨i, hi⟩ := Array.mem_iff_getElem?.mp hb
    exact (hc.edges i b hi _ hentry).2.1 rfl
  allocas := hc.allocas

end Function

end Staged.Ir
