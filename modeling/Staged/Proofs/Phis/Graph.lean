/-
  Staged.Proofs.Phis.Graph — the jumps of a function and its phis.

  A phi is exact when it has one value for every block that jumps to its own and no value
  for any other (`Function.ExactPhis`). Of the instructions of a block only the phis matter
  to this, and of a phi only the blocks it chooses between. What is left of a function then
  is its outline: how each block ends, and what its phis choose between. Most code that is
  written leaves the outline alone.
-/

import Mathlib
import Staged.Ir.Function

namespace Staged.Ir

/-! ## Edges and phis -/

@[simp] def Instr.choices? : Instr → Option (List BlockId)
  | .phi _ values => some (values.map Prod.snd)
  | _ => none

def Block.phis (b : Block) : List (List BlockId) := b.instrs.toList.filterMap Instr.choices?

/-- How a block ends, and what its phis choose between. -/
def Block.outline (b : Block) : Option Terminator × List (List BlockId) := (b.term, b.phis)

namespace Function

def outline (f : Function) : Array (Option Terminator × List (List BlockId)) :=
  f.blocks.map Block.outline

def term? (f : Function) (i : BlockId) : Option Terminator := (f.block? i).bind Block.term

def phis (f : Function) (i : BlockId) : List (List BlockId) := ((f.block? i).map Block.phis).getD []

def Edge (f : Function) (i j : BlockId) : Prop := ∃ t, f.term? i = some t ∧ j ∈ t.successors

/-- Every phi has one value for each block that jumps to its own, and no other value. -/
def ExactPhis (f : Function) : Prop :=
  ∀ j, ∀ blocks ∈ f.phis j, blocks.Nodup ∧ ∀ i, i ∈ blocks ↔ f.Edge i j

variable {f f' : Function} {i j : BlockId}

theorem edge_iff : f.Edge i j ↔ ∃ b, f.block? i = some b ∧ j ∈ b.successors := by
  unfold Edge term? Block.successors
  cases f.block? i with
  | none => simp
  | some b => cases h : b.term <;> simp [h]

theorem mem_phis {blocks : List BlockId} : blocks ∈ f.phis j ↔
    ∃ b, f.block? j = some b ∧ ∃ r values, Instr.phi r values ∈ b.instrs ∧
      values.map Prod.snd = blocks := by
  unfold phis
  cases f.block? j with
  | none => simp
  | some b =>
    simp only [Option.map_some, Option.getD_some, Block.phis, List.mem_filterMap,
      Array.mem_toList_iff, Option.some.injEq, exists_eq_left']
    constructor
    · rintro ⟨instr, hmem, hchoices⟩
      cases instr with
      | phi r values => exact ⟨r, values, hmem, Option.some.inj hchoices⟩
      | _ => cases hchoices
    · rintro ⟨r, values, hmem, rfl⟩
      exact ⟨_, hmem, rfl⟩

/-! ## Outlines -/

theorem term?_eq (f : Function) : f.term? i = f.outline[i]?.bind Prod.fst := by
  simp only [term?, block?, outline, Array.getElem?_map]
  cases f.blocks[i]? <;> rfl

theorem phis_eq (f : Function) : f.phis i = (f.outline[i]?.map Prod.snd).getD [] := by
  simp only [phis, block?, outline, Array.getElem?_map]
  cases f.blocks[i]? <;> rfl

theorem size_outline (f : Function) : f.outline.size = f.blocks.size := Array.size_map

section

variable (h : f'.outline = f.outline)

include h

theorem term?_of_outline : f'.term? i = f.term? i := by rw [term?_eq, term?_eq, h]

theorem phis_of_outline : f'.phis i = f.phis i := by rw [phis_eq, phis_eq, h]

theorem size_of_outline : f'.blocks.size = f.blocks.size := by
  rw [← size_outline, ← size_outline, h]

end

/-- A change of one block that keeps its outline. -/
theorem outline_modifyBlock {g : Block → Block} (hg : ∀ b, (g b).outline = b.outline) :
    (f.modifyBlock i g).outline = f.outline := by
  refine Array.ext_getElem? fun k => ?_
  simp only [outline, modifyBlock, Array.getElem?_map, Array.getElem?_modify]
  split
  · rw [Option.map_map]
    exact congrArg (Option.map · _) (funext hg)
  · rfl

/-! ## Changes of blocks -/

theorem phis_modifyBlock (g : Block → Block) : (f.modifyBlock i g).phis j =
    if i = j then ((f.block? j).map fun b => (g b).phis).getD [] else f.phis j := by
  simp only [phis, block?, modifyBlock, Array.getElem?_modify]
  split
  · rw [Option.map_map]
    rfl
  · rfl

theorem term?_modifyBlock (g : Block → Block) : (f.modifyBlock i g).term? j =
    if i = j then (f.block? j).bind fun b => (g b).term else f.term? j := by
  simp only [term?, block?, modifyBlock, Array.getElem?_modify]
  split
  · rw [Option.bind_map]
    rfl
  · rfl

theorem term?_newBlock (label : Option String) : (f.newBlock label).1.term? i = f.term? i := by
  simp only [term?, block?, newBlock, Array.getElem?_push]
  split
  · next h => rw [h, Array.getElem?_size]; rfl
  · rfl

theorem phis_newBlock (label : Option String) : (f.newBlock label).1.phis i = f.phis i := by
  simp only [phis, block?, newBlock, Array.getElem?_push]
  split
  · next h => rw [h, Array.getElem?_size]; rfl
  · rfl

theorem phis_of_size_le (h : f.blocks.size ≤ i) : f.phis i = [] := by
  rw [phis, block?, Array.getElem?_eq_none h]
  rfl

theorem term?_of_size_le (h : f.blocks.size ≤ i) : f.term? i = none := by
  rw [term?, block?, Array.getElem?_eq_none h]
  rfl

/-- There are no phis in a function without a body. -/
theorem exactPhis_of_blocks (h : f.blocks = #[]) : f.ExactPhis := by
  intro j blocks hb
  rw [phis_of_size_le (by rw [h]; exact Nat.zero_le j)] at hb
  cases hb

/-- Closing a block that is open gives it an end, and closing any other changes nothing. -/
theorem term?_close {t : Terminator} (hi : i < f.blocks.size) :
    (f.modifyBlock i (·.close t)).term? j =
      if i = j ∧ f.term? i = none then some t else f.term? j := by
  rw [term?_modifyBlock]
  by_cases hij : i = j
  · subst hij
    have hb : f.block? i = some f.blocks[i] := Array.getElem?_eq_getElem hi
    simp only [if_true, true_and, term?, hb, Option.bind_some]
    cases hterm : f.blocks[i].term <;> simp [Block.close, Block.isClosed, hterm]
  · rw [if_neg hij, if_neg fun h => hij h.1]

theorem phis_close (t : Terminator) : (f.modifyBlock i (·.close t)).phis j = f.phis j := by
  have hclose (b : Block) : (b.close t).phis = b.phis := by
    unfold Block.close
    split <;> rfl
  rw [phis_modifyBlock]
  split
  · simp only [hclose]
    rfl
  · rfl

theorem edge_close {t : Terminator} {k : BlockId} (hi : i < f.blocks.size) :
    (f.modifyBlock i (·.close t)).Edge k j ↔
      f.Edge k j ∨ k = i ∧ f.term? i = none ∧ j ∈ t.successors := by
  unfold Edge
  rw [term?_close hi]
  by_cases h : i = k ∧ f.term? i = none
  · obtain ⟨rfl, hopen⟩ := h
    simp [hopen]
  · rw [if_neg h]
    constructor
    · exact .inl
    · rintro (h' | ⟨rfl, hopen, -⟩)
      · exact h'
      · exact absurd ⟨rfl, hopen⟩ h

/-- Phis and jumps are all that matters of the blocks. -/
theorem ExactPhis.of_blocks (h : f.ExactPhis) {blocks : Array Block}
    (hb : List.Forall₂ (fun b b' => b'.phis = b.phis ∧ b'.successors = b.successors)
      f.blocks.toList blocks.toList) : ExactPhis { f with blocks } := by
  have hmap : (blocks.map fun b => (b.phis, b.successors)) =
      f.blocks.map fun b => (b.phis, b.successors) := by
    refine Array.toList_inj.mp ?_
    rw [Array.toList_map, Array.toList_map]
    refine (List.forall₂_eq_eq_eq ▸ ?_ : _ = _).symm
    exact List.forall₂_map_left_iff.mpr (List.forall₂_map_right_iff.mpr
      (hb.imp fun b b' hb => Prod.ext hb.1.symm hb.2.symm))
  have hget (k : BlockId) : (blocks[k]?).map (fun b => (b.phis, b.successors)) =
      (f.blocks[k]?).map fun b => (b.phis, b.successors) := by
    rw [← Array.getElem?_map, ← Array.getElem?_map, hmap]
  have hphis (k : BlockId) : phis { f with blocks } k = f.phis k := by
    have hk := congrArg (fun p => (p.map Prod.fst).getD []) (hget k)
    simp only [Option.map_map] at hk
    exact hk
  have hedge (k l : BlockId) : Edge { f with blocks } k l ↔ f.Edge k l := by
    have hk := congrArg (fun p => l ∈ (p.map Prod.snd).getD []) (hget k)
    rw [edge_iff, edge_iff]
    show (∃ b, blocks[k]? = some b ∧ _) ↔ ∃ b, f.blocks[k]? = some b ∧ _
    cases hl : blocks[k]? <;> cases hr : f.blocks[k]? <;> simp [hl, hr] at hk ⊢ <;> simp [hk]
  intro k bs hbs
  rw [hphis] at hbs
  exact ⟨(h k bs hbs).1, fun l => ((h k bs hbs).2 l).trans (hedge l k).symm⟩

end Function

/-! ## Code without phis -/

theorem Block.outline_push {instr : Instr} (h : instr.choices? = none) (b : Block) :
    (b.push instr).outline = b.outline := by
  simp only [Block.outline, Block.phis, Block.push, Array.toList_push, List.filterMap_append,
    List.filterMap_cons, List.filterMap_nil, h, List.append_nil]

theorem Block.phis_push (r : Register) (values : List (Value × BlockId)) (b : Block) :
    (b.push (.phi r values)).phis = b.phis ++ [values.map Prod.snd] := by
  simp only [Block.phis, Block.push, Array.toList_push, List.filterMap_append]
  rfl

theorem Block.outline_pushAlloca {instr : Instr} (h : instr.choices? = none) (b : Block) :
    (b.pushAlloca instr).outline = b.outline := by
  have hwhole : b.instrs.toList.takeWhile Instr.isAlloca ++
      b.instrs.toList.drop (b.instrs.toList.takeWhile Instr.isAlloca).length = b.instrs.toList :=
    List.prefix_iff_eq_append.mp (List.takeWhile_prefix _)
  have hphis := congrArg (List.filterMap Instr.choices?) hwhole
  rw [List.filterMap_append] at hphis
  simp only [Block.outline, Block.phis, Block.pushAlloca, List.filterMap_append,
    List.filterMap_cons, h, hphis]

end Staged.Ir
