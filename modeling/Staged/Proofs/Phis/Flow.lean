/-
  Staged.Proofs.Phis.Flow — the jumps of a function under construction.

  Code that is written jumps to blocks that it makes itself, and to where the loops around it
  go on (`FunctionState.goals`); no other block that there was before gets a predecessor
  (`FunctionState.Flows`). So a block in which a phi will stand has the predecessors that the
  construct that made it gives it, whatever its operands do. Blocks that may still be jumped
  to have no phis, which keeps the phis that there are exact (`FunctionState.Exact`).

  `Draws` is what an expression does: besides, code goes on in an open block. `Passes` is what
  a sentence does, after which the current block may be closed.
-/

import Staged.Proofs.Code.Instr
import Staged.Proofs.Phis.Graph

namespace Staged

open Ir (BlockId Terminator)

namespace FunctionState

def size (f : FunctionState) : Nat := f.function.blocks.size

def IsOpen (f : FunctionState) : Prop := f.function.term? f.current = none

/-- The blocks that jumps out of the loops around the current sentence go to. -/
def goals (f : FunctionState) : List BlockId := f.loops.flatMap fun l => [l.breakTo, l.continueTo]

structure Target (f : FunctionState) (j : BlockId) : Prop where
  lt : j < f.size
  phis : f.function.phis j = []

structure Exact (f : FunctionState) : Prop where
  current : f.current < f.size
  targets : ∀ i j, f.function.Edge i j → j < f.size
  goals : ∀ j ∈ f.goals, f.Target j
  phis : f.function.ExactPhis

/-- What there was is left alone, but for the end of the block that was the current one and for
jumps to where loops go on. -/
structure Flows (b f : FunctionState) : Prop where
  size : b.size ≤ f.size
  terms : ∀ j < b.size, j ≠ b.current → f.function.term? j = b.function.term? j
  phis : ∀ j < b.size, f.function.phis j = b.function.phis j
  edges : ∀ j < b.size, j ∉ b.goals → ∀ i, f.function.Edge i j ↔ b.function.Edge i j
  current : f.current = b.current ∨ b.size ≤ f.current
  exact : f.Exact

structure Draws (b f : FunctionState) : Prop where
  loops : f.loops = b.loops
  flows : b.Exact → b.IsOpen → b.Flows f ∧ f.IsOpen

structure Passes (b f : FunctionState) : Prop where
  loops : f.loops = b.loops
  flows : b.Exact → b.IsOpen → b.Flows f

variable {b f g : FunctionState} {j : BlockId}

theorem goals_of_loops (h : f.loops = b.loops) : f.goals = b.goals := by
  unfold goals
  rw [h]

theorem Exact.flows (h : f.Exact) : f.Flows f :=
  ⟨Nat.le_refl _, fun _ _ _ => rfl, fun _ _ => rfl, fun _ _ _ _ => Iff.rfl, .inl rfl, h⟩

theorem Flows.trans (h : b.Flows f) (h' : f.Flows g)
    (hgoals : ∀ j ∈ f.goals, j < b.size → j ∈ b.goals) : b.Flows g where
  size := h.size.trans h'.size
  terms j hj hne := by
    have hcurrent : j ≠ f.current := by
      rcases h.current with hc | hc
      · rw [hc]
        exact hne
      · omega
    rw [h'.terms j (hj.trans_le h.size) hcurrent, h.terms j hj hne]
  phis j hj := (h'.phis j (hj.trans_le h.size)).trans (h.phis j hj)
  edges j hj hne i :=
    (h'.edges j (hj.trans_le h.size) (fun hm => hne (hgoals j hm hj)) i).trans (h.edges j hj hne i)
  current := by
    rcases h'.current with hc | hc
    · rw [hc]
      exact h.current
    · exact .inr (h.size.trans hc)
  exact := h'.exact

theorem Draws.refl (f : FunctionState) : f.Draws f := ⟨rfl, fun h ho => ⟨h.flows, ho⟩⟩

theorem Draws.trans (h : b.Draws f) (h' : f.Draws g) : b.Draws g where
  loops := h'.loops.trans h.loops
  flows he ho := by
    obtain ⟨hf, hfo⟩ := h.flows he ho
    obtain ⟨hg, hgo⟩ := h'.flows hf.exact hfo
    exact ⟨hf.trans hg fun j hj _ => goals_of_loops h.loops ▸ hj, hgo⟩

theorem Draws.passes (h : b.Draws f) : b.Passes f := ⟨h.loops, fun he ho => (h.flows he ho).1⟩

theorem Draws.then (h : b.Draws f) (h' : f.Passes g) : b.Passes g where
  loops := h'.loops.trans h.loops
  flows he ho := by
    obtain ⟨hf, hfo⟩ := h.flows he ho
    exact hf.trans (h'.flows hf.exact hfo) fun j hj _ => goals_of_loops h.loops ▸ hj

theorem Passes.next (h : b.Passes f) (h' : f.Passes g) (hopen : f.IsOpen) : b.Passes g where
  loops := h'.loops.trans h.loops
  flows he ho := by
    have hf := h.flows he ho
    exact hf.trans (h'.flows hf.exact hopen) fun j hj _ => goals_of_loops h.loops ▸ hj

theorem Flows.target (h : b.Flows f) (ht : b.Target j) : f.Target j :=
  ⟨ht.lt.trans_le h.size, (h.phis j ht.lt).trans ht.phis⟩

/-! ## Steps -/

structure Alike (f g : FunctionState) : Prop where
  size : f.size ≤ g.size
  terms : ∀ j, g.function.term? j = f.function.term? j
  phis : ∀ j, g.function.phis j = f.function.phis j

theorem Alike.edge (h : f.Alike g) (i : BlockId) :
    g.function.Edge i j ↔ f.function.Edge i j := by
  unfold Ir.Function.Edge
  rw [h.terms]

theorem Alike.of_outline (h : g.function.outline = f.function.outline) : f.Alike g :=
  ⟨(Ir.Function.size_of_outline h).ge, fun _ => Ir.Function.term?_of_outline h,
    fun _ => Ir.Function.phis_of_outline h⟩

theorem Alike.target (h : f.Alike g) (ht : f.Target j) : g.Target j :=
  ⟨ht.lt.trans_le h.size, (h.phis j).trans ht.phis⟩

theorem Flows.alike (h : b.Flows f) (ha : f.Alike g) (hlt : g.current < g.size)
    (hcurrent : g.current = b.current ∨ b.size ≤ g.current) (hgoals : ∀ j ∈ g.goals, g.Target j) :
    b.Flows g where
  size := h.size.trans ha.size
  terms j hj hne := (ha.terms j).trans (h.terms j hj hne)
  phis j hj := (ha.phis j).trans (h.phis j hj)
  edges j hj hne i := (ha.edge i).trans (h.edges j hj hne i)
  current := hcurrent
  exact :=
    { current := hlt
      targets := fun i j hij => (h.exact.targets i j ((ha.edge i).mp hij)).trans_le ha.size
      goals := hgoals
      phis := fun j blocks hb => by
        obtain ⟨hnodup, hiff⟩ := h.exact.phis j blocks (ha.phis j ▸ hb)
        exact ⟨hnodup, fun i => (hiff i).trans (ha.edge i).symm⟩ }

/-- Code without jumps and phis. -/
theorem Draws.line (ho : f.function.outline = b.function.outline) (hc : f.current = b.current)
    (hl : f.loops = b.loops) : b.Draws f where
  loops := hl
  flows he hopen := by
    have ha := Alike.of_outline ho
    refine ⟨he.flows.alike ha ?_ (.inl hc) fun j hj => ?_, ?_⟩
    · rw [hc]
      exact he.current.trans_le ha.size
    · exact ha.target (he.goals j (goals_of_loops hl ▸ hj))
    · show f.function.term? f.current = none
      rw [ha.terms, hc]
      exact hopen

section

variable {label : Option String} {t : Terminator}

theorem size_addBlock : (f.addBlock label).size = f.size + 1 := Array.size_push _

theorem alike_addBlock (f : FunctionState) (label : Option String) : f.Alike (f.addBlock label) :=
  ⟨by rw [size_addBlock]; exact Nat.le_succ _, fun _ => Ir.Function.term?_newBlock label,
    fun _ => Ir.Function.phis_newBlock label⟩

theorem Flows.addBlock (h : b.Flows f) (label : Option String) : b.Flows (f.addBlock label) :=
  have ha := alike_addBlock f label
  h.alike ha (h.exact.current.trans_le ha.size) h.current fun j hj => ha.target (h.exact.goals j hj)

/-- A new block is empty, and nothing jumps to it. -/
theorem target_addBlock (f : FunctionState) (label : Option String) :
    (f.addBlock label).Target f.size :=
  ⟨by rw [size_addBlock]; exact Nat.lt_succ_self _,
    ((alike_addBlock f label).phis _).trans (Ir.Function.phis_of_size_le (Nat.le_refl _))⟩

def goTo (f : FunctionState) (j : BlockId) : FunctionState := { f with current := j }

theorem alike_goTo (f : FunctionState) (j : BlockId) : f.Alike (f.goTo j) :=
  ⟨Nat.le_refl _, fun _ => rfl, fun _ => rfl⟩

theorem Flows.goTo (h : b.Flows f) (hlt : j < f.size) (hj : b.size ≤ j) : b.Flows (f.goTo j) :=
  h.alike (alike_goTo f j) hlt (.inr hj) fun i hi => (alike_goTo f j).target (h.exact.goals i hi)

def withLoops (f : FunctionState) (loops : List LoopTargets) : FunctionState := { f with loops }

theorem Flows.withLoops {loops : List LoopTargets} (h : b.Flows f)
    (hl : ∀ l ∈ loops, f.Target l.breakTo ∧ f.Target l.continueTo) :
    b.Flows (f.withLoops loops) := by
  have ha : f.Alike (f.withLoops loops) := ⟨Nat.le_refl _, fun _ => rfl, fun _ => rfl⟩
  refine h.alike ha h.exact.current h.current fun j hj => ?_
  obtain ⟨l, hmem, hj⟩ := List.mem_flatMap.mp hj
  rcases List.mem_cons.mp hj with rfl | hj
  · exact ha.target (hl l hmem).1
  · exact ha.target (List.mem_singleton.mp hj ▸ (hl l hmem).2)

def close (f : FunctionState) (t : Terminator) : FunctionState :=
  f.modifyBlock f.current (·.close t)

theorem size_close : (f.close t).size = f.size := Ir.Function.size_modifyBlock _

theorem term?_close (h : f.current < f.size) :
    (f.close t).function.term? j =
      if f.current = j ∧ f.function.term? f.current = none then some t
      else f.function.term? j :=
  Ir.Function.term?_close h

theorem term?_close_ne (h : f.current < f.size) (hj : j ≠ f.current) :
    (f.close t).function.term? j = f.function.term? j := by
  rw [term?_close h, if_neg fun hc => hj hc.1.symm]

theorem phis_close (f : FunctionState) (t : Terminator) (j : BlockId) :
    (f.close t).function.phis j = f.function.phis j := Ir.Function.phis_close t

theorem edge_close (h : f.current < f.size) {i : BlockId} :
    (f.close t).function.Edge i j ↔
      f.function.Edge i j ∨ i = f.current ∧ f.IsOpen ∧ j ∈ t.successors :=
  Ir.Function.edge_close h

/-- The current block ends with a jump to blocks that may be jumped to. -/
theorem Flows.close (h : b.Flows f)
    (ht : ∀ j ∈ t.successors, f.Target j ∧ (b.size ≤ j ∨ j ∈ b.goals)) : b.Flows (f.close t) where
  size := h.size.trans size_close.ge
  terms j hj hne := by
    have hcurrent : j ≠ f.current := by
      rcases h.current with hc | hc
      · rw [hc]
        exact hne
      · omega
    rw [term?_close_ne h.exact.current hcurrent, h.terms j hj hne]
  phis j hj := (phis_close f t j).trans (h.phis j hj)
  edges j hj hne i := by
    rw [edge_close h.exact.current, h.edges j hj hne]
    refine or_iff_left ?_
    rintro ⟨-, -, hmem⟩
    rcases (ht j hmem).2 with hle | hg
    · omega
    · exact hne hg
  current := h.current
  exact :=
    { current := h.exact.current.trans_le size_close.ge
      targets := fun i j hij => by
        rw [size_close]
        rcases (edge_close h.exact.current).mp hij with hij | ⟨-, -, hmem⟩
        · exact h.exact.targets i j hij
        · exact (ht j hmem).1.lt
      goals := fun j hj =>
        have hg := h.exact.goals j hj
        ⟨hg.lt.trans_le size_close.ge, (phis_close f t j).trans hg.phis⟩
      phis := fun j blocks hb => by
        rw [phis_close] at hb
        obtain ⟨hnodup, hiff⟩ := h.exact.phis j blocks hb
        refine ⟨hnodup, fun i => (hiff i).trans ?_⟩
        rw [edge_close h.exact.current]
        refine (or_iff_left ?_).symm
        -- a block that is jumped to now has no phis
        rintro ⟨-, -, hmem⟩
        rw [(ht j hmem).1.phis] at hb
        cases hb }

theorem Target.close (h : f.Target j) : (f.close t).Target j :=
  ⟨h.lt.trans_le size_close.ge, (phis_close f t j).trans h.phis⟩

def join (f : FunctionState) (r : Ir.Register) (values : List (Ir.Value × BlockId)) :
    FunctionState := f.modifyBlock f.current (·.push (.phi r values))

variable {r : Ir.Register} {values : List (Ir.Value × BlockId)}

theorem size_join : (f.join r values).size = f.size := Ir.Function.size_modifyBlock _

theorem term?_join : (f.join r values).function.term? j = f.function.term? j := by
  show (f.function.modifyBlock _ _).term? j = _
  rw [Ir.Function.term?_modifyBlock]
  split
  · rfl
  · rfl

theorem edge_join {i : BlockId} : (f.join r values).function.Edge i j ↔ f.function.Edge i j := by
  unfold Ir.Function.Edge
  rw [term?_join]

theorem phis_join_ne (h : j ≠ f.current) : (f.join r values).function.phis j = f.function.phis j := by
  show (f.function.modifyBlock _ _).phis j = _
  rw [Ir.Function.phis_modifyBlock, if_neg (Ne.symm h)]

theorem phis_join (h : f.current < f.size) :
    (f.join r values).function.phis f.current =
      f.function.phis f.current ++ [values.map Prod.snd] := by
  have hb : f.function.block? f.current = some f.function.blocks[f.current] :=
    Array.getElem?_eq_getElem h
  show (f.function.modifyBlock _ _).phis f.current = _
  rw [Ir.Function.phis_modifyBlock, if_pos rfl, Ir.Function.phis, hb]
  exact Ir.Block.phis_push r values _

/-- A phi chooses between all blocks that jump to the current one, and nothing else will. -/
theorem Flows.join (h : b.Flows f) (hnew : b.size ≤ f.current) (hgoal : f.current ∉ f.goals)
    (hnodup : (values.map Prod.snd).Nodup)
    (hall : ∀ i, i ∈ values.map Prod.snd ↔ f.function.Edge i f.current) :
    b.Flows (f.join r values) where
  size := h.size.trans size_join.ge
  terms j hj hne := term?_join.trans (h.terms j hj hne)
  phis j hj := (phis_join_ne (Nat.ne_of_lt (hj.trans_le hnew))).trans (h.phis j hj)
  edges j hj hne i := edge_join.trans (h.edges j hj hne i)
  current := h.current
  exact :=
    { current := h.exact.current.trans_le size_join.ge
      targets := fun i j hij => (h.exact.targets i j (edge_join.mp hij)).trans_le size_join.ge
      goals := fun j hj =>
        have hg := h.exact.goals j hj
        have hne : j ≠ f.current := fun hc => hgoal (hc ▸ hj)
        ⟨hg.lt.trans_le size_join.ge, (phis_join_ne hne).trans hg.phis⟩
      phis := fun j blocks hb => by
        by_cases hj : j = f.current
        · subst hj
          rw [phis_join h.exact.current, List.mem_append] at hb
          rcases hb with hb | hb
          · obtain ⟨hn, hiff⟩ := h.exact.phis _ blocks hb
            exact ⟨hn, fun i => (hiff i).trans edge_join.symm⟩
          · rw [List.mem_singleton.mp hb]
            exact ⟨hnodup, fun i => (hall i).trans edge_join.symm⟩
        · rw [phis_join_ne hj] at hb
          obtain ⟨hn, hiff⟩ := h.exact.phis j blocks hb
          exact ⟨hn, fun i => (hiff i).trans edge_join.symm⟩ }

end

/-! ## Predecessors -/

def Into (f : FunctionState) (j : BlockId) (ps : List BlockId) : Prop :=
  ∀ i, f.function.Edge i j ↔ i ∈ ps

section

variable {ps : List BlockId} {t : Terminator}

theorem Exact.into_new (h : f.Exact) (label : Option String) : (f.addBlock label).Into f.size [] := by
  refine fun i => ((alike_addBlock f label).edge i).trans ⟨fun hedge => ?_, nofun⟩
  exact absurd (h.targets i f.size hedge) (Nat.lt_irrefl _)

theorem Into.alike (h : f.Into j ps) (ha : f.Alike g) : g.Into j ps :=
  fun i => (ha.edge i).trans (h i)

/-- Code that is written meanwhile does not jump to a block that no loop goes on at. -/
theorem Into.flow (h : f.Into j ps) (hf : f.Flows g) (hlt : j < f.size) (hj : j ∉ f.goals) :
    g.Into j ps := fun i => (hf.edges j hlt hj i).trans (h i)

theorem Into.close (h : f.Into j ps) (he : f.Exact) (ho : f.IsOpen) (ht : j ∈ t.successors) :
    (f.close t).Into j (ps ++ [f.current]) := by
  intro i
  rw [edge_close he.current, h i, List.mem_append, List.mem_singleton]
  exact or_congr_right (and_iff_left ⟨ho, ht⟩)

theorem Into.close_ne (h : f.Into j ps) (he : f.Exact) (ht : j ∉ t.successors) :
    (f.close t).Into j ps := by
  intro i
  rw [edge_close he.current, h i]
  exact or_iff_left fun hc => ht hc.2.2

end

end FunctionState

end Staged
