/-
  Staged.Proofs.Ssa.Valid — compiled functions are in SSA form.

  All functions are certified where the phases end, and a certified function is in SSA
  form. So lowering may keep a register in a local, a place or a temporary as long as it
  likes: whatever way leads to a use of it passes its definition. The phis of a certified
  function are exact: a value comes in from each block that jumps to the phi's own, and from
  no other block. The operands of a phi may move on to other blocks as often as they like,
  since what counts is the block that they end in.

  Main statements: `compile_isSsa`, `compile_phis`.
-/

import Staged.Proofs.Ssa.Phase

namespace Staged

/-- Every function of a compilation that succeeds is in SSA form: no register is assigned
twice, all ways from the entry to a use of a register pass its definition, nothing jumps to
the entry, and memory is reserved only where the entry begins. -/
theorem compile_isSsa (p : Program) (o : Options) (out : CompileOutput)
    (h : compile p o = .ok out) : ∀ f ∈ out.ir.functions, f.IsSsa := by
  obtain ⟨s₀, stats, s, hreg, hrun, hir⟩ := compile_ok h
  obtain ⟨hfresh, -⟩ := hreg.fresh
  have hends := (preserves_neat o).runPhases hfresh.sane
  rw [hrun] at hends
  intro f hf
  rw [hir] at hf
  obtain ⟨start, hcertified⟩ := hends.1.certified f hf
  exact hcertified.isSsa

/-- A program with one function, which keeps a choice in a local and changes it in a loop
whose condition has two parts. -/
def choosing : Program :=
  let range : Span := ⟨0, 0, 0⟩
  let name (s : String) : Expr := .entity range ⟨0, [⟨s, range⟩], range⟩
  let number (n : Nat) : Expr := .int range n (some (.int range 32))
  let choice : Expr := .ifElse range (.binary range .lt (name "a") (number 3)) (name "a") (number 7)
  let more : Expr := .binary range .and (.binary range .gt (name "x") (number 1))
    (.binary range .ne (name "a") (name "x"))
  let body : List Sentence := [
    .localVar range ⟨"x", range⟩ none (some choice) true false,
    .whileDo range more [.opAssign range .sub (name "x") (number 1)] none,
    .give range (some (name "x"))]
  let arg : Argument := ⟨⟨"a", range⟩, some (.int range 32), false, false, range⟩
  let main : DeclBody :=
    .function ⟨⟨"main", range⟩, .pub, [arg], some (.int range 32), false, some body⟩
  ⟨#[⟨"app", .file, none, 0, none, [.entity ⟨main, none, range⟩]⟩]⟩

/-- The numbers of the registers that phis read, each with the block it comes from. -/
def Ir.Module.phiUses (m : Ir.Module) : List (Nat × Ir.BlockId) :=
  (m.functions.toList.flatMap fun f => f.instrs.flatMap Ir.Instr.incoming).map
    fun u => (u.1.id, u.2)

theorem compile_isSsa_choosing : ∃ out, compile choosing {} = .ok out ∧
    out.ir.phiUses = [(4, 1), (11, 7)] ∧ ∀ f ∈ out.ir.functions, f.IsSsa := by
  have huses : (compile choosing {}).toOption.map (·.ir.phiUses) = some [(4, 1), (11, 7)] := by
    decide +kernel
  cases h : compile choosing {} with
  | error e =>
    rw [h] at huses
    cases huses
  | ok out =>
    rw [h] at huses
    exact ⟨out, rfl, Option.some.inj huses, compile_isSsa choosing {} out h⟩

/-! ## Phis -/

open Ir (BlockId)

/-- In the code of a compilation that succeeds, each phi lists every predecessor of its block
once, and nothing else. -/
theorem compile_phis (p : Program) (o : Options) (out : CompileOutput)
    (h : compile p o = .ok out) (f : Ir.Function) (hf : f ∈ out.ir.functions) (j : BlockId)
    (b : Ir.Block) (hb : f.block? j = some b) (r : Ir.Register) (values : List (Ir.Value × BlockId))
    (hphi : .phi r values ∈ b.instrs) :
    (values.map Prod.snd).Nodup ∧
      ∀ i, i ∈ values.map Prod.snd ↔ ∃ c, f.block? i = some c ∧ j ∈ c.successors := by
  obtain ⟨s₀, stats, s, hreg, hrun, hir⟩ := compile_ok h
  obtain ⟨hfresh, -⟩ := hreg.fresh
  have hends := (preserves_neat o).runPhases hfresh.sane
  rw [hrun] at hends
  obtain ⟨start, hattested⟩ := hends.1.certified f (hir ▸ hf)
  have hmem : values.map Prod.snd ∈ f.phis j :=
    Ir.Function.mem_phis.mpr ⟨b, hb, r, values, hphi, rfl⟩
  obtain ⟨hnodup, hiff⟩ := hattested.phis j _ hmem
  exact ⟨hnodup, fun i => (hiff i).trans Ir.Function.edge_iff⟩

/-- The blocks with phis, each with the blocks that the phi chooses between. -/
def Ir.Module.joins (m : Ir.Module) : List (BlockId × List BlockId) :=
  m.functions.toList.flatMap fun f =>
    (List.range f.blocks.size).flatMap fun j => (f.phis j).map fun blocks => (j, blocks)

theorem Ir.Module.exists_of_mem_joins {m : Ir.Module} {j : BlockId} {blocks : List BlockId}
    (h : (j, blocks) ∈ m.joins) : ∃ f ∈ m.functions, blocks ∈ f.phis j := by
  obtain ⟨f, hf, h⟩ := List.mem_flatMap.mp h
  obtain ⟨k, -, h⟩ := List.mem_flatMap.mp h
  obtain ⟨blocks', hmem, heq⟩ := List.mem_map.mp h
  cases heq
  exact ⟨f, Array.mem_toList_iff.mp hf, hmem⟩

/-- A program with one function, whose result is a conditional value: its condition compares
strings, and one of its alternatives awaits a future and has an unfinished part. -/
def braided : Program :=
  let range : Span := ⟨0, 0, 0⟩
  let name (s : String) : Expr := .entity range ⟨0, [⟨s, range⟩], range⟩
  let both (l r : Expr) : Expr := .binary range .and l r
  let same : Expr := .binary range .eq (name "s") (name "t")
  let unfinished : Expr :=
    .index range (.tuple range [.todo range none, name "a"]) (.int range 1 none)
  let value : Expr := .ifElse range (.binary range .or (name "a") (both same (name "a"))) (name "a")
    (both (.await range (name "p")) unfinished)
  let arg (s : String) (type : TypeExpr) : Argument := ⟨⟨s, range⟩, some type, false, false, range⟩
  let args : List Argument := [arg "a" (.bool range), arg "s" (.str range), arg "t" (.str range),
    arg "p" (.future range (.bool range) false)]
  let main : DeclBody := .function ⟨⟨"main", range⟩, .pub, args, some (.bool range), false,
    some [.give range (some value)]⟩
  ⟨#[⟨"app", .file, none, 0, none, [.entity ⟨main, none, range⟩]⟩]⟩

theorem compile_phis_braided : ∃ out, compile braided {} = .ok out ∧
    out.ir.joins = [(2, [0, 10]), (10, [8, 9]), (13, [11, 17]), (17, [15, 18])] ∧
    ∃ f ∈ out.ir.functions, ∃ b, f.block? 17 = some b ∧ ∃ r values, .phi r values ∈ b.instrs ∧
      values.map Prod.snd = [15, 18] ∧ (values.map Prod.snd).Nodup ∧
      ∀ i, i ∈ values.map Prod.snd ↔ ∃ c, f.block? i = some c ∧ 17 ∈ c.successors := by
  have hjoins : (compile braided {}).toOption.map (·.ir.joins) =
      some [(2, [0, 10]), (10, [8, 9]), (13, [11, 17]), (17, [15, 18])] := by
    decide +kernel
  cases h : compile braided {} with
  | error e =>
    rw [h] at hjoins
    cases hjoins
  | ok out =>
    rw [h] at hjoins
    have hjoins : out.ir.joins = _ := Option.some.inj hjoins
    have hjoin : (17, [15, 18]) ∈ out.ir.joins := by rw [hjoins]; decide
    obtain ⟨f, hf, hmem⟩ := Ir.Module.exists_of_mem_joins hjoin
    obtain ⟨b, hb, r, values, hphi, hvalues⟩ := Ir.Function.mem_phis.mp hmem
    exact ⟨out, rfl, hjoins, f, hf, b, hb, r, values, hphi, hvalues,
      compile_phis braided {} out h f hf 17 b hb r values hphi⟩

end Staged
