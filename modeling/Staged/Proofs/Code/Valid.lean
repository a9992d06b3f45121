/-
  Staged.Proofs.Code.Valid — a compilation that succeeds gives valid code.

  The accounts are kept by every call, and empty where the phases begin. At the end all
  entities are finished, so every function that is not external has a body; that blocks
  are closed, jumps have targets and references have entries holds at every moment between
  calls.

  Main statement: `compile_valid`.
-/

import Staged.Proofs.Code.Accounts
import Staged.Proofs.Compile.Run

namespace Staged

variable {o : Options} {s s' : Compiler}

/-! ## Whole runs -/

theorem Compiler.whole_ofOptions (o : Options) : (Compiler.ofOptions o).Whole := by
  refine ⟨rfl, ⟨⟨?_, ?_⟩, ?_, ?_, fun f hf => by cases hf⟩, fun y hy => by cases hy⟩
  all_goals
    intro d hd
    exact absurd hd (Array.not_mem_empty d)

/-- Where the phases begin, there is neither code nor a declaration that keeps anything. -/
theorem Compiler.Fresh.accounts (h : s.Fresh (Compiler.ofOptions o).core) : s.Accounts := by
  have hwhole := Compiler.whole_ofOptions o
  have hkeeps (id : EntityId) (body : DeclBody) (w : Home) : ¬s.Keeps id body w := by
    rintro ⟨y, hy, -⟩
    rw [h.symbols] at hy
    cases hy
  refine ⟨⟨(congrArg Core.func h.core).trans hwhole.func, h.core ▸ hwhole.code, fun y hy => ?_⟩,
    fun id site _ i hi => ?_, fun id site _ w hw => absurd hw (hkeeps _ _ w),
    fun id site _ _ _ _ w hw => absurd hw (hkeeps _ _ w),
    fun id site _ _ w hw => absurd hw (hkeeps _ _ w),
    fun id site _ _ w _ hw => absurd hw (hkeeps _ _ w), fun i hi => ?_⟩
  · rw [h.symbols] at hy
    cases hy
  · rcases hi with ⟨y, hy, -⟩ | ⟨w, _, _, hw, -⟩
    · rw [h.symbols] at hy
      cases hy
    · exact absurd hw (hkeeps _ _ w)
  · rw [h.core] at hi
    obtain ⟨f, hf, -⟩ := hi
    cases hf

/-- Every call keeps the accounts. -/
theorem preserves_accounts (o : Options) :
    (compileHost o).Preserves fun s => s.Ready ∧ s.Accounts := by
  intro p id s s' ⟨hs, haccounts⟩ ha hd hr
  obtain ⟨hready', ha'⟩ := preserves_ready o p id s s' hs ha hd hr
  refine ⟨⟨hready', ?_⟩, ha'⟩
  obtain ⟨site, hsite⟩ := site_of_due hs hd
  obtain ⟨hnext, hready⟩ := Host.due_iff.mp hd
  obtain ⟨e, he, hp⟩ := EntityGraph.get?_of_nextPhase? hnext
  have hkind := hs.coherent.kind id site e hsite he
  have hgraph (hw : s'.Whole) :
      s'.Passes ((compileHost o).finished p id s') fun _ => False :=
    Compiler.passes_of_core hw rfl rfl
  obtain ⟨b, t, hg, hrun⟩ := Emit.runPhase_ok hsite hr
  rcases hrun with ⟨rfl, rfl⟩ | ⟨rfl, hrun⟩
  · have hskips := Emit.skips_runPhase hs.coherent hs.frames hsite hready hg
    have hpasses := Emit.passes_guarded haccounts.whole hg
    have hmoved := hs.coherent.moved hsite hnext (.inr hskips)
    refine haccounts.skipped hmoved (hpasses.next (hgraph hpasses.whole)) (fun hthree => ?_)
      hskips.nextPhase?
    have hphase : p = .three := Option.some.inj (hnext.symm.trans hthree)
    exact Emit.firstPhase_ne_three _ (hskips.firstPhase.symm.trans hphase)
  · obtain ⟨hruns, heffect⟩ := Emit.effect_runPhase hs.coherent hs.frames hsite hnext hready
      (settled_of_ahead ha) (haccounts.due hsite hnext) hg hrun
    have hmoved := hs.coherent.moved hsite hnext (.inl hruns)
    have hafter := hruns.nextPhase? he hp
    refine haccounts.effect hmoved hsite (heffect.next (hgraph heffect.whole)) hnext
      (fun hd => ?_) (fun hq => ?_) fun hq => ?_
    · exact hafter.trans (EntityKind.phases_of_declares hp (hkind ▸ hd))
    · exact EntityKind.one_of_phases hp (hafter.symm.trans hq)
    · exact hkind ▸ EntityKind.two_of_phases hp (hafter.symm.trans hq)

/-! ## Valid code -/

theorem Ir.Function.Sound.invalid? {f : Ir.Function} {e : Extent} (h : f.Sound e)
    (hbody : f.external = false → f.blocks ≠ #[]) : f.invalid? = none := by
  unfold Ir.Function.invalid?
  cases hext : f.external with
  | true =>
    rw [h.external hext]
    rfl
  | false =>
    simp only [Bool.false_eq_true, if_false, Array.isEmpty_iff, if_neg (hbody hext)]
    rw [List.findSome?_eq_none_iff]
    rintro ⟨b, i⟩ hb
    have hmem : b ∈ f.blocks := Array.mem_toList_iff.mp (List.fst_mem_of_mem_zipIdx hb)
    simp only [Ir.Function.invalidBlock?, h.closed b hmem, Bool.not_true, Bool.false_eq_true,
      if_false, Option.map_eq_none_iff, List.find?_eq_none]
    intro t ht
    have hlt := h.targets b hmem t ht
    simp [Ir.Function.block?, hlt]

/-- Whatever a finished program refers to is there, and its functions are complete. -/
theorem Compiler.Accounts.valid (h : s.Accounts) (hf : ∀ id, s.entities.nextPhase? id = none) :
    s.ir.invalid? = none ∧ ∀ r ∈ s.ir.refs, s.ir.Defines r := by
  have hcode := h.whole.code
  refine ⟨?_, fun r hr => ?_⟩
  · unfold Ir.Module.invalid?
    rw [List.findSome?_eq_none_iff]
    intro f hmem
    have hmem := Array.mem_toList_iff.mp hmem
    refine (hcode.functions f hmem).invalid? fun hext hblocks => ?_
    obtain ⟨i, hi⟩ := Array.mem_iff_getElem?.mp hmem
    exact h.not_lacks hf i ⟨f, hi, hext, hblocks⟩
  · have hcovers : s.core.extent.Covers s.ir.refs := by
      unfold Ir.Module.refs
      rw [Extent.covers_append, Extent.covers_flatMap, Extent.covers_flatMap]
      exact ⟨fun f hmem => (hcode.functions f (Array.mem_toList_iff.mp hmem)).refs,
        fun g hmem => hcode.globals g (Array.mem_toList_iff.mp hmem)⟩
    have hhas := hcovers r hr
    cases r <;> exact hhas

/-- The code of a compilation that succeeds is complete: functions have the blocks they
should have, blocks are closed and jump to blocks, and every number of a function, a
global or a string that occurs anywhere belongs to an entry. -/
theorem compile_valid (p : Program) (o : Options) (out : CompileOutput)
    (h : compile p o = .ok out) :
    out.ir.invalid? = none ∧ ∀ r ∈ out.ir.refs, out.ir.Defines r := by
  obtain ⟨s₀, stats, s, hreg, hrun, hir⟩ := compile_ok h
  obtain ⟨hfresh, -⟩ := hreg.fresh
  have hends := (preserves_accounts o).runPhases ⟨hfresh.ready, hfresh.accounts⟩
  rw [hrun] at hends
  obtain ⟨⟨-, haccounts⟩, hfinished⟩ := hends
  rw [hir]
  exact haccounts.valid hfinished

/-- A program with one function, which keeps a text in a local inside a loop. -/
def greeting : Program :=
  let range : Span := ⟨0, 0, 0⟩
  let text : Sentence := .localVar range ⟨"text", range⟩ none (some (.str range "hello")) false false
  let body : List Sentence := [.loop range [text, .breakLoop range none] none]
  let main : DeclBody := .function ⟨⟨"main", range⟩, .pub, [], none, false, some body⟩
  ⟨#[⟨"app", .file, none, 0, none, [.entity ⟨main, none, range⟩]⟩]⟩

theorem compile_valid_greeting :
    ∃ out, compile greeting {} = .ok out ∧ out.ir.refs = [.string 0] ∧
      out.ir.invalid? = none ∧ ∀ r ∈ out.ir.refs, out.ir.Defines r := by
  have hrefs : (compile greeting {}).toOption.map (·.ir.refs) = some [.string 0] := by
    decide +kernel
  cases h : compile greeting {} with
  | error e =>
    rw [h] at hrefs
    cases hrefs
  | ok out =>
    rw [h] at hrefs
    exact ⟨out, rfl, Option.some.inj hrefs, compile_valid greeting {} out h⟩

end Staged
