/-
  Staged.Proofs.Typing.Compile — direct calls fit what was declared.

  Where the phases begin there is nothing declared yet, and every call of a phase leaves
  types that fit (`preserves_typed`). So in the code of a compilation that succeeds, every
  direct call is of a function that exists and fits a prototype that this function was
  declared with. The prototype of the function itself is one of them, and the only one unless
  declarations share the function.

  A call fits where an address is passed as another kind of address of the same target:
  locals live in marks, and a parameter that is a reference takes them as they are
  (`compile_not_always_exact`).

  Main statement: `compile_calls_fit`.
-/

import Staged.Proofs.Halting.Compile
import Staged.Proofs.Typing.Phase

namespace Staged

variable {o : Options} {s : Compiler}

/-! ## Whole runs -/

/-- Where the phases begin, nothing is declared. -/
theorem Compiler.Fresh.typed (h : s.Fresh (Compiler.ofOptions o).core) : s.Typed := by
  have htypes : s.types = (Compiler.ofOptions o).types := congrArg Core.types h.core
  have hfunc : s.func = none := congrArg Core.func h.core
  have hfunctions : s.ir.functions = #[] := congrArg (·.ir.functions) h.core
  refine ⟨h.frames, fun id y hy => ?_, fun ty m hm => ?_, ⟨fun f hf => ?_, fun id f hf => ?_⟩,
    fun f hf => ?_⟩
  · rw [h.symbols] at hy
    cases hy
  · rw [htypes] at hm
    cases ty <;> cases hm
  · rw [hfunctions] at hf
    exact absurd hf (Array.not_mem_empty f)
  · rw [hfunctions] at hf
    cases hf
  · rw [hfunc] at hf
    cases hf

/-- Every call leaves types that fit. -/
theorem preserves_typed (o : Options) :
    (compileHost o).Preserves fun s => ((s.Ready ∧ s.Accounts) ∧ s.Drafts) ∧ s.Typed := by
  intro p id s s' ⟨hs, htyped⟩ ha hd hr
  obtain ⟨hkept, ha'⟩ := preserves_drafts o p id s s' hs ha hd hr
  refine ⟨⟨hkept, ?_⟩, ha'⟩
  obtain ⟨⟨hready, haccounts⟩, hdrafts⟩ := hs
  obtain ⟨site, hsite⟩ := site_of_due hready hd
  obtain ⟨hnext, -⟩ := Host.due_iff.mp hd
  obtain ⟨e, he, hp⟩ := EntityGraph.get?_of_nextPhase? hnext
  have hphase : p ∈ site.decl.body.kind.phases := by
    rw [← hready.coherent.kind id site e hsite he]
    exact List.mem_of_getElem? hp
  obtain ⟨b, t, hg, hrun⟩ := Emit.runPhase_ok hsite hr
  have hlogged : Compiler.Typed { s with log := s.log.push (id, p) } :=
    htyped.of_core rfl rfl htyped.frames
  have ht : t.Typed := Emit.typed_guardHolds hlogged hg
  have hs' : s'.Typed := by
    rcases hrun with ⟨rfl, rfl⟩ | ⟨rfl, hrun⟩
    · exact ht
    · have hdrafted := hdrafts.drafted hsite hnext
      exact Emit.typed_phaseOf ht (hdrafted.after (Emit.passes_guarded haccounts.whole hg)) hphase
        hkept.1.1.frames hrun
  exact hs'.of_core rfl rfl hs'.frames

/-! ## Direct calls -/

namespace Ir

structure DirectCall where
  dest : Option Register
  callee : FunctionId
  args : List Value

def Instr.directCall? : Instr → Option DirectCall
  | .call dest (.function id) args => some ⟨dest, id, args⟩
  | _ => none

def Module.directCalls (m : Module) : List DirectCall :=
  m.functions.toList.flatMap fun f => f.instrs.filterMap Instr.directCall?

variable {m : Module} {c : DirectCall}

theorem Instr.directCall?_iff {i : Instr} :
    i.directCall? = some c ↔ i = .call c.dest (.function c.callee) c.args := by
  refine ⟨fun h => ?_, fun h => h ▸ rfl⟩
  unfold directCall? at h
  split at h
  · cases h
    rfl
  · cases h

theorem Module.mem_directCalls : c ∈ m.directCalls ↔
    ∃ f ∈ m.functions, .call c.dest (.function c.callee) c.args ∈ f.instrs := by
  simp only [directCalls, List.mem_flatMap, List.mem_filterMap, Instr.directCall?_iff,
    exists_eq_right, Array.mem_toList_iff]

/-- What is called is referred to. -/
theorem Module.ref_of_directCall (h : c ∈ m.directCalls) : .function c.callee ∈ m.refs := by
  obtain ⟨f, hf, hi⟩ := mem_directCalls.mp h
  obtain ⟨b, hb, hi⟩ := List.mem_flatMap.mp hi
  refine List.mem_append_left _ (List.mem_flatMap.mpr ⟨f, Array.mem_toList_iff.mpr hf, ?_⟩)
  refine List.mem_flatMap.mpr ⟨b, hb, List.mem_append_left _ (List.mem_flatMap.mpr ⟨_, hi, ?_⟩)⟩
  exact List.mem_append_left _ List.mem_cons_self

end Ir

/-- In the code of a compilation that succeeds, every direct call is of a function that exists,
and it fits a prototype that the function was declared with, by a function declaration, by a
member of a type or as an allocator. The function's own prototype is such a prototype, so the
call fits the function itself if it was not declared in different ways. -/
theorem compile_calls_fit (p : Program) (o : Options) (out : CompileOutput)
    (h : compile p o = .ok out) :
    ∃ stats s, (compileAction p o).run (Compiler.ofOptions o) = .ok stats s ∧ out.ir = s.ir ∧
      ∀ c ∈ out.ir.directCalls, ∃ f, out.ir.functions[c.callee]? = some f ∧
        s.Declares c.callee f.prototype ∧
        (∃ q, s.Declares c.callee q ∧ q.Fits c.dest c.args) ∧
        ((∀ q, s.Declares c.callee q → q = f.prototype) → f.prototype.Fits c.dest c.args) := by
  obtain ⟨s₀, stats, s, hreg, hrun, hir⟩ := compile_ok h
  obtain ⟨hfresh, -⟩ := hreg.fresh
  have hends := (preserves_typed o).runPhases
    ⟨⟨⟨hfresh.ready, hfresh.accounts⟩, hfresh.drafts⟩, hfresh.typed⟩
  rw [hrun] at hends
  obtain ⟨⟨⟨⟨-, haccounts⟩, -⟩, htyped⟩, hfinished⟩ := hends
  refine ⟨stats, s, (compileAction_ok hreg).trans hrun, hir, fun c hc => ?_⟩
  rw [hir] at hc ⊢
  obtain ⟨-, hdefines⟩ := haccounts.valid hfinished
  have hlt : c.callee < s.ir.functions.size := hdefines _ (Ir.Module.ref_of_directCall hc)
  obtain ⟨f, hf, hi⟩ := Ir.Module.mem_directCalls.mp hc
  obtain ⟨q, hq, hfits⟩ := (htyped.fits.calls f hf).of_instrs hi _ _ _ rfl
  have hget : s.ir.functions[c.callee]? = some s.ir.functions[c.callee] :=
    Array.getElem?_eq_getElem hlt
  exact ⟨_, hget, htyped.fits.declared _ _ hget, ⟨q, hq, hfits⟩, fun hall => hall q hq ▸ hfits⟩

/-- A function with a reference as its parameter, and one that calls it with a local. -/
def lent : Program :=
  let range : Span := ⟨0, 0, 0⟩
  let entity (name : String) : Expr := .entity range ⟨0, [⟨name, range⟩], range⟩
  let function (name : String) (args : List Argument) (body : List Sentence) : DeclBody :=
    .function ⟨⟨name, range⟩, .pub, args, none, false, some body⟩
  let decls : List DeclBody := [
    function "f" [⟨⟨"a", range⟩, some (.ref range (.int range 32) false), false, false, range⟩] [],
    function "g" [] [.localVar range ⟨"x", range⟩ none (some (.int range 5 none)) false false,
      .expr range (.call range (entity "f") [entity "x"])]]
  ⟨#[⟨"app", .file, none, 0, none, decls.map fun d => .entity ⟨d, none, range⟩⟩]⟩

/-- The types of what is passed directly, and of the parameters it is passed to. -/
def passedTypes (m : Ir.Module) : List (List Ty × Option (List Ty)) :=
  m.directCalls.map fun c =>
    (c.args.map Ir.Value.type, m.functions[c.callee]?.map (·.prototype.params))

/-- A mark is passed to a reference. -/
theorem exists_lent : ∃ out c f, compile lent {} = .ok out ∧ out.ir.directCalls = [c] ∧
    out.ir.functions[c.callee]? = some f ∧ c.args.map Ir.Value.type = [.markTo .i32 true] ∧
    f.prototype.params = [.ref .i32 false] := by
  have hpassed : (compile lent {}).toOption.map (passedTypes ·.ir) =
      some [([.markTo .i32 true], some [.ref .i32 false])] := by
    decide +kernel
  cases h : compile lent {} with
  | error e =>
    rw [h] at hpassed
    cases hpassed
  | ok out =>
    rw [h] at hpassed
    obtain ⟨c, hcalls, htypes⟩ := List.map_eq_singleton_iff.mp (Option.some.inj hpassed)
    obtain ⟨hargs, hparams⟩ := Prod.mk.inj htypes
    obtain ⟨f, hf, hparams⟩ := Option.map_eq_some_iff.mp hparams
    exact ⟨out, c, f, rfl, hcalls, hf, hargs, hparams⟩

/-- What is passed is not always of the very type of the parameter. -/
theorem compile_not_always_exact : ¬∀ (p : Program) (o : Options) (out : CompileOutput),
    compile p o = .ok out → ∀ c ∈ out.ir.directCalls, ∃ f,
      out.ir.functions[c.callee]? = some f ∧ f.prototype.Takes Eq c.dest c.args := by
  intro hexact
  obtain ⟨out, c, f, h, hcalls, hf, hargs, hparams⟩ := exists_lent
  obtain ⟨f', hf', htakes⟩ := hexact lent {} out h c (hcalls ▸ List.mem_singleton_self c)
  cases hf.symm.trans hf'
  obtain ⟨v, hv, htype⟩ := List.map_eq_singleton_iff.mp hargs
  have hsame : v.type = .ref .i32 false := htakes.types (v, .ref .i32 false) (by
    rw [hv, hparams]
    exact List.mem_singleton_self _)
  cases htype.symm.trans hsame

theorem compile_calls_fit_lent : ∃ out c f stats s, compile lent {} = .ok out ∧
    out.ir.directCalls = [c] ∧ out.ir.functions[c.callee]? = some f ∧
    f.prototype.params = [.ref .i32 false] ∧
    (compileAction lent {}).run (Compiler.ofOptions {}) = .ok stats s ∧
    s.Declares c.callee f.prototype ∧ ∃ q, s.Declares c.callee q ∧ q.Fits c.dest c.args := by
  obtain ⟨out, c, f, h, hcalls, hf, -, hparams⟩ := exists_lent
  obtain ⟨stats, s, hrun, -, hfits⟩ := compile_calls_fit lent {} out h
  obtain ⟨f', hf', hown, hdeclared, -⟩ := hfits c (hcalls ▸ List.mem_singleton_self c)
  cases hf.symm.trans hf'
  exact ⟨out, c, f, stats, s, h, hcalls, hf, hparams, hrun, hown, hdeclared⟩

end Staged
