/-
  Staged.Proofs.Values.Untouched — what evaluation leaves of a state.

  Evaluation in the middle of a body shares its state with lowering. It only uses types and
  warns, with one exception: a debug build goes on after code that is not written yet, and
  then nothing gets to what follows in the function under construction
  (`FunctionState.abandon`). So whatever is evaluated, and whether it gives a value or
  fails, a state is spared (`Compiler.Spares`): modules, entities, symbols and code are as
  they were, and the function under construction has been abandoned a number of times,
  which in a release is none.
-/

import Staged.Proofs.Values.Calls

namespace Staged

/-! ## The function under construction -/

namespace FunctionState

theorem instrs_modifyBlock_close (f : Ir.Function) (id : Ir.BlockId) (t : Ir.Terminator) :
    (f.modifyBlock id (·.close t)).instrs = f.instrs := by
  have hclose (b : Ir.Block) : (b.close t).instrs = b.instrs := by
    unfold Ir.Block.close
    split <;> rfl
  unfold Ir.Function.instrs Ir.Function.modifyBlock
  rw [List.flatMap_def, List.flatMap_def]
  refine congrArg List.flatten (List.ext_getElem? fun i => ?_)
  simp only [List.getElem?_map, Array.getElem?_toList, Array.getElem?_modify]
  split
  · cases f.blocks[i]? with
    | none => rfl
    | some b => exact congrArg (fun is : Array Ir.Instr => some is.toList) (hclose b)
  · rfl

/-- No instruction is written or taken back. -/
theorem instrs_abandon (f : FunctionState) : f.abandon.function.instrs = f.function.instrs := by
  rw [← instrs_modifyBlock_close f.function f.current .unreachable]
  simp only [abandon, Ir.Function.newBlock, Ir.Function.instrs, Array.toList_push,
    List.flatMap_append, List.flatMap_singleton, List.append_nil]

/-- Nothing but blocks changes, whatever is abandoned. -/
theorem abandon_iterate (f : FunctionState) (n : Nat) :
    (∃ blocks current, abandon^[n] f =
      { f with function := { f.function with blocks }, current }) ∧
    (abandon^[n] f).function.instrs = f.function.instrs := by
  induction n with
  | zero => exact ⟨⟨_, _, rfl⟩, rfl⟩
  | succ n ih =>
    obtain ⟨⟨blocks, current, hf⟩, hinstrs⟩ := ih
    rw [Function.iterate_succ_apply', instrs_abandon]
    exact ⟨⟨_, _, by rw [hf]; rfl⟩, hinstrs⟩

/-- The block that was being written is closed for good, unless it was closed before. -/
theorem block_abandon {f : FunctionState} {b : Ir.Block}
    (hb : f.function.block? f.current = some b) :
    f.abandon.function.block? f.current = some (b.close .unreachable) := by
  have hlt : f.current < f.function.blocks.size := (Array.getElem?_eq_some_iff.mp hb).1
  show ((f.function.blocks.modify f.current (·.close .unreachable)).push _)[f.current]? = _
  rw [Array.getElem?_push_lt (by rwa [Array.size_modify]), Array.getElem_modify_self,
    (Array.getElem?_eq_some_iff.mp hb).2]

end FunctionState

/-! ## States -/

structure Compiler.Spares (mode : BuildMode) (s s' : Compiler) : Prop where
  outer : s'.outer = s.outer
  ir : s'.ir = s.ir
  calls : s'.frames.length = s.frames.length
  types : ∃ used : List Ty, s'.types = used.foldl TypeTable.intern s.types
  warnings : ∃ more, s'.warnings = s.warnings ++ more
  func : ∃ n, s'.func = s.func.map FunctionState.abandon^[n] ∧ (mode = .release → n = 0)

namespace Compiler

/-- Everything evaluation may do to the state it starts from. -/
def spareGround (s : Compiler) (mode : BuildMode) : Ground where
  toDomain := .all
  outer := s.outer
  admits o := o.mode = mode
  code c := c.ir = s.ir ∧ (∃ used : List Ty, c.types = used.foldl TypeTable.intern s.types) ∧
    ∃ n, c.func = s.func.map FunctionState.abandon^[n] ∧ (mode = .release → n = 0)
  code_intern := by
    rintro c ty ⟨hir, ⟨used, hused⟩, hfunc⟩
    refine ⟨hir, ⟨used ++ [ty], ?_⟩, hfunc⟩
    rw [List.foldl_append, ← hused]
    rfl
  code_abandon := by
    rintro o c rfl hmode ⟨hir, htypes, n, hfunc, -⟩
    refine ⟨hir, htypes, n + 1, ?_, fun h => absurd h hmode⟩
    show c.func.map _ = _
    rw [hfunc, Option.map_map, Function.iterate_succ']
  knows_types _ := trivial
  locals _ _ _ _ := trivial
  symbols _ _ := trivial
  defines _ _ := trivial
  allows _ := True
  allows_fault _ _ := trivial
  allows_missing _ _ _ := trivial
  warned ws := ∃ more, ws = s.warnings ++ more
  warned_push := by
    rintro ws d ⟨more, rfl⟩
    exact ⟨more.push d, Array.append_push.symm⟩

theorem stands_spareGround (s : Compiler) (mode : BuildMode) :
    (s.spareGround mode).Stands s.frames.length s where
  outer := rfl
  calls := rfl
  code := ⟨rfl, ⟨[], rfl⟩, 0, by rw [Function.iterate_zero, Option.map_id_fun]; rfl, fun _ => rfl⟩
  warnings := ⟨#[], Array.append_empty.symm⟩
  frames _ _ _ _ _ _ := trivial

theorem spares_of_stops {s s' : Compiler} {mode : BuildMode}
    (h : (s.spareGround mode).Stops s.frames.length s') : s.Spares mode s' where
  outer := h.outer
  ir := h.code.1
  calls := h.calls
  types := h.code.2.1
  warnings := h.warnings
  func := h.code.2.2

/-- Of the function under construction, at most the blocks are not what they were. -/
theorem Spares.function {s s' : Compiler} {mode : BuildMode} (h : s.Spares mode s')
    {f : FunctionState} (hf : s.func = some f) :
    ∃ blocks current, s'.func =
        some { f with function := { f.function with blocks }, current } ∧
      { f.function with blocks }.instrs = f.function.instrs := by
  obtain ⟨n, hn, -⟩ := h.func
  obtain ⟨⟨blocks, current, heq⟩, hinstrs⟩ := f.abandon_iterate n
  rw [heq] at hinstrs
  rw [hf, Option.map_some, heq] at hn
  exact ⟨blocks, current, hn, hinstrs⟩

end Compiler

namespace Emit

/-- An action spares the state it is run from, whether it gives a value or fails. -/
def Spares {α : Type} (a : Emit α) (o : Options) (s : Compiler) : Prop :=
  match a o s with
  | .ok _ s' | .error _ s' => s.Spares o.mode s'

theorem spares_of_ends {α : Type} {a : Emit α} {o : Options} {s : Compiler} {Q : α → Prop}
    (h : (s.spareGround o.mode).Ends s.frames.length a Q) : a.Spares o s := by
  have hrun := h o rfl s (s.stands_spareGround o.mode)
  unfold Spares
  cases hr : a o s with
  | ok v s' =>
    rw [hr] at hrun
    exact Compiler.spares_of_stops hrun.1.toStops
  | error f s' =>
    rw [hr] at hrun
    exact Compiler.spares_of_stops hrun.1

/-- Outside of calls no sentences are run. -/
theorem inFrameScope_outside {α : Type} (inside : Emit α) (o : Options) {s : Compiler}
    (hs : s.frames = []) : inFrameScope inside o s = .error (.breach .outsideCall) s := by
  have hframe : frame o s = .error (.breach .outsideCall) s := by
    cases s
    cases hs
    rfl
  have hpush : (do setFrame (← frame).push : Emit Unit) o s = .error (.breach .outsideCall) s := by
    rw [bind_apply, hframe]
  unfold inFrameScope
  rw [bracket_apply, hpush]

theorem spares_sentences (o : Options) (left : Nat) (view : Viewpoint) (s : Compiler)
    (body : List Sentence) :
    (inFrameScope (runSentencesWith (callKnown left) view body)).Spares o s := by
  cases hs : s.frames with
  | nil =>
    unfold Spares
    rw [inFrameScope_outside _ o hs]
    exact Compiler.spares_of_stops (s.stands_spareGround o.mode).toStops
  | cons f rest =>
    refine spares_of_ends (Q := Flow.Holds (s.spareGround o.mode).holds) ?_
    rw [hs]
    exact ends_inFrameScope (ends_runSentencesWith (calls_known left) body)

/-- Whatever is evaluated, in any state and however it ends: code, symbols, modules and
entities are left alone, types are only used, warnings only added, and the function under
construction is at most abandoned, by code that is not written yet in a debug build. -/
theorem evaluation_spares (o : Options) (left : Nat) (view : Viewpoint) (s : Compiler) :
    (∀ e expected, (evaluateWith (callKnown left) view e expected).Spares o s) ∧
    (∀ ty, (resolveTypeWith (callKnown left) view ty).Spares o s) ∧
    (∀ body, (inFrameScope (runSentencesWith (callKnown left) view body)).Spares o s) ∧
    ∀ f args range, (callKnown left f args range).Spares o s :=
  ⟨fun e expected => spares_of_ends (ends_evaluateWith (calls_known left) e expected),
    fun ty => spares_of_ends (ends_resolveTypeWith (calls_known left) ty),
    spares_sentences o left view s,
    fun f args range => spares_of_ends (calls_known left _ f args range fun _ _ => trivial)⟩

def halfway : Compiler :=
  { Compiler.ofOptions {} with
    func := some
      { id := 0
        function := ((Ir.Function.ofSignature "app::f" [] .i32).newBlock (some "entry")).1
        current := 0
        result := .i32 } }

/-- A function that gives three after something that is not written yet. -/
def unwritten : PrerunFunction where
  fullName := "app::p"
  module := 0
  args := []
  result := .i32
  body := [.todo ⟨0, 0, 0⟩ none, .give ⟨0, 0, 0⟩ (some (.int ⟨0, 0, 0⟩ 3 none))]
  range := ⟨0, 0, 0⟩

/-- Calling it gives three, and lowering goes on in a block that nothing gets to. -/
theorem callKnown_unwritten : ∃ s', callKnown 1 unwritten [] ⟨0, 0, 0⟩ {} halfway =
      .ok (.int .i32 3) s' ∧
    halfway.func.map FunctionState.current = some 0 ∧
    s'.func.map FunctionState.current = some 1 ∧ s'.func ≠ halfway.func := by
  refine ⟨_, rfl, rfl, rfl, fun h => ?_⟩
  cases congrArg (Option.map FunctionState.current) h

end Emit

end Staged
