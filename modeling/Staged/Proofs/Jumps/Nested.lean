/-
  Staged.Proofs.Jumps.Nested — jumps reach the loops that they name.

  A nested body is lowered as if each jump had been given the blocks of its loop, and run as
  if each jump had been told how many loops to leave. It is refused for a jump that misses
  its loop (E2016) only where a compile-time function is called whose own body is not nested;
  the refusal is the one of that function (`Compiler.Escapes`). The exception is real:
  `callsStray` is such a body, without any loop or jump.

  Main statement: `jumps_reach_loops`.
-/

import Staged.Proofs.Jumps.Exit
import Staged.Proofs.Jumps.Lower

namespace Staged

/-! ## Refusals -/

theorem Fault.isStray_of_code {f : Fault} (h : f.code = .controlFlow) : f.isStray = true := by
  cases f with
  | fold e => cases e <;> cases h
  | resolve e => cases e <;> cases h
  | _ => first | rfl | cases h

def Emit.refusal? {α : Type} (a : Emit α) (o : Options) (s : Compiler) : Option (Fault × Span) :=
  match a o s with
  | .error (.fault fault range) _ => some (fault, range)
  | _ => none

/-- A refusal that calls of a compile-time function meet if a jump gets out of its body; that
body is not nested. -/
def Compiler.Escapes (s : Compiler) (fault : Fault) (range : Span) : Prop :=
  ∃ id g, s.symbols.lookup id = some (.prerunFunction g) ∧ sentencesNested [] g.body = false ∧
    fault = .jumpEscaped g.fullName ∧ range = g.range

/-- Whatever is asked for, jumps get out of compile-time functions only where these are not
nested. -/
def Compiler.bounding (s : Compiler) : FreeSetting where
  outer := s.outer
  frames _ := True
  blames _ := True
  strays e := ∃ fault range, e = .fault fault range ∧ s.Escapes fault range
  code _ := True
  code_intern _ _ := trivial
  code_abandon _ := trivial
  code_types _ _ := trivial
  code_emitted _ _ _ := trivial
  code_all _ := trivial

namespace Compiler

variable {s : Compiler}

theorem holds_bounding : s.bounding.Holds s := ⟨rfl, trivial, trivial⟩

theorem bounds_of_nested {g : PrerunFunction} (h : sentencesNested [] g.body = true) :
    s.bounding.Bounds g := .inl h

theorem open_bounding (s : Compiler) : s.bounding.Open where
  finds _ _ _ _ _ := trivial
  bounds g hg := by
    obtain ⟨id, hid⟩ := hg
    by_cases h : sentencesNested [] g.body = true
    · exact .inl h
    · exact .inr ⟨_, _, rfl, id, g, hid, by simpa using h, rfl, rfl⟩

/-- Where failures are those of the setting, refusals for jumps are escapes. -/
theorem escapes_of_allows {α : Type} {a : Emit α} {o : Options} {fault : Fault} {range : Span}
    (h : ∀ e s', a o s = .error e s' → s.bounding.Allows e)
    (hr : Emit.refusal? a o s = some (fault, range)) (hcode : fault.code = .controlFlow) :
    s.Escapes fault range := by
  unfold Emit.refusal? at hr
  split at hr
  · rename_i e s' hrun
    cases hr
    obtain ⟨fault', range', heq, hescapes⟩ := (h _ _ hrun).2 (Fault.isStray_of_code hcode)
    cases heq
    exact hescapes
  · cases hr

end Compiler

namespace Emit

/-! ## Nested bodies -/

variable {o : Options} {s : Compiler}

theorem lowerSentences_nested (view : Viewpoint) {ss : List Sentence} {f : FunctionState}
    (hf : s.func = some f) (h : sentencesNested (tagsOf f.loops) ss = true) :
    lowerSentences view ss o s = lowerSentencesIn view f.loops ss o s ∧
      ∀ e s', lowerSentences view ss o s = .error e s' → s.bounding.Allows e := by
  obtain ⟨heq, hrun⟩ := agrees_lowerSentences (w := s.bounding.toTypeSetting)
    s.open_bounding view ss h o s Compiler.holds_bounding ⟨f, hf, rfl⟩
  refine ⟨heq, fun e s' hr => ?_⟩
  rw [hr] at hrun
  exact hrun

theorem callPrerun_nested {g : PrerunFunction} (args : List Constant) (range : Span)
    (h : sentencesNested [] g.body = true) {e : Failure} {s' : Compiler}
    (hr : callPrerun g args range o s = .error e s') : s.bounding.Allows e := by
  have hrun := triple_iff.mp (keeps_callPrerun_open args range s.open_bounding
    (Compiler.bounds_of_nested h)) o s Compiler.holds_bounding
  rw [hr] at hrun
  exact hrun.2.1

end Emit

open Emit

/-- Jumps of nested bodies reach the innermost loop around them that they name. Such a body is
lowered with each jump going to the blocks of its loop, and run with each jump ending in its
loop; neither is refused for a jump, unless a compile-time function that is called has a jump
outside its loops. That a loop repeats the tag of one around it is no matter. -/
theorem jumps_reach_loops (o : Options) (s : Compiler) :
    (∀ view ss f, s.func = some f → sentencesNested (tagsOf f.loops) ss = true →
      lowerSentences view ss o s = lowerSentencesIn view f.loops ss o s ∧
      ∀ fault range, refusal? (lowerSentences view ss) o s = some (fault, range) →
        fault.code = .controlFlow → s.Escapes fault range) ∧
    (∀ call view around ss, sentencesNested around ss = true →
      Exit.of around <$> runSentencesWith call view ss = runSentencesExit call view around ss ∧
      JumpsWithin around (runSentencesWith call view ss)) ∧
    ∀ g args range, sentencesNested [] g.body = true → ∀ fault at_,
      refusal? (callPrerun g args range) o s = some (fault, at_) →
        fault.code = .controlFlow → s.Escapes fault at_ := by
  refine ⟨fun view ss f hf h => ?_, fun call view around ss h => ?_, fun g args range h => ?_⟩
  · obtain ⟨heq, hfails⟩ := lowerSentences_nested view (o := o) hf h
    exact ⟨heq, fun _ _ => Compiler.escapes_of_allows hfails⟩
  · exact ⟨map_runSentencesWith call view ss around, jumpsWithin_runSentencesWith call view ss h⟩
  · exact fun _ _ => Compiler.escapes_of_allows fun _ _ => callPrerun_nested args range h

/-! ## A jump between loops -/

/-- A function under construction with one block, and a compile-time function `p` with a jump
outside its loops. -/
def strayed : Compiler :=
  let range : Span := ⟨0, 0, 0⟩
  let p : PrerunFunction := ⟨"app::p", 0, [], .void, [.breakLoop range none], range⟩
  let item : Item := ⟨⟨"p", range⟩, 0, .prerunFunction, .pub⟩
  let app : Mod := { name := ⟨"app", range⟩, kind := .file, parent := none, file := 0, path := none, items := [item] }
  { types := .ofPointerWidth 64, modules := ⟨#[app]⟩, symbols := [(0, .prerunFunction p)],
    ir := { name := "app" }
    func := some ⟨0, ((Ir.Function.ofSignature "f" [] .void).newBlock (some "entry")).1, 0, [[]], [],
      .void, none⟩ }

def callsStray : List Sentence :=
  let range : Span := ⟨0, 0, 0⟩
  [.expr range (.call range (.entity range ⟨0, [⟨"p", range⟩], range⟩) [])]

/-- The call is refused for the jump of what it calls, both where it is lowered and where it
runs. -/
theorem callsStray_refused : sentencesNested [] callsStray = true ∧
    (refusal? (lowerSentences { module := 0 } callsStray) {} strayed).map (·.1.code) =
      some .controlFlow ∧
    (refusal? (callPrerun ⟨"f", 0, [], .void, callsStray, ⟨0, 0, 0⟩⟩ [] ⟨0, 0, 0⟩) {} strayed).map
      (·.1.code) = some .controlFlow := by
  decide +kernel

/-- A loop inside another one, which it leaves, and a third loop after them. -/
def leavesTwo : List Sentence :=
  let range : Span := ⟨0, 0, 0⟩
  let out : Option Ident := some ⟨"out", range⟩
  [.loop range [.loop range [.breakLoop range out] none] out, .loop range [.breakLoop range none] none]

/-- The blocks that the blocks of the function under construction jump to, if an action is not
refused. -/
def successorsAfter (a : Emit Unit) (o : Options) (s : Compiler) : List (List Ir.BlockId) :=
  match a o s with
  | .ok _ s' => (s'.func.map fun f => f.function.blocks.toList.map (·.successors)).getD []
  | .error .. => []

/-- Block 3 is the inner loop and block 2 follows the outer one; block 5 is the third loop and
block 6 follows it. -/
theorem jumps_reach_loops_leavesTwo :
    sentencesNested [] leavesTwo = true ∧
    successorsAfter (lowerSentencesIn { module := 0 } [] leavesTwo) {} strayed =
      [[1], [3], [5], [2], [1], [6], []] ∧
    lowerSentences { module := 0 } leavesTwo {} strayed =
      lowerSentencesIn { module := 0 } [] leavesTwo {} strayed ∧
    (∀ fault range, refusal? (callPrerun ⟨"f", 0, [], .void, leavesTwo, ⟨0, 0, 0⟩⟩ [] ⟨0, 0, 0⟩) {}
      strayed = some (fault, range) → fault.code = .controlFlow → strayed.Escapes fault range) ∧
    Exit.of [] <$> runSentencesWith (callKnown 0) { module := 0 } leavesTwo =
      runSentencesExit (callKnown 0) { module := 0 } [] leavesTwo := by
  have hnested : sentencesNested [] leavesTwo = true := by decide
  obtain ⟨hlower, hrun, hcall⟩ := jumps_reach_loops {} strayed
  refine ⟨hnested, by decide +kernel, (hlower _ _ _ rfl hnested).1, ?_, (hrun _ _ _ _ hnested).1⟩
  exact hcall _ _ _ hnested

end Staged
