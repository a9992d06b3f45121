/-
  Staged.Proofs.Halting.Compile — evaluation ends wherever a compilation gets to.

  Between calls no type holds itself, a definition that is to be filled in has no parts
  yet, and no two declarations have become one definition (`Compiler.Drafts`). Every call
  keeps this. So where a call begins, and wherever the table has grown from there, chains
  of definitions end, and evaluation needs no other bounds than the limits on loops and on
  calls to end as well.

  Main statement: `evaluation_halts`.
-/

import Staged.Proofs.Code.Valid
import Staged.Proofs.Halting.Evaluate
import Staged.Proofs.Halting.Phase
import Staged.Proofs.Values.Untouched

namespace Staged

variable {o : Options} {s s' : Compiler} {id : EntityId} {site : Site} {phase : Phase}

namespace Compiler

structure Drafts (s : Compiler) : Prop where
  grounded : s.types.Grounded
  has : ∀ id site, s.sites[id]? = some site → ∀ ty, s.Defines id site.decl.body ty → s.types.Has ty
  once : ∀ id site, s.sites[id]? = some site → ∀ id' site', s.sites[id']? = some site' →
    ∀ ty, s.Defines id site.decl.body ty → s.Defines id' site'.decl.body ty → id = id'
  blank : ∀ id site, s.sites[id]? = some site → s.entities.nextPhase? id = some .two →
    ∀ ty, s.Defines id site.decl.body ty → s.types.parts? ty = none

theorem Drafts.drafted (h : s.Drafts) (hsite : s.sites[id]? = some site)
    (hnext : s.entities.nextPhase? id = some phase) : s.Drafted id site.decl.body phase where
  has := h.has id site hsite
  blank hphase := h.blank id site hsite (hphase ▸ hnext)

/-! ## One entity moves -/

section

variable (hm : s.outer.Moved s'.outer id)
include hm

theorem defines_of_moved {j : EntityId} {body : DeclBody} {ty : Ty} (hj : j ≠ id) :
    s'.Defines j body ty ↔ s.Defines j body ty := by
  unfold Defines
  rw [show s'.symbols.lookup j = s.symbols.lookup j from hm.lookup j hj]

/-- A phase that builds on drafts leaves drafts. -/
theorem Drafts.builds (h : s.Drafts) (hsite : s.sites[id]? = some site)
    (hb : s.Builds s' id site.decl.body phase)
    (hone : s'.entities.nextPhase? id = some .two → phase = .one) : s'.Drafts := by
  have hold {j : EntityId} {site' : Site} (hsite' : s'.sites[j]? = some site') :
      s.sites[j]? = some site' := by
    rw [← sites_of_moved hm]
    exact hsite'
  have hother {j : EntityId} {site' : Site} (hj : j ≠ id) (hsite' : s.sites[j]? = some site')
      {ty : Ty} (hd : s.Defines j site'.decl.body ty) : ¬s'.Defines id site.decl.body ty := by
    intro hd'
    rcases (hb.has ty hd').2 with hd' | hnew
    · exact hj (h.once j site' hsite' id site hsite ty hd hd')
    · exact hnew (h.has j site' hsite' ty hd)
  refine ⟨h.grounded.grows hb.types, fun j site' hsite' ty hd => ?_,
    fun j site' hsite' k site'' hsite'' ty hd hd' => ?_, fun j site' hsite' hn ty hd => ?_⟩
  · by_cases hj : j = id
    · subst hj
      cases hsite.symm.trans (hold hsite')
      exact (hb.has ty hd).1
    · exact (h.has j site' (hold hsite') ty ((defines_of_moved hm hj).mp hd)).grows hb.types
  · by_cases hj : j = id <;> by_cases hk : k = id
    · exact hj.trans hk.symm
    · subst hj
      cases hsite.symm.trans (hold hsite')
      exact absurd hd (hother hk (hold hsite'') ((defines_of_moved hm hk).mp hd'))
    · subst hk
      cases hsite.symm.trans (hold hsite'')
      exact absurd hd' (hother hj (hold hsite') ((defines_of_moved hm hj).mp hd))
    · exact h.once j site' (hold hsite') k site'' (hold hsite'') ty
        ((defines_of_moved hm hj).mp hd) ((defines_of_moved hm hk).mp hd')
  · by_cases hj : j = id
    · subst hj
      cases hsite.symm.trans (hold hsite')
      exact hb.blank (hone hn) ty hd
    · have hd' := (defines_of_moved hm hj).mp hd
      rw [hb.other ty (h.has j site' (hold hsite') ty hd') (hother hj (hold hsite') hd')]
      exact h.blank j site' (hold hsite') ((nextPhase_of_moved hm hj).symm.trans hn) ty hd'

/-- A declaration that is skipped leaves the drafts as they are. -/
theorem Drafts.skipped (h : s.Drafts) (hp : s.Passes s' fun _ => False)
    (hnone : s'.entities.nextPhase? id = none) : s'.Drafts := by
  have hext := hp.types.sameParts.extends
  refine ⟨h.grounded.extends hext, ?_, ?_, ?_⟩
  all_goals simp only [sites_of_moved hm, hp.defines_iff]
  · exact fun j site' hsite' ty hd => (h.has j site' hsite' ty hd).extends hext
  · exact h.once
  · intro j site' hsite' hn ty hd
    have hj : j ≠ id := by
      rintro rfl
      rw [hnone] at hn
      cases hn
    rw [hp.types.sameParts.parts_eq]
    exact h.blank j site' hsite' ((nextPhase_of_moved hm hj).symm.trans hn) ty hd

end

/-- Where the phases begin, there are no definitions. -/
theorem Fresh.drafts (h : s.Fresh (Compiler.ofOptions o).core) : s.Drafts := by
  have hdefines (id : EntityId) (body : DeclBody) (ty : Ty) : ¬s.Defines id body ty := by
    rintro ⟨y, hy, -⟩
    rw [h.symbols] at hy
    cases hy
  refine ⟨?_, fun id site _ ty hd => absurd hd (hdefines _ _ ty),
    fun id site _ _ _ _ ty hd => absurd hd (hdefines _ _ ty),
    fun id site _ _ ty hd => absurd hd (hdefines _ _ ty)⟩
  rw [show s.types = (Compiler.ofOptions o).types from congrArg Core.types h.core]
  exact TypeTable.grounded_ofPointerWidth _

end Compiler

/-! ## Whole runs -/

/-- Every call keeps the drafts. -/
theorem preserves_drafts (o : Options) :
    (compileHost o).Preserves fun s => (s.Ready ∧ s.Accounts) ∧ s.Drafts := by
  intro p id s s' ⟨⟨hs, haccounts⟩, hdrafts⟩ ha hd hr
  obtain ⟨hkept, ha'⟩ := preserves_accounts o p id s s' ⟨hs, haccounts⟩ ha hd hr
  refine ⟨⟨hkept, ?_⟩, ha'⟩
  obtain ⟨site, hsite⟩ := site_of_due hs hd
  obtain ⟨hnext, hready⟩ := Host.due_iff.mp hd
  obtain ⟨e, he, hp⟩ := EntityGraph.get?_of_nextPhase? hnext
  have hcomes := comes_run hs ha hd hsite
  rw [hr] at hcomes
  have hmoved := hs.coherent.moved hsite hnext hcomes.2
  obtain ⟨b, t, hg, hrun⟩ := Emit.runPhase_ok hsite hr
  rcases hrun with ⟨rfl, rfl⟩ | ⟨rfl, hrun⟩
  · have hskips := Emit.skips_runPhase hs.coherent hs.frames hsite hready hg
    have hpasses := Emit.passes_guarded haccounts.whole hg
    exact hdrafts.skipped hmoved
      (hpasses.next (Compiler.passes_of_core hpasses.whole rfl rfl)) hskips.nextPhase?
  · obtain ⟨hruns, -⟩ := Emit.effect_runPhase hs.coherent hs.frames hsite hnext hready
      (settled_of_ahead ha) (haccounts.due hsite hnext) hg hrun
    have hbuilds := Emit.builds_runPhase hs.coherent hs.frames hsite hnext hready
      (haccounts.due hsite hnext) (hdrafts.drafted hsite hnext) hg hrun
    have hafter := hruns.nextPhase? he hp
    have hfinished : s.Builds ((compileHost o).finished p id s') id site.decl.body p :=
      ⟨hbuilds.types, hbuilds.has, hbuilds.blank, hbuilds.other⟩
    exact hdrafts.builds hmoved hsite hfinished fun hq =>
      EntityKind.one_of_phases hp (hafter.symm.trans hq)

/-! ## Evaluation -/

open Unbounded (ComesTo outcome)

/-- Whatever is evaluated in a state ends, and comes to the same as with as many calls
still to nest as there are below the limit. -/
structure Compiler.Halts (s : Compiler) (o : Options) : Prop where
  type : ∀ view ty, ComesTo (Unbounded.resolveType · view ty o s) (outcome
    (Emit.resolveTypeWith (Emit.callKnown (o.callDepth - s.frames.length)) view ty o s))
  value : ∀ view e expected, ComesTo (Unbounded.evaluate · view e expected o s) (outcome
    (Emit.evaluateWith (Emit.callKnown (o.callDepth - s.frames.length)) view e expected o s))
  default : ∀ ty range, ComesTo (Unbounded.defaultOf · ty range o s) (outcome
    ((do Emit.orRefuse ((← Emit.types).default ty) range) o s))
  sentences : s.frames ≠ [] → ∀ view body,
    ComesTo (fun depth => Unbounded.runSentences (Unbounded.runSentence depth view) body o s)
      (outcome (Emit.runSentencesWith
        (Emit.callKnown (o.callDepth - s.frames.length)) view body o s))
  scope : ∀ view body, ComesTo (fun depth =>
      Unbounded.inScope (Unbounded.runSentences (Unbounded.runSentence depth view) body) o s)
    (outcome (Emit.inFrameScope
      (Emit.runSentencesWith (Emit.callKnown (o.callDepth - s.frames.length)) view body) o s))
  call : ∀ f args range, ComesTo (Unbounded.call · f args range o s) (outcome
    (Emit.callKnown (o.callDepth - s.frames.length) f args range o s))

namespace Unbounded

/-- Outside of calls there is no scope to run sentences in. -/
theorem inScope_outside (body : Run Flow) (hs : s.frames = []) :
    inScope body o s = some (.error (.breach .outsideCall)) := by
  have henter : step enterScope o s = some (.error (.breach .outsideCall)) := by
    cases s
    cases hs
    rfl
  exact bind_error henter _

/-- Where no type holds itself, evaluation ends. -/
theorem halts (hs : s.types.Grounded) (o : Options) : s.Halts o := by
  have hstands : (Ground.grounded s.outer).Stands s.frames.length s :=
    ⟨⟨rfl, rfl, hs, trivial⟩, fun _ _ _ _ _ _ => trivial⟩
  have hsettles : Settles s.outer o s.frames.length
      (Emit.callKnown (o.callDepth - s.frames.length)) := settles s.outer rfl
  refine ⟨fun view ty => reaches_resolveType hsettles ty s hstands,
    fun view e expected => reaches_evaluate hsettles e expected s hstands,
    fun ty range => reaches_defaultOf ty range s hstands, fun hf view body => ?_,
    fun view body => ?_, fun f args range => hsettles.reaches f args range s hstands⟩
  · obtain ⟨f, rest, hf⟩ := List.exists_cons_of_ne_nil hf
    rw [hf] at hstands hsettles ⊢
    exact reaches_runSentences hsettles body s hstands
  · cases hf : s.frames with
    | nil =>
      simp only [inScope_outside _ hf, Emit.inFrameScope_outside _ o hf]
      exact .pure _
    | cons f rest =>
      rw [hf] at hstands hsettles
      exact reaches_inScope (reaches_runSentences hsettles body) (hsettles.ends view body) s hstands

end Unbounded

/-- Evaluation at compile time ends: in every program, with any limits, wherever a call of
a phase begins or the type table has grown from there. -/
theorem evaluation_halts {p : Program} {o : Options} {s₀ : Compiler} (hreg : Registers p o s₀)
    {c : Call Compiler Failure} (hc : c ∈ (compileHost o).trace s₀) {s : Compiler}
    (hgrows : c.before.types.Grows s.types) : s.Halts o := by
  obtain ⟨hfresh, -⟩ := hreg.fresh
  have hdrafts := (preserves_drafts o).before
    ⟨⟨hfresh.ready, hfresh.accounts⟩, hfresh.drafts⟩ c hc
  exact Unbounded.halts (hdrafts.2.grounded.grows hgrows) o

/-- A call of a function without arguments. -/
def calling (name : String) : Expr :=
  let range : Span := ⟨0, 0, 0⟩
  .call range (.entity range ⟨0, [⟨name, range⟩], range⟩) []

/-- A function that calls itself and one that loops, both without end. -/
def endless : Program :=
  let range : Span := ⟨0, 0, 0⟩
  let value (name : String) (body : List Sentence) : DeclBody :=
    .prerunFunction ⟨⟨name, range⟩, .pub, [], some (.bool range), body⟩
  let decls : List DeclBody := [value "again" [.give range (some (calling "again"))],
    value "spin" [.loop range [] none], .prerunGlobal ⟨⟨"A", range⟩, .pub, none, calling "again"⟩]
  ⟨#[⟨"app", .file, none, 0, none, decls.map fun d => .entity ⟨d, none, range⟩⟩]⟩

/-- Does evaluation run into both limits, the one on calls and the one on loops, once the two
functions are known? -/
def endlessRunsOut (o : Options) : Bool :=
  match Emit.registerProgram endless o (Compiler.ofOptions o) with
  | .ok _ s₀ => match (compileHost o).trace s₀ with
    | [_, _, c] =>
      let left := o.callDepth - c.before.frames.length
      match Emit.evaluateWith (Emit.callKnown left) ⟨0, none⟩ (calling "again") none o c.before,
        Emit.evaluateWith (Emit.callKnown left) ⟨0, none⟩ (calling "spin") none o c.before with
      | .error (.fault (.callDepth 3 _) _) _, .error (.fault (.loopLimit 4) _) _ => true
      | _, _ => false
    | _ => false
  | _ => false

theorem evaluation_halts_endless :
    let o : Options := { loopLimit := 4, callDepth := 3 }
    ∃ s₀ c, Registers endless o s₀ ∧ c ∈ (compileHost o).trace s₀ ∧
      c.before.types.Grows c.before.types ∧ ∃ name range range',
        ComesTo (Unbounded.evaluate · { module := 0 } (calling "again") none o c.before)
          (.error (.fault (.callDepth 3 name) range)) ∧
        ComesTo (Unbounded.evaluate · { module := 0 } (calling "spin") none o c.before)
          (.error (.fault (.loopLimit 4) range')) := by
  intro o
  have hrun : endlessRunsOut o = true := by
    decide +kernel
  unfold endlessRunsOut at hrun
  split at hrun
  next s₀ hreg =>
    split at hrun
    next first second c htrace =>
      have hc : c ∈ (compileHost o).trace s₀ := by simp [htrace]
      have hhalts := evaluation_halts hreg hc .refl
      dsimp only at hrun
      split at hrun
      next name range s range' s' hagain hspin =>
        refine ⟨s₀, c, hreg, hc, .refl, name, range, range', ?_, ?_⟩
        · have hvalue := hhalts.value ⟨0, none⟩ (calling "again") none
          rw [hagain] at hvalue
          exact hvalue
        · have hvalue := hhalts.value ⟨0, none⟩ (calling "spin") none
          rw [hspin] at hvalue
          exact hvalue
      next => cases hrun
    next => cases hrun
  next => cases hrun

end Staged
