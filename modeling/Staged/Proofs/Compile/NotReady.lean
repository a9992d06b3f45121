/-
  Staged.Proofs.Compile.NotReady — what may be asked for before it is ready.

  What a name of a declaration means when the program has been registered is a dependency
  of the declaration, unless it is the declaration itself. A name that means nothing yet
  waits for the brings around it, and is looked up again when one of them has run.
  Dependencies are never dropped. So a phase asks for an entity that has become nothing
  yet only through a name for which none was ever recorded on it. Either the entity is the
  phase's own, or the name was overlooked: as a call in a compile-time function that also
  names a local there, or because it had another meaning (`Site.Overlooks`).

  A name that means something does not wait for brings, though a file that is brought in may
  hide what it means. Such a name is asked for unrecorded (`compile_eclipsed`).

  Main statement: `compile_notReady`.
-/

import Staged.Proofs.Compile.Run

namespace Staged

/-! ## Error codes -/

theorem Fault.code_diagnostic (t : TypeTable) (range : Span) (f : Fault) :
    (f.diagnostic t range).code = some f.code.text := by
  unfold Fault.diagnostic
  cases f.secondary? <;> cases f <;> rfl

theorem Diagnostic.code_notes {α : Type} (note : α → String) (as : List α) :
    ∀ d : Diagnostic, (as.foldl (fun d a => d.withNote (note a)) d).code = d.code := by
  induction as with
  | nil => intro d; rfl
  | cons a as ih => intro d; exact ih _

theorem StuckReport.code_diagnostic (g : EntityGraph) (r : StuckReport) :
    (r.diagnostic g).code = some Code.unresolvedDependency.text := by
  unfold StuckReport.diagnostic
  have hfirst {d : Diagnostic} (hd : d.code = some Code.unresolvedDependency.text) :
      (r.stuck.foldl (fun d s => d.withNote (s.note g)) d).code =
        some Code.unresolvedDependency.text :=
    (Diagnostic.code_notes (·.note g) r.stuck d).trans hd
  cases r.cycle <;> refine hfirst ?_
  all_goals
    split
    · rfl
    · dsimp only
      split <;> rfl

theorem Code.eq_of_text {c : Code} (h : c.text = Code.entityNotReady.text) : c = .entityNotReady := by
  cases c <;> first | rfl | exact absurd h (by decide)

theorem Fault.isNotReady_of_code {f : Fault} (h : f.code = .entityNotReady) :
    f.isNotReady = true := by
  cases f with
  | fold e => cases e <;> cases h
  | resolve e => cases e <;> cases h
  | _ => first | rfl | cases h

/-- The error code of something that is not ready belongs to nothing else. -/
theorem Failure.isNotReady_of_report {f : Failure} {s : Compiler} {d : Diagnostic}
    (h : f.report s = .fatal d) (hd : d.code = some Code.entityNotReady.text) :
    f.isNotReady = true := by
  cases f with
  | fault f range =>
    cases h
    rw [Fault.code_diagnostic] at hd
    exact Fault.isNotReady_of_code (Code.eq_of_text (Option.some.inj hd))
  | stuck report =>
    cases h
    rw [StuckReport.code_diagnostic] at hd
    exact absurd (Option.some.inj hd) (by decide)
  | breach b => cases h

/-! ## Dependencies are kept -/

variable {o : Options} {s : Compiler} {t : ModuleTree} {id y : EntityId} {phase : Phase}

/-- Every call keeps what was collected. -/
theorem preserves_gathered (o : Options) (t : ModuleTree) :
    (compileHost o).Preserves fun s => s.Ready ∧ s.outer.Gathered t := by
  intro p id s s' ⟨hs, hgathered⟩ ha hd hr
  obtain ⟨hready, ha'⟩ := preserves_ready o p id s s' hs ha hd hr
  obtain ⟨site, hsite⟩ := site_of_due hs hd
  have hcomes := comes_run hs ha hd hsite
  rw [hr] at hcomes
  have hsites := (hs.coherent.moved hsite (Host.due_iff.mp hd).1 hcomes.2).sites
  refine ⟨⟨hready, fun j site' u z hsite' hu hz => ?_⟩, ha'⟩
  rw [show ((compileHost o).finished p id s').outer.sites = s.outer.sites from hsites] at hsite'
  exact (hgathered j site' u z hsite' hu hz).imp_right (hcomes.2.retains j z u.phase)

/-- What is recorded for a phase is among the dependencies for it. -/
theorem EntityGraph.Records.mem_depsFor {g : EntityGraph} {j : EntityId} {p q : Phase}
    (h : g.Records j y p) (hp : p.le q = true) : ∃ d ∈ g.depsFor j q, d.entity = y := by
  obtain ⟨e, he, d, hd, hy, rfl⟩ := h
  refine ⟨d, ?_, hy⟩
  unfold EntityGraph.depsFor
  rw [he]
  exact List.mem_filter.mpr ⟨hd, hp⟩

/-- The names of a compile-time function are needed in the first phase. -/
theorem allAt_prerunFunction (d : PrerunFunctionDecl) :
    AllAt .one (DeclBody.prerunFunction d).uses := by
  unfold DeclBody.uses
  rw [allAt_append, allAt_append]
  exact ⟨⟨allAt_argsUses _ _ d.args, allAt_typeUses _ _ d.result⟩,
    allAt_sentencesUses .one d.body _⟩

/-! ## What was overlooked -/

/-- A name of a declaration that no dependency was collected for: a call that also names a
local, or a name that had another meaning in the registered program. -/
def Site.Overlooks (site : Site) (t : ModuleTree) (u : Use) (y : EntityId) : Prop :=
  u ∈ site.decl.body.shadowedCalls ∨ t.meant? { module := site.module } u ≠ some y

/-- A phase misses a dependency on the entity itself, or on one that was overlooked. -/
theorem Outer.Asks.overlooked {ω : Outer} {t₀ : ModuleTree} {j : EntityId} {q : Phase}
    {site : Site} {u : Use} (hasks : ω.Asks id phase j q site u) (hω : ω.Coherent)
    (hg : ω.Gathered t₀) (hsymbol : ω.symbols.lookup y = none)
    (hdeps : ∀ d ∈ ω.entities.depsFor j q, d.entity ≠ y) :
    y = id ∨ site.Overlooks t₀ u y := by
  by_cases hsame : t₀.meant? { module := site.module } u = some y
  · -- had it been collected, the entity would be among the dependencies
    have hnot {p : Phase} (hp : p.le q = true) : ¬ω.entities.Records j y p := by
      intro hr
      obtain ⟨d, hd, hentity⟩ := hr.mem_depsFor hp
      exact hdeps d hd hentity
    cases hasks with
    | own hsite hu hp => exact .inl ((hg id site u y hsite hu hsame).resolve_right (hnot hp))
    | @called _ f _ _ hf hsite hu =>
      refine .inr (.inl ?_)
      obtain ⟨site', d, hsite', hbody, -⟩ := hω.callable j f hf
      cases hsite.symm.trans hsite'
      refine (List.mem_append.mp hu).resolve_left fun hu => ?_
      have hphase : u.phase.le .one = true := by
        rw [hbody] at hu
        rw [allAt_prerunFunction d u hu]
        rfl
      rcases hg j site u y hsite (List.mem_append_right _ hu) hsame with rfl | hr
      · rw [hf] at hsymbol
        cases hsymbol
      · exact hnot hphase hr
  · exact .inr (.inr hsame)

/-! ## Whole compilations -/

theorem compile_error {p : Program} {failure : CompileFailure} (h : compile p o = .error failure) :
    ∃ f s, failure.report = f.report s ∧
      (Emit.registerProgram p o (Compiler.ofOptions o) = .error f s ∨
        ∃ s₀, Registers p o s₀ ∧ (compileHost o).runPhases s₀ = .error f s) := by
  unfold compile at h
  cases hr : (compileAction p o).run (Compiler.ofOptions o) with
  | ok stats s =>
    rw [hr] at h
    cases h
  | error f s =>
    rw [hr] at h
    cases h
    refine ⟨f, s, rfl, ?_⟩
    have hbind : EStateM.bind ((Emit.registerProgram p).run o) (fun _ => (compileHost o).runPhases)
        (Compiler.ofOptions o) = .error f s := hr
    unfold EStateM.bind at hbind
    cases hreg : (Emit.registerProgram p).run o (Compiler.ofOptions o) with
    | error f' s' =>
      rw [hreg] at hbind
      cases hbind
      exact .inl hreg
    | ok u s₀ =>
      rw [hreg] at hbind
      exact .inr ⟨s₀, hreg, hbind⟩

/-- A compilation stops because something is used before it is ready only in a call of the
first or second phase that asks for an entity by a name for which no dependency on it has been
recorded up to then. The entity is the one the call is made for, or it was overlooked. -/
theorem compile_notReady (p : Program) (o : Options) (failure : CompileFailure) (d : Diagnostic)
    (h : compile p o = .error failure) (hreport : failure.report = .fatal d)
    (hcode : d.code = some Code.entityNotReady.text) :
    ∃ s₀, Registers p o s₀ ∧ ∃ c ∈ (compileHost o).trace s₀, c.phase ≠ .three ∧
      ∃ y range, c.error = some (.fault (.notReady (c.before.entities.displayName y)) range) ∧
        c.before.symbols.lookup y = none ∧
        ∃ j q site u, c.before.outer.Asks c.id c.phase j q site u ∧
          c.after.modules.meant? { module := site.module } u = some y ∧
          (∀ d ∈ c.before.entities.depsFor j q, d.entity ≠ y) ∧
          (y = c.id ∨ site.Overlooks s₀.modules u y) := by
  obtain ⟨f, s, hf, hrun⟩ := compile_error h
  have hnot : f.isNotReady = true := Failure.isNotReady_of_report (hf.symm.trans hreport) hcode
  rcases hrun with hreg | ⟨s₀, hreg, hrun⟩
  · -- registering asks no entity what it has become
    have hyields := Emit.yields_registerProgram p o _ (Compiler.fresh_ofOptions o)
    rw [hreg] at hyields
    rw [show f.isNotReady = false from hyields] at hnot
    cases hnot
  · obtain ⟨hfresh, hgathered⟩ := hreg.fresh
    have hends := (preserves_gathered o s₀.modules).runPhases ⟨hfresh.ready, hgathered⟩
    rw [hrun] at hends
    rcases hends with ⟨c, hc, ⟨hs, hg⟩, ha, hd, hcall, herror, rfl⟩ | ⟨report, -, rfl⟩
    · obtain ⟨site, hsite⟩ := site_of_due hs hd
      have hcomes := comes_run hs ha hd hsite
      rw [hcall] at hcomes
      obtain ⟨hthree, y, range, hmissed, rfl⟩ := hcomes hnot
      obtain ⟨hsymbol, j, q, site', u, hasks, hy, hdeps⟩ := hmissed
      exact ⟨s₀, hreg, c, hc, hthree, y, range, herror, hsymbol, j, q, site', u, hasks, hy, hdeps,
        hasks.overlooked hs.coherent hg hsymbol hdeps⟩
    · cases hnot

/-- A file `a` brings in the file `b` of its folder, which has an `x` like the folder. -/
def eclipsed : Program :=
  let range : Span := ⟨0, 0, 0⟩
  let entity (body : DeclBody) : Decl := .entity ⟨body, none, range⟩
  let constant (name : String) (value : Expr) : Decl :=
    entity (.prerunGlobal ⟨⟨name, range⟩, .pub, none, value⟩)
  let bring := entity (.bring ⟨.priv, [.file "b.qat" none range]⟩)
  ⟨#[⟨"pkg", .folder, none, 0, none, [constant "x" (.int range 1 none)]⟩,
    ⟨"a", .file, none, 0, some 0,
      [bring, constant "y" (.entity range ⟨0, [⟨"x", range⟩], range⟩)]⟩,
    ⟨"b", .file, some "b.qat", 0, some 0, [constant "x" (.int range 2 none)]⟩]⟩

/-- The `x` of `a` is that of the folder until the file is brought in, and no dependency is
recorded on the other one. -/
theorem compile_eclipsed : ∃ failure d, compile eclipsed {} = .error failure ∧
    failure.report = .fatal d ∧ d.code = some Code.entityNotReady.text := by
  have hcode : (match compile eclipsed {} with
      | .error ⟨.fatal d, _⟩ => d.code
      | _ => none) = some Code.entityNotReady.text := by
    decide +kernel
  split at hcode
  next d warnings h => exact ⟨_, d, h, rfl, hcode⟩
  next => cases hcode

end Staged
