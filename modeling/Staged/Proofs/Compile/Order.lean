/-
  Staged.Proofs.Compile.Order — what runs before what.

  A registered program says what its declarations need of each other: before a phase of its own,
  a declaration needs that another one meets a need (`Compiler.Needs`), and a phase of that other
  one meets it (`Compiler.Gives`). Entities ask for what was collected for their declarations
  (`Registers.asksFor`), and a call is made when all that its entity asks for is met. So the log
  of a compilation that succeeds is an order of all phases in which everything comes after what
  it needs (`phases_ordered`), up to declarations that guards decide on: these may be completed
  without running.

  There is no such order where something is needed that comes in a later phase only, or where
  declarations wait for each other in a circle. Then compilation fails, whatever the phases do
  (`schedulable_of_ok`).
-/

import Staged.Proofs.Compile.Requests
import Staged.Proofs.Schedule.Stuck

namespace Staged

variable {o : Options} {p : Program} {s s' : Compiler} {id x y : EntityId} {site target : Site}
  {d : Dependency} {phase : Phase}

/-! ## Requests that were made -/

def Entity.AsksFor (e : Entity) (d : Dependency) : Prop :=
  ∃ r ∈ e.deps, r.target = d.target ∧ d.need.max r.need = r.need

namespace Entity

theorem AsksFor.addDep {e : Entity} (h : e.AsksFor d) (self : EntityId) (r : Dependency) :
    (e.addDep self r).AsksFor d := by
  obtain ⟨a, ha, htarget, hneed⟩ := h
  unfold Entity.addDep
  split
  · exact ⟨a, ha, htarget, hneed⟩
  · have hraised : d.need.max (a.raise r).need = (a.raise r).need := by
      rw [Dependency.raise, ← Need.max_assoc, hneed]
    rcases mergeDep_cases r e.deps with ⟨-, hmerge⟩ | ⟨before, b, after, hdeps, -, hmerge⟩
    · exact ⟨a, by rw [hmerge]; exact List.mem_append_left _ ha, htarget, hneed⟩
    · rw [hdeps] at ha
      simp only [AsksFor, hmerge]
      rcases List.mem_append.mp ha with hb | hb
      · exact ⟨a, List.mem_append_left _ hb, htarget, hneed⟩
      · rcases List.mem_cons.mp hb with rfl | hb
        · exact ⟨a.raise r, by simp, htarget, hraised⟩
        · exact ⟨a, by simp [hb], htarget, hneed⟩

end Entity

namespace EntityGraph

variable {g g' : EntityGraph}

def AsksFor (g : EntityGraph) (x : EntityId) (d : Dependency) : Prop :=
  ∃ e, g.get? x = some e ∧ e.AsksFor d

theorem AsksFor.modify (h : g.AsksFor x d) {f : Entity → Entity}
    (hf : ∀ e : Entity, e.AsksFor d → (f e).AsksFor d) : (g.modify id f).AsksFor x d := by
  obtain ⟨e, he, hasks⟩ := h
  by_cases hx : id = x
  · exact ⟨f e, by rw [get?_modify, if_pos hx, he]; rfl, hf e hasks⟩
  · exact ⟨e, by rw [get?_modify, if_neg hx, he], hasks⟩

theorem AsksFor.finish (h : g.AsksFor x d) : (g.modify id (Entity.finish phase)).AsksFor x d :=
  h.modify fun e ⟨r, hr, hrest⟩ => ⟨r, (e.deps_finish phase).symm ▸ hr, hrest⟩

theorem AsksFor.edits (h : g.AsksFor x d) (hedits : Edits g g') : g'.AsksFor x d := by
  induction hedits with
  | refl => exact h
  | tail _ hedit ih =>
    cases hedit with
    | add name kind module range =>
      obtain ⟨e, he, hasks⟩ := ih
      exact ⟨e, by rw [get?_add, if_neg (Nat.ne_of_lt (lt_size_of_get? he)), he], hasks⟩
    | depend j r => exact ih.modify fun e he => he.addDep j r
    | complete j => exact ih.modify fun _ he => he

/-- What a ready entity asks for is there. -/
theorem AsksFor.satisfied (h : g.AsksFor x d) (hle : d.phase.le phase = true)
    (hready : g.isReady x phase = true) : g.isSatisfied d = true := by
  obtain ⟨e, he, r, hr, htarget, hneed⟩ := h
  obtain ⟨hentity, hphase⟩ := Dependency.target_eq_iff.mp htarget
  have hmem : r ∈ g.depsFor x phase := by
    unfold depsFor
    rw [he]
    exact List.mem_filter.mpr ⟨hr, by rw [hphase]; exact hle⟩
  obtain ⟨e', he', hmeets⟩ := isSatisfied_iff.mp (List.all_eq_true.mp hready r hmem)
  refine isSatisfied_iff.mpr
    ⟨e', hentity ▸ he', hmeets.imp_right fun ⟨hstatus, hr⟩ => ⟨hstatus, ?_⟩⟩
  rw [hr] at hneed
  cases hd : d.need with
  | partially => rfl
  | complete =>
    rw [hd] at hneed
    cases hneed

end EntityGraph

/-! ## The registered program -/

def Compiler.Bare (s : Compiler) : Prop := ∀ j e, s.entities.get? j = some e → e.deps = []

theorem Compiler.enrolling_bare : Compiler.Enrolling Compiler.Bare where
  tree h _ := h
  rest name kind module range := fun h j e he => by
    rw [EntityGraph.get?_add] at he
    split at he
    · cases he
      rfl
    · exact h j e he

/-- What is asked for by an entity is what was collected for its declaration, merged. -/
def Compiler.Collected (s : Compiler) (j : EntityId) : Prop :=
  ∀ site e, s.sites[j]? = some site → s.entities.get? j = some e →
    e.deps = Entity.mergeDeps ((s.collected j site).filter (·.entity ≠ j)) []

namespace Emit

/-- An action that ends in one way and maintains something else. -/
theorem Yields.maintains {α : Type} {P R : Compiler → Prop} {Q : α → Compiler → Prop} {a : Emit α}
    (h : Yields P a Q) (hR : Maintains R a) :
    Yields (fun s => P s ∧ R s) a fun v s => Q v s ∧ R s := by
  intro o s ⟨hP, hs⟩
  have hfirst := h o s hP
  have hlast := hR o s hs
  cases hr : a o s with
  | ok v s' =>
    rw [hr] at hfirst hlast
    exact ⟨hfirst, hlast⟩
  | error f s' =>
    rw [hr] at hfirst
    exact hfirst

theorem yields_collected (p : Program) {code : Core} :
    Yields (fun s => s.Fresh code ∧ s.Bare) (registerProgram p) fun _ s => ∀ j, s.Collected j := by
  unfold registerProgram
  have hbare := Compiler.enrolling_bare
  refine ((yields_sourceModules p).maintains (maintains_sourceModules hbare p)).bind fun ids => ?_
  refine Yields.bind (Q := fun _ s => s.Fresh code ∧ s.Bare) (yields_forIn fun x _ =>
    (yields_registerDecls x.2 x.1.decls).maintains (maintains_registerDecls hbare _ _)) fun _ => ?_
  refine Yields.bind (Q := fun s s' => s' = s ∧ s.Fresh code ∧ s.Bare)
    (yields_get fun _ h => ⟨rfl, h⟩) fun s => ?_
  -- so far, the entities before have their dependencies, and the others have none
  let P (before : List EntityId) (s' : Compiler) : Prop :=
    s'.sites.size = s.entities.size ∧ (∀ j ∈ before, s'.Collected j) ∧
      ∀ j e, j ∉ before → s'.entities.get? j = some e → e.deps = []
  refine Yields.bind (Q := fun _ => P (List.range s.entities.size)) (Yields.mono
    (@yields_loop _ collectDependencies P (List.range s.entities.size) [] fun first id rest hx =>
      yields_collectDependencies fun s' site ⟨hsize, hfirst, hrest⟩ hsite => ?_)
    ?_ fun _ _ h => h) fun _ => yields_pure fun s' ⟨hsize, hall, _⟩ j site e hsite => ?_
  · have hid : id ∉ first := by
      have hnodup : (first ++ id :: rest).Nodup := hx ▸ List.nodup_range
      exact fun hmem => (List.nodup_append.mp hnodup).2.2 id hmem id List.mem_cons_self rfl
    have hget (j : EntityId) := s'.entities.get?_addDeps_eq id j (s'.collected id site)
    refine ⟨hsize, fun j hj site' e hsite' he => ?_, fun j e hj he => ?_⟩
    · rw [hget] at he
      rcases List.mem_append.mp hj with hj | hj
      · have hne : id ≠ j := fun heq => hid (by rw [heq]; exact hj)
        rw [if_neg hne] at he
        exact hfirst j hj site' e hsite' he
      · obtain rfl := List.mem_singleton.mp hj
        cases hsite.symm.trans hsite'
        rw [if_pos rfl] at he
        obtain ⟨e₀, he₀, rfl⟩ := Option.map_eq_some_iff.mp he
        rw [hrest j e₀ hid he₀]
        rfl
    · rw [List.mem_append, List.mem_singleton, not_or] at hj
      rw [hget, if_neg (Ne.symm hj.2)] at he
      exact hrest j e hj.1 he
  · rintro _ ⟨rfl, hfresh, hbare⟩
    exact ⟨hfresh.size, nofun, fun j e _ he => hbare j e he⟩
  · refine hall j (List.mem_range.mpr ?_) site e hsite
    rw [← hsize]
    exact (Array.getElem?_eq_some_iff.mp hsite).1

end Emit

theorem Registers.collected (h : Registers p o s) : ∀ j, s.Collected j := by
  have hyields := Emit.yields_collected p o _ ⟨Compiler.fresh_ofOptions o, nofun⟩
  rw [show Emit.registerProgram p o (Compiler.ofOptions o) = _ from h] at hyields
  exact hyields

theorem Registers.exact (h : Registers p o s) : s.entities.Exact := by
  have hedits := Emit.maintains_registerProgram (Compiler.lasting_edits {}) p o (.ofOptions o) .refl
  rw [show Emit.registerProgram p o (Compiler.ofOptions o) = _ from h] at hedits
  exact EntityGraph.exact_empty.edits hedits

/-- What was collected for a declaration is asked for. -/
theorem Registers.asksFor (h : Registers p o s) (hsite : s.sites[x]? = some site)
    (hd : d ∈ s.collected x site) (hne : d.entity ≠ x) : s.entities.AsksFor x d := by
  have hlt : x < s.entities.size := h.fresh.1.size ▸ (Array.getElem?_eq_some_iff.mp hsite).1
  have he := Array.getElem?_eq_getElem hlt
  have hdeps := h.collected x site _ hsite he
  have hmerges := Entity.merges_nil.mergeDeps ((s.collected x site).filter (·.entity ≠ x))
  rw [List.nil_append, ← hdeps] at hmerges
  have hrequest : d ∈ (s.collected x site).filter (·.entity ≠ x) :=
    List.mem_filter.mpr ⟨hd, decide_eq_true hne⟩
  obtain ⟨r, hr, htarget⟩ := List.mem_map.mp (hmerges.covers d hrequest)
  exact ⟨_, he, r, hr, htarget, (hmerges.strongest r hr).2 d hrequest htarget.symm⟩

/-! ## What has to come first -/

structure Compiler.Needs (s : Compiler) (x : EntityId) (q : Phase) (d : Dependency) : Prop where
  collected : ∃ site, s.sites[x]? = some site ∧ site.decl.guard = none ∧
    q ∈ site.decl.body.kind.phases ∧ d ∈ s.collected x site
  other : d.entity ≠ x
  early : d.phase.le q = true

/-- A phase of an unguarded declaration gives what is needed of it. -/
def Compiler.Gives (s : Compiler) (d : Dependency) (m : Phase) : Prop :=
  ∃ target, s.sites[d.entity]? = some target ∧ target.decl.guard = none ∧
    target.decl.body.kind.metAfter d.need = m

/-- Two declarations have a phase in common, and one of them has to run it first. -/
def Compiler.Awaits (s : Compiler) (q : Phase) (x y : EntityId) : Prop :=
  ∃ d, s.Needs x q d ∧ d.entity = y ∧ s.Gives d q

/-- The phases of the declarations can be put in an order: what is needed is there, not after the
phase that it is needed for, and nothing waits for itself. -/
structure Compiler.Schedulable (s : Compiler) : Prop where
  there : ∀ x q d, s.Needs x q d → ∃ target, s.sites[d.entity]? = some target
  inTime : ∀ x q d m, s.Needs x q d → s.Gives d m → m.le q = true
  acyclic : ∀ q x, ¬Relation.TransGen (s.Awaits q) x x

/-! ## What ran first -/

structure Compiler.Orderly (start s : Compiler) : Prop where
  ready : s.Ready
  sites : s.sites = start.sites
  exact : s.entities.Exact
  asks : ∀ x q d, start.Needs x q d → s.entities.AsksFor x d
  /-- The phases behind an unguarded declaration have run. -/
  logged : ∀ x site e q, start.sites[x]? = some site → site.decl.guard = none →
    s.entities.get? x = some e → q ∈ e.behind → ∃ i : Nat, s.log[i]? = some (x, q)
  /-- No phase ran that is after one that is next. -/
  turn : ∀ (i : Nat) x q, s.log[i]? = some (x, q) → ∀ j r, s.entities.nextPhase? j = some r →
    q.le r = true
  /-- Whatever ran, what it needed was there, and had run before. -/
  first : ∀ (i : Nat) x q, s.log[i]? = some (x, q) → ∀ d, start.Needs x q d →
    (∃ target, start.sites[d.entity]? = some target) ∧
      ∀ m, start.Gives d m → m.le q = true ∧ ∃ j < i, s.log[j]? = some (d.entity, m)

/-- Nothing has run when a program is registered. -/
theorem Registers.log (h : Registers p o s) : s.log = #[] := by
  have hlasting : Compiler.Lasting fun s => s.log = #[] := ⟨fun h _ => h, fun h _ => h⟩
  have hlog := Emit.maintains_registerProgram hlasting p o (.ofOptions o) rfl
  rw [show Emit.registerProgram p o (Compiler.ofOptions o) = _ from h] at hlog
  exact hlog

theorem Registers.orderly (h : Registers p o s) : s.Orderly s where
  ready := h.fresh.1.ready
  sites := rfl
  exact := h.exact
  asks x q d hneeds := by
    obtain ⟨⟨site, hsite, -, -, hd⟩, hne, -⟩ := hneeds
    exact h.asksFor hsite hd hne
  logged x site e q _ _ he hq := by
    rw [Entity.behind, (h.fresh.1.pending x e he).2] at hq
    cases hq
  turn i x q hi := by
    rw [h.log] at hi
    cases hi
  first i x q hi := by
    rw [h.log] at hi
    cases hi

/-- The log after a call that is counted as run. -/
theorem log_finished (hr : (compileHost o).run id phase s = .ok () s') :
    ((compileHost o).finished phase id s').log = s.log.push (id, phase) := by
  have hlog := Emit.log_runPhase id phase o s
  rw [show Emit.runPhase id phase o s = .ok () s' from hr] at hlog
  exact hlog

namespace Compiler.Orderly

variable {start : Compiler}

/-- What an entity needs whose turn has come is there, and what gives it has run. -/
theorem first_due (hs : start.Orderly s) (hd : (compileHost o).due phase s id = true)
    (hneeds : start.Needs id phase d) : (∃ target, start.sites[d.entity]? = some target) ∧
      ∀ m, start.Gives d m → m.le phase = true ∧
        ∃ j < s.log.size, s.log[j]? = some (d.entity, m) := by
  obtain ⟨hnext, hready⟩ := Host.due_iff.mp hd
  have hsatisfied := (hs.asks id phase d hneeds).satisfied hneeds.early hready
  obtain ⟨e, he, hmeets⟩ := EntityGraph.isSatisfied_iff_meets.mp hsatisfied
  have hlt : d.entity < s.sites.size := hs.ready.coherent.size ▸ EntityGraph.lt_size_of_get? he
  have hsites : start.sites[d.entity]? = s.sites[d.entity]? := by rw [hs.sites]
  refine ⟨⟨_, hsites.trans (Array.getElem?_eq_getElem hlt)⟩, ?_⟩
  rintro m ⟨target, htarget, hguard, rfl⟩
  have hkind := hs.ready.coherent.kind d.entity target e (hsites.symm.trans htarget) he
  have hbehind := (hs.exact _ e he).mem_behind hmeets
  rw [hkind] at hbehind
  obtain ⟨j, hj⟩ := hs.logged d.entity target e _ htarget hguard he hbehind
  exact ⟨hs.turn j d.entity _ hj id phase hnext, j, (Array.getElem?_eq_some_iff.mp hj).1, hj⟩

/-- The phases behind an unguarded declaration after a call: those that were, and the one that
was called for. -/
theorem behind_moved (hs : start.Orderly s) (hd : (compileHost o).due phase s id = true)
    {ω' : Outer} (hsite : s.sites[id]? = some site) (hmoves : s.outer.Moves id site phase ω')
    {xsite : Site} (hxsite : start.sites[x]? = some xsite) (hguard : xsite.decl.guard = none)
    {e' : Entity} (he' : (ω'.finish id phase).entities.get? x = some e') {q : Phase}
    (hq : q ∈ e'.behind) :
    (∃ e, s.entities.get? x = some e ∧ q ∈ e.behind) ∨ (x, q) = (id, phase) := by
  have hnext := (Host.due_iff.mp hd).1
  by_cases hx : x = id
  · subst hx
    rw [hs.sites, hxsite] at hsite
    obtain rfl := Option.some.inj hsite
    have hruns := hmoves.resolve_right fun hskips => hskips.guarded hguard
    obtain ⟨e, he, hp⟩ := EntityGraph.get?_of_nextPhase? hnext
    obtain ⟨e'', he'', hkind, hdone⟩ := hruns.get? he hp
    obtain rfl := Option.some.inj (he'.symm.trans he'')
    rw [Entity.behind_of_done hkind hdone hp] at hq
    rcases List.mem_append.mp hq with hq | hq
    · exact .inl ⟨e, he, hq⟩
    · exact .inr (by rw [List.mem_singleton.mp hq])
  · obtain ⟨e, deps, he, rfl, -⟩ := (hs.ready.coherent.moved hsite hnext hmoves).other hx he'
    exact .inl ⟨e, he, hq⟩

end Compiler.Orderly

theorem preserves_orderly (o : Options) (start : Compiler) :
    (compileHost o).Preserves start.Orderly := by
  intro p id s s' hs ha hd hr
  obtain ⟨hready, ha'⟩ := preserves_ready o p id s s' hs.ready ha hd hr
  obtain ⟨site, hsite⟩ := site_of_due hs.ready hd
  have hcomes := comes_run hs.ready ha hd hsite
  rw [hr] at hcomes
  obtain ⟨-, hmoves⟩ := hcomes
  have hmoved := hs.ready.coherent.moved hsite (Host.due_iff.mp hd).1 hmoves
  have hlog := log_finished hr
  have hkept {i : Nat} {c : EntityId × Phase} (hi : s.log[i]? = some c) :
      ((compileHost o).finished p id s').log[i]? = some c := by
    rw [hlog, Array.getElem?_push, if_neg, hi]
    exact Nat.ne_of_lt (Array.getElem?_eq_some_iff.mp hi).1
  refine ⟨{
    ready := hready
    sites := hmoved.sites.trans hs.sites
    exact := (closed_compileHost o).exact_finished hs.exact hd hr
    asks := fun x q d hneeds => ((hs.asks x q d hneeds).edits
      ((closed_compileHost o).edits_ok hr)).finish
    logged := fun x xsite e' q hxsite hguard he' hq => ?_
    turn := fun i x q hi j r hj => ?_
    first := fun i x q hi d hneeds => ?_ }, ha'⟩
  · rcases hs.behind_moved hd hsite hmoves hxsite hguard he' hq with ⟨e, he, hq⟩ | heq
    · obtain ⟨i, hi⟩ := hs.logged x xsite e q hxsite hguard he hq
      exact ⟨i, hkept hi⟩
    · rw [hlog, heq]
      exact ⟨s.log.size, Array.getElem?_push_size⟩
  · rw [hlog, Array.getElem?_push] at hi
    split at hi
    · cases hi
      exact ha' j r hj
    · obtain ⟨e, he, -⟩ := EntityGraph.get?_of_nextPhase? hj
      have hlt : j < s.entities.size := hmoved.size ▸ EntityGraph.lt_size_of_get? he
      obtain ⟨r₀, hr₀, hle⟩ := hmoved.later.nextPhase? hlt hj
      exact Phase.le_trans (hs.turn i x q hi j r₀ hr₀) hle
  · -- the last call was due, and for the others nothing has changed
    have hfirst : (∃ target, start.sites[d.entity]? = some target) ∧
        ∀ m, start.Gives d m → m.le q = true ∧ ∃ j < i, s.log[j]? = some (d.entity, m) := by
      rw [hlog, Array.getElem?_push] at hi
      split at hi
      · rename_i hlast
        cases hi
        rw [hlast]
        exact hs.first_due hd hneeds
      · exact hs.first i x q hi d hneeds
    refine ⟨hfirst.1, fun m hm => ?_⟩
    obtain ⟨hle, j, hj, hran⟩ := hfirst.2 m hm
    exact ⟨hle, j, hj, hkept hran⟩

/-- When the phases of a program succeed, every phase of every unguarded declaration has run; and
whatever ran, what it needed was there, was not for a later phase, and had run before. -/
theorem phases_ordered (hreg : Registers p o s) {stats : Stats}
    (hr : (compileHost o).runPhases s = .ok stats s') :
    (∀ x site q, s.sites[x]? = some site → site.decl.guard = none →
      q ∈ site.decl.body.kind.phases → ∃ i : Nat, s'.log[i]? = some (x, q)) ∧
    ∀ (i : Nat) x q, s'.log[i]? = some (x, q) → ∀ d, s.Needs x q d →
      (∃ target, s.sites[d.entity]? = some target) ∧
        ∀ m, s.Gives d m → m.le q = true ∧ ∃ j < i, s'.log[j]? = some (d.entity, m) := by
  have hends := (preserves_orderly o s).runPhases hreg.orderly
  rw [hr] at hends
  obtain ⟨horderly, hdone⟩ := hends
  refine ⟨fun x site q hsite hguard hq => ?_, horderly.first⟩
  have hsite' : s'.sites[x]? = some site := by rw [horderly.sites, hsite]
  have hlt : x < s'.entities.size :=
    horderly.ready.coherent.size ▸ (Array.getElem?_eq_some_iff.mp hsite').1
  have he := Array.getElem?_eq_getElem hlt
  have hkind := horderly.ready.coherent.kind x site _ hsite' he
  have hnone := (EntityGraph.nextPhase?_of_get? he).symm.trans (hdone x)
  refine horderly.logged x site _ q hsite hguard he ?_
  rw [Entity.behind_of_nextPhase? hnone, hkind]
  exact hq

/-- A program whose phases succeed can be scheduled. -/
theorem schedulable_of_ok (hreg : Registers p o s) {stats : Stats}
    (hr : (compileHost o).runPhases s = .ok stats s') : s.Schedulable := by
  obtain ⟨hall, hfirst⟩ := phases_ordered hreg hr
  have hran {x : EntityId} {q : Phase} {d : Dependency} (hneeds : s.Needs x q d) :
      ∃ i : Nat, s'.log[i]? = some (x, q) := by
    obtain ⟨site, hsite, hguard, hq, -⟩ := hneeds.collected
    exact hall x site q hsite hguard hq
  refine ⟨fun x q d hneeds => ?_, fun x q d m hneeds hm => ?_, fun q x hround => ?_⟩
  · obtain ⟨i, hi⟩ := hran hneeds
    exact (hfirst i x q hi d hneeds).1
  · obtain ⟨i, hi⟩ := hran hneeds
    exact ((hfirst i x q hi d hneeds).2 m hm).1
  · -- each one on the way back to itself ran before the one that waits for it
    have hnone (i : Nat) : ∀ x, s'.log[i]? = some (x, q) →
        ¬Relation.TransGen (s.Awaits q) x x := by
      induction i using Nat.strong_induction_on with
      | h i ih =>
        intro x hi hround
        obtain ⟨y, ⟨d, hneeds, rfl, hgives⟩, hback⟩ := Relation.TransGen.head'_iff.mp hround
        obtain ⟨-, j, hj, hran⟩ := (hfirst i x q hi d hneeds).2 q hgives
        exact ih j hj d.entity hran (.tail' hback ⟨d, hneeds, rfl, hgives⟩)
    obtain ⟨y, ⟨d, hneeds, -, -⟩, -⟩ := Relation.TransGen.head'_iff.mp hround
    obtain ⟨i, hi⟩ := hran hneeds
    exact hnone i x hi hround

end Staged
