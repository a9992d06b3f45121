/-
  Staged.Proofs.Schedule.Outcome — every run ends, and says why.

  The hosts are tame and add no entities (`Host.Closed`). In a phase, the entities whose
  next phase it is are its `waiting` set; every call takes one out of it, and no edit puts
  one in. So a phase runs at most as often as there are entities, the passes end by
  themselves, and nothing is due when they do (`Closed.quiet`). A phase that leaves nothing
  stuck leaves nothing behind, so an entity that is stuck later waits for that very phase,
  and it misses something.

  Main statement: `run_ends`.
-/

import Mathlib.Algebra.BigOperators.Fin
import Mathlib.Algebra.Order.BigOperators.Group.Finset
import Mathlib.Data.Finset.Card
import Staged.Proofs.Schedule.Safety

namespace Staged

variable {σ ε : Type}

/-! ## Stuck entities -/

/-- The entry of an unfinished entity in a report. -/
def EntityGraph.stuckEntry (g : EntityGraph) (id : EntityId) (e : Entity) (q : Phase) : Stuck :=
  ⟨id, e.displayName, e.kind, q, g.unmet id q, e.range⟩

theorem EntityGraph.mem_stuck {g : EntityGraph} {p : Phase} {x : Stuck} :
    x ∈ (g.stuckReport p).stuck ↔ ∃ id e q, g.get? id = some e ∧ e.nextPhase? = some q ∧
      q.le p = true ∧ x = g.stuckEntry id e q := by
  simp only [stuckReport, List.mem_filterMap, Prod.exists, List.mk_mem_zipIdx_iff_getElem?,
    Array.getElem?_toList]
  constructor
  · rintro ⟨e, id, he, hx⟩
    cases hn : e.nextPhase? with
    | none => simp [hn] at hx
    | some q =>
      by_cases hq : q.le p = true
      · simp only [hn, hq, if_true, Option.some.injEq] at hx
        exact ⟨id, e, q, he, hn, hq, hx.symm⟩
      · simp [hn, hq] at hx
  · rintro ⟨id, e, q, he, hn, hq, rfl⟩
    exact ⟨e, id, he, by simp [hn, hq, stuckEntry]⟩

/-- With nothing stuck in a phase, every unfinished entity waits for a later one. -/
theorem EntityGraph.stuck_eq_nil {g : EntityGraph} {p : Phase} :
    (g.stuckReport p).stuck = [] ↔ ∀ id q, g.nextPhase? id = some q → q.le p = false := by
  rw [List.eq_nil_iff_forall_not_mem]
  constructor
  · intro hs id q hq
    obtain ⟨e, he, hn⟩ := get?_of_nextPhase? hq
    cases hle : q.le p with
    | false => rfl
    | true => exact absurd (mem_stuck.mpr ⟨id, e, q, he, hn, hle, rfl⟩) (hs _)
  · intro hall x hx
    obtain ⟨id, e, q, he, hn, hle, -⟩ := mem_stuck.mp hx
    rw [hall id q ((nextPhase?_of_get? he).trans hn)] at hle
    cases hle

theorem EntityGraph.allFinished_iff {g : EntityGraph} :
    g.allFinished = true ↔ ∀ id, g.nextPhase? id = none := by
  simp only [allFinished, Array.all_eq_true]
  constructor
  · intro hall id
    cases hid : g.get? id with
    | none => simp [nextPhase?, hid]
    | some e =>
      rw [nextPhase?_of_get? hid]
      obtain ⟨hlt, rfl⟩ := Array.getElem?_eq_some_iff.mp hid
      simpa [Entity.isFinished] using hall id hlt
  · intro hall i hi
    have := hall i
    rw [nextPhase?_of_get? (Array.getElem?_eq_getElem hi)] at this
    simp [Entity.isFinished, this]

/-- What an entity misses is what it depends on and does not have. -/
theorem EntityGraph.mem_unmet {g : EntityGraph} {id : EntityId} {p : Phase} {d : Dependency}
    {e : Entity} (he : g.get? id = some e) :
    d ∈ g.unmet id p ↔ d ∈ e.deps ∧ d.phase.le p = true ∧ g.isSatisfied d = false := by
  simp only [unmet, depsFor, he, Option.map_some, Option.getD_some, List.mem_filter,
    Bool.not_eq_true', and_assoc]

theorem EntityGraph.unmet_eq_nil {g : EntityGraph} {id : EntityId} {p : Phase} :
    g.unmet id p = [] ↔ g.isReady id p = true := by
  simp [unmet, isReady, List.filter_eq_nil_iff, List.all_eq_true]

/-! ## Waiting entities -/

def EntityGraph.waiting (g : EntityGraph) (p : Phase) : Finset EntityId :=
  (Finset.range g.size).filter fun id => g.nextPhase? id = some p

def EntityGraph.taking (g : EntityGraph) (p : Phase) : Finset EntityId :=
  (Finset.range g.size).filter fun id => p ∈ g.phasesAfter 0 id

def EntityGraph.totalPhases (g : EntityGraph) : Nat :=
  ∑ id ∈ Finset.range g.size, (g.phasesAfter 0 id).length

theorem EntityGraph.mem_waiting {g : EntityGraph} {p : Phase} {id : EntityId} :
    id ∈ g.waiting p ↔ g.nextPhase? id = some p := by
  simp only [waiting, Finset.mem_filter, Finset.mem_range, and_iff_right_iff_imp]
  intro hn
  obtain ⟨e, he, -⟩ := get?_of_nextPhase? hn
  exact lt_size_of_get? he

theorem EntityGraph.card_waiting_le (g : EntityGraph) (p : Phase) :
    (g.waiting p).card ≤ g.size :=
  calc (g.waiting p).card ≤ (Finset.range g.size).card := Finset.card_filter_le ..
    _ = g.size := Finset.card_range _

theorem EntityGraph.waiting_subset_taking (g : EntityGraph) (p : Phase) :
    g.waiting p ⊆ g.taking p := by
  intro id hid
  have hn := mem_waiting.mp hid
  obtain ⟨e, he, hp⟩ := get?_of_nextPhase? hn
  refine Finset.mem_filter.mpr ⟨Finset.mem_range.mpr (lt_size_of_get? he), ?_⟩
  simpa [phasesAfter, he] using List.mem_of_getElem? hp

/-- Every entity takes part in as many phases as its kind has. -/
theorem EntityGraph.sum_taking (g : EntityGraph) :
    (Phase.all.map fun p => (g.taking p).card).sum = g.totalPhases := by
  have hkind (k : EntityKind) : (Phase.all.map fun p => if p ∈ k.phases then 1 else 0).sum =
      k.phases.length := by cases k <;> decide
  have hid (id : EntityId) : (Phase.all.map fun p =>
      if p ∈ g.phasesAfter 0 id then 1 else 0).sum = (g.phasesAfter 0 id).length := by
    cases he : g.get? id with
    | none => simp [phasesAfter, he]
    | some e => simpa [phasesAfter, he] using hkind e.kind
  simp only [totalPhases, ← hid, taking, Finset.card_filter, Phase.all, List.map_cons,
    List.map_nil, List.sum_cons, List.sum_nil, Nat.add_zero, Finset.sum_add_distrib]

namespace Host

structure Closed (h : Host σ ε) : Prop extends h.Tame where
  size : ∀ id p s, (h.graph (h.run id p s).state).size = (h.graph s).size

variable {h : Host σ ε}

/-- A call takes its entity out of those that wait for the phase, and puts none in. -/
theorem Closed.waiting_lt (hc : h.Closed) {p : Phase} {id : EntityId} {t t' : σ}
    (hd : h.due p t id = true) (hr : h.run id p t = .ok () t') :
    ((h.graph (h.finished p id t')).waiting p).card < ((h.graph t).waiting p).card := by
  have hsize : (h.graph t').size = (h.graph t).size := by
    simpa [hr, EStateM.Result.state] using hc.size id p t
  have hout : (h.graph (h.finished p id t')).nextPhase? id ≠ some p := by
    rw [hc.graph_finished]
    exact EntityGraph.nextPhase?_ne_of_finish (by rw [EntityGraph.get?_modify, if_pos rfl])
  refine Finset.card_lt_card (Finset.ssubset_iff_of_subset ?_ |>.mpr ⟨id, ?_, ?_⟩)
  · intro j hj
    have hn := EntityGraph.mem_waiting.mp hj
    have hne : id ≠ j := fun heq => hout (heq ▸ hn)
    obtain ⟨e, he, hp⟩ := EntityGraph.get?_of_nextPhase? hn
    rw [hc.graph_finished, EntityGraph.get?_modify, if_neg hne] at he
    have hlt : j < (h.graph t).size := hsize ▸ EntityGraph.lt_size_of_get? he
    exact EntityGraph.mem_waiting.mpr
      ((hc.edits_ok hr).nextPhase? hlt ((EntityGraph.nextPhase?_of_get? he).trans hp))
  · exact EntityGraph.mem_waiting.mpr (due_iff.mp hd).1
  · intro hid
    exact hout (EntityGraph.mem_waiting.mp hid)

theorem Closed.ran_length (hc : h.Closed) {p : Phase} {s t : σ} {calls : List (Call σ ε)}
    (hr : h.Ran p s calls t) :
    calls.length + ((h.graph t).waiting p).card ≤ ((h.graph s).waiting p).card := by
  induction hr with
  | nil => simp
  | snoc id _ hd hr ih =>
    have := hc.waiting_lt hd hr
    simp only [List.length_append, List.length_singleton]
    omega

theorem Closed.ran_lt (hc : h.Closed) {p : Phase} {s t : σ} {calls : List (Call σ ε)} {n : Nat}
    (hn : (h.graph s).size < n) (hr : h.Ran p s calls t) : calls.length < n := by
  have h1 := hc.ran_length hr
  have h2 := (h.graph s).card_waiting_le p
  omega

theorem Closed.quiet (hc : h.Closed) (p : Phase) (r r' : Progress σ)
    (hp : h.passes p ((h.graph r.host).size + h.adds + 1) r = .ok () r') :
    h.Quiet p r'.host :=
  h.passes_quiet (fun _ _ hr => hc.ran_lt (by omega) hr) hp

theorem Closed.ran_later (hc : h.Closed) {p : Phase} {s t : σ} {calls : List (Call σ ε)}
    (hr : h.Ran p s calls t) :
    (h.graph s).Later (h.graph t) ∧ (h.graph t).size = (h.graph s).size := by
  refine ⟨(Path.ran (.nil s) hr).later_end hc.toTame, ?_⟩
  induction hr with
  | nil => rfl
  | @snoc t t' calls id _ _ hr ih =>
    have hsize := hc.size id p t
    rw [hr] at hsize
    rw [hc.graph_finished, EntityGraph.size_modify, ← ih]
    exact hsize

/-! ## How often phases run -/

end Host

/-- Entities take part in the same phases at a later moment. -/
theorem EntityGraph.Later.taking {g g' : EntityGraph} (hl : g.Later g') (hs : g'.size = g.size)
    (p : Phase) : g'.taking p = g.taking p := by
  unfold EntityGraph.taking
  rw [hs]
  refine Finset.filter_congr fun id hid => ?_
  cases he : g.get? id with
  | none => exact absurd (Finset.mem_range.mp hid) (Nat.not_lt_of_le (get?_eq_none.mp he))
  | some e =>
    obtain ⟨e', he', hl'⟩ := hl id e he
    simp [phasesAfter, he, he', hl'.kind]

namespace Host

variable {h : Host σ ε}

theorem Closed.ran_taking (hc : h.Closed) {p : Phase} {s t : σ} {calls : List (Call σ ε)}
    (hr : h.Ran p s calls t) : successes calls ≤ ((h.graph s).taking p).card := by
  have h1 := hc.ran_length hr
  have h2 := Finset.card_le_card ((h.graph s).waiting_subset_taking p)
  rw [hr.successes]
  omega

theorem Closed.goes_successes (hc : h.Closed) {Q : Phase → σ → Prop} {ps : List Phase} {s : σ}
    {calls : List (Call σ ε)} {r : EStateM.Result ε σ Unit} (hg : h.Goes Q ps s calls r) :
    successes calls ≤ (ps.map fun p => ((h.graph s).taking p).card).sum := by
  induction hg with
  | ended s => exact Nat.le_refl 0
  | @phase p ps s t calls more r hr _ _ _ ih =>
    obtain ⟨hl, hs⟩ := hc.ran_later hr
    simp only [hl.taking hs] at ih
    rw [successes_append, List.map_cons, List.sum_cons]
    exact Nat.add_le_add (hc.ran_taking hr) ih
  | failed hf =>
    have hlen := hf.successes
    obtain ⟨before, id, t, hb, -, -, rfl⟩ := hf
    have hle := hc.ran_taking hb
    rw [hb.successes] at hle
    rw [List.length_append, List.length_singleton] at hlen
    rw [List.map_cons, List.sum_cons]
    omega
  | stuck hr _ _ =>
    rw [List.map_cons, List.sum_cons]
    exact Nat.le_trans (hc.ran_taking hr) (Nat.le_add_right ..)

/-! ## How a run ends -/

/-- Every call succeeds, and so does the run, with every entity finished. -/
def Completes {α : Type} (h : Host σ ε) (calls : List (Call σ ε)) (r : EStateM.Result ε σ α) :
    Prop :=
  ∃ v t, r = .ok v t ∧ (∀ c ∈ calls, c.error = none) ∧ (h.graph t).allFinished = true

/-- The run ends at the first call that fails, with its error. -/
def Breaks {α : Type} (calls : List (Call σ ε)) (r : EStateM.Result ε σ α) : Prop :=
  ∃ before c e, calls = before ++ [c] ∧ (∀ b ∈ before, b.error = none) ∧ c.error = some e ∧
    r = .error e c.after

structure Blocked (g : EntityGraph) (report : StuckReport) : Prop where
  some_stuck : report.stuck ≠ []
  /-- Those that wait for the phase of the report are in it, and no others. -/
  contains : ∀ id, report.contains id = true ↔ g.nextPhase? id = some report.phase
  /-- Nothing is left over from an earlier phase. -/
  ahead : ∀ id q, g.nextPhase? id = some q → report.phase.le q = true
  some_missing : ∀ x ∈ report.stuck, x.missing ≠ []
  missing : ∀ x ∈ report.stuck, ∃ e, g.get? x.id = some e ∧
    ∀ d, d ∈ x.missing ↔ d ∈ e.deps ∧ d.phase.le report.phase = true ∧ g.isSatisfied d = false

/-- Every call succeeds, and the run ends with entities that miss something. -/
def Sticks {α : Type} (h : Host σ ε) (calls : List (Call σ ε)) (r : EStateM.Result ε σ α) :
    Prop :=
  ∃ t report, r = .error (h.unresolved t report) t ∧ (∀ c ∈ calls, c.error = none) ∧
    Blocked (h.graph t) report

end Host

theorem StuckReport.contains_iff {g : EntityGraph} {p : Phase} {id : EntityId} :
    (g.stuckReport p).contains id = true ↔ ∃ q, g.nextPhase? id = some q ∧ q.le p = true := by
  simp only [StuckReport.contains, List.any_eq_true, beq_iff_eq, EntityGraph.mem_stuck]
  constructor
  · rintro ⟨x, ⟨j, e, q, he, hn, hq, rfl⟩, rfl⟩
    exact ⟨q, (EntityGraph.nextPhase?_of_get? he).trans hn, hq⟩
  · rintro ⟨q, hn, hq⟩
    obtain ⟨e, he, hn⟩ := EntityGraph.get?_of_nextPhase? hn
    exact ⟨_, ⟨id, e, q, he, hn, hq, rfl⟩, rfl⟩

theorem Phase.le_antisymm {a b : Phase} (h : a.le b = true) (h' : b.le a = true) : a = b :=
  Phase.eq_of_number (Nat.le_antisymm (Phase.le_iff.mp h) (Phase.le_iff.mp h'))

/-- In the rest of the phases, those after the first are those that come later. -/
theorem Phase.mem_rest : ∀ {p : Phase} {ps : List Phase}, p :: ps <:+ Phase.all →
    (∀ q ∈ p :: ps, p.le q = true) ∧ ∀ q, q.le p = false → q ∈ ps := by
  intro p ps hps
  have hmem := (List.mem_tails ..).mpr hps
  simp only [Phase.all, List.tails, List.mem_cons, List.not_mem_nil, or_false, List.cons.injEq,
    reduceCtorEq] at hmem
  rcases hmem with ⟨rfl, rfl⟩ | ⟨rfl, rfl⟩ | ⟨rfl, rfl⟩ <;>
    exact ⟨by decide, fun q => by cases q <;> decide⟩

namespace Host

variable {h : Host σ ε}

/-- What is stuck when nothing is due and nothing was left over before the phase. -/
theorem blocked_of_quiet {p : Phase} {t : σ} (hq : h.Quiet p t)
    (ha : ∀ id q, (h.graph t).nextPhase? id = some q → p.le q = true)
    (hs : ((h.graph t).stuckReport p).stuck ≠ []) :
    Blocked (h.graph t) ((h.graph t).stuckReport p) := by
  refine ⟨hs, fun id => ?_, ha, fun x hx => ?_, fun x hx => ?_⟩
  · rw [StuckReport.contains_iff]
    constructor
    · rintro ⟨q, hn, hle⟩
      rw [hn, Phase.le_antisymm hle (ha id q hn)]
      rfl
    · intro hn
      exact ⟨p, hn, p.le_refl⟩
  · obtain ⟨id, e, q, he, hn, hle, rfl⟩ := EntityGraph.mem_stuck.mp hx
    have hn := (EntityGraph.nextPhase?_of_get? he).trans hn
    have hqp := Phase.le_antisymm hle (ha id q hn)
    subst hqp
    intro hnil
    have hdue := due_iff.mpr ⟨hn, EntityGraph.unmet_eq_nil.mp hnil⟩
    rw [hq id] at hdue
    cases hdue
  · obtain ⟨id, e, q, he, hn, hle, rfl⟩ := EntityGraph.mem_stuck.mp hx
    have hqp := Phase.le_antisymm hle (ha id q ((EntityGraph.nextPhase?_of_get? he).trans hn))
    subst hqp
    exact ⟨e, he, fun d => EntityGraph.mem_unmet he⟩

/-- Entities that had nothing left over before a phase have nothing left over in it. -/
theorem Closed.ahead (hc : h.Closed) {p : Phase} {ps : List Phase} {s t : σ}
    {calls : List (Call σ ε)} (hps : p :: ps <:+ Phase.all)
    (hnext : ∀ id q, (h.graph s).nextPhase? id = some q → q ∈ p :: ps)
    (hr : h.Ran p s calls t) (id : EntityId) (q : Phase)
    (hq : (h.graph t).nextPhase? id = some q) : p.le q = true := by
  obtain ⟨hl, hs⟩ := hc.ran_later hr
  obtain ⟨e, he, -⟩ := EntityGraph.get?_of_nextPhase? hq
  have hlt : id < (h.graph s).size := hs ▸ EntityGraph.lt_size_of_get? he
  obtain ⟨q0, hq0, hle⟩ := hl.nextPhase? hlt hq
  exact Phase.le_trans ((Phase.mem_rest hps).1 q0 (hnext id q0 hq0)) hle

theorem Closed.goes_ends (hc : h.Closed) {ps : List Phase} {s : σ} {calls : List (Call σ ε)}
    {r : EStateM.Result ε σ Unit} (hg : h.Goes h.Quiet ps s calls r) :
    ps <:+ Phase.all → (∀ id q, (h.graph s).nextPhase? id = some q → q ∈ ps) →
    h.Completes calls r ∨ Breaks calls r ∨ h.Sticks calls r := by
  induction hg with
  | ended s =>
    intro _ hnext
    refine .inl ⟨(), s, rfl, by simp, EntityGraph.allFinished_iff.mpr fun id => ?_⟩
    cases hn : (h.graph s).nextPhase? id with
    | none => rfl
    | some q => simpa using hnext id q hn
  | @phase p ps s t calls more r hr _ hs _ ih =>
    intro hps hnext
    -- nobody is stuck, so what everybody does next belongs to a later phase
    have hmore : ∀ id q, (h.graph t).nextPhase? id = some q → q ∈ ps := fun id q hq =>
      (Phase.mem_rest hps).2 q (EntityGraph.stuck_eq_nil.mp hs id q hq)
    have hok {more : List (Call σ ε)} (hm : ∀ c ∈ more, c.error = none) :
        ∀ c ∈ calls ++ more, c.error = none := fun c hc =>
      (List.mem_append.mp hc).elim (hr.error c) (hm c)
    rcases ih ((List.suffix_cons p ps).trans hps) hmore with
      ⟨v, u, rfl, he, hf⟩ | ⟨before, c, e, rfl, he, hce, rfl⟩ | ⟨u, report, rfl, he, hb⟩
    · exact .inl ⟨v, u, rfl, hok he, hf⟩
    · exact .inr (.inl ⟨_, c, e, (List.append_assoc ..).symm, hok he, hce, rfl⟩)
    · exact .inr (.inr ⟨u, report, rfl, hok he, hb⟩)
  | failed hf =>
    intro _ _
    obtain ⟨before, id, t, hb, -, -, rfl⟩ := hf
    exact .inr (.inl ⟨before, _, _, rfl, hb.error, rfl, rfl⟩)
  | stuck hr hq hs =>
    intro hps hnext
    exact .inr (.inr ⟨_, _, rfl, hr.error, blocked_of_quiet hq (hc.ahead hps hnext hr) hs⟩)

/-- One of the three holds. -/
theorem Closed.ends (hc : h.Closed) (s : σ) :
    h.Completes (h.trace s) (h.runPhases s) ∨ Breaks (h.trace s) (h.runPhases s) ∨
      h.Sticks (h.trace s) (h.runPhases s) := by
  obtain ⟨hg, -, -⟩ := h.trace_goes (Q := h.Quiet) hc.quiet s
  have hall : ∀ id q, (h.graph s).nextPhase? id = some q → q ∈ Phase.all := by
    intro id q _
    cases q <;> decide
  rcases hc.goes_ends hg (List.suffix_refl _) hall with
    ⟨v, t, hr, hrest⟩ | ⟨before, c, e, hcalls, he, hce, hr⟩ | ⟨t, report, hr, hrest⟩
  · exact .inl ⟨_, t, h.runPhases_ok hr, hrest⟩
  · exact .inr (.inl ⟨before, c, e, hcalls, he, hce, h.runPhases_error hr⟩)
  · exact .inr (.inr ⟨t, report, h.runPhases_error hr, hrest⟩)

/-- No two of the three can hold. -/
theorem ends_apart {α : Type} (calls : List (Call σ ε)) (r : EStateM.Result ε σ α) :
    ¬(h.Completes calls r ∧ Breaks calls r) ∧ ¬(h.Completes calls r ∧ h.Sticks calls r) ∧
      ¬(Breaks calls r ∧ h.Sticks calls r) := by
  refine ⟨?_, ?_, ?_⟩
  · rintro ⟨⟨v, t, rfl, -⟩, ⟨before, c, e, -, -, -, hr⟩⟩
    cases hr
  · rintro ⟨⟨v, t, rfl, -⟩, ⟨u, report, hr, -⟩⟩
    cases hr
  · rintro ⟨⟨before, c, e, rfl, -, hce, -⟩, ⟨u, report, -, he, -⟩⟩
    rw [he c (by simp)] at hce
    cases hce

/-- A run of a host that adds no entities ends, by itself, after at most as many passes as
phases run and three more; it runs no more phases than there are; and it completes, or
breaks at a call, or sticks with a report that leaves nothing out. -/
theorem run_ends (h : Host σ ε) (hc : h.Closed) (s : σ) :
    (∀ p r k, (h.graph r.host).size < k →
      h.passes p k r = h.passes p ((h.graph r.host).size + 1) r) ∧
    (h.outcome s).state.stats.passes ≤ (h.outcome s).state.stats.phaseRuns + 3 ∧
    (h.outcome s).state.stats.phaseRuns = successes (h.trace s) ∧
    (h.outcome s).state.stats.phaseRuns ≤ (h.graph s).totalPhases ∧
    (h.Completes (h.trace s) (h.runPhases s) ∨ Breaks (h.trace s) (h.runPhases s) ∨
      h.Sticks (h.trace s) (h.runPhases s)) ∧
    ¬(h.Completes (h.trace s) (h.runPhases s) ∧ Breaks (h.trace s) (h.runPhases s)) ∧
    ¬(h.Completes (h.trace s) (h.runPhases s) ∧ h.Sticks (h.trace s) (h.runPhases s)) ∧
    ¬(Breaks (h.trace s) (h.runPhases s) ∧ h.Sticks (h.trace s) (h.runPhases s)) := by
  obtain ⟨hg, hruns, hpasses⟩ := h.trace_goes (Q := h.Quiet) hc.quiet s
  refine ⟨fun p r k hk => ?_, by omega, hruns, ?_, ?_, ends_apart ..⟩
  · obtain ⟨n, rfl⟩ := Nat.exists_eq_add_of_le hk
    exact h.passes_add n fun _ _ hr => hc.ran_lt (Nat.lt_succ_self _) hr
  · rw [hruns, ← EntityGraph.sum_taking]
    exact hc.goes_successes hg
  · exact hc.ends s

/-- A host that does nothing and fails with the report itself. -/
def idle : Host EntityGraph StuckReport where
  graph g := g
  setGraph _ g := g
  run _ _ := pure ()
  unresolved _ report := report

theorem idle_closed : idle.Closed where
  graph_setGraph _ _ := rfl
  run_edits _ _ _ := .refl
  size _ _ _ := rfl

/-- Two type definitions that wait for each other stick. -/
theorem run_ends_idle :
    let g : EntityGraph := ⟨#[⟨none, .typeDef, 0, .pending, 0, [⟨1, .complete, .one⟩], default⟩,
      ⟨none, .typeDef, 0, .pending, 0, [⟨0, .complete, .one⟩], default⟩]⟩
    idle.Closed ∧ idle.Sticks (idle.trace g) (idle.runPhases g) := by
  intro g
  refine ⟨idle_closed, ?_⟩
  rcases (run_ends idle idle_closed g).2.2.2.2.1 with ⟨v, t, hr, -⟩ | ⟨before, c, e, hcalls, -⟩ | hs
  · cases hr
  · have hnil : idle.trace g = [] := rfl
    rw [hnil] at hcalls
    simp at hcalls
  · exact hs

end Host

end Staged
