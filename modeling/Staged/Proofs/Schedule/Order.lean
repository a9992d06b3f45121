/-
  Staged.Proofs.Schedule.Order — the order of entities does not decide what they come to.

  Two graphs hold the same entities in different places when a permutation takes one to
  the other, with the targets of the dependencies renamed along (`Renamed`). The hosts
  never fail and leave the graph alone (`Host.Passive`); they may be different hosts.

  Passes over the two graphs interleave differently. What they have in common is how a
  phase ends: an entity has run in it or is as it was, nothing is due, and what ran had
  its dependencies. Going through the calls of one run, each is to an entity that the
  other one must have run too, for it would be due at the end otherwise (`Passive.covers`).
  By symmetry the same entities run, and the graphs are renamed again.

  Main statement: `run_renamed`.
-/

import Mathlib.Logic.Equiv.Basic
import Staged.Proofs.Schedule.Outcome

namespace Staged

variable {σ τ ε δ : Type}

/-! ## Renaming -/

def Dependency.rename (π : Equiv.Perm EntityId) (d : Dependency) : Dependency :=
  { d with entity := π d.entity }

def Entity.rename (π : Equiv.Perm EntityId) (e : Entity) : Entity :=
  { e with deps := e.deps.map (Dependency.rename π) }

def Stuck.rename (π : Equiv.Perm EntityId) (x : Stuck) : Stuck :=
  { x with id := π x.id, missing := x.missing.map (Dependency.rename π) }

/-- The second graph holds the entities of the first one, each in its new place. -/
def Renamed (π : Equiv.Perm EntityId) (g g' : EntityGraph) : Prop :=
  ∀ id, g'.get? (π id) = (g.get? id).map (Entity.rename π)

@[simp] theorem Entity.nextPhase?_rename (π : Equiv.Perm EntityId) (e : Entity) :
    (e.rename π).nextPhase? = e.nextPhase? := rfl

theorem Entity.finish_rename (π : Equiv.Perm EntityId) (p : Phase) (e : Entity) :
    (e.rename π).finish p = (e.finish p).rename π := by
  simp only [Entity.finish, Entity.nextPhase?_rename]
  by_cases h : e.nextPhase? = some p
  · simp only [h, if_true, Entity.rename]
    repeat' split
    all_goals rfl
  · simp only [h, if_false, Entity.rename]
    repeat' split
    all_goals rfl

@[simp] theorem Dependency.rename_symm (π : Equiv.Perm EntityId) (d : Dependency) :
    (d.rename π).rename π.symm = d := by
  simp [Dependency.rename]

@[simp] theorem Entity.rename_symm (π : Equiv.Perm EntityId) (e : Entity) :
    (e.rename π).rename π.symm = e := by
  have hd : Dependency.rename π.symm ∘ Dependency.rename π = id := by
    funext d
    exact d.rename_symm π
  simp [Entity.rename, hd]

namespace Renamed

variable {π : Equiv.Perm EntityId} {g g' : EntityGraph}

theorem symm (hr : Renamed π g g') : Renamed π.symm g' g := by
  intro id
  have := hr (π.symm id)
  rw [Equiv.apply_symm_apply] at this
  rw [this, Option.map_map]
  cases g.get? (π.symm id) <;> simp

theorem nextPhase? (hr : Renamed π g g') (id : EntityId) :
    g'.nextPhase? (π id) = g.nextPhase? id := by
  unfold EntityGraph.nextPhase?
  rw [hr id]
  cases g.get? id <;> rfl

theorem isSatisfied (hr : Renamed π g g') (d : Dependency) :
    g'.isSatisfied (d.rename π) = g.isSatisfied d := by
  unfold EntityGraph.isSatisfied
  rw [show (d.rename π).entity = π d.entity from rfl, hr d.entity, Option.map_map]
  rfl

theorem unmet (hr : Renamed π g g') (id : EntityId) (p : Phase) :
    g'.unmet (π id) p = (g.unmet id p).map (Dependency.rename π) := by
  unfold EntityGraph.unmet EntityGraph.depsFor
  rw [hr id]
  cases g.get? id with
  | none => rfl
  | some e =>
    simp only [Option.map_some, Option.getD_some, Entity.rename, List.filter_map, Function.comp_def,
      hr.isSatisfied]
    rfl

theorem mem_stuck (hr : Renamed π g g') {p : Phase} {x : Stuck}
    (hx : x ∈ (g.stuckReport p).stuck) : x.rename π ∈ (g'.stuckReport p).stuck := by
  obtain ⟨id, e, q, he, hn, hq, rfl⟩ := EntityGraph.mem_stuck.mp hx
  refine EntityGraph.mem_stuck.mpr ⟨π id, e.rename π, q, by rw [hr id, he]; rfl, hn, hq, ?_⟩
  simp only [Stuck.rename, EntityGraph.stuckEntry, hr.unmet]
  rfl

/-- A phase leaves the same entities stuck, with the same dependencies missing. -/
theorem stuck_iff (hr : Renamed π g g') {p : Phase} (x' : Stuck) :
    x' ∈ (g'.stuckReport p).stuck ↔ ∃ x ∈ (g.stuckReport p).stuck, x.rename π = x' := by
  constructor
  · intro hx'
    have hback := hr.symm.mem_stuck hx'
    refine ⟨_, hback, ?_⟩
    have hd : Dependency.rename π ∘ Dependency.rename π.symm = id := by
      funext d
      exact d.rename_symm π.symm
    simp [Stuck.rename, hd]
  · rintro ⟨x, hx, rfl⟩
    exact hr.mem_stuck hx

theorem stuck_eq_nil (hr : Renamed π g g') {p : Phase} :
    (g'.stuckReport p).stuck = [] ↔ (g.stuckReport p).stuck = [] := by
  simp only [List.eq_nil_iff_forall_not_mem, hr.stuck_iff]
  constructor
  · intro hn x hx
    exact hn _ ⟨x, hx, rfl⟩
  · rintro hn x' ⟨x, hx, -⟩
    exact hn x hx

end Renamed

/-! ## A phase of a passive host -/

namespace Host

structure Passive (h : Host σ ε) : Prop where
  graph_setGraph : ∀ s g, h.graph (h.setGraph s g) = g
  run : ∀ id p s, ∃ s', h.run id p s = .ok () s' ∧ h.graph s' = h.graph s

variable {h : Host σ ε} {h' : Host τ δ} {π : Equiv.Perm EntityId}

theorem Passive.closed (hp : h.Passive) : h.Closed where
  graph_setGraph := hp.graph_setGraph
  run_edits id p s := by
    obtain ⟨s', hr, hg⟩ := hp.run id p s
    simp only [hr, EStateM.Result.state, hg]
    exact .refl
  size id p s := by
    obtain ⟨s', hr, hg⟩ := hp.run id p s
    simp only [hr, EStateM.Result.state, hg]

def idsOf (calls : List (Call σ ε)) : List EntityId := calls.map Call.id

/-- An entity that was called in a phase has run it, and every other is as it was. -/
theorem Passive.get?_ran (hp : h.Passive) {p : Phase} {s t : σ} {calls : List (Call σ ε)}
    (hr : h.Ran p s calls t) (id : EntityId) :
    (h.graph t).get? id =
      if id ∈ idsOf calls then ((h.graph s).get? id).map (Entity.finish p)
      else (h.graph s).get? id := by
  induction hr with
  | nil => simp [idsOf]
  | @snoc t t' calls j _ hd hr ih =>
    obtain ⟨t'', hr', hg⟩ := hp.run j p t
    rw [hr] at hr'
    cases hr'
    rw [hp.closed.graph_finished, EntityGraph.get?_modify, hg, ih]
    simp only [idsOf, List.map_append, List.map_singleton, List.mem_append, List.mem_singleton]
    by_cases hj : j = id
    · subst hj
      have hran : j ∉ calls.map Call.id := fun hran =>
        EntityGraph.nextPhase?_ne_of_finish (ih.trans (if_pos hran)) (due_iff.mp hd).1
      simp [hran]
    · simp [hj, Ne.symm hj]

theorem Passive.not_mem_of_due (hp : h.Passive) {p : Phase} {s t : σ} {calls : List (Call σ ε)}
    (hr : h.Ran p s calls t) {id : EntityId} (hd : h.due p t id = true) : id ∉ idsOf calls :=
  fun hran => EntityGraph.nextPhase?_ne_of_finish ((hp.get?_ran hr id).trans (if_pos hran))
    (due_iff.mp hd).1

/-- An entity is called at most once in a phase. -/
theorem Passive.phasesOf_ran (hp : h.Passive) {p : Phase} {s t : σ} {calls : List (Call σ ε)}
    (hr : h.Ran p s calls t) (id : EntityId) :
    phasesOf calls id = if id ∈ idsOf calls then [p] else [] := by
  induction hr with
  | nil => rfl
  | @snoc t t' calls j hr hd _ ih =>
    simp only [idsOf, List.map_append, List.map_singleton, List.mem_append, List.mem_singleton]
    by_cases hj : j = id
    · subst hj
      have hran : j ∉ calls.map Call.id := hp.not_mem_of_due hr hd
      rw [phasesOf_snoc_self calls ⟨j, p, t, t', none⟩, ih]
      simp [idsOf, hran]
    · rw [phasesOf_snoc_other calls ⟨j, p, t, t', none⟩ hj, ih]
      simp [idsOf, Ne.symm hj]

/-! ## Two runs of a phase -/

section

variable {p : Phase} {s t : σ} {s' t' : τ} {calls : List (Call σ ε)} {calls' : List (Call τ δ)}

/-- Where the second run has called at least what the first one has, it satisfies what the
first one does. -/
theorem Passive.satisfied (hp : h.Passive) (hp' : h'.Passive)
    (hg : Renamed π (h.graph s) (h'.graph s')) (hr : h.Ran p s calls t)
    (hr' : h'.Ran p s' calls' t') (hids : ∀ id ∈ idsOf calls, π id ∈ idsOf calls')
    {d : Dependency} (hd : (h.graph t).isSatisfied d = true) :
    (h'.graph t').isSatisfied (d.rename π) = true := by
  by_cases hran : d.entity ∈ idsOf calls
  · rw [← hd]
    unfold EntityGraph.isSatisfied
    rw [show (d.rename π).entity = π d.entity from rfl, hp.get?_ran hr, if_pos hran,
      hp'.get?_ran hr', if_pos (hids _ hran), hg d.entity]
    cases (h.graph s).get? d.entity with
    | none => rfl
    | some e =>
      simp only [Option.map_some, Entity.finish_rename]
      rfl
  · refine (hp'.closed.ran_later hr').1.isSatisfied ?_
    rw [hg.isSatisfied, ← hd]
    unfold EntityGraph.isSatisfied
    rw [hp.get?_ran hr, if_neg hran]

/-- A run of a phase that ends with nothing due has called what any other one calls. -/
theorem Passive.covers (hp : h.Passive) (hp' : h'.Passive)
    (hg : Renamed π (h.graph s) (h'.graph s')) (hr : h.Ran p s calls t)
    (hr' : h'.Ran p s' calls' t') (hq' : h'.Quiet p t') :
    ∀ id ∈ idsOf calls, π id ∈ idsOf calls' := by
  induction hr with
  | nil => simp [idsOf]
  | @snoc u u' calls j hr hd _ ih =>
    intro id hid
    rw [idsOf, List.map_append, List.mem_append] at hid
    rcases hid with hid | hid
    · exact ih id hid
    · rw [List.map_singleton, List.mem_singleton] at hid
      rw [hid]
      -- not called, it would be as at the start, with all it needs: due
      refine Decidable.byContradiction fun hnot => ?_
      have hsame := (hp'.get?_ran hr' (π j)).trans (if_neg hnot)
      have hsame0 := (hp.get?_ran hr j).trans (if_neg (hp.not_mem_of_due hr hd))
      obtain ⟨hnext, hready⟩ := due_iff.mp hd
      obtain ⟨e, he, hn⟩ := EntityGraph.get?_of_nextPhase? hnext
      have he' : (h'.graph t').get? (π j) = some (e.rename π) := by
        rw [hsame, hg j, ← hsame0, he]; rfl
      have hdue : h'.due p t' (π j) = true := by
        refine due_iff.mpr ⟨(EntityGraph.nextPhase?_of_get? he').trans hn, ?_⟩
        simp only [EntityGraph.isReady, EntityGraph.depsFor, he, he', Option.map_some,
          Option.getD_some, List.all_eq_true, List.mem_filter] at hready ⊢
        rintro d' ⟨hd', hle⟩
        obtain ⟨d, hd, rfl⟩ := List.mem_map.mp hd'
        exact hp.satisfied hp' hg hr hr' ih (hready d ⟨hd, hle⟩)
      rw [hq' (π j)] at hdue
      cases hdue

/-- Renamed graphs are renamed again after a phase, in which the same entities ran. -/
theorem Passive.phase_renamed (hp : h.Passive) (hp' : h'.Passive)
    (hg : Renamed π (h.graph s) (h'.graph s')) (hr : h.Ran p s calls t) (hq : h.Quiet p t)
    (hr' : h'.Ran p s' calls' t') (hq' : h'.Quiet p t') :
    Renamed π (h.graph t) (h'.graph t') ∧
      ∀ id, phasesOf calls' (π id) = phasesOf calls id := by
  have hids (id : EntityId) : π id ∈ idsOf calls' ↔ id ∈ idsOf calls := by
    refine ⟨fun hid => ?_, hp.covers hp' hg hr hr' hq' id⟩
    simpa using hp'.covers hp hg.symm hr' hr hq (π id) hid
  refine ⟨fun id => ?_, fun id => ?_⟩
  · rw [hp.get?_ran hr, hp'.get?_ran hr', hg id]
    simp only [hids]
    split
    · cases (h.graph s).get? id with
      | none => rfl
      | some e => simp only [Option.map_some, Entity.finish_rename]
    · rfl
  · rw [hp.phasesOf_ran hr, hp'.phasesOf_ran hr']
    simp only [hids]

end

/-! ## Two runs -/

theorem Passive.not_fails (hp : h.Passive) {p : Phase} {s t : σ} {calls : List (Call σ ε)} {e : ε} :
    ¬h.Fails p s calls e t := by
  rintro ⟨before, id, u, -, -, hr, -⟩
  obtain ⟨u', hok, -⟩ := hp.run id p u
  rw [hr] at hok
  cases hok

theorem phasesOf_append (calls more : List (Call σ ε)) (id : EntityId) :
    phasesOf (calls ++ more) id = phasesOf calls id ++ phasesOf more id := by
  simp [phasesOf]

inductive SameEnd (h : Host σ ε) (h' : Host τ δ) :
    EStateM.Result ε σ Unit → EStateM.Result δ τ Unit → Prop
  | ok (t : σ) (t' : τ) : SameEnd h h' (.ok () t) (.ok () t')
  | stuck (p : Phase) (t : σ) (t' : τ) (hs : ((h.graph t).stuckReport p).stuck ≠ []) :
      SameEnd h h' (.error (h.unresolved t ((h.graph t).stuckReport p)) t)
        (.error (h'.unresolved t' ((h'.graph t').stuckReport p)) t')

theorem Passive.goes_renamed (hp : h.Passive) (hp' : h'.Passive) {ps : List Phase} {s : σ}
    {calls : List (Call σ ε)} {r : EStateM.Result ε σ Unit} (hg : h.Goes h.Quiet ps s calls r) :
    ∀ {s' : τ} {calls' : List (Call τ δ)} {r' : EStateM.Result δ τ Unit},
      h'.Goes h'.Quiet ps s' calls' r' → Renamed π (h.graph s) (h'.graph s') →
      SameEnd h h' r r' ∧ Renamed π (h.graph r.state) (h'.graph r'.state) ∧
        ∀ id, phasesOf calls' (π id) = phasesOf calls id := by
  induction hg with
  | ended s =>
    intro s' calls' r' hg' hren
    cases hg'
    exact ⟨.ok s s', hren, fun _ => rfl⟩
  | failed hf => exact absurd hf hp.not_fails
  | phase hr hq hs _ ih =>
    intro s' calls' r' hg' hren
    cases hg' with
    | failed hf => exact absurd hf hp'.not_fails
    | phase hr' hq' hs' hg' =>
      obtain ⟨hren1, hph1⟩ := hp.phase_renamed hp' hren hr hq hr' hq'
      obtain ⟨hend, hren2, hph2⟩ := ih hg' hren1
      exact ⟨hend, hren2, fun id => by rw [phasesOf_append, phasesOf_append, hph1, hph2]⟩
    | stuck hr' hq' hs' =>
      -- one order leaves nobody stuck where the other one leaves somebody
      obtain ⟨hren1, -⟩ := hp.phase_renamed hp' hren hr hq hr' hq'
      exact absurd (hren1.stuck_eq_nil.mpr hs) hs'
  | stuck hr hq hs =>
    intro s' calls' r' hg' hren
    cases hg' with
    | failed hf => exact absurd hf hp'.not_fails
    | phase hr' hq' hs' hg' =>
      obtain ⟨hren1, -⟩ := hp.phase_renamed hp' hren hr hq hr' hq'
      exact absurd (hren1.stuck_eq_nil.mp hs') hs
    | stuck hr' hq' hs' =>
      obtain ⟨hren1, hph1⟩ := hp.phase_renamed hp' hren hr hq hr' hq'
      exact ⟨.stuck _ _ _ hs, hren1, hph1⟩

/-- Entities in another order come to the same: both runs succeed, or both report the same
phase and the same stuck entities with the same dependencies missing; and every entity runs
the same phases. -/
theorem run_renamed (h : Host σ ε) (h' : Host τ δ) (hp : h.Passive) (hp' : h'.Passive)
    (π : Equiv.Perm EntityId) (s : σ) (s' : τ) (hg : Renamed π (h.graph s) (h'.graph s')) :
    ((∃ stats t, h.runPhases s = .ok stats t) ↔ ∃ stats t', h'.runPhases s' = .ok stats t') ∧
    (∀ e t, h.runPhases s = .error e t → ∃ p t', e = h.unresolved t ((h.graph t).stuckReport p) ∧
      h'.runPhases s' = .error (h'.unresolved t' ((h'.graph t').stuckReport p)) t' ∧
      ((h.graph t).stuckReport p).stuck ≠ [] ∧
      ∀ x', x' ∈ ((h'.graph t').stuckReport p).stuck ↔
        ∃ x ∈ ((h.graph t).stuckReport p).stuck, x.rename π = x') ∧
    ∀ id, phasesOf (h'.trace s') (π id) = phasesOf (h.trace s) id := by
  obtain ⟨hgoes, -⟩ := h.trace_goes (Q := h.Quiet) hp.closed.quiet s
  obtain ⟨hgoes', -⟩ := h'.trace_goes (Q := h'.Quiet) hp'.closed.quiet s'
  obtain ⟨hend, hren, hphases⟩ := hp.goes_renamed hp' hgoes hgoes' hg
  generalize hr : (h.outcome s).onState Progress.host = r at hend hren
  generalize hr' : (h'.outcome s').onState Progress.host = r' at hend hren
  cases hend with
  | ok t t' =>
    have hrun := h.runPhases_ok hr
    have hrun' := h'.runPhases_ok hr'
    refine ⟨⟨fun _ => ⟨_, _, hrun'⟩, fun _ => ⟨_, _, hrun⟩⟩, fun e u he => ?_, hphases⟩
    rw [hrun] at he
    cases he
  | stuck p t t' hs =>
    have hrun := h.runPhases_error hr
    have hrun' := h'.runPhases_error hr'
    refine ⟨⟨?_, ?_⟩, fun e u he => ?_, hphases⟩
    · rintro ⟨stats, u, hok⟩
      rw [hrun] at hok
      cases hok
    · rintro ⟨stats, u, hok⟩
      rw [hrun'] at hok
      cases hok
    · rw [hrun] at he
      cases he
      exact ⟨p, t', rfl, hrun', hs, hren.stuck_iff⟩

theorem idle_passive : idle.Passive where
  graph_setGraph _ _ := rfl
  run _ _ s := ⟨s, rfl, rfl⟩

/-- A function that waits for a type definition, before and after it: one pass less or
more, the same phases. -/
theorem run_renamed_idle :
    let user (d : EntityId) : Entity :=
      ⟨none, .function, 0, .pending, 0, [⟨d, .partially, .one⟩], default⟩
    let type : Entity := ⟨none, .typeDef, 0, .pending, 0, [], default⟩
    let g : EntityGraph := ⟨#[user 1, type]⟩
    let g' : EntityGraph := ⟨#[type, user 0]⟩
    Renamed (Equiv.swap 0 1) g g' ∧
      (idle.trace g).map Call.id ≠ (idle.trace g').map Call.id ∧
      ∀ id, phasesOf (idle.trace g') (Equiv.swap 0 1 id) = phasesOf (idle.trace g) id := by
  intro user type g g'
  have hren : Renamed (Equiv.swap 0 1) g g' := by
    intro id
    match id with
    | 0 => rfl
    | 1 => rfl
    | n + 2 =>
      rw [Equiv.swap_apply_of_ne_of_ne (by simp) (by simp)]
      simp [EntityGraph.get?, g, g']
  exact ⟨hren, by decide, (run_renamed idle idle idle_passive idle_passive _ g g' hren).2.2⟩

end Host

end Staged
