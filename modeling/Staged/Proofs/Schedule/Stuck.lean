/-
  Staged.Proofs.Schedule.Stuck — why entities are stuck.

  The status of an entity says how many phases are behind it, and nothing else: a need is met
  exactly if the phase that meets it is behind the entity (`Entity.Exact`). Edits and phases
  that count as run keep that, so it holds of every graph that a run comes to.

  So when a phase ends with stuck entities, each of them misses an entity that is not there, one
  whose kind meets the need only in a later phase, or one that is stuck as well
  (`Blocked.why`). Where it is always the last of the three, some of them wait for each other in
  a circle (`Blocked.circle`).

  Main statement: `Host.Sticks.why`.
-/

import Mathlib.Data.Fintype.Card
import Mathlib.Data.Set.Finite.Basic
import Staged.Proofs.Schedule.Cycle
import Staged.Proofs.Schedule.Invariant

namespace Staged

/-! ## What a need waits for -/

def EntityKind.metAfter (k : EntityKind) : Need → Phase
  | .partially => k.partialAfter
  | .complete => k.completeAfter

def Status.Meets (s : Status) (n : Need) : Prop := s = .complete ∨ s = .partially ∧ n = .partially

theorem EntityGraph.isSatisfied_iff_meets {g : EntityGraph} {d : Dependency} :
    g.isSatisfied d = true ↔ ∃ e, g.get? d.entity = some e ∧ e.status.Meets d.need :=
  isSatisfied_iff

theorem EntityKind.metAfter_mem (k : EntityKind) (n : Need) : k.metAfter n ∈ k.phases := by
  cases k <;> cases n <;> decide

theorem EntityKind.partialAfter_le (k : EntityKind) : k.partialAfter.le k.completeAfter = true := by
  cases k <;> decide

/-- A need is met by the phases up to one if none that follows it is waited for. -/
theorem EntityKind.metAfter_le_iff {k : EntityKind} {n : Need} {i : Nat} {p : Phase}
    (hp : k.phases[i]? = some p) :
    (k.metAfter n).le p = true ↔
      ∀ q, k.phases[i + 1]? = some q → (k.metAfter n).number < q.number := by
  rw [Phase.le_iff]
  obtain ⟨j, hj⟩ := List.mem_iff_getElem?.mp (k.metAfter_mem n)
  constructor
  · intro hle q hq
    exact Nat.lt_of_le_of_lt hle (EntityKind.phases_lt hp hq i.lt_succ_self)
  · intro hnext
    by_contra hlt
    have hij : i < j := by
      refine Nat.lt_of_not_le fun hji => hlt ?_
      rcases Nat.lt_or_eq_of_le hji with hji | rfl
      · exact Nat.le_of_lt (EntityKind.phases_lt hj hp hji)
      · rw [hj] at hp
        cases hp
        exact Nat.le_refl _
    obtain ⟨hlen, hget⟩ := List.getElem?_eq_some_iff.mp hj
    have hi := List.getElem?_eq_getElem (Nat.lt_of_le_of_lt hij hlen)
    have hq := hnext _ hi
    rcases Nat.lt_or_eq_of_le hij with hlater | heq
    · have := EntityKind.phases_lt hi hj hlater
      omega
    · subst heq
      rw [hget] at hq
      exact Nat.lt_irrefl _ hq

/-- The status of an entity is what the phases behind it have made it. -/
def Entity.Exact (e : Entity) : Prop :=
  ∀ n, e.status.Meets n ↔ ∀ q, e.nextPhase? = some q → (e.kind.metAfter n).number < q.number

namespace Entity

variable {e : Entity}

def behind (e : Entity) : List Phase := e.kind.phases.take e.done

/-- What an entity meets, a phase behind it has made it meet. -/
theorem Exact.mem_behind (h : e.Exact) {n : Need} (hn : e.status.Meets n) :
    e.kind.metAfter n ∈ e.behind := by
  obtain ⟨j, hj⟩ := List.mem_iff_getElem?.mp (e.kind.metAfter_mem n)
  obtain ⟨hlen, -⟩ := List.getElem?_eq_some_iff.mp hj
  have hlt : j < e.done := by
    refine Nat.lt_of_not_le fun hle => ?_
    have hdone : e.done < e.kind.phases.length := Nat.lt_of_le_of_lt hle hlen
    have hnext : e.nextPhase? = some e.kind.phases[e.done] := List.getElem?_eq_getElem hdone
    have hlater := (h n).mp hn _ hnext
    rcases Nat.lt_or_eq_of_le hle with hbefore | rfl
    · have := EntityKind.phases_lt hnext hj hbefore
      omega
    · rw [← Option.some.inj (hj.symm.trans hnext)] at hlater
      exact Nat.lt_irrefl _ hlater
  exact List.mem_iff_getElem?.mpr ⟨j, by rw [behind, List.getElem?_take, if_pos hlt, hj]⟩

/-- All phases are behind an entity for which none is next. -/
theorem behind_of_nextPhase? (h : e.nextPhase? = none) : e.behind = e.kind.phases :=
  List.take_of_length_le (List.getElem?_eq_none_iff.mp h)

theorem behind_of_done {e' : Entity} {p : Phase} (hkind : e'.kind = e.kind)
    (hdone : e'.done = e.done + 1) (hp : e.nextPhase? = some p) : e'.behind = e.behind ++ [p] := by
  rw [behind, hkind, hdone, List.take_add_one, behind, show e.kind.phases[e.done]? = _ from hp]
  rfl

theorem exact_completeNow (e : Entity) : e.completeNow.Exact := fun _ =>
  ⟨fun _ q hq => by simp at hq, fun _ => .inl rfl⟩

theorem Exact.addDep (h : e.Exact) (self : EntityId) (d : Dependency) :
    (e.addDep self d).Exact := by
  intro n
  rw [status_addDep, kind_addDep, nextPhase?_eq (kind_addDep self d e) (done_addDep self d e)]
  exact h n

/-- A new entity has met nothing. -/
theorem exact_of_new (hstatus : e.status = .pending) (hdone : e.done = 0) : e.Exact := by
  intro n
  have hfirst : e.nextPhase? = some e.kind.firstPhase := by
    unfold nextPhase?
    rw [hdone]
    rfl
  refine iff_of_false (by simp [Status.Meets, hstatus]) fun hmet => ?_
  have hlt := hmet _ hfirst
  have hle := Phase.le_iff.mp e.kind.partialAfter_le
  have hfirst : e.kind.partialAfter = e.kind.firstPhase := rfl
  cases n with
  | partially => exact Nat.lt_irrefl _ hlt
  | complete =>
    rw [hfirst] at hle
    exact Nat.not_lt_of_le hle hlt

/-- What a phase makes of the status. -/
theorem meets_finish {p : Phase} {n : Need} :
    (e.finish p).status.Meets n ↔ e.status.Meets n ∨ (e.kind.metAfter n).le p = true := by
  have hle := e.kind.partialAfter_le
  rw [status_finish]
  split
  · rename_i hcomplete
    refine iff_of_true (.inl rfl) (.inr ?_)
    cases n with
    | partially => exact Phase.le_trans hle hcomplete
    | complete => exact hcomplete
  · rename_i hcomplete
    split
    · rename_i hpartial
      simp only [Bool.and_eq_true, beq_iff_eq] at hpartial
      cases n with
      | partially => simp [Status.Meets, EntityKind.metAfter, hpartial]
      | complete => simp [Status.Meets, EntityKind.metAfter, hpartial, hcomplete]
    · rename_i hpartial
      cases n with
      | partially =>
        cases hs : e.status <;> simp_all [Status.Meets, EntityKind.metAfter]
      | complete => simp [EntityKind.metAfter, hcomplete]

/-- A phase that was next and counts as run. -/
theorem Exact.finish (h : e.Exact) {p : Phase} (hp : ∀ q, e.nextPhase? = some q → q = p) :
    (e.finish p).Exact := by
  intro n
  rw [meets_finish, kind_finish]
  cases hn : e.nextPhase? with
  | none =>
    -- the entity was completed while the phase ran
    have hmet : e.status.Meets n := (h n).mpr fun q hq => by
      rw [hn] at hq
      cases hq
    refine iff_of_true (.inl hmet) fun q hq => ?_
    obtain ⟨r, hr, -⟩ := nextPhase?_finish hq
    rw [hn] at hr
    cases hr
  | some q =>
    obtain rfl := hp q hn
    have hnext : (e.finish q).nextPhase? = e.kind.phases[e.done + 1]? := by
      rw [nextPhase?, kind_finish, done_finish, if_pos hn]
    rw [hnext, ← EntityKind.metAfter_le_iff hn]
    refine or_iff_right_of_imp fun hmet => Phase.le_iff.mpr (Nat.le_of_lt ((h n).mp hmet q hn))

end Entity

/-! ## Graphs -/

/-- No status says more or less than the phases behind its entity. -/
def EntityGraph.Exact (g : EntityGraph) : Prop := ∀ id e, g.get? id = some e → e.Exact

namespace EntityGraph

variable {g g' : EntityGraph}

theorem exact_empty : EntityGraph.Exact {} := fun _ _ he => by simp [get?] at he

theorem Exact.modify (h : g.Exact) {id : EntityId} {f : Entity → Entity}
    (hf : ∀ e, g.get? id = some e → (f e).Exact) : (g.modify id f).Exact := by
  intro j e he
  rw [get?_modify] at he
  split at he
  · rename_i hj
    subst hj
    obtain ⟨e₀, he₀, rfl⟩ := Option.map_eq_some_iff.mp he
    exact hf e₀ he₀
  · exact h j e he

theorem Exact.edit (h : g.Exact) (hedit : Edit g g') : g'.Exact := by
  cases hedit with
  | add name kind module range =>
    intro j e he
    rw [get?_add] at he
    split at he
    · cases he
      exact Entity.exact_of_new rfl rfl
    · exact h j e he
  | depend id d => exact h.modify fun e he => (h id e he).addDep id d
  | complete id => exact h.modify fun e _ => e.exact_completeNow

theorem Exact.edits (h : g.Exact) (hedits : Edits g g') : g'.Exact := by
  induction hedits with
  | refl => exact h
  | tail _ hedit ih => exact ih.edit hedit

/-- A call for a phase that counts as run: the phase was next, or the call completed its entity. -/
theorem Exact.finish (h : g.Exact) {id : EntityId} {p : Phase}
    (hp : ∀ q, g.nextPhase? id = some q → q = p) : (g.modify id (Entity.finish p)).Exact :=
  h.modify fun e he => (h id e he).finish fun q hq => hp q ((nextPhase?_of_get? he).trans hq)

/-- An entity that does not meet what is needed of it has not come to the phase that does it. -/
theorem Exact.unmet (h : g.Exact) {d : Dependency} (hunmet : g.isSatisfied d = false) {e : Entity}
    (he : g.get? d.entity = some e) :
    ∃ q, e.nextPhase? = some q ∧ q.le (e.kind.metAfter d.need) = true := by
  have hnot : ¬e.status.Meets d.need := fun hmeets => by
    rw [isSatisfied_iff_meets.mpr ⟨e, he, hmeets⟩] at hunmet
    cases hunmet
  rw [h _ e he d.need] at hnot
  simp only [not_forall, Nat.not_lt] at hnot
  obtain ⟨q, hq, hmet⟩ := hnot
  exact ⟨q, hq, Phase.le_iff.mpr hmet⟩

end EntityGraph

/-! ## Who is missed -/

/-- What an entity misses in a phase cannot be met by its end: the entity that should meet it is
not there, or its kind does that in a later phase. -/
def EntityGraph.Late (g : EntityGraph) (p : Phase) (d : Dependency) : Prop :=
  ∀ e, g.get? d.entity = some e → p.number < (e.kind.metAfter d.need).number

namespace Host

variable {g : EntityGraph} {report : StuckReport}

/-- Whatever a stuck entity misses comes too late, or is stuck itself. -/
theorem Blocked.why (hb : Blocked g report) (hg : g.Exact) {x : Stuck} (hx : x ∈ report.stuck)
    {d : Dependency} (hd : d ∈ x.missing) :
    g.Late report.phase d ∨ report.contains d.entity = true := by
  obtain ⟨_, -, hmissing⟩ := hb.missing x hx
  obtain ⟨-, -, hunmet⟩ := (hmissing d).mp hd
  cases he : g.get? d.entity with
  | none =>
    refine .inl fun e he' => ?_
    rw [he] at he'
    cases he'
  | some e =>
    obtain ⟨q, hq, hmet⟩ := hg.unmet hunmet he
    have hnext := (EntityGraph.nextPhase?_of_get? he).trans hq
    rcases Nat.lt_or_eq_of_le (Phase.le_iff.mp (hb.ahead _ q hnext)) with hlater | hsame
    · refine .inl fun e' he' => ?_
      obtain rfl := Option.some.inj (he.symm.trans he')
      exact Nat.lt_of_lt_of_le hlater (Phase.le_iff.mp hmet)
    · exact .inr ((hb.contains _).mpr (Phase.eq_of_number hsame ▸ hnext))

/-- Among finitely many, of whom each has a next one, some come back to themselves. -/
theorem exists_transGen_self {α : Type} {R : α → α → Prop} {ids : List α} (hne : ids ≠ [])
    (hnext : ∀ a ∈ ids, ∃ b ∈ ids, R a b) : ∃ a, Relation.TransGen R a a := by
  by_contra hnone
  let S := {a // a ∈ ids}
  let later (b a : S) : Prop := Relation.TransGen R a b
  have : Finite S := List.finite_toSet ids
  have : IsTrans S later := ⟨fun _ _ _ hba hcb => hcb.trans hba⟩
  have : Std.Irrefl later := ⟨fun a ha => hnone ⟨_, ha⟩⟩
  obtain ⟨a, ha⟩ := List.exists_mem_of_ne_nil ids hne
  obtain ⟨m, -, hmin⟩ := (Finite.wellFounded_of_trans_of_irrefl later).has_min
    Set.univ ⟨⟨a, ha⟩, trivial⟩
  obtain ⟨b, hb, hmb⟩ := hnext m.1 m.2
  exact hmin ⟨b, hb⟩ trivial (.single hmb)

/-- If nothing that is missed comes too late, stuck entities wait for each other in a circle. -/
theorem Blocked.circle (hb : Blocked g report) (hg : g.Exact)
    (hlate : ∀ x ∈ report.stuck, ∀ d ∈ x.missing, ¬g.Late report.phase d) :
    ∃ id, Relation.TransGen (Misses report.stuck) id id := by
  have hne : report.stuck.map Stuck.id ≠ [] := by simpa using hb.some_stuck
  refine exists_transGen_self hne fun id hid => ?_
  obtain ⟨x, hx, rfl⟩ := List.mem_map.mp hid
  obtain ⟨d, hd⟩ := List.exists_mem_of_ne_nil _ (hb.some_missing x hx)
  have hstuck := (hb.why hg hx hd).resolve_left (hlate x hx d hd)
  obtain ⟨y, hy, hentity⟩ := List.any_eq_true.mp hstuck
  have hentity : y.id = d.entity := eq_of_beq hentity
  exact ⟨d.entity, List.mem_map.mpr ⟨y, hy, hentity⟩, ⟨x, hx, rfl, d, hd, rfl⟩, y, hy, hentity⟩

/-! ## Runs -/

variable {σ ε : Type} {h : Host σ ε} {s t : σ} {calls : List (Call σ ε)}

theorem Tame.exact_finished (ht : h.Tame) {p : Phase} {id : EntityId} {s' : σ}
    (hs : (h.graph s).Exact) (hd : h.due p s id = true) (hr : h.run id p s = .ok () s') :
    (h.graph (h.finished p id s')).Exact := by
  have hedits := ht.edits_ok hr
  rw [ht.graph_finished]
  refine (hs.edits hedits).finish fun q hq => ?_
  have hnext := hedits.nextPhase? (h.lt_size_of_due hd) hq
  rw [(due_iff.mp hd).1] at hnext
  exact (Option.some.inj hnext).symm

theorem Path.exact (ht : h.Tame) (hp : Path h s calls t) (hs : (h.graph s).Exact) :
    (h.graph t).Exact := by
  induction hp with
  | nil => exact hs
  | snoc id p _ hd hr ih => exact ht.exact_finished ih hd hr

theorem Track.exact (ht : h.Tame) (hk : Track h s calls t) (hs : (h.graph s).Exact) :
    (h.graph t).Exact := by
  cases hk with
  | path hp => exact hp.exact ht hs
  | failed id p hp _ hr => exact (hp.exact ht hs).edits (ht.edits_error hr)

/-- The graph that a run ends with is exact, however the run ends. -/
theorem Tame.exact_runPhases (ht : h.Tame) (hs : (h.graph s).Exact) :
    (h.graph (h.runPhases s).state).Exact := by
  rw [h.runPhases_state]
  exact (h.trace_track s).exact ht hs

/-- A run that ends with stuck entities says whose fault it is: each of them misses something,
and whatever one misses comes too late or is stuck as well; and if nothing comes too late, some
of them wait for each other in a circle. -/
theorem Sticks.why (ht : h.Tame) (hs : (h.graph s).Exact)
    (hsticks : h.Sticks (h.trace s) (h.runPhases s)) :
    ∃ t report, h.runPhases s = .error (h.unresolved t report) t ∧
      (∀ x ∈ report.stuck, x.missing ≠ [] ∧ ∀ d ∈ x.missing,
        (h.graph t).Late report.phase d ∨ report.contains d.entity = true) ∧
      ((∀ x ∈ report.stuck, ∀ d ∈ x.missing, ¬(h.graph t).Late report.phase d) →
        ∃ id, Relation.TransGen (Misses report.stuck) id id) := by
  obtain ⟨t, report, hr, -, hb⟩ := hsticks
  have hexact := ht.exact_runPhases hs
  rw [hr] at hexact
  exact ⟨t, report, hr, fun x hx => ⟨hb.some_missing x hx, fun d hd => hb.why hexact hx hd⟩,
    hb.circle hexact⟩

end Host

end Staged
