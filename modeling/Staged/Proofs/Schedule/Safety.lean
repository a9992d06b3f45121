/-
  Staged.Proofs.Schedule.Safety — phases run when they may, once, and in order.

  The hosts are those that change the graph by edits only (`Host.Tame`); they may edit
  any entity, at any call, whether the call fails or not. Nothing is assumed of the graph
  a run begins with, and a host may add more entities than it promised: the bound on
  passes only cuts the run short.

  Main statement: `trace_safe`. A call is made only when it is the entity's turn; the
  phases called for an entity are those that were ahead of it, from the first on; nothing
  is called after a completion by hand; phases do not go back; and between any two moments
  of a run no status goes down, so what a dependency asks for goes on to hold.
-/

import Staged.Proofs.Schedule.Run

namespace Staged

variable {σ ε : Type}

/-! ## What the statements speak of -/

def phasesOf (calls : List (Call σ ε)) (id : EntityId) : List Phase :=
  (calls.filter (·.id == id)).map Call.phase

/-- How many phases of an entity are behind it; none if it is not there. -/
def EntityGraph.doneOf (g : EntityGraph) (id : EntityId) : Nat :=
  ((g.get? id).map Entity.done).getD 0

/-- The phases of an entity's kind after the first `n`; none if it is not there. -/
def EntityGraph.phasesAfter (g : EntityGraph) (n : Nat) (id : EntityId) : List Phase :=
  ((g.get? id).map (·.kind.phases.drop n)).getD []

structure Keeps (g g' : EntityGraph) : Prop where
  status : ∀ id e, g.get? id = some e →
    ∃ e', g'.get? id = some e' ∧ e.status.rank ≤ e'.status.rank
  isSatisfied : ∀ d, g.isSatisfied d = true → g'.isSatisfied d = true

namespace Host

structure Tame (h : Host σ ε) : Prop where
  graph_setGraph : ∀ s g, h.graph (h.setGraph s g) = g
  run_edits : ∀ id p s, Edits (h.graph s) (h.graph (h.run id p s).state)

/-- The graph at every moment that a run from `s` shows: at the start, before and after
every call, and at the end. A phase counts as run between its call and the next. -/
def moments (h : Host σ ε) (s : σ) (calls : List (Call σ ε)) (t : σ) : List EntityGraph :=
  h.graph s :: calls.flatMap (fun c => [h.graph c.before, h.graph c.after]) ++ [h.graph t]

variable {h : Host σ ε}

theorem due_iff {p : Phase} {s : σ} {id : EntityId} :
    h.due p s id = true ↔
      (h.graph s).nextPhase? id = some p ∧ (h.graph s).isReady id p = true := by
  simp [due]

theorem Tame.graph_finished (ht : h.Tame) (p : Phase) (id : EntityId) (s : σ) :
    h.graph (h.finished p id s) = (h.graph s).modify id (Entity.finish p) :=
  ht.graph_setGraph ..

theorem Tame.edits_ok (ht : h.Tame) {p : Phase} {id : EntityId} {s s' : σ}
    (hr : h.run id p s = .ok () s') : Edits (h.graph s) (h.graph s') := by
  simpa [hr, EStateM.Result.state] using ht.run_edits id p s

theorem Tame.edits_error (ht : h.Tame) {p : Phase} {id : EntityId} {s s' : σ} {e : ε}
    (hr : h.run id p s = .error e s') : Edits (h.graph s) (h.graph s') := by
  simpa [hr, EStateM.Result.state] using ht.run_edits id p s

/-! ## The calls of a run, whatever their phases -/

inductive Path (h : Host σ ε) : σ → List (Call σ ε) → σ → Prop
  | nil (s : σ) : Path h s [] s
  | snoc {s t t' : σ} {calls : List (Call σ ε)} (id : EntityId) (p : Phase) :
      Path h s calls t → h.due p t id = true → h.run id p t = .ok () t' →
      Path h s (calls ++ [⟨id, p, t, t', none⟩]) (h.finished p id t')

inductive Track (h : Host σ ε) : σ → List (Call σ ε) → σ → Prop
  | path {s t : σ} {calls : List (Call σ ε)} : Path h s calls t → Track h s calls t
  | failed {s t t' : σ} {calls : List (Call σ ε)} {e : ε} (id : EntityId) (p : Phase) :
      Path h s calls t → h.due p t id = true → h.run id p t = .error e t' →
      Track h s (calls ++ [⟨id, p, t, t', some e⟩]) t'

theorem Path.ran {p : Phase} {s t u : σ} {calls more : List (Call σ ε)} (hp : Path h s calls t)
    (hr : h.Ran p t more u) : Path h s (calls ++ more) u := by
  induction hr with
  | nil => simpa using hp
  | snoc id _ hd hr ih => rw [← List.append_assoc]; exact ih.snoc id p hd hr

theorem Goes.track {Q : Phase → σ → Prop} {ps : List Phase} {s : σ} {calls : List (Call σ ε)}
    {r : EStateM.Result ε σ Unit} (hg : h.Goes Q ps s calls r) :
    ∀ {s0 : σ} {before : List (Call σ ε)}, Path h s0 before s →
      Track h s0 (before ++ calls) r.state := by
  induction hg with
  | ended s => intro s0 before hp; rw [List.append_nil]; exact .path hp
  | phase hr _ _ _ ih =>
    intro s0 before hp
    rw [← List.append_assoc]
    exact ih (hp.ran hr)
  | failed hf =>
    intro s0 before hp
    obtain ⟨calls, id, t, hb, hd, hr, rfl⟩ := hf
    rw [← List.append_assoc]
    exact .failed id _ (hp.ran hb) hd hr
  | stuck hr _ _ => intro s0 before hp; exact .path (hp.ran hr)

theorem trace_track (h : Host σ ε) (s : σ) : Track h s (h.trace s) (h.outcome s).state.host := by
  obtain ⟨hg, -⟩ := h.trace_goes (Q := fun _ _ => True) (fun _ _ _ _ => trivial) s
  have := hg.track (.nil s)
  rw [List.nil_append] at this
  cases ho : h.outcome s <;> rw [ho] at this <;> exact this

/-! ## Turns -/

theorem Track.due {s t : σ} {calls : List (Call σ ε)} (hk : Track h s calls t) :
    ∀ c ∈ calls, h.due c.phase c.before c.id = true := by
  have path {s t : σ} {calls : List (Call σ ε)} (hp : Path h s calls t) :
      ∀ c ∈ calls, h.due c.phase c.before c.id = true := by
    induction hp with
    | nil => simp
    | snoc id p _ hd _ ih =>
      intro c hc
      rcases List.mem_append.mp hc with hc | hc
      · exact ih c hc
      · rw [List.mem_singleton.mp hc]; exact hd
  cases hk with
  | path hp => exact path hp
  | failed id p hp hd _ =>
    intro c hc
    rcases List.mem_append.mp hc with hc | hc
    · exact path hp c hc
    · rw [List.mem_singleton.mp hc]; exact hd

/-! ## Moments -/

theorem later_snoc {l : List EntityGraph} {g g' : EntityGraph}
    (hl : (l ++ [g]).Pairwise EntityGraph.Later) (hg : g.Later g') :
    (l ++ [g] ++ [g']).Pairwise EntityGraph.Later := by
  refine List.pairwise_append.mpr ⟨hl, List.pairwise_singleton .., fun a ha b hb => ?_⟩
  rw [List.mem_singleton.mp hb]
  rcases List.mem_append.mp ha with ha | ha
  · exact ((List.pairwise_append.mp hl).2.2 a ha g (List.mem_singleton.mpr rfl)).trans hg
  · rw [List.mem_singleton.mp ha]; exact hg

theorem moments_snoc (s t : σ) (calls : List (Call σ ε)) (c : Call σ ε) :
    h.moments s (calls ++ [c]) t =
      h.moments s calls c.before ++ [h.graph c.after] ++ [h.graph t] := by
  simp [moments, List.flatMap_append]

theorem Path.later (ht : h.Tame) {s t : σ} {calls : List (Call σ ε)} (hp : Path h s calls t) :
    (h.moments s calls t).Pairwise EntityGraph.Later := by
  induction hp with
  | nil => simpa [moments] using EntityGraph.Later.refl _
  | snoc id p _ _ hr ih =>
    rw [moments_snoc, ht.graph_finished]
    have hcall := later_snoc ih (ht.edits_ok hr).later
    exact later_snoc hcall (EntityGraph.later_finish _ id p)

theorem Track.later (ht : h.Tame) {s t : σ} {calls : List (Call σ ε)} (hk : Track h s calls t) :
    (h.moments s calls t).Pairwise EntityGraph.Later := by
  cases hk with
  | path hp => exact hp.later ht
  | failed id p hp _ hr =>
    rw [moments_snoc]
    have hcall := later_snoc (hp.later ht) (ht.edits_error hr).later
    exact later_snoc hcall (.refl _)

/-! ## Each phase once -/

/-- After some calls, those made for an entity are the first of the phases that were ahead
of it in `g0`; while it is unfinished, there are as many as phases were put behind it. -/
structure InStep (g0 : EntityGraph) (calls : List (Call σ ε)) (g : EntityGraph) : Prop where
  absent : ∀ id, g.get? id = none → phasesOf calls id = []
  within : ∀ id e, g.get? id = some e → phasesOf calls id <+: e.kind.phases.drop (g0.doneOf id)
  count : ∀ id e, g.get? id = some e → e.nextPhase? ≠ none →
    e.done = g0.doneOf id + (phasesOf calls id).length

theorem inStep_start (g0 : EntityGraph) : InStep g0 ([] : List (Call σ ε)) g0 where
  absent _ _ := rfl
  within _ _ _ := List.nil_prefix
  count id e he _ := by simp [EntityGraph.doneOf, he, phasesOf]

theorem phasesOf_snoc_self (calls : List (Call σ ε)) (c : Call σ ε) :
    phasesOf (calls ++ [c]) c.id = phasesOf calls c.id ++ [c.phase] := by
  simp [phasesOf]

theorem phasesOf_snoc_other (calls : List (Call σ ε)) (c : Call σ ε) {id : EntityId}
    (hne : c.id ≠ id) : phasesOf (calls ++ [c]) id = phasesOf calls id := by
  simp [phasesOf, hne]

/-- The phase that is next continues the phases called so far. -/
theorem InStep.next {g0 g : EntityGraph} {calls : List (Call σ ε)} (hi : InStep g0 calls g)
    {id : EntityId} {e : Entity} {p : Phase} (he : g.get? id = some e)
    (hp : e.nextPhase? = some p) :
    phasesOf calls id ++ [p] <+: e.kind.phases.drop (g0.doneOf id) := by
  have hc := hi.count id e he (by simp [hp])
  obtain ⟨rest, hrest⟩ := hi.within id e he
  have hat : (e.kind.phases.drop (g0.doneOf id))[(phasesOf calls id).length]? = some p := by
    rw [List.getElem?_drop, ← hc]; exact hp
  rw [← hrest, List.getElem?_append_right (Nat.le_refl _), Nat.sub_self] at hat
  cases rest with
  | nil => simp at hat
  | cons q rest =>
    simp only [List.getElem?_cons_zero, Option.some.injEq] at hat
    exact ⟨rest, by rw [← hrest, hat]; simp⟩

/-- After a call whose edits are done: only the called entity has one more, which is not
counted yet. -/
theorem InStep.called {g0 g g' : EntityGraph} {calls : List (Call σ ε)} (hi : InStep g0 calls g)
    (c : Call σ ε) (hd : g.nextPhase? c.id = some c.phase) (hg : Edits g g')
    (hnew : ∀ id, g.get? id = none → g0.doneOf id = 0) :
    (∀ id, g'.get? id = none → phasesOf (calls ++ [c]) id = []) ∧
    (∀ id e', g'.get? id = some e' →
      phasesOf (calls ++ [c]) id <+: e'.kind.phases.drop (g0.doneOf id) ∧
      (e'.nextPhase? ≠ none → e'.done + (if c.id = id then 1 else 0) =
        g0.doneOf id + (phasesOf (calls ++ [c]) id).length)) := by
  obtain ⟨ec, hec, hnext⟩ := EntityGraph.get?_of_nextPhase? hd
  refine ⟨fun id hid => ?_, fun id e' he' => ?_⟩
  · cases hg' : g.get? id with
    | some e =>
      obtain ⟨e', he', -⟩ := hg.later id e hg'
      rw [hid] at he'
      cases he'
    | none =>
      have hne : c.id ≠ id := fun h => by rw [← h, hec] at hg'; cases hg'
      rw [phasesOf_snoc_other calls c hne]
      exact hi.absent id hg'
  · by_cases hid : c.id = id
    · subst hid
      rcases hg.edited _ e' he' with ⟨e, he, hk, hdone⟩ | ⟨hnone, -⟩
      · rw [hec] at he
        cases he
        rw [phasesOf_snoc_self, hk]
        refine ⟨hi.next hec hnext, fun hun => ?_⟩
        have hc := hi.count _ ec hec (by simp [hnext])
        rcases hdone with hdone | hdone
        · simp [hdone, hc, Nat.add_assoc]
        · exact absurd hdone hun
      · rw [hec] at hnone; cases hnone
    · rw [phasesOf_snoc_other calls c hid]
      simp only [hid, if_false, Nat.add_zero]
      rcases hg.edited _ e' he' with ⟨e, he, hk, hdone⟩ | ⟨hnone, hdone⟩
      · rw [hk]
        refine ⟨hi.within id e he, fun hun => ?_⟩
        rcases hdone with hdone | hdone
        · rw [hdone]
          refine hi.count id e he fun hn => hun ?_
          rw [Entity.nextPhase?_eq hk hdone, hn]
        · exact absurd hdone hun
      · rw [hi.absent id hnone, hnew id hnone]
        refine ⟨List.nil_prefix, fun hun => ?_⟩
        rcases hdone with hdone | hdone
        · simpa using hdone
        · exact absurd hdone hun

theorem Path.later_end (ht : h.Tame) {s t : σ} {calls : List (Call σ ε)}
    (hp : Path h s calls t) : (h.graph s).Later (h.graph t) :=
  (List.pairwise_cons.mp (hp.later ht)).1 _ (by simp)

theorem doneOf_new {g0 g : EntityGraph} (hl : g0.Later g) (id : EntityId)
    (hid : g.get? id = none) : g0.doneOf id = 0 := by
  unfold EntityGraph.doneOf
  cases h0 : g0.get? id with
  | none => rfl
  | some e => obtain ⟨e', he', -⟩ := hl id e h0; rw [hid] at he'; cases he'

theorem Path.inStep (ht : h.Tame) {s t : σ} {calls : List (Call σ ε)} (hp : Path h s calls t) :
    InStep (h.graph s) calls (h.graph t) := by
  induction hp with
  | nil => exact inStep_start _
  | @snoc t t' calls id p hp hd hr ih =>
    have hnext := (due_iff.mp hd).1
    have hlt := h.lt_size_of_due hd
    have hed := ht.edits_ok hr
    obtain ⟨hnone, hsome⟩ := ih.called ⟨id, p, t, t', none⟩ hnext hed (doneOf_new (hp.later_end ht))
    rw [ht.graph_finished]
    refine ⟨fun j hj => hnone j ?_, fun j e he => ?_, fun j e he hun => ?_⟩
    · rw [EntityGraph.get?_modify] at hj
      split at hj
      · simpa using hj
      · exact hj
    · rw [EntityGraph.get?_modify] at he
      split at he
      · obtain ⟨e', he', rfl⟩ := Option.map_eq_some_iff.mp he
        rw [Entity.kind_finish]
        exact (hsome j e' he').1
      · exact (hsome j e he).1
    · rw [EntityGraph.get?_modify] at he
      split at he
      · rename_i hid
        subst hid
        obtain ⟨e', he', rfl⟩ := Option.map_eq_some_iff.mp he
        -- unfinished even now, so the call did not complete it and `p` was still next
        obtain ⟨q, hq⟩ := Option.ne_none_iff_exists'.mp hun
        obtain ⟨r, hr', -, -⟩ := Entity.nextPhase?_finish hq
        have hstill := hed.nextPhase? hlt ((EntityGraph.nextPhase?_of_get? he').trans hr')
        have hrp : r = p := by rw [hnext] at hstill; exact (Option.some.inj hstill).symm
        have := (hsome id e' he').2 (by simp [hr'])
        rw [Entity.done_finish, if_pos (hrp ▸ hr')]
        simpa using this
      · rename_i hid
        simpa [hid] using (hsome j e he).2 hun

theorem Track.within (ht : h.Tame) {s t : σ} {calls : List (Call σ ε)} (hk : Track h s calls t)
    (id : EntityId) :
    phasesOf calls id <+: (h.graph t).phasesAfter ((h.graph s).doneOf id) id := by
  cases hk with
  | path hp =>
    cases ht' : (h.graph t).get? id with
    | none => simp [(hp.inStep ht).absent id ht']
    | some e => simpa [EntityGraph.phasesAfter, ht'] using (hp.inStep ht).within id e ht'
  | @failed u _ calls e j p hp hd hr =>
    obtain ⟨hnone, hsome⟩ := (hp.inStep ht).called ⟨j, p, u, t, some e⟩ (due_iff.mp hd).1
      (ht.edits_error hr) (doneOf_new (hp.later_end ht))
    cases ht' : (h.graph t).get? id with
    | none => simp [hnone id ht']
    | some e' => simpa [EntityGraph.phasesAfter, ht'] using (hsome id e' ht').1

/-! ## Phases in order -/

theorem Ran.phase {p : Phase} {s t : σ} {calls : List (Call σ ε)} (hr : h.Ran p s calls t) :
    ∀ c ∈ calls, c.phase = p := by
  induction hr with
  | nil => simp
  | snoc id _ _ _ ih =>
    intro c hc
    rcases List.mem_append.mp hc with hc | hc
    · exact ih c hc
    · rw [List.mem_singleton.mp hc]

theorem Fails.phase {p : Phase} {s s' : σ} {calls : List (Call σ ε)} {e : ε}
    (hf : h.Fails p s calls e s') : ∀ c ∈ calls, c.phase = p := by
  obtain ⟨before, id, t, hb, -, -, rfl⟩ := hf
  intro c hc
  rcases List.mem_append.mp hc with hc | hc
  · exact hb.phase c hc
  · rw [List.mem_singleton.mp hc]

theorem ordered_of_phase {p : Phase} {calls : List (Call σ ε)} (hc : ∀ c ∈ calls, c.phase = p) :
    calls.Pairwise fun a b => a.phase.le b.phase = true :=
  List.pairwise_of_forall_mem_list fun a ha b hb => by rw [hc a ha, hc b hb]; exact p.le_refl

theorem Goes.ordered {Q : Phase → σ → Prop} {ps : List Phase} {s : σ} {calls : List (Call σ ε)}
    {r : EStateM.Result ε σ Unit} (hg : h.Goes Q ps s calls r)
    (hps : ps.Pairwise fun a b => a.le b = true) :
    (∀ c ∈ calls, c.phase ∈ ps) ∧ calls.Pairwise fun a b => a.phase.le b.phase = true := by
  have one {p : Phase} {ps : List Phase} {calls : List (Call σ ε)}
      (hc : ∀ c ∈ calls, c.phase = p) : ∀ c ∈ calls, c.phase ∈ p :: ps :=
    fun c h => hc c h ▸ List.mem_cons_self ..
  induction hg with
  | ended => exact ⟨by simp, .nil⟩
  | phase hr _ _ _ ih =>
    obtain ⟨hp, hps⟩ := List.pairwise_cons.mp hps
    obtain ⟨hmem, hord⟩ := ih hps
    have hc := hr.phase
    refine ⟨fun c h => ?_, List.pairwise_append.mpr ⟨ordered_of_phase hc, hord, ?_⟩⟩
    · rcases List.mem_append.mp h with h | h
      · exact one hc c h
      · exact List.mem_cons_of_mem _ (hmem c h)
    · intro a ha b hb
      rw [hc a ha]
      exact hp _ (hmem b hb)
  | failed hf => exact ⟨one hf.phase, ordered_of_phase hf.phase⟩
  | stuck hr => exact ⟨one hr.phase, ordered_of_phase hr.phase⟩

end Host

theorem EntityGraph.Later.keeps {g g' : EntityGraph} (hl : g.Later g') : Keeps g g' := by
  refine ⟨fun id e he => ?_, fun d hd => hl.isSatisfied hd⟩
  obtain ⟨e', he', hl'⟩ := hl id e he
  exact ⟨e', he', hl'.status⟩

namespace Host

variable {h : Host σ ε}

/-! ## Completion by hand -/

/-- A call made after another one sees a later graph than the other left. -/
theorem Track.later_after (ht : h.Tame) {s t : σ} {before after : List (Call σ ε)}
    {c c' : Call σ ε} (hk : Track h s (before ++ c :: after) t) (hc' : c' ∈ after) :
    (h.graph c.after).Later (h.graph c'.before) := by
  have hl := hk.later ht
  simp only [moments, List.flatMap_append, List.flatMap_cons, List.cons_append,
    List.append_assoc, List.nil_append] at hl
  have hl := (List.pairwise_append.mp (List.pairwise_cons.mp hl).2).2.1
  refine (List.pairwise_cons.mp (List.pairwise_cons.mp hl).2).1 _ ?_
  exact List.mem_append_left _ (List.mem_flatMap.mpr ⟨c', hc', by simp⟩)

/-- An entity completed by hand during a call is not called again. -/
theorem Track.completed (ht : h.Tame) {s t : σ} {before after : List (Call σ ε)} {c : Call σ ε}
    (hk : Track h s (before ++ c :: after) t) {id : EntityId} {g : EntityGraph}
    (hid : (g.get? id).isSome = true)
    (hafter : Edits (g.modify id Entity.completeNow) (h.graph c.after)) :
    ∀ c' ∈ after, c'.id ≠ id := by
  intro c' hc' heq
  have hdue := hk.due c' (by simp [hc'])
  have hnext := (due_iff.mp hdue).1
  rw [heq] at hnext
  have hl := hafter.later.trans (hk.later_after ht hc')
  obtain ⟨e, he⟩ := Option.isSome_iff_exists.mp hid
  obtain ⟨e', he', hl'⟩ := hl id e.completeNow (by simp [he])
  rw [EntityGraph.nextPhase?_of_get? he'] at hnext
  obtain ⟨q, hq, -⟩ := hl'.next _ hnext
  simp at hq

/-! ## Safety -/

/-- Whatever a tame host does, from whatever state: phases run when they may, once, and in
order, and nothing that was reached is lost. -/
theorem trace_safe (h : Host σ ε) (ht : h.Tame) (s : σ) :
    (∀ c ∈ h.trace s, (h.graph c.before).nextPhase? c.id = some c.phase ∧
      ∀ e, (h.graph c.before).get? c.id = some e → ∀ d ∈ e.deps, d.phase.le c.phase = true →
        (h.graph c.before).isSatisfied d = true) ∧
    (∀ id, (phasesOf (h.trace s) id).Nodup ∧ phasesOf (h.trace s) id <+:
      (h.graph (h.runPhases s).state).phasesAfter ((h.graph s).doneOf id) id) ∧
    (∀ before c after, h.trace s = before ++ c :: after →
      ∀ id g, (g.get? id).isSome = true → Edits (h.graph c.before) g →
        Edits (g.modify id Entity.completeNow) (h.graph c.after) → ∀ c' ∈ after, c'.id ≠ id) ∧
    (h.trace s).Pairwise (fun a b => a.phase.le b.phase = true) ∧
    (h.moments s (h.trace s) (h.runPhases s).state).Pairwise Keeps := by
  have hk := h.trace_track s
  rw [← h.runPhases_state] at hk
  obtain ⟨hg, -⟩ := h.trace_goes (Q := fun _ _ => True) (fun _ _ _ _ => trivial) s
  refine ⟨fun c hc => ?_, fun id => ⟨?_, hk.within ht id⟩, ?_, (hg.ordered (by decide)).2,
    (hk.later ht).imp EntityGraph.Later.keeps⟩
  · obtain ⟨hnext, hready⟩ := due_iff.mp (hk.due c hc)
    refine ⟨hnext, fun e he d hd hle => ?_⟩
    simp only [EntityGraph.isReady, EntityGraph.depsFor, he, Option.map_some, Option.getD_some,
      List.all_eq_true, List.mem_filter] at hready
    exact hready d ⟨hd, hle⟩
  · have hw := (hk.within ht id).sublist
    refine hw.nodup ?_
    unfold EntityGraph.phasesAfter
    cases (h.graph (h.runPhases s).state).get? id with
    | none => exact .nil
    | some e =>
      refine ((List.drop_sublist _ _).nodup ?_)
      exact e.kind.phases_increasing.imp fun hlt heq => by rw [heq] at hlt; omega
  · intro before c after htrace id g hid _ hafter
    exact (htrace ▸ hk : Track h s (before ++ c :: after) _).completed ht hid hafter

/-- A host whose call for an entity completes the one after it. -/
def completer : Host EntityGraph Unit where
  graph g := g
  setGraph _ g := g
  run id _ := modify fun g => g.modify (id + 1) Entity.completeNow
  unresolved _ _ := ()

theorem completer_tame : completer.Tame :=
  ⟨fun _ _ => rfl, fun id _ g => .single (.complete g (id + 1))⟩

/-- Of two functions, the second is completed while the first runs and is never called. -/
theorem trace_safe_completer :
    let g : EntityGraph := ⟨#[⟨none, .function, 0, .pending, 0, [], default⟩,
      ⟨none, .function, 0, .pending, 0, [], default⟩]⟩
    completer.Tame ∧
      (completer.trace g).map (fun c => (c.id, c.phase)) = [(0, .one), (0, .three)] ∧
      (completer.moments g (completer.trace g) (completer.runPhases g).state).Pairwise Keeps :=
  ⟨completer_tame, rfl, (trace_safe completer completer_tame _).2.2.2.2⟩

end Host

end Staged
