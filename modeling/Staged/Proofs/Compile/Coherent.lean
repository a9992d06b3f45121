/-
  Staged.Proofs.Compile.Coherent — what holds between two calls of a compilation.

  Declarations and entities correspond. An entity that has not begun is pending; one that
  has begun and is not finished has a symbol. Every item of the module tree has a symbol
  or belongs to an entity that has not begun and that no guard decides on. A compile-time
  function that may be called is finished, is what its declaration says, and what it
  depends on is ready (`Outer.Coherent`).

  `Outer.Moves` lists what a successful call does: skip the declaration, give it a symbol,
  lower what is left of it, or bring names. Counted as run, each of them leaves the state
  coherent (`Coherent.moves`).
-/

import Staged.Proofs.Graph
import Staged.Proofs.Lowering.Declare

namespace Staged

namespace EntityGraph

/-- An entity has a dependency on another one that is tagged with a phase. -/
def Records (g : EntityGraph) (j y : EntityId) (p : Phase) : Prop :=
  ∃ e, g.get? j = some e ∧ ∃ d ∈ e.deps, d.entity = y ∧ d.phase = p

def Retains (g g' : EntityGraph) : Prop := ∀ j y p, g.Records j y p → g'.Records j y p

structure Regathered (g g' : EntityGraph) : Prop where
  size : g'.size = g.size
  entity : ∀ j e, g.get? j = some e →
    ∃ deps, g'.get? j = some { e with deps } ∧ (e.nextPhase? = none → deps = e.deps)
  retains : g.Retains g'

theorem Retains.refl (g : EntityGraph) : g.Retains g := fun _ _ _ h => h

theorem Retains.trans {g g' g'' : EntityGraph} (h : g.Retains g') (h' : g'.Retains g'') :
    g.Retains g'' := fun j y p hr => h' j y p (h j y p hr)

/-- An entity changes, but not what it depends on. -/
theorem retains_modify (g : EntityGraph) (id : EntityId) {f : Entity → Entity}
    (hf : ∀ e, (f e).deps = e.deps) : g.Retains (g.modify id f) := by
  rintro j y p ⟨e, he, d, hd, hy, hp⟩
  by_cases hj : id = j
  · refine ⟨f e, ?_, d, (hf e).symm ▸ hd, hy, hp⟩
    rw [get?_modify, if_pos hj, he]
    rfl
  · refine ⟨e, ?_, d, hd, hy, hp⟩
    rw [get?_modify, if_neg hj, he]

end EntityGraph

namespace Outer

/-- An item of an entity that has a symbol, or that has not begun and has no guard. -/
def Declared (ω : Outer) (i : Item) : Prop :=
  ∃ e site, ω.entities.get? i.entity = some e ∧ ω.sites[i.entity]? = some site ∧
    ((ω.symbols.lookup i.entity).isSome = true ∨ e.done = 0 ∧ site.decl.guard = none)

structure Coherent (ω : Outer) : Prop where
  size : ω.sites.size = ω.entities.size
  kind : ∀ id site e, ω.sites[id]? = some site → ω.entities.get? id = some e →
    e.kind = site.decl.body.kind
  pending : ∀ id e, ω.entities.get? id = some e → e.done = 0 → e.status = .pending
  begun : ∀ id e, ω.entities.get? id = some e → e.done ≠ 0 → e.nextPhase? ≠ none →
    (ω.symbols.lookup id).isSome = true
  items : ω.modules.Fits ω.Declared
  callable : ∀ id f, ω.symbols.lookup id = some (.prerunFunction f) →
    ∃ site d, ω.sites[id]? = some site ∧ site.decl.body = .prerunFunction d ∧
      d.Becomes site.module (.prerunFunction f) ∧ ω.entities.isReady id .one = true ∧
      ω.entities.nextPhase? id = none

/-! ## Calls -/

/-- The tree with the name of a guarded declaration, if it has one. -/
def Names (ω : Outer) (id : EntityId) (site : Site) (t : ModuleTree) : Prop :=
  t = ω.modules ∨ site.decl.guard ≠ none ∧ site.decl.body.name? ≠ none ∧
    ∃ item : Item, item.entity = id ∧ item.vis.type? = none ∧
      ω.modules.addItem site.module item = .ok t

inductive Runs (ω : Outer) (id : EntityId) (site : Site) (phase : Phase) : Outer → Prop
  | defined (t : ModuleTree) (y : Symbol) (log : Array (EntityId × Phase)) :
      phase = site.decl.body.kind.firstPhase → site.decl.body.kind ≠ .bring →
      ω.Names id site t → site.decl.body.Becomes site.module y →
      Runs ω id site phase { ω with modules := t, symbols := (id, y) :: ω.symbols, log }
  | continued (log : Array (EntityId × Phase)) : phase ≠ site.decl.body.kind.firstPhase →
      Runs ω id site phase { ω with log }
  | brought (t : ModuleTree) (g : EntityGraph) (pendingBrings : List (ModId × EntityId))
      (log : Array (EntityId × Phase)) : site.decl.body.kind = .bring →
      (∀ P, ω.modules.Fits P → t.Fits P) → ω.entities.Regathered g →
      Runs ω id site phase
        { ω with
          modules := t, entities := g, symbols := (id, .bring) :: ω.symbols, pendingBrings, log }

inductive Skips (ω : Outer) (id : EntityId) (site : Site) (phase : Phase) : Outer → Prop
  | skipped (log : Array (EntityId × Phase)) : site.decl.guard ≠ none →
      phase = site.decl.body.kind.firstPhase →
      Skips ω id site phase
        { ω with entities := ω.entities.modify id Entity.completeNow, log }

def Moves (ω : Outer) (id : EntityId) (site : Site) (phase : Phase) (ω' : Outer) : Prop :=
  ω.Runs id site phase ω' ∨ ω.Skips id site phase ω'

def finish (ω : Outer) (id : EntityId) (phase : Phase) : Outer :=
  { ω with entities := ω.entities.modify id (Entity.finish phase) }

/-! ## One entity moves -/

structure Moved (ω ω' : Outer) (id : EntityId) : Prop where
  sites : ω'.sites = ω.sites
  size : ω'.entities.size = ω.entities.size
  later : ω.entities.Later ω'.entities
  begun : ∀ e, ω'.entities.get? id = some e → e.done ≠ 0
  symbol : ω'.entities.nextPhase? id ≠ none → (ω'.symbols.lookup id).isSome = true
  entity : ∀ j e, j ≠ id → ω.entities.get? j = some e →
    ∃ deps, ω'.entities.get? j = some { e with deps } ∧ (e.nextPhase? = none → deps = e.deps)
  lookup : ∀ j, j ≠ id → ω'.symbols.lookup j = ω.symbols.lookup j

variable {ω ω' : Outer} {id : EntityId}

theorem Moved.declared (hm : ω.Moved ω' id)
    (hid : ∀ i, i.entity = id → ω.Declared i → (ω'.symbols.lookup id).isSome = true) {i : Item}
    (hi : ω.Declared i) : ω'.Declared i := by
  obtain ⟨e, site, he, hsite, h⟩ := hi
  by_cases hj : i.entity = id
  · obtain ⟨e', he', -⟩ := hm.later _ _ he
    refine ⟨e', site, he', by rw [hm.sites, hsite], .inl ?_⟩
    rw [hj]
    exact hid i hj ⟨e, site, he, hsite, h⟩
  · obtain ⟨deps, he', -⟩ := hm.entity _ _ hj he
    refine ⟨_, site, he', by rw [hm.sites, hsite], ?_⟩
    rw [hm.lookup _ hj]
    exact h

theorem Moved.get? (hm : ω.Moved ω' id) {j : EntityId} {e' : Entity}
    (he' : ω'.entities.get? j = some e') : ∃ e, ω.entities.get? j = some e ∧ e.Later e' := by
  have hlt := EntityGraph.lt_size_of_get? he'
  rw [hm.size] at hlt
  obtain ⟨e'', he'', hl⟩ := hm.later j _ (Array.getElem?_eq_getElem hlt)
  rw [he'] at he''
  cases he''
  exact ⟨_, Array.getElem?_eq_getElem hlt, hl⟩

/-- Another entity is as it was, but for its dependencies. -/
theorem Moved.other (hm : ω.Moved ω' id) {j : EntityId} {e' : Entity} (hj : j ≠ id)
    (he' : ω'.entities.get? j = some e') :
    ∃ e deps, ω.entities.get? j = some e ∧ e' = { e with deps } ∧
      (e.nextPhase? = none → deps = e.deps) := by
  obtain ⟨e, he, -⟩ := hm.get? he'
  obtain ⟨deps, he'', hdeps⟩ := hm.entity j e hj he
  rw [he'] at he''
  cases he''
  exact ⟨e, deps, he, rfl, hdeps⟩

/-- What a finished entity depends on goes on to be ready. -/
theorem Moved.isReady (hm : ω.Moved ω' id) {j : EntityId} {p : Phase} (hj : j ≠ id)
    (hn : ω.entities.nextPhase? j = none) (hr : ω.entities.isReady j p = true) :
    ω'.entities.isReady j p = true := by
  have hdeps : ω'.entities.depsFor j p = ω.entities.depsFor j p := by
    unfold EntityGraph.depsFor
    cases he : ω.entities.get? j with
    | some e =>
      obtain ⟨deps, he', hsame⟩ := hm.entity j e hj he
      rw [EntityGraph.nextPhase?_of_get? he] at hn
      rw [he', hsame hn]
    | none =>
      cases he' : ω'.entities.get? j with
      | none => rfl
      | some e' =>
        obtain ⟨e, he'', -⟩ := hm.get? he'
        rw [he] at he''
        cases he''
  unfold EntityGraph.isReady at hr ⊢
  rw [hdeps, List.all_eq_true] at *
  exact fun d hd => hm.later.isSatisfied (hr d hd)

theorem Moved.coherent (hω : ω.Coherent) (hm : ω.Moved ω' id)
    (hitems : ω'.modules.Fits ω'.Declared)
    (hcall : ∀ f, ω'.symbols.lookup id = some (.prerunFunction f) →
      ∃ site d, ω.sites[id]? = some site ∧ site.decl.body = .prerunFunction d ∧
        d.Becomes site.module (.prerunFunction f) ∧ ω'.entities.isReady id .one = true ∧
        ω'.entities.nextPhase? id = none) : ω'.Coherent where
  size := by rw [hm.sites, hm.size, hω.size]
  kind j site e' hsite he' := by
    rw [hm.sites] at hsite
    obtain ⟨e, he, hl⟩ := hm.get? he'
    rw [hl.kind]
    exact hω.kind j site e hsite he
  pending j e' he' hd := by
    by_cases hj : j = id
    · subst hj
      exact absurd hd (hm.begun e' he')
    · obtain ⟨e, deps, he, rfl, -⟩ := hm.other hj he'
      exact hω.pending j e he hd
  begun j e' he' hd hn := by
    by_cases hj : j = id
    · subst hj
      exact hm.symbol (by rw [EntityGraph.nextPhase?_of_get? he']; exact hn)
    · obtain ⟨e, deps, he, rfl, -⟩ := hm.other hj he'
      rw [hm.lookup j hj]
      exact hω.begun j e he hd hn
  items := hitems
  callable j f hf := by
    rw [hm.sites]
    by_cases hj : j = id
    · subst hj
      exact hcall f hf
    · rw [hm.lookup j hj] at hf
      obtain ⟨site, d, hsite, hbody, hbecomes, hready, hnext⟩ := hω.callable j f hf
      refine ⟨site, d, hsite, hbody, hbecomes, hm.isReady hj hnext hready, ?_⟩
      cases he' : ω'.entities.get? j with
      | none => simp only [EntityGraph.nextPhase?, he']; rfl
      | some e' =>
        obtain ⟨e, deps, he, rfl, -⟩ := hm.other hj he'
        rw [EntityGraph.nextPhase?_of_get? he] at hnext
        rw [EntityGraph.nextPhase?_of_get? he']
        exact hnext

/-! ## Every call -/

end Outer

/-- The first phase is next exactly when nothing is behind an entity. -/
theorem Entity.done_eq_zero {e : Entity} {p : Phase} (hp : e.nextPhase? = some p) :
    e.done = 0 ↔ p = e.kind.firstPhase := by
  constructor
  · intro h0
    unfold Entity.nextPhase? at hp
    rw [h0] at hp
    exact (Option.some.inj hp).symm
  · rintro rfl
    refine Nat.eq_zero_of_not_pos fun hpos => ?_
    exact absurd (EntityKind.phases_lt (k := e.kind) (i := 0) rfl hp hpos) (Nat.lt_irrefl _)

theorem Entity.done_finish_ne_zero {e : Entity} {p : Phase} (hp : e.nextPhase? = some p) :
    (e.finish p).done ≠ 0 := by
  rw [Entity.done_finish, if_pos hp]
  exact Nat.succ_ne_zero _

theorem EntityGraph.depsFor_finish (g : EntityGraph) (id j : EntityId) (phase p : Phase) :
    (g.modify id (Entity.finish phase)).depsFor j p = g.depsFor j p := by
  unfold EntityGraph.depsFor
  rw [EntityGraph.get?_modify]
  split
  · rw [Option.map_map, show Entity.deps ∘ Entity.finish phase = Entity.deps from
      funext fun e => e.deps_finish phase]
  · rfl

theorem EntityGraph.isReady_finish {g : EntityGraph} {id j : EntityId} {phase p : Phase}
    (hr : g.isReady j p = true) : (g.modify id (Entity.finish phase)).isReady j p = true := by
  unfold EntityGraph.isReady at hr ⊢
  rw [EntityGraph.depsFor_finish]
  rw [List.all_eq_true] at hr ⊢
  exact fun d hd => (EntityGraph.later_finish g id phase).isSatisfied (hr d hd)

theorem EntityGraph.Regathered.later {g g' : EntityGraph} (h : g.Regathered g') : g.Later g' := by
  intro j e he
  obtain ⟨deps, he', -⟩ := h.entity j e he
  exact ⟨_, he', rfl, Nat.le_refl _, fun p hp => ⟨p, hp, p.le_refl⟩⟩

theorem EntityGraph.Regathered.refl (g : EntityGraph) : g.Regathered g :=
  ⟨rfl, fun _ e he => ⟨e.deps, he, fun _ => rfl⟩, .refl g⟩

namespace Outer

variable {ω : Outer} {id : EntityId} {site : Site} {phase : Phase}

/-- An entity whose phase counts as run has moved on, whatever was gathered meanwhile. -/
theorem moved_finish {g : EntityGraph} {ω' : Outer} (hg : ω.entities.Regathered g)
    (hnext : ω.entities.nextPhase? id = some phase) (hsites : ω'.sites = ω.sites)
    (hentities : ω'.entities = g.modify id (Entity.finish phase))
    (hlookup : ∀ j, j ≠ id → ω'.symbols.lookup j = ω.symbols.lookup j)
    (hsymbol : (ω'.symbols.lookup id).isSome = true) : ω.Moved ω' id where
  sites := hsites
  size := by rw [hentities, EntityGraph.size_modify, hg.size]
  later := by
    rw [hentities]
    exact hg.later.trans (EntityGraph.later_finish g id phase)
  begun e' he' := by
    obtain ⟨e, he, hp⟩ := EntityGraph.get?_of_nextPhase? hnext
    obtain ⟨deps, hge, -⟩ := hg.entity id e he
    rw [hentities, EntityGraph.get?_modify, if_pos rfl, hge] at he'
    cases he'
    exact Entity.done_finish_ne_zero hp
  symbol _ := hsymbol
  entity j e hj he := by
    rw [hentities, EntityGraph.get?_modify, if_neg (Ne.symm hj)]
    exact hg.entity j e he
  lookup := hlookup

theorem lookup_cons_ne {j : EntityId} {y : Symbol} {symbols : List (EntityId × Symbol)}
    (hj : j ≠ id) : List.lookup j ((id, y) :: symbols) = symbols.lookup j := by
  rw [List.lookup_cons, beq_false_of_ne hj]

/-- An entity that is completed by hand has begun, and nothing is next for it. -/
theorem skipped_of_get? {g : EntityGraph} {e' : Entity}
    (he' : ((g.modify id Entity.completeNow).modify id (Entity.finish phase)).get? id = some e') :
    e'.done ≠ 0 ∧ e'.nextPhase? = none := by
  simp only [EntityGraph.get?_modify, if_pos, Option.map_map, Option.map_eq_some_iff] at he'
  obtain ⟨e, -, rfl⟩ := he'
  have hnone : e.completeNow.nextPhase? ≠ some phase := by simp
  have hdone : (e.completeNow.finish phase).done = e.kind.phases.length := by
    rw [Entity.done_finish, if_neg hnone]
    rfl
  refine ⟨?_, ?_⟩
  · rw [Function.comp, hdone]
    exact Nat.succ_ne_zero _
  · rw [Function.comp, Entity.nextPhase?, hdone, Entity.kind_finish]
    exact List.getElem?_eq_none (Nat.le_refl _)

theorem Skips.firstPhase {ω' : Outer} (h : ω.Skips id site phase ω') :
    phase = site.decl.body.kind.firstPhase := by
  obtain ⟨-, -, hfirst⟩ := h
  exact hfirst

/-- Nothing is skipped without a guard. -/
theorem Skips.guarded {ω' : Outer} (h : ω.Skips id site phase ω') : site.decl.guard ≠ none := by
  obtain ⟨-, hguard, -⟩ := h
  exact hguard

/-- A declaration that is skipped is finished. -/
theorem Skips.nextPhase? {ω' : Outer} (h : ω.Skips id site phase ω') :
    (ω'.finish id phase).entities.nextPhase? id = none := by
  obtain ⟨log, -, -⟩ := h
  cases he : (finish { ω with entities := ω.entities.modify id Entity.completeNow, log } id
      phase).entities.get? id with
  | none => simp only [EntityGraph.nextPhase?, he, Option.bind_none]
  | some e => rw [EntityGraph.nextPhase?_of_get? he, (skipped_of_get? he).2]

theorem Skips.moved {ω' : Outer} (h : ω.Skips id site phase ω') :
    ω.Moved (ω'.finish id phase) id := by
  have hnone := h.nextPhase?
  obtain ⟨log, -, -⟩ := h
  refine ⟨rfl, ?_, ?_, fun e' he' => (skipped_of_get? he').1, fun hn => absurd hnone hn,
    fun j e hj he => ⟨e.deps, ?_, fun _ => rfl⟩, fun j _ => rfl⟩
  · simp only [finish, EntityGraph.size_modify]
  · exact (EntityGraph.later_modify Entity.later_completeNow _ id).trans
      (EntityGraph.later_finish _ id phase)
  · simp only [finish, EntityGraph.get?_modify, if_neg (Ne.symm hj), he]

/-- A call that succeeds moves its entity on. -/
theorem Coherent.moved {ω' : Outer} (hω : ω.Coherent) (hsite : ω.sites[id]? = some site)
    (hnext : ω.entities.nextPhase? id = some phase) (hm : ω.Moves id site phase ω') :
    ω.Moved (ω'.finish id phase) id := by
  have hcons (y : Symbol) : (List.lookup id ((id, y) :: ω.symbols)).isSome = true := by
    rw [List.lookup_cons_self]
    rfl
  obtain hm | hm := hm
  · cases hm with
    | defined t y log => exact moved_finish (.refl _) hnext rfl rfl (fun _ => lookup_cons_ne) (hcons y)
    | continued log hlater =>
      obtain ⟨e, he, hp⟩ := EntityGraph.get?_of_nextPhase? hnext
      have hdone : e.done ≠ 0 := fun h =>
        hlater ((Entity.done_eq_zero hp).mp h |>.trans (by rw [hω.kind id site e hsite he]))
      exact moved_finish (.refl _) hnext rfl rfl (fun _ _ => rfl)
        (hω.begun id e he hdone (by rw [hp]; exact Option.some_ne_none _))
    | brought t g pendingBrings log _ _ hg =>
      exact moved_finish hg hnext rfl rfl (fun _ => lookup_cons_ne) (hcons .bring)
  · exact hm.moved

/-- A phase that runs is one more behind its entity. -/
theorem Runs.get? {ω' : Outer} {e : Entity} (hm : ω.Runs id site phase ω')
    (he : ω.entities.get? id = some e) (hp : e.nextPhase? = some phase) :
    ∃ e', (ω'.finish id phase).entities.get? id = some e' ∧ e'.kind = e.kind ∧
      e'.done = e.done + 1 := by
  have hget {g : EntityGraph} (hg : ω.entities.Regathered g) :
      ∃ e', (g.modify id (Entity.finish phase)).get? id = some e' ∧ e'.kind = e.kind ∧
        e'.done = e.done + 1 := by
    obtain ⟨deps, he', -⟩ := hg.entity id e he
    refine ⟨Entity.finish phase { e with deps }, ?_, Entity.kind_finish .., ?_⟩
    · rw [EntityGraph.get?_modify, if_pos rfl, he']
      rfl
    · rw [Entity.done_finish]
      exact if_pos hp
  cases hm with
  | defined => exact hget (.refl _)
  | continued => exact hget (.refl _)
  | brought _ _ _ _ _ _ hg => exact hget hg

/-- After a phase that runs, the one that follows it is next. -/
theorem Runs.nextPhase? {ω' : Outer} {e : Entity} (hm : ω.Runs id site phase ω')
    (he : ω.entities.get? id = some e) (hp : e.nextPhase? = some phase) :
    (ω'.finish id phase).entities.nextPhase? id = e.kind.phases[e.done + 1]? := by
  obtain ⟨e', he', hkind, hdone⟩ := hm.get? he hp
  rw [EntityGraph.nextPhase?_of_get? he', Entity.nextPhase?, hkind, hdone]

/-- A call that succeeds drops no dependency. -/
theorem Moves.retains {ω' : Outer} (hm : ω.Moves id site phase ω') :
    ω.entities.Retains (ω'.finish id phase).entities := by
  have hfinish (g : EntityGraph) : g.Retains (g.modify id (Entity.finish phase)) :=
    g.retains_modify id fun e => e.deps_finish phase
  obtain hm | ⟨log, -, -⟩ := hm
  · cases hm with
    | defined => exact hfinish _
    | continued => exact hfinish _
    | brought _ _ _ _ _ _ hg => exact hg.retains.trans (hfinish _)
  · have hcomplete : ω.entities.Retains (ω.entities.modify id Entity.completeNow) :=
      ω.entities.retains_modify id fun _ => rfl
    exact hcomplete.trans (hfinish _)

/-- A call that succeeds and is counted as run leaves the state coherent. -/
theorem Coherent.moves {ω' : Outer} (hω : ω.Coherent) (hsite : ω.sites[id]? = some site)
    (hnext : ω.entities.nextPhase? id = some phase) (hready : ω.entities.isReady id phase = true)
    (hm : ω.Moves id site phase ω') : (ω'.finish id phase).Coherent := by
  have hmoved := hω.moved hsite hnext hm
  obtain ⟨e, he, hp⟩ := EntityGraph.get?_of_nextPhase? hnext
  have hkind := hω.kind id site e hsite he
  have hzero := Entity.done_eq_zero hp
  rw [hkind] at hzero
  -- a compile-time function that may be called is finished, so this is none
  have hnot (f : PrerunFunction) : ω.symbols.lookup id ≠ some (.prerunFunction f) := by
    intro hf
    obtain ⟨-, -, -, -, -, -, hnone⟩ := hω.callable id f hf
    rw [hnext] at hnone
    cases hnone
  have hold (h : (ω'.symbols.lookup id).isSome = true) :
      ω.modules.Fits (ω'.finish id phase).Declared :=
    hω.items.mono fun i hi => hmoved.declared (fun _ _ _ => h) hi
  obtain hrun | ⟨log, hguard, hfirst⟩ := hm
  · have hphases := hrun.nextPhase? he hp
    cases hrun with
    | continued log hlater =>
      refine hmoved.coherent hω (hold (hω.begun id e he (fun h => hlater (hzero.mp h)) ?_))
        fun f hf => absurd hf (hnot f)
      rw [hp]
      exact Option.some_ne_none _
    | defined t y log hfirst hbring ht hy =>
      have hsymbol : (List.lookup id ((id, y) :: ω.symbols)).isSome = true := by
        rw [List.lookup_cons_self]
        rfl
      refine hmoved.coherent hω ?_ fun f hf => ?_
      · rcases ht with rfl | ⟨-, -, item, hitem, hvis, hadd⟩
        · exact hold hsymbol
        · obtain ⟨e', he', -⟩ := hmoved.later id e he
          refine (hold hsymbol).addItem hvis ⟨e', site, ?_, ?_, .inl ?_⟩ hadd <;> rw [hitem]
          · exact he'
          · exact hsite
          · exact hsymbol
      · simp only [finish, List.lookup_cons_self] at hf
        cases hf
        obtain ⟨d, hbody⟩ : ∃ d, site.decl.body = .prerunFunction d := by
          cases hb : site.decl.body <;> rw [hb] at hy <;> first | exact ⟨_, rfl⟩ | cases hy
        rw [hbody] at hy hfirst hkind hzero
        subst hfirst
        refine ⟨site, d, hsite, hbody, hy, EntityGraph.isReady_finish hready, ?_⟩
        -- its only phase is behind it
        rw [hphases, hkind, hzero.mpr rfl]
        rfl
    | brought t g pendingBrings log hbring ht hg =>
      refine hmoved.coherent hω (ht _ (hold ?_)) fun f hf => ?_
      · rw [List.lookup_cons_self]
        rfl
      · simp only [finish, List.lookup_cons_self] at hf
        cases hf
  · refine hmoved.coherent hω (hω.items.mono fun i hi => hmoved.declared ?_ hi)
      fun f hf => absurd hf (hnot f)
    rintro i hi ⟨_, site', _, hsite', h⟩
    rw [hi] at hsite' h
    rw [hsite] at hsite'
    cases hsite'
    exact h.resolve_right fun h => hguard h.2

end Outer

end Staged
