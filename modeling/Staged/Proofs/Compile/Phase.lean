/-
  Staged.Proofs.Compile.Phase — what a call of a phase does.

  A phase of an entity looks up names of its own declaration, and names in the bodies of
  compile-time functions (`Outer.Asks`). When its turn has come, everything the entity
  depends on is ready, and so is what a compile-time function depends on that may be
  called. An entity without a symbol is therefore asked for only if a name means it that
  no dependency was recorded for (`Outer.Missed`).

  Main statement: `Emit.runPhase_spec`. In a coherent state, a call moves the compilation
  on, or fails; it fails because something is not ready only for a missed dependency, and
  never in the third phase.
-/

import Staged.Proofs.Compile.Gather

open Std.Do

namespace Staged

namespace Outer

/-- A name that a phase of an entity may look up: the entity in whose declaration it stands,
and the phase by which what that one depends on is ready. -/
inductive Asks (ω : Outer) (id : EntityId) (phase : Phase) :
    EntityId → Phase → Site → Use → Prop
  | own {site : Site} {u : Use} : ω.sites[id]? = some site →
      u ∈ site.decl.uses site.decl.body.kind.firstPhase → u.phase.le phase = true →
      Asks ω id phase id phase site u
  | called {j : EntityId} {f : PrerunFunction} {site : Site} {u : Use} :
      ω.symbols.lookup j = some (.prerunFunction f) → ω.sites[j]? = some site →
      u ∈ site.decl.body.uses ++ site.decl.body.shadowedCalls → Asks ω id phase j .one site u

/-- In a phase of an entity, a name means an entity without a symbol, for which no
dependency was recorded. -/
def Missed (ω : Outer) (t : ModuleTree) (id : EntityId) (phase : Phase) (y : EntityId) : Prop :=
  ω.symbols.lookup y = none ∧ ∃ j q site u, ω.Asks id phase j q site u ∧
    t.meant? { module := site.module } u = some y ∧ ∀ d ∈ ω.entities.depsFor j q, d.entity ≠ y

def Waits (ω : Outer) (i : Item) : Prop :=
  ∀ e, ω.entities.get? i.entity = some e → (ω.symbols.lookup i.entity).isSome = true ∨ e.done = 0

variable {ω : Outer} {t : ModuleTree} {id : EntityId} {phase : Phase}

theorem Declared.waits {i : Item} (hi : ω.Declared i) : ω.Waits i := by
  obtain ⟨e, site, he, -, h⟩ := hi
  intro e' he'
  rw [he] at he'
  cases he'
  exact h.imp_right And.left

/-- What a ready declaration depends on has a symbol. -/
theorem Coherent.missed (hω : ω.Coherent) (ht : t.Fits ω.Waits) {j y : EntityId} {q : Phase}
    {view : Viewpoint} {u : Use} (hr : ω.entities.isReady j q = true)
    (hu : t.meant? view u = some y) (hy : ω.symbols.lookup y = none) :
    ∀ d ∈ ω.entities.depsFor j q, d.entity ≠ y := by
  rintro d hd rfl
  obtain ⟨e, he, hs⟩ := EntityGraph.isSatisfied_iff.mp (List.all_eq_true.mp hr d hd)
  obtain ⟨i, hi, hw⟩ := ht.meant? hu
  rcases hw e (hi ▸ he) with h | h
  · rw [hi, hy] at h
    cases h
  · rw [hω.pending _ e he h] at hs
    rcases hs with hs | ⟨hs, -⟩ <;> cases hs

/-- What is asked for in a phase: the names mean what they mean in a tree. -/
def setting (ω : Outer) (t : ModuleTree) (log : Array (EntityId × Phase)) (id : EntityId)
    (phase : Phase) : FreeSetting :=
  .withoutCalls { ω with modules := t, log } (ω.Missed t id phase)

variable {log : Array (EntityId × Phase)}

theorem Coherent.covers (hω : ω.Coherent) (ht : t.Fits ω.Waits) {j : EntityId} {q : Phase}
    {site : Site} {u : Use} (ha : ω.Asks id phase j q site u)
    (hr : ω.entities.isReady j q = true) :
    (ω.setting t log id phase).Covers { module := site.module } u :=
  fun _ hy hn => ⟨hn, j, q, site, u, ha, hy, hω.missed ht hr hy hn⟩

/-- Compile-time functions ask only for what may be asked for. -/
theorem Coherent.sound (hω : ω.Coherent) (ht : t.Fits ω.Waits) :
    (ω.setting t log id phase).Sound := by
  rintro f ⟨j, hf⟩
  obtain ⟨site, d, hsite, hbody, ⟨f', hf', hmodule, hargs, hdecl⟩, hready, -⟩ := hω.callable j f hf
  cases hf'
  rw [Setting.CoversBody, hmodule, hargs, hdecl]
  refine ⟨?_, ?_, .inr trivial⟩ <;> intro u hu <;>
    refine hω.covers ht (.called hf hsite ?_) hready <;> rw [hbody]
  · exact List.mem_append_left _ (List.mem_append_right _ hu)
  · exact List.mem_append_right _ hu

theorem Coherent.coversBy (hω : ω.Coherent) (ht : t.Fits ω.Waits) {site : Site}
    (hsite : ω.sites[id]? = some site) (hr : ω.entities.isReady id phase = true) :
    (ω.setting t log id phase).CoversBy { module := site.module } phase
      (site.decl.uses site.decl.body.kind.firstPhase) :=
  fun _ hu hp => hω.covers ht (.own hsite hu hp) hr

end Outer

namespace Emit

variable {ω : Outer} {id : EntityId} {phase : Phase} {site : Site}
  {log : Array (EntityId × Phase)}

/-! ## Guards -/

theorem registerName_spec (o : Options) {s : Compiler} (hs : Outer.At { ω with log } s)
    (hg : site.decl.guard ≠ none) :
    (∀ u s', registerName id site o s = .ok u s' →
      ∃ t, ω.Names id site t ∧ Outer.At { ω with modules := t, log } s') ∧
    ∀ f s', registerName id site o s = .error f s' →
      s'.modules = ω.modules ∧ f.isNotReady = false := by
  obtain ⟨hs, hframes⟩ := hs
  have hmodules : s.modules = ω.modules := congrArg Outer.modules hs
  have hget : (get : Emit Compiler) o s = .ok s s := rfl
  cases hname : site.decl.body.name? with
  | none =>
    have hrun : registerName id site o s = .ok () s := by
      simp only [registerName, hname]
      rfl
    rw [hrun]
    refine ⟨fun u s' h => ?_, fun f s' h => by cases h⟩
    cases h
    exact ⟨ω.modules, .inl rfl, hs, hframes⟩
  | some name =>
    cases hadd : s.modules.addItem site.module ⟨name, id, site.decl.body.kind,
        s.modules.visibility site.decl.body.vis site.module none⟩ with
    | error d =>
      have hrun : registerName id site o s =
          (refuseDuplicate name d.existing : Emit Unit) o s := by
        simp only [registerName, hname, bind_apply, hget, hadd]
      rw [hrun]
      refine ⟨(fun u s' h => by cases h), fun f s' h => ?_⟩
      cases h
      exact ⟨hmodules, rfl⟩
    | ok t =>
      have hrun : registerName id site o s = .ok () { s with modules := t } := by
        simp only [registerName, hname, bind_apply, hget, hadd]
        rfl
      rw [hrun]
      refine ⟨fun u s' h => ?_, fun f s' h => by cases h⟩
      cases h
      rw [hmodules] at hadd
      refine ⟨t, .inr ⟨hg, ?_, _, rfl, ω.modules.type?_visibility _ _, hadd⟩, ?_, hframes⟩
      · rw [hname]
        exact Option.some_ne_none name
      · exact congrArg (fun ω' : Outer => { ω' with modules := t }) hs

theorem guardHolds_later (view : Viewpoint) (o : Options) (s : Compiler)
    (h : site.decl.guard = none ∨ phase ≠ site.decl.body.kind.firstPhase) :
    guardHolds view id site phase o s = .ok true s := by
  unfold guardHolds
  cases hg : site.decl.guard with
  | none => rfl
  | some g =>
    have hlater := h.resolve_left (by rw [hg]; exact Option.some_ne_none g)
    simp only [if_pos hlater]
    rfl

theorem guardHolds_first (view : Viewpoint) (o : Options) (s : Compiler) {g : Expr}
    (hg : site.decl.guard = some g) :
    guardHolds view id site site.decl.body.kind.firstPhase o s =
      match evaluateCondition view g o s with
      | .ok true s' => match registerName id site o s' with
        | .ok _ s'' => .ok true s''
        | .error f s'' => .error f s''
      | .ok false s' =>
        .ok false { s' with entities := s'.entities.modify id Entity.completeNow }
      | .error f s' => .error f s' := by
  unfold guardHolds
  rw [hg]
  simp only [ne_eq, not_true_eq_false, if_false]
  show EStateM.bind (evaluateCondition view g o) _ s = _
  unfold EStateM.bind
  cases evaluateCondition view g o s with
  | error f s' => rfl
  | ok b s' =>
    cases b with
    | false => rfl
    | true =>
      simp only
      show EStateM.bind (registerName id site o) _ s' = _
      unfold EStateM.bind
      cases registerName id site o s' <;> rfl

/-- A guard is evaluated before the first phase; it declares the name, or skips the
declaration. -/
theorem guardHolds_spec (o : Options) {s : Compiler} (hω : ω.Coherent)
    (hsite : ω.sites[id]? = some site) (hready : ω.entities.isReady id phase = true)
    (hs : Outer.At { ω with log } s) :
    match guardHolds { module := site.module } id site phase o s with
    | .ok true s' => ∃ t, ω.Names id site t ∧
        (phase ≠ site.decl.body.kind.firstPhase → t = ω.modules) ∧
        Outer.At { ω with modules := t, log } s'
    | .ok false s' => site.decl.guard ≠ none ∧ phase = site.decl.body.kind.firstPhase ∧
        Outer.At { ω with entities := ω.entities.modify id Entity.completeNow, log } s'
    | .error f s' => s'.modules = ω.modules ∧ (ω.setting ω.modules log id phase).Allows f := by
  have hwaits : ω.modules.Fits ω.Waits := hω.items.mono fun _ h => h.waits
  by_cases hlater : site.decl.guard = none ∨ phase ≠ site.decl.body.kind.firstPhase
  · rw [guardHolds_later _ o s hlater]
    exact ⟨ω.modules, .inl rfl, fun _ => rfl, hs⟩
  · simp only [not_or, ne_eq, not_not] at hlater
    obtain ⟨hguard, rfl⟩ := hlater
    obtain ⟨g, hg⟩ := Option.ne_none_iff_exists'.mp hguard
    have hcovers : (ω.setting ω.modules log id site.decl.body.kind.firstPhase).CoversBy
        { module := site.module } site.decl.body.kind.firstPhase
        (optionUses site.decl.body.kind.firstPhase [] site.decl.guard) :=
      (Setting.coversBy_append.mp (hω.coversBy hwaits hsite hready)).1
    rw [hg, optionUses] at hcovers
    have hcondition := triple_iff.mp (keeps_evaluateCondition (hω.sound hwaits)
      (hcovers.all (g.allAt_uses _ _) (Phase.le_refl _))) o s ⟨hs.1, hs.2, trivial⟩
    rw [guardHolds_first _ o s hg]
    cases hr : evaluateCondition { module := site.module } g o s with
    | error f s' =>
      rw [hr] at hcondition
      exact ⟨congrArg Outer.modules hcondition.1, hcondition.2.1⟩
    | ok b s' =>
      rw [hr] at hcondition
      cases b with
      | false =>
        refine ⟨hguard, rfl, ?_, hcondition.2.1⟩
        have hentities : s'.entities = ω.entities := congrArg Outer.entities hcondition.1
        rw [hentities]
        exact congrArg (fun ω' : Outer =>
          { ω' with entities := ω.entities.modify id Entity.completeNow }) hcondition.1
      | true =>
        obtain ⟨hok, herror⟩ :=
          @registerName_spec ω id site log o s' ⟨hcondition.1, hcondition.2.1⟩ hguard
        simp only
        cases hreg : registerName id site o s' with
        | error f s'' =>
          obtain ⟨hmodules, hf⟩ := herror f s'' hreg
          exact ⟨hmodules, fun hn => absurd hn (by rw [hf]; decide), fun _ => trivial⟩
        | ok u s'' =>
          obtain ⟨t, ht, hs''⟩ := hok u s'' hreg
          exact ⟨t, ht, fun h => absurd rfl h, hs''⟩

/-! ## Calls -/

theorem runPhase_eq (o : Options) {s : Compiler} (hsite : s.sites[id]? = some site) :
    runPhase id phase o s =
      match guardHolds { module := site.module } id site phase o
          { s with log := s.log.push (id, phase) } with
      | .ok true s' => phaseOf { module := site.module } id site.decl phase o s'
      | .ok false s' => .ok () s'
      | .error f s' => .error f s' := by
  have hof : siteOf id o { s with log := s.log.push (id, phase) } =
      .ok site { s with log := s.log.push (id, phase) } := by
    have hget : (get : Emit Compiler) o { s with log := s.log.push (id, phase) } =
        .ok { s with log := s.log.push (id, phase) } { s with log := s.log.push (id, phase) } := rfl
    simp only [siteOf, bind_apply, hget, hsite]
    rfl
  show EStateM.bind (siteOf id o) _ { s with log := s.log.push (id, phase) } = _
  unfold EStateM.bind
  rw [hof]
  show EStateM.bind (guardHolds { module := site.module } id site phase o) _ _ = _
  unfold EStateM.bind
  cases guardHolds { module := site.module } id site phase o
      { s with log := s.log.push (id, phase) } with
  | error f s' => rfl
  | ok b s' => cases b <;> rfl

/-- What a call from a state comes to: it moves the compilation on, or it fails, and then
because something is not ready only for a missed dependency before the third phase. -/
def Comes (ω : Outer) (id : EntityId) (phase : Phase) (moves : Outer → Prop) :
    EStateM.Result Failure Compiler Unit → Prop
  | .ok _ s' => s'.frames = [] ∧ moves s'.outer
  | .error f s' => f.isNotReady = true → phase ≠ .three ∧ ∃ y range,
      ω.Missed s'.modules id phase y ∧ f = .fault (.notReady (ω.entities.displayName y)) range

variable {moves moves' : Outer → Prop}

theorem Comes.imp {r : EStateM.Result Failure Compiler Unit} (h : Comes ω id phase moves r)
    (hm : ∀ ω', moves ω' → moves' ω') : Comes ω id phase moves' r := by
  cases r with
  | ok _ s' => exact ⟨h.1, hm _ h.2⟩
  | error f s' => exact h

theorem comes_error {f : Failure} {s' : Compiler} {t : ModuleTree} (hp : phase ≠ .three)
    (hm : s'.modules = t) (hf : (ω.setting t log id phase).Allows f) :
    Comes ω id phase moves (.error f s') := by
  intro hn
  obtain ⟨y, range, hy, rfl⟩ := hf.1 hn
  subst hm
  exact ⟨hp, y, range, hy, rfl⟩

theorem firstPhase_ne_three (k : EntityKind) : k.firstPhase ≠ .three := by
  cases k <;> decide

theorem comes_first {t : ModuleTree} (o : Options) {s : Compiler} (hω : ω.Coherent)
    (hsite : ω.sites[id]? = some site)
    (hready : ω.entities.isReady id site.decl.body.kind.firstPhase = true)
    (ht : ω.Names id site t) (hwaits : t.Fits ω.Waits) (hb : site.decl.body.kind ≠ .bring)
    (hs : Outer.At { ω with modules := t, log } s) :
    Comes ω id site.decl.body.kind.firstPhase (ω.Runs id site site.decl.body.kind.firstPhase)
      (phaseOf { module := site.module } id site.decl site.decl.body.kind.firstPhase o s) := by
  have hcovers : (ω.setting t log id site.decl.body.kind.firstPhase).CoversBy
      { module := site.module } site.decl.body.kind.firstPhase site.decl.body.uses :=
    (Setting.coversBy_append.mp (hω.coversBy hwaits hsite hready)).2
  have hrun := triple_iff.mp
    (@defines_phaseOf _ _ ω.Waits id site.decl (hω.sound hwaits) hwaits hb hcovers) o s
    ⟨hs.1, hs.2, trivial⟩
  cases hr : phaseOf { module := site.module } id site.decl site.decl.body.kind.firstPhase o s with
  | error f s' =>
    rw [hr] at hrun
    exact comes_error (firstPhase_ne_three _) hrun.1 hrun.2.1
  | ok _ s' =>
    rw [hr] at hrun
    obtain ⟨y, hy, hs', hframes, -⟩ := hrun
    refine ⟨hframes, ?_⟩
    rw [hs']
    exact .defined t y log rfl hb ht hy

theorem fits_of_names {t : ModuleTree} {e : Entity} (hω : ω.Coherent)
    (he : ω.entities.get? id = some e) (hzero : e.done = 0) (ht : ω.Names id site t) :
    t.Fits ω.Waits := by
  have hold : ω.modules.Fits ω.Waits := hω.items.mono fun _ h => h.waits
  rcases ht with rfl | ⟨-, -, item, hitem, hvis, hadd⟩
  · exact hold
  · refine hold.addItem hvis (fun e' he' => ?_) hadd
    rw [hitem, he] at he'
    cases he'
    exact .inr hzero

/-- A bring declares no name. -/
theorem spreads_of_names {t : ModuleTree} (hb : site.decl.body.kind = .bring)
    (ht : ω.Names id site t) : ω.modules.Spreads t := by
  rcases ht with rfl | ⟨-, hname, -⟩
  · exact .refl _
  · cases h : site.decl.body <;> rw [h] at hb hname <;> first | exact absurd rfl hname | cases hb

theorem comes_bring {t : ModuleTree} (o : Options) {s : Compiler}
    (hb : site.decl.body.kind = .bring) (ht : ω.modules.Spreads t)
    (hs : Outer.At { ω with modules := t, log } s) :
    Comes ω id phase (ω.Runs id site phase)
      (phaseOf { module := site.module } id site.decl phase o s) := by
  obtain ⟨d, hd⟩ : ∃ d, site.decl.body = .bring d := by
    cases h : site.decl.body <;> rw [h] at hb <;> first | exact ⟨_, rfl⟩ | cases hb
  have hphase : phaseOf { module := site.module } id site.decl phase =
      bring { module := site.module } id d := by
    simp only [phaseOf, hd]
  have hrun := yields_bring { module := site.module } id d o s hs
  rw [hphase]
  cases hr : bring { module := site.module } id d o s with
  | error f s' =>
    rw [hr] at hrun
    intro hn
    rw [hrun] at hn
    cases hn
  | ok _ s' =>
    rw [hr] at hrun
    obtain ⟨t', ht', g, pendingBrings, hg, hs', hframes⟩ := hrun
    refine ⟨hframes, ?_⟩
    rw [hs']
    exact .brought t' g pendingBrings log hb (ht.trans ht') hg

/-- In the third phase every item has a symbol. -/
theorem open_of_settled (hω : ω.Coherent)
    (hsettled : ∀ j q, ω.entities.nextPhase? j = some q → q = .three) (blames : EntityId → Prop) :
    (FreeSetting.withoutCalls { ω with log } blames).Open := by
  refine .of_strays (fun view name y hy hn => ?_) fun _ => trivial
  obtain ⟨i, rfl, e, site, he, -, h⟩ := hω.items.entityNamed? hy
  rcases h with h | ⟨h, -⟩
  · rw [show ω.symbols.lookup i.entity = none from hn] at h
    cases h
  · have hfirst : e.nextPhase? = some e.kind.firstPhase := by
      unfold Entity.nextPhase?
      rw [h]
      rfl
    have := hsettled i.entity _ ((EntityGraph.nextPhase?_of_get? he).trans hfirst)
    exact absurd this (firstPhase_ne_three _)

/-- A later phase that keeps a setting comes to what the setting allows. -/
theorem comes_keeps {w : FreeSetting} (o : Options) {s : Compiler}
    (hlater : phase ≠ site.decl.body.kind.firstPhase) (hw : w.outer = { ω with log })
    (hframes : w.frames = (· = [])) (hs : Outer.At { ω with log } s)
    (hk : w.Keeps (phaseOf { module := site.module } id site.decl phase))
    (hf : ∀ f s', s'.modules = ω.modules → w.Allows f →
      Comes ω id phase (ω.Runs id site phase) (.error f s')) :
    Comes ω id phase (ω.Runs id site phase)
      (phaseOf { module := site.module } id site.decl phase o s) := by
  have hrun := triple_iff.mp hk o s ⟨hs.1.trans hw.symm, by rw [hframes]; exact hs.2, w.code_all _⟩
  cases hr : phaseOf { module := site.module } id site.decl phase o s with
  | error f s' =>
    rw [hr] at hrun
    exact hf f s' (congrArg Outer.modules (hrun.1.trans hw)) hrun.2.1
  | ok _ s' =>
    rw [hr] at hrun
    obtain ⟨hs', hframes', -⟩ := hrun
    rw [hframes] at hframes'
    refine ⟨hframes', ?_⟩
    rw [hs', hw]
    exact .continued log hlater

theorem comes_later (o : Options) {s : Compiler} (hω : ω.Coherent)
    (hsite : ω.sites[id]? = some site) (hnext : ω.entities.nextPhase? id = some phase)
    (hready : ω.entities.isReady id phase = true)
    (hlater : phase ≠ site.decl.body.kind.firstPhase)
    (hsettled : phase = .three → ∀ j q, ω.entities.nextPhase? j = some q → q = .three)
    (hs : Outer.At { ω with log } s) :
    Comes ω id phase (ω.Runs id site phase)
      (phaseOf { module := site.module } id site.decl phase o s) := by
  obtain ⟨e, he, hp⟩ := EntityGraph.get?_of_nextPhase? hnext
  have hkind := hω.kind id site e hsite he
  have hmem : phase ∈ site.decl.body.kind.schedule.2 := by
    have hall : phase ∈ site.decl.body.kind.phases := by
      rw [← hkind]
      exact List.mem_of_getElem? hp
    exact (List.mem_cons.mp hall).resolve_left hlater
  have hsymbol : ω.symbols.lookup id ≠ none := by
    have hdone : e.done ≠ 0 := fun h => hlater (hkind ▸ (Entity.done_eq_zero hp).mp h)
    have := hω.begun id e he hdone (by rw [hp]; exact Option.some_ne_none _)
    exact fun hn => by rw [hn] at this; cases this
  by_cases hthree : phase = .three
  · -- nobody is to blame, since every name means something that is ready
    have hopen := @open_of_settled ω log hω (hsettled hthree) fun _ => False
    refine comes_keeps o hlater rfl rfl hs (keeps_phaseOf hopen.sound hω.items hmem
      (fun hn => absurd hn hsymbol) (fun u hu _ => hopen.coversAll _ [u] u (List.mem_singleton.mpr rfl))
      (fun _ => hopen) fun _ => trivial) fun f s' _ hf hn => ?_
    obtain ⟨_, _, h, _⟩ := hf.1 hn
    exact h.elim
  · have hwaits : ω.modules.Fits ω.Waits := hω.items.mono fun _ h => h.waits
    have hcovers : (ω.setting ω.modules log id phase).CoversBy { module := site.module } phase
        site.decl.body.uses :=
      (Setting.coversBy_append.mp (hω.coversBy hwaits hsite hready)).2
    refine comes_keeps (w := ω.setting ω.modules log id phase) o hlater rfl rfl hs ?_
      fun f s' hm hf => comes_error hthree hm hf
    exact keeps_phaseOf (hω.sound hwaits) hwaits hmem (fun hn => absurd hn hsymbol) hcovers
      (fun h => absurd h hthree) fun _ => trivial

/-- What follows a guard that holds. -/
theorem comes_phaseOf {t : ModuleTree} (o : Options) {s : Compiler} (hω : ω.Coherent)
    (hsite : ω.sites[id]? = some site) (hnext : ω.entities.nextPhase? id = some phase)
    (hready : ω.entities.isReady id phase = true)
    (hsettled : phase = .three → ∀ j q, ω.entities.nextPhase? j = some q → q = .three)
    (ht : ω.Names id site t) (hsame : phase ≠ site.decl.body.kind.firstPhase → t = ω.modules)
    (hs : Outer.At { ω with modules := t, log } s) :
    Comes ω id phase (ω.Runs id site phase)
      (phaseOf { module := site.module } id site.decl phase o s) := by
  by_cases hfirst : phase = site.decl.body.kind.firstPhase
  · subst hfirst
    by_cases hb : site.decl.body.kind = .bring
    · exact comes_bring o hb (spreads_of_names hb ht) hs
    · obtain ⟨e, he, hp⟩ := EntityGraph.get?_of_nextPhase? hnext
      have hzero : e.done = 0 :=
        (Entity.done_eq_zero hp).mpr (by rw [hω.kind id site e hsite he])
      exact comes_first o hω hsite hready ht (fits_of_names hω he hzero ht) hb hs
  · cases hsame hfirst
    exact comes_later o hω hsite hnext hready hfirst hsettled hs

theorem site_of_nextPhase? (hω : ω.Coherent) (hnext : ω.entities.nextPhase? id = some phase) :
    ∃ site, ω.sites[id]? = some site := by
  obtain ⟨e, he, -⟩ := EntityGraph.get?_of_nextPhase? hnext
  have hlt : id < ω.sites.size := hω.size ▸ EntityGraph.lt_size_of_get? he
  exact ⟨_, Array.getElem?_eq_getElem hlt⟩

/-- In a coherent state, the call of a phase whose turn has come moves the compilation on,
or fails; because something is not ready it fails only for a missed dependency. -/
theorem runPhase_spec (o : Options) {s : Compiler} (hω : s.outer.Coherent) (hf : s.frames = [])
    (hsite : s.sites[id]? = some site) (hnext : s.entities.nextPhase? id = some phase)
    (hready : s.entities.isReady id phase = true)
    (hsettled : phase = .three → ∀ j q, s.entities.nextPhase? j = some q → q = .three) :
    Comes s.outer id phase (s.outer.Moves id site phase) (runPhase id phase o s) := by
  have hguard := @guardHolds_spec s.outer id phase site (s.log.push (id, phase)) o
    { s with log := s.log.push (id, phase) } hω hsite hready ⟨rfl, hf⟩
  rw [runPhase_eq o hsite]
  cases hr : guardHolds { module := site.module } id site phase o
      { s with log := s.log.push (id, phase) } with
  | error f s' =>
    rw [hr] at hguard
    refine comes_error (fun hthree => ?_) hguard.1 hguard.2
    have hlater : phase ≠ site.decl.body.kind.firstPhase :=
      fun h => firstPhase_ne_three _ (h.symm.trans hthree)
    rw [guardHolds_later _ o _ (.inr hlater)] at hr
    cases hr
  | ok b s' =>
    rw [hr] at hguard
    cases b with
    | false =>
      obtain ⟨hg, hfirst, hs', hframes⟩ := hguard
      refine ⟨hframes, .inr ?_⟩
      rw [hs']
      exact .skipped _ hg hfirst
    | true =>
      obtain ⟨t, ht, hsame, hs'⟩ := hguard
      exact (comes_phaseOf o hω hsite hnext hready hsettled ht hsame hs').imp fun _ => .inl

end Emit

end Staged
