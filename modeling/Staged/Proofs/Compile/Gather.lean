/-
  Staged.Proofs.Compile.Gather — registering, collecting and bringing.

  These actions ask no entity what it has become, so they never fail because something is
  not ready (`Emit.Yields`). Collecting adds dependencies to one entity and leaves the rest
  of the graph as it is. A bring puts items that the tree holds into one more place, and
  has the dependencies of unfinished entities collected anew.
-/

import Staged.Proofs.Compile.Coherent

namespace Staged

namespace Emit

variable {α β : Type}

/-- From every state of which `P` holds, the action gives a value and a state of which `Q`
holds, or fails for another reason than that something is not ready. -/
def Yields (P : Compiler → Prop) (a : Emit α) (Q : α → Compiler → Prop) : Prop :=
  ∀ o s, P s → match a o s with
    | .ok v s' => Q v s'
    | .error f _ => f.isNotReady = false

namespace Yields

variable {P : Compiler → Prop} {Q : α → Compiler → Prop} {R : β → Compiler → Prop}

theorem bind {a : Emit α} {k : α → Emit β} (ha : Yields P a Q) (hk : ∀ v, Yields (Q v) (k v) R) :
    Yields P (a >>= k) R := by
  intro o s hs
  have hfirst := ha o s hs
  show match EStateM.bind (a o) (fun v => k v o) s with
    | .ok v s' => R v s'
    | .error f _ => f.isNotReady = false
  unfold EStateM.bind
  cases hr : a o s with
  | ok v s' =>
    rw [hr] at hfirst
    exact hk v o s' hfirst
  | error f s' =>
    rw [hr] at hfirst
    exact hfirst

theorem mono {P' : Compiler → Prop} {Q' : α → Compiler → Prop} {a : Emit α} (h : Yields P a Q)
    (hP : ∀ s, P' s → P s) (hQ : ∀ v s, Q v s → Q' v s) : Yields P' a Q' := by
  intro o s hs
  have := h o s (hP s hs)
  cases hr : a o s <;> rw [hr] at this
  · exact hQ _ _ this
  · exact this

theorem assume {p : Prop} {a : Emit α} (h : p → Yields P a Q) :
    Yields (fun s => p ∧ P s) a Q :=
  fun o s hs => h hs.1 o s hs.2

end Yields

variable {P : Compiler → Prop} {Q : α → Compiler → Prop}

theorem yields_pure {v : α} (h : ∀ s, P s → Q v s) : Yields P (pure v) Q := fun _ s hs => h s hs

theorem yields_get {Q : Compiler → Compiler → Prop} (h : ∀ s, P s → Q s s) :
    Yields P (get : Emit Compiler) Q :=
  fun _ s hs => h s hs

theorem yields_modify {Q : Unit → Compiler → Prop} {f : Compiler → Compiler}
    (h : ∀ s, P s → Q () (f s)) : Yields P (modify f : Emit Unit) Q :=
  fun _ s hs => h s hs

theorem yields_set {Q : Unit → Compiler → Prop} {s' : Compiler} (h : ∀ s, P s → Q () s') :
    Yields P (set s' : Emit Unit) Q :=
  fun _ s hs => h s hs

theorem yields_refuse {f : Fault} (range : Span) (hf : f.isNotReady = false) :
    Yields P (refuse f range) Q :=
  fun _ _ _ => hf

theorem yields_breach (b : Breach) : Yields P (breach b) Q := fun _ _ _ => rfl

theorem yields_require {value : Option α} {f : Fault} (range : Span)
    (hf : f.isNotReady = false) (h : ∀ v, value = some v → ∀ s, P s → Q v s) :
    Yields P (require value f range) Q := by
  cases value with
  | none => exact yields_refuse range hf
  | some v => exact yields_pure (h v rfl)

/-- A loop: what holds after some rounds is carried on by the next one. -/
theorem yields_loop {f : β → Emit Unit} {P : List β → Compiler → Prop} :
    ∀ {as : List β} {before : List β},
      (∀ first a rest, as = first ++ a :: rest →
        Yields (P (before ++ first)) (f a) fun _ => P (before ++ first ++ [a])) →
      Yields (P before)
        (forIn as PUnit.unit fun a _ => do f a; pure (ForInStep.yield PUnit.unit))
        fun _ => P (before ++ as) := by
  intro as
  induction as with
  | nil =>
    intro before _ o s hs
    rw [List.append_nil]
    exact hs
  | cons a as ih =>
    intro before h
    rw [List.forIn_cons]
    have hfirst := h [] a as rfl
    rw [List.append_nil] at hfirst
    refine Yields.bind (hfirst.bind fun _ => yields_pure
      (Q := fun r s => r = ForInStep.yield PUnit.unit ∧ P (before ++ [a]) s) fun _ hs => ⟨rfl, hs⟩)
      fun r => Yields.assume fun hr => ?_
    subst hr
    -- what is done by now is counted to what was done before the loop
    have hrest := @ih (before ++ [a]) fun first x rest hx => by
      have := h (a :: first) x rest (by rw [hx]; rfl)
      simpa only [List.append_assoc, List.singleton_append] using this
    simpa only [List.append_assoc, List.singleton_append] using hrest

/-- A loop keeps what each of its rounds keeps. -/
theorem yields_forIn {as : List β} {f : β → Emit Unit} (h : ∀ a ∈ as, Yields P (f a) fun _ => P) :
    Yields P (forIn as PUnit.unit fun a _ => do f a; pure (ForInStep.yield PUnit.unit))
      fun _ => P :=
  @yields_loop _ f (fun _ => P) as [] fun first a rest hx => h a (by rw [hx]; simp)

end Emit

/-! ## Collecting -/

def Compiler.collected (s : Compiler) (id : EntityId) (site : Site) : List Dependency :=
  let useSite : UseSite :=
    { tree := s.modules, view := { module := site.module }
      pendingBrings := Emit.pendingFor s id site }
  (site.decl.uses site.decl.body.kind.firstPhase).flatMap useSite.dependencies

namespace EntityGraph

/-- Collecting changes the dependencies of one entity. -/
theorem get?_addDeps (id : EntityId) (deps : List Dependency) :
    ∀ (g : EntityGraph) (j : EntityId) (e : Entity), g.get? j = some e →
      ∃ more, (g.addDeps id deps).get? j = some { e with deps := more } ∧
        (j ≠ id → more = e.deps) := by
  induction deps with
  | nil => intro g j e he; exact ⟨e.deps, he, fun _ => rfl⟩
  | cons d deps ih =>
    intro g j e he
    by_cases hj : j = id
    · subst hj
      obtain ⟨more, hmore, -⟩ := ih (g.addDep j d) j (e.addDep j d) (by
        rw [addDep, get?_modify, if_pos rfl, he]; rfl)
      refine ⟨more, ?_, fun h => absurd rfl h⟩
      rw [addDeps, List.foldl_cons]
      unfold Entity.addDep at hmore
      split at hmore <;> exact hmore
    · obtain ⟨more, hmore, hsame⟩ := ih (g.addDep id d) j e (by
        rw [addDep, get?_modify, if_neg (Ne.symm hj), he])
      exact ⟨more, hmore, hsame⟩

theorem mem_mergeDep (d : Dependency) : ∀ deps : List Dependency,
    ∃ d' ∈ Entity.mergeDep d deps, d'.entity = d.entity ∧ d'.phase = d.phase
  | [] => ⟨d, List.mem_singleton.mpr rfl, rfl, rfl⟩
  | x :: rest => by
    unfold Entity.mergeDep
    split
    · rename_i hx
      exact ⟨_, List.mem_cons_self, hx⟩
    · obtain ⟨d', hd', h⟩ := mem_mergeDep d rest
      exact ⟨d', List.mem_cons_of_mem x hd', h⟩

theorem mem_mergeDep_of_mem (d : Dependency) {x : Dependency} : ∀ {deps : List Dependency},
    x ∈ deps → ∃ d' ∈ Entity.mergeDep d deps, d'.entity = x.entity ∧ d'.phase = x.phase
  | y :: rest, hx => by
    unfold Entity.mergeDep
    rcases List.mem_cons.mp hx with rfl | hx
    · split
      · exact ⟨_, List.mem_cons_self, rfl, rfl⟩
      · exact ⟨x, List.mem_cons_self, rfl, rfl⟩
    · split
      · exact ⟨x, List.mem_cons_of_mem _ hx, rfl, rfl⟩
      · obtain ⟨d', hd', h⟩ := mem_mergeDep_of_mem d hx
        exact ⟨d', List.mem_cons_of_mem y hd', h⟩

theorem retains_addDep (g : EntityGraph) (id : EntityId) (d : Dependency) :
    g.Retains (g.addDep id d) := by
  rintro j y p ⟨e, he, x, hx, hy, hp⟩
  by_cases hj : id = j
  · refine ⟨e.addDep id d, ?_, ?_⟩
    · rw [addDep, get?_modify, if_pos hj, he]
      rfl
    · unfold Entity.addDep
      split
      · exact ⟨x, hx, hy, hp⟩
      · obtain ⟨d', hd', hentity, hphase⟩ := mem_mergeDep_of_mem d hx
        exact ⟨d', hd', hentity.trans hy, hphase.trans hp⟩
  · refine ⟨e, ?_, x, hx, hy, hp⟩
    rw [addDep, get?_modify, if_neg hj, he]

theorem records_addDep {g : EntityGraph} {id : EntityId} {e : Entity} (he : g.get? id = some e)
    {d : Dependency} (hd : d.entity ≠ id) : (g.addDep id d).Records id d.entity d.phase := by
  refine ⟨e.addDep id d, ?_, ?_⟩
  · rw [addDep, get?_modify, if_pos rfl, he]
    rfl
  · unfold Entity.addDep
    rw [if_neg hd]
    exact mem_mergeDep d e.deps

theorem retains_addDeps (id : EntityId) (deps : List Dependency) :
    ∀ g : EntityGraph, g.Retains (g.addDeps id deps) := by
  induction deps with
  | nil => intro g; exact .refl g
  | cons d deps ih => intro g; exact (g.retains_addDep id d).trans (ih _)

/-- What is collected is recorded, unless it is the entity itself. -/
theorem records_addDeps {id : EntityId} {d : Dependency} (hself : d.entity ≠ id) :
    ∀ {deps : List Dependency} {g : EntityGraph} {e : Entity}, d ∈ deps → g.get? id = some e →
      (g.addDeps id deps).Records id d.entity d.phase
  | x :: deps, g, e, hd, he => by
    rcases List.mem_cons.mp hd with rfl | hd
    · exact retains_addDeps id deps _ _ _ _ (records_addDep he hself)
    · refine records_addDeps (g := g.addDep id x) (e := e.addDep id x) hself hd ?_
      rw [addDep, get?_modify, if_pos rfl, he]
      rfl

theorem Regathered.addDeps {g g' : EntityGraph} {id : EntityId} (h : g.Regathered g')
    (hid : ∀ e, g.get? id = some e → e.nextPhase? ≠ none) (deps : List Dependency) :
    g.Regathered (g'.addDeps id deps) := by
  refine ⟨(size_addDeps ..).trans h.size, fun j e he => ?_, 
    h.retains.trans (retains_addDeps id deps g')⟩
  obtain ⟨old, hold, hfin⟩ := h.entity j e he
  obtain ⟨more, hmore, hsame⟩ := get?_addDeps id deps g' j _ hold
  refine ⟨more, hmore, fun hn => ?_⟩
  have hj : j ≠ id := by
    rintro rfl
    exact hid e he hn
  exact (hsame hj).trans (hfin hn)

end EntityGraph

/-! ## Bringing -/

/-- The second tree holds no items that the first one does not hold. -/
def ModuleTree.Spreads (t t' : ModuleTree) : Prop := ∀ P, t.Fits P → t'.Fits P

theorem ModuleTree.Spreads.refl (t : ModuleTree) : t.Spreads t := fun _ h => h

theorem ModuleTree.Spreads.trans {a b c : ModuleTree} (h : a.Spreads b) (h' : b.Spreads c) :
    a.Spreads c :=
  fun P hP => h' P (h P hP)

def ModuleTree.Has (t : ModuleTree) (found : Resolved) : Prop :=
  ∀ i, found = .item i → ∀ P, t.Fits P → i.vis.type? = none ∧ P i

def Outer.At (ω : Outer) (s : Compiler) : Prop := s.outer = ω ∧ s.frames = []

/-- The outer part with another tree, which holds the same items. -/
def Outer.Spread (ω : Outer) (s : Compiler) : Prop :=
  ∃ t, ω.modules.Spreads t ∧ Outer.At { ω with modules := t } s

theorem Outer.Spread.trans {ω : Outer} {t : ModuleTree} {s : Compiler}
    (hs : Outer.Spread { ω with modules := t } s) (ht : ω.modules.Spreads t) : ω.Spread s := by
  obtain ⟨t', ht', hs⟩ := hs
  exact ⟨t', ht.trans ht', hs⟩

namespace Emit

variable {ω : Outer} {α : Type} {Q : α → Compiler → Prop}

theorem yields_refuseBring (e : ResolveError) {P : Compiler → Prop} :
    Yields P (refuseBring e) Q := by
  unfold refuseBring
  split
  · exact yields_refuse _ rfl
  · exact yields_refuse _ rfl

theorem yields_orRefuseBring {P : Compiler → Prop} {result : Except ResolveError α}
    (h : ∀ v, result = .ok v → ∀ s, P s → Q v s) : Yields P (orRefuseBring result) Q := by
  cases result with
  | error e => exact yields_refuseBring e
  | ok v => exact yields_pure (h v rfl)

theorem yields_modules {P : Compiler → Prop} {Q : ModuleTree → Compiler → Prop}
    (h : ∀ s, P s → Q s.modules s) : Yields P modules Q :=
  fun _ s hs => h s hs

theorem yields_bringModule {b : BroughtModule} (module : ModId) (hv : b.vis.type? = none) :
    Yields ω.At (bringModule module b) fun _ => ω.Spread := by
  refine yields_modify fun s hs => ⟨_, fun P hP => hP.addBroughtModule module hv, ?_, hs.2⟩
  obtain ⟨rfl, -⟩ := hs
  rfl

theorem yields_bringResolved {found : Resolved} {vis : Visibility} (module : ModId) (name : Ident)
    (range : Span) (hfound : ω.modules.Has found) (hv : vis.type? = none) :
    Yields ω.At (bringResolved module found name vis range) fun _ => ω.Spread := by
  cases found with
  | module target => exact yields_bringModule module hv
  | item item =>
    unfold bringResolved
    refine Yields.bind (Q := fun s s' => s' = s ∧ ω.At s) (yields_get fun s hs => ⟨rfl, hs⟩)
      fun s => ?_
    split
    · rename_i t ht
      refine yields_set ?_
      rintro _ ⟨rfl, rfl, hframes⟩
      refine ⟨t, fun P hP => hP.addBroughtEntity hv (hfound item rfl P hP) ht, rfl, hframes⟩
    · exact yields_refuse _ rfl

/-- An action from whatever tree there is. -/
theorem Yields.spread {a : Emit α} (h : ∀ t, ω.modules.Spreads t →
      Yields (Outer.At { ω with modules := t }) a Q) : Yields ω.Spread a Q := by
  rintro o s ⟨t, ht, hs⟩
  exact h t ht o s hs

theorem yields_bringMembers {vis : Visibility} (view : Viewpoint) (target : ModId)
    (hv : vis.type? = none) : ∀ names : List BroughtName,
      Yields ω.Spread (bringMembers view target vis names) fun _ => ω.Spread
  | [] => yields_pure fun _ hs => hs
  | n :: rest => by
    refine Yields.spread fun t ht => ?_
    refine Yields.bind (Q := fun m s => m = t ∧ Outer.At { ω with modules := t } s)
      (yields_modules fun s hs => ⟨congrArg Outer.modules hs.1, hs⟩) fun m => ?_
    refine Yields.assume ?_
    rintro rfl
    refine Yields.bind (Q := fun r s => m.findIn target n.name view = .ok r ∧
      Outer.At { ω with modules := m } s) (yields_orRefuseBring fun r hr s hs => ⟨hr, hs⟩)
      fun r => Yields.assume fun hr => ?_
    cases r with
    | none =>
      refine Yields.bind (Q := fun _ _ => False) (yields_refuseBring _) fun _ _ _ hs => ?_
      exact hs.elim
    | some found =>
      refine (yields_bringResolved view.module _ _ (fun i hi P hP => ?_) hv).bind fun _ => ?_
      · subst hi
        exact hP.findIn hr
      · refine (yields_bringMembers view target hv rest).mono (fun s hs => ?_) fun _ _ h => h
        exact Outer.Spread.trans hs ht

theorem yields_bringItem {vis : Visibility} (view : Viewpoint) (hv : vis.type? = none)
    (item : BringItem) : Yields ω.Spread (bringItem view vis item) fun _ => ω.Spread := by
  refine Yields.spread fun t ht => ?_
  have hmodules : Yields (Outer.At { ω with modules := t }) modules
      fun m s => m = t ∧ Outer.At { ω with modules := t } s :=
    yields_modules fun s hs => ⟨congrArg Outer.modules hs.1, hs⟩
  have hspread {s : Compiler} (hs : Outer.Spread { ω with modules := t } s) : ω.Spread s := hs.trans ht
  cases item with
  | path path asName =>
    refine hmodules.bind fun m => Yields.assume fun hm => ?_
    subst hm
    refine Yields.bind (Q := fun found s => m.resolve view.module path view = .ok found ∧
      Outer.At { ω with modules := m } s) (yields_orRefuseBring fun found hr s hs => ⟨hr, hs⟩)
      fun found => Yields.assume fun hr => ?_
    refine Yields.bind (Q := fun _ => Outer.At { ω with modules := m })
      (yields_require _ rfl fun _ _ _ hs => hs) fun name => ?_
    refine (yields_bringResolved view.module _ _ (fun i hi P hP => ?_) hv).mono (fun _ hs => hs)
      fun _ _ hs => hspread hs
    subst hi
    exact hP.resolve hr
  | members source names =>
    refine hmodules.bind fun m => Yields.assume fun hm => ?_
    subst hm
    refine Yields.bind (Q := fun _ => Outer.At { ω with modules := m })
      (yields_orRefuseBring fun _ _ _ hs => hs) fun target => ?_
    exact (yields_bringMembers view target hv names).mono (fun _ hs => ⟨m, ht, hs⟩)
      fun _ _ hs => hs
  | file path asName range =>
    refine hmodules.bind fun m => Yields.assume fun hm => ?_
    subst hm
    refine Yields.bind (Q := fun _ => Outer.At { ω with modules := m })
      (yields_require _ rfl fun _ _ _ hs => hs) fun target => ?_
    exact (yields_bringModule view.module hv).mono (fun _ hs => hs) fun _ _ hs => hspread hs

end Emit

/-- The outer part after collecting anew for unfinished entities. -/
def Outer.Regathered (ω : Outer) (s : Compiler) : Prop :=
  ∃ g pendingBrings, ω.entities.Regathered g ∧
    Outer.At { ω with entities := g, pendingBrings } s

namespace Emit

variable {ω : Outer}

theorem yields_siteOf {P : Compiler → Prop} (id : EntityId) :
    Yields P (siteOf id) fun site s => s.sites[id]? = some site ∧ P s := by
  unfold siteOf
  refine Yields.bind (Q := fun s s' => s' = s ∧ P s) (yields_get fun s hs => ⟨rfl, hs⟩) fun s => ?_
  split
  · rename_i site hsite
    refine yields_pure ?_
    rintro _ ⟨rfl, hs⟩
    exact ⟨hsite, hs⟩
  · exact yields_breach _

/-- Collecting adds what the uses of the declaration mean to one entity's dependencies. -/
theorem yields_collectDependencies {P Q : Compiler → Prop} {id : EntityId}
    (h : ∀ s site, P s → s.sites[id]? = some site →
      Q { s with entities := s.entities.addDeps id (s.collected id site) }) :
    Yields P (collectDependencies id) fun _ => Q := by
  unfold collectDependencies
  refine (yields_siteOf id).bind fun site => ?_
  refine Yields.bind (Q := fun s s' => s' = s ∧ s.sites[id]? = some site ∧ P s)
    (yields_get fun s hs => ⟨rfl, hs⟩) fun s => yields_set ?_
  rintro _ ⟨rfl, hsite, hs⟩
  exact h _ site hs hsite

theorem Outer.Regathered.collected {s : Compiler} {id : EntityId} (hs : ω.Regathered s)
    (hid : ∀ e, ω.entities.get? id = some e → e.nextPhase? ≠ none) (deps : List Dependency) :
    ω.Regathered { s with entities := s.entities.addDeps id deps } := by
  obtain ⟨g, pendingBrings, hg, hs, hframes⟩ := hs
  refine ⟨g.addDeps id deps, pendingBrings, hg.addDeps hid deps, ?_, hframes⟩
  have hentities : s.entities = g := congrArg Outer.entities hs
  subst hentities
  exact congrArg (fun o : Outer => { o with entities := s.entities.addDeps id deps }) hs

theorem unfinished_of_mem_waitingFor {g : EntityGraph} {id j : EntityId}
    (hj : j ∈ waitingFor g id) {e : Entity} (he : g.get? j = some e) : e.nextPhase? ≠ none := by
  simp only [waitingFor, List.mem_map, List.mem_filter, Prod.exists, exists_eq_right,
    List.mk_mem_zipIdx_iff_getElem?] at hj
  obtain ⟨e', he', h⟩ := hj
  rw [show g.get? j = g.entities.toList[j]? by simp [EntityGraph.get?], he'] at he
  cases he
  simp only [Bool.and_eq_true, Bool.not_eq_true', Entity.isFinished] at h
  intro hn
  rw [hn] at h
  cases h.1.1

theorem yields_settleBring (id : EntityId) :
    Yields ω.At (settleBring id) fun _ => ω.Regathered := by
  unfold settleBring
  refine Yields.bind (Q := fun _ s => s.entities = ω.entities ∧ ω.Regathered s)
    (yields_modify fun s hs => ?_) fun _ => ?_
  · obtain ⟨rfl, hframes⟩ := hs
    exact ⟨rfl, _, _, .refl _, rfl, hframes⟩
  · refine Yields.bind (Q := fun v s => v.entities = ω.entities ∧ ω.Regathered s)
      (yields_get fun _ hs => hs) fun v => Yields.assume fun hv => ?_
    rw [hv]
    refine Yields.bind (yields_forIn fun j hj => yields_collectDependencies fun s site hs _ => ?_)
      fun _ => yields_pure fun _ hs => hs
    exact Outer.Regathered.collected hs (fun e he => unfinished_of_mem_waitingFor hj he) _

/-- A bring spreads items of the tree, becomes a bring, and has dependencies collected anew. -/
theorem yields_bring (view : Viewpoint) (id : EntityId) (d : BringDecl) :
    Yields ω.At (bring view id d) fun _ s => ∃ t, ω.modules.Spreads t ∧
      Outer.Regathered { ω with modules := t, symbols := (id, .bring) :: ω.symbols } s := by
  unfold bring
  refine Yields.bind (Q := fun t s => ω.At s) (yields_modules fun _ hs => hs) fun t => ?_
  refine Yields.bind (Q := fun _ => ω.Spread) ((yields_forIn fun item _ =>
    yields_bringItem view (t.type?_visibility d.vis view.module) item).mono
      (fun s hs => ⟨ω.modules, .refl _, hs⟩) fun _ _ hs => hs) fun _ => ?_
  refine Yields.spread fun t' ht' => ?_
  refine Yields.bind (Q := fun _ => Outer.At
    { ω with modules := t', symbols := (id, .bring) :: ω.symbols })
    (yields_modify fun s hs => ⟨?_, hs.2⟩) fun _ => ?_
  · exact congrArg (fun o : Outer => { o with symbols := (id, .bring) :: o.symbols }) hs.1
  · exact (yields_settleBring id).mono (fun _ hs => hs) fun _ _ hs => ⟨t', ht', hs⟩

end Emit

end Staged
