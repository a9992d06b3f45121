/-
  Staged.Proofs.Compile.Register — the state in which the phases begin.

  Registering creates modules, entities and items, and collects dependencies. It gives no
  entity a symbol and writes no code, and no entity has begun (`Compiler.Fresh`). Such a
  state is coherent. Whatever a declaration uses is recorded as a dependency, unless it is
  the declaration itself (`Outer.Gathered`).
-/

import Staged.Proofs.Compile.Gather

namespace Staged

namespace Outer

/-- What the names of a declaration mean in a tree are its dependencies, but for itself. -/
def GatheredFor (ω : Outer) (t : ModuleTree) (j : EntityId) : Prop :=
  ∀ site u y, ω.sites[j]? = some site → u ∈ site.decl.uses site.decl.body.kind.firstPhase →
    t.meant? { module := site.module } u = some y → y = j ∨ ω.entities.Records j y u.phase

def Gathered (ω : Outer) (t : ModuleTree) : Prop := ∀ j, ω.GatheredFor t j

theorem GatheredFor.retains {ω : Outer} {t : ModuleTree} {j : EntityId} {g : EntityGraph}
    (h : ω.GatheredFor t j) (hg : ω.entities.Retains g) :
    GatheredFor { ω with entities := g } t j :=
  fun site u y hsite hu hy => (h site u y hsite hu hy).imp_right (hg j y u.phase)

end Outer

def Compiler.Registered (s : Compiler) (id : EntityId) : Prop :=
  ∃ e site, s.entities.get? id = some e ∧ s.sites[id]? = some site ∧ site.decl.guard = none

structure Compiler.Fresh (code : Core) (s : Compiler) : Prop where
  core : s.core = code
  symbols : s.symbols = []
  frames : s.frames = []
  size : s.sites.size = s.entities.size
  kind : ∀ id site e, s.sites[id]? = some site → s.entities.get? id = some e →
    e.kind = site.decl.body.kind
  pending : ∀ id e, s.entities.get? id = some e → e.status = .pending ∧ e.done = 0
  items : s.modules.Fits fun i => s.Registered i.entity

variable {code : Core} {s : Compiler}

theorem Compiler.fresh_ofOptions (o : Options) :
    (Compiler.ofOptions o).Fresh (Compiler.ofOptions o).core :=
  ⟨rfl, rfl, rfl, rfl, (fun _ _ _ h => by cases h), (fun _ _ h => by cases h),
    ModuleTree.fits_empty⟩

/-- An entity that a graph has after collecting was there before. -/
theorem EntityGraph.get?_of_addDeps {g : EntityGraph} {id j : EntityId} {deps : List Dependency}
    {e : Entity} (he : (g.addDeps id deps).get? j = some e) :
    ∃ e' more, g.get? j = some e' ∧ e = { e' with deps := more } := by
  have hlt : j < g.size := size_addDeps id deps g ▸ lt_size_of_get? he
  obtain ⟨e', he'⟩ : ∃ e', g.get? j = some e' := ⟨_, Array.getElem?_eq_getElem hlt⟩
  obtain ⟨more, hmore, -⟩ := get?_addDeps id deps g j e' he'
  rw [he] at hmore
  exact ⟨e', more, he', Option.some.inj hmore⟩

namespace Compiler.Fresh

theorem coherent (h : s.Fresh code) : s.outer.Coherent where
  size := h.size
  kind := h.kind
  pending id e he _ := (h.pending id e he).1
  begun id e he hd := absurd (h.pending id e he).2 hd
  items := h.items.mono fun i ⟨e, site, he, hsite, hguard⟩ =>
    ⟨e, site, he, hsite, .inr ⟨(h.pending _ e he).2, hguard⟩⟩
  callable id f hf := by
    rw [show s.outer.symbols = [] from h.symbols] at hf
    cases hf

theorem setModules (h : s.Fresh code) {t : ModuleTree} (ht : t.Fits fun i => s.Registered i.entity) :
    Fresh code { s with modules := t } :=
  ⟨h.core, h.symbols, h.frames, h.size, h.kind, h.pending, ht⟩

theorem addDeps (h : s.Fresh code) (id : EntityId) (deps : List Dependency) :
    Fresh code { s with entities := s.entities.addDeps id deps } where
  core := h.core
  symbols := h.symbols
  frames := h.frames
  size := h.size.trans (EntityGraph.size_addDeps ..).symm
  kind j site e hsite he := by
    obtain ⟨e', more, he', rfl⟩ := EntityGraph.get?_of_addDeps he
    exact h.kind j site e' hsite he'
  pending j e he := by
    obtain ⟨e', more, he', rfl⟩ := EntityGraph.get?_of_addDeps he
    exact h.pending j e' he'
  items := h.items.mono fun i ⟨e, site, he, hsite, hguard⟩ => by
    obtain ⟨more, hmore, -⟩ := EntityGraph.get?_addDeps id deps s.entities _ e he
    exact ⟨_, site, hmore, hsite, hguard⟩

/-- A declaration becomes an entity. -/
theorem addEntity (h : s.Fresh code) (module : ModId) (d : EntityDecl)
    (pendingBrings : List (ModId × EntityId)) :
    Fresh code { s with
      entities := (s.entities.add d.body.name? d.body.kind module d.range).1, pendingBrings
      sites := s.sites.push ⟨d, module⟩ } := by
  have hsize : s.sites.size = s.entities.entities.size := h.size
  have hget (j : EntityId) : EntityGraph.get? (s.entities.add d.body.name? d.body.kind module
      d.range).1 j = if j = s.entities.entities.size then
        some { name := d.body.name?, kind := d.body.kind, module, range := d.range }
      else s.entities.get? j := Array.getElem?_push
  have hsite (j : EntityId) : (s.sites.push ⟨d, module⟩)[j]? =
      if j = s.sites.size then some ⟨d, module⟩ else s.sites[j]? := Array.getElem?_push
  refine ⟨h.core, h.symbols, h.frames, ?_, fun j site e hs he => ?_, fun j e he => ?_,
    h.items.mono fun i ⟨e, site, he, hs, hguard⟩ => ⟨e, site, ?_, ?_, hguard⟩⟩
  · simp only [EntityGraph.add, EntityGraph.size, Array.size_push, hsize]
  · rw [hget] at he
    rw [hsite, hsize] at hs
    split at he <;> rename_i hj
    · cases he
      rw [if_pos hj] at hs
      cases hs
      rfl
    · rw [if_neg hj] at hs
      exact h.kind j site e hs he
  · rw [hget] at he
    split at he
    · cases he
      exact ⟨rfl, rfl⟩
    · exact h.pending j e he
  · have hlt : i.entity < s.entities.entities.size := EntityGraph.lt_size_of_get? he
    rw [hget, if_neg hlt.ne]
    exact he
  · have hlt : i.entity < s.sites.size := (Array.getElem?_eq_some_iff.mp hs).1
    rw [hsite, if_neg hlt.ne]
    exact hs

end Compiler.Fresh

namespace Emit

variable {α β σ : Type} {P : Compiler → Prop}

/-! ## Modules -/

/-- An action with a state of its own keeps a property of the compiler. -/
def Builds (P : Compiler → Prop) (a : StateT σ Emit α) : Prop :=
  ∀ t, Yields P (a.run t) fun _ => P

theorem Builds.bind {a : StateT σ Emit α} {k : α → StateT σ Emit β} (ha : Builds P a)
    (hk : ∀ v, Builds P (k v)) : Builds P (a >>= k) := by
  intro t
  rw [StateT.run_bind]
  exact (ha t).bind fun r => hk r.1 r.2

theorem builds_pure (v : α) : Builds P (pure v : StateT σ Emit α) :=
  fun _ => yields_pure fun _ h => h

theorem builds_mapM {f : β → StateT σ Emit α} {bs : List β} (h : ∀ b ∈ bs, Builds P (f b)) :
    Builds P (bs.mapM f) := by
  induction bs with
  | nil =>
    rw [List.mapM_nil]
    exact builds_pure []
  | cons b bs ih =>
    rw [List.mapM_cons]
    refine (h b List.mem_cons_self).bind fun v => ?_
    refine (ih fun x hx => h x (List.mem_cons_of_mem b hx)).bind fun vs => ?_
    exact builds_pure _

/-- Source modules are created one after another, the ones around a module first. -/
theorem builds_sourceModule (p : Program)
    (hadd : ∀ s name kind parent file path, P s →
      P { s with modules := (s.modules.addModule name kind parent file path).1 }) :
    ∀ fuel index : Nat, Builds P (sourceModule p fuel index) := by
  intro fuel
  induction fuel with
  | zero =>
    intro index
    unfold sourceModule
    refine Builds.bind (fun _ => yields_pure fun _ h => h) fun known => ?_
    cases p.modules[index]? with
    | none => exact fun _ => yields_breach _
    | some source =>
      cases known[index]?.join with
      | some id => exact builds_pure id
      | none => exact fun _ => yields_breach _
  | succ fuel ih =>
    intro index
    unfold sourceModule
    refine Builds.bind (fun _ => yields_pure fun _ h => h) fun known => ?_
    cases p.modules[index]? with
    | none => exact fun _ => yields_breach _
    | some source =>
      cases known[index]?.join with
      | some id => exact builds_pure id
      | none =>
        dsimp only
        cases source.parent with
        | none => exact fun _ _ _ hs => hadd _ _ _ _ _ _ hs
        | some parent =>
          refine Builds.bind ?_ fun id => fun _ _ _ hs => hadd _ _ _ _ _ _ hs
          exact (ih parent).bind fun id => builds_pure (some id)

theorem yields_sourceModules (p : Program) :
    Yields (Compiler.Fresh code) (sourceModules p) fun _ => Compiler.Fresh code := by
  unfold sourceModules
  refine Yields.bind (builds_mapM (fun index _ => builds_sourceModule p ?_ _ index) _)
    fun ids => yields_pure fun _ h => h
  exact fun s name kind parent file path h => 
    h.setModules (h.items.addModule name kind parent file path)

/-! ## Declarations -/

/-- The name of a declaration without a guard. -/
theorem yields_registerName {id : EntityId} {site : Site} :
    Yields (fun s => s.Registered id ∧ s.Fresh code) (registerName id site) fun _ =>
      Compiler.Fresh code := by
  unfold registerName
  cases site.decl.body.name? with
  | none => exact yields_pure fun _ h => h.2
  | some name =>
    refine Yields.bind (Q := fun s _ => s.Registered id ∧ s.Fresh code) (yields_get fun _ h => h)
      fun s => ?_
    dsimp only
    cases hadd : s.modules.addItem site.module ⟨name, id, site.decl.body.kind,
        s.modules.visibility site.decl.body.vis site.module none⟩ with
    | error d => exact yields_refuse _ rfl
    | ok t =>
      refine yields_set fun _ h => h.2.setModules ?_
      exact h.2.items.addItem (s.modules.type?_visibility _ _) h.1 hadd

theorem yields_registerEntity (module : ModId) (d : EntityDecl) :
    Yields (Compiler.Fresh code) (registerEntity module d) fun _ => Compiler.Fresh code := by
  unfold registerEntity
  refine Yields.bind (Q := fun s _ => s.Fresh code) (yields_get fun _ h => h) fun s => ?_
  refine Yields.bind (Q := fun _ s' => (d.guard = none → s'.Registered
    s.entities.entities.size) ∧ s'.Fresh code)
    (yields_set fun _ h => ⟨fun hguard => ?_, h.addEntity module d _⟩) fun _ => ?_
  · refine ⟨_, ⟨d, module⟩, Array.getElem?_push_size, ?_, hguard⟩
    have hsize : s.sites.size = s.entities.entities.size := h.size
    dsimp only
    rw [← hsize]
    exact Array.getElem?_push_size
  · split
    · exact yields_modify fun s h => h.2.setModules (h.2.items.addGuarded _ _ _)
    · rename_i hguard
      exact yields_registerName.mono (fun s h => ⟨h.1 hguard, h.2⟩) fun _ _ h => h
    · exact yields_pure fun _ h => h.2

theorem yields_registerLib (parent : ModId) (name : Ident) (vis : VisSpec) (guard : Option Expr) :
    Yields (Compiler.Fresh code) (registerLib parent name vis guard) fun _ =>
      Compiler.Fresh code := by
  unfold registerLib
  cases guard with
  | some g => exact Yields.bind (Q := fun _ _ => False) (yields_refuse _ rfl) fun _ _ _ h => h.elim
  | none =>
    refine Yields.bind (Q := fun s _ => s.Fresh code) (yields_get fun _ h => h) fun s => ?_
    dsimp only
    split
    · exact yields_refuse _ rfl
    · refine Yields.bind (Q := fun _ => Compiler.Fresh code) (yields_set fun _ h => ?_) fun _ =>
        yields_pure fun _ h => h
      refine h.setModules ((h.items.addModule _ _ _ _ _).modify _ fun m hm => ?_)
      exact ⟨ModuleTree.type?_visibility _ _ _, hm.item, hm.brought, hm.broughtEntity⟩

mutual

theorem yields_registerDecl (module : ModId) : ∀ d : Decl,
    Yields (Compiler.Fresh code) (registerDecl module d) fun _ => Compiler.Fresh code
  | .entity d => by
    rw [registerDecl]
    exact yields_registerEntity module d
  | .lib name vis guard decls _ => by
    rw [registerDecl]
    exact (yields_registerLib module name vis guard).bind fun id => yields_registerDecls id decls

theorem yields_registerDecls (module : ModId) : ∀ ds : List Decl,
    Yields (Compiler.Fresh code) (registerDecls module ds) fun _ => Compiler.Fresh code
  | [] => by
    rw [registerDecls]
    exact yields_pure fun _ h => h
  | d :: ds => by
    rw [registerDecls]
    exact (yields_registerDecl module d).bind fun _ => yields_registerDecls module ds

end

/-! ## Dependencies -/

theorem gatheredFor_collected {id : EntityId} {site : Site} (h : s.Fresh code)
    (hsite : s.sites[id]? = some site) :
    Outer.GatheredFor { s.outer with
      entities := s.entities.addDeps id (s.collected id site) } s.modules id := by
  intro site' u y hsite' hu hy
  cases hsite.symm.trans hsite'
  by_cases hself : y = id
  · exact .inl hself
  · obtain ⟨need, hneed⟩ := UseSite.mem_dependencies_of_meant
      { tree := s.modules, view := { module := site.module }
        pendingBrings := pendingFor s id site } hy
    have hlt : id < s.entities.size := h.size ▸ (Array.getElem?_eq_some_iff.mp hsite).1
    exact .inr (EntityGraph.records_addDeps (d := ⟨y, need, u.phase⟩) hself
      (List.mem_flatMap.mpr ⟨u, hu, hneed⟩) (Array.getElem?_eq_getElem hlt))

theorem yields_registerProgram (p : Program) :
    Yields (Compiler.Fresh code) (registerProgram p) fun _ s =>
      s.Fresh code ∧ s.outer.Gathered s.modules := by
  unfold registerProgram
  refine (yields_sourceModules p).bind fun ids => ?_
  refine (yields_forIn fun x _ => yields_registerDecls x.2 x.1.decls).bind fun _ => ?_
  refine Yields.bind (Q := fun s s' => s' = s ∧ s.Fresh code) (yields_get fun _ h => ⟨rfl, h⟩)
    fun s => ?_
  -- so far, the entities before have their dependencies
  let P (before : List EntityId) (s' : Compiler) : Prop := s'.entities.size = s.entities.size ∧
    s'.Fresh code ∧ ∀ j ∈ before, s'.outer.GatheredFor s'.modules j
  refine Yields.bind (Q := fun _ => P (List.range s.entities.size)) (Yields.mono
    (@yields_loop _ collectDependencies P (List.range s.entities.size) [] fun first id rest _ =>
      yields_collectDependencies fun s' site h hsite => ⟨?_, h.2.1.addDeps id _, fun j hj => ?_⟩)
    ?_ fun _ _ h => h) fun _ => yields_pure fun s' h => ⟨h.2.1, fun j site u y hsite => ?_⟩
  · exact (EntityGraph.size_addDeps ..).trans h.1
  · rcases List.mem_append.mp hj with hj | hj
    · exact (h.2.2 j hj).retains (EntityGraph.retains_addDeps id _ s'.entities)
    · rw [List.mem_singleton.mp hj]
      exact gatheredFor_collected h.2.1 hsite
  · rintro _ ⟨rfl, h⟩
    exact ⟨rfl, h, fun j hj => by cases hj⟩
  · refine h.2.2 j (List.mem_range.mpr ?_) site u y hsite
    rw [← h.1, ← h.2.1.size]
    exact (Array.getElem?_eq_some_iff.mp hsite).1

end Emit

end Staged
