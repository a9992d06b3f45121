/-
  Staged.Proofs.Modules.Naming — what is done when names are declared and brought.

  Registering a program, declaring a name and bringing one read and write modules, entities
  and their declarations, symbols, and the brings that are to come. The tree changes only by
  what `ModuleTree.Change` lists, each change after its own look for names that are taken, and
  the graph of entities only by what `Edit` lists. So a fact about the state outlasts all of that
  if the changes and edits keep it and it is about nothing else of these (`Compiler.Lasting`),
  also when such an action fails half way. A bring adds no entities and declaring a name asks
  for none, so for each of them some of the edits are enough (`Compiler.Standing`,
  `Compiler.Enrolling`). In particular the type table stays as it is (`Emit.Ignores`).

  Main statements: `Emit.maintains_registerProgram`, `Emit.maintains_bring`.
-/

import Staged.Compile
import Staged.Proofs.Lowering.Logic
import Staged.Proofs.Modules.Scope
import Staged.Proofs.Schedule.Run

open Std.Do

namespace Staged

structure Compiler.Lasting (P : Compiler → Prop) : Prop where
  tree : ∀ {s : Compiler} {t : ModuleTree}, P s → s.modules.Change t → P { s with modules := t }
  rest : ∀ {s : Compiler} {entities : EntityGraph} {sites : Array Site}
    {symbols : List (EntityId × Symbol)} {pendingBrings : List (ModId × EntityId)},
    P s → Edits s.entities entities → P { s with entities, sites, symbols, pendingBrings }

structure Compiler.TreeSafe (P : Compiler → Prop) : Prop where
  tree : ∀ {s : Compiler} {t : ModuleTree}, P s → s.modules.Change t → P { s with modules := t }

structure Compiler.Standing (P : Compiler → Prop) : Prop extends Compiler.TreeSafe P where
  rest : ∀ {s : Compiler} {entities : EntityGraph} {symbols : List (EntityId × Symbol)}
    {pendingBrings : List (ModId × EntityId)}, P s → Edits s.entities entities →
      entities.size = s.entities.size → P { s with entities, symbols, pendingBrings }

structure Compiler.Enrolling (P : Compiler → Prop) : Prop extends Compiler.TreeSafe P where
  rest : ∀ {s : Compiler} (name : Option Ident) (kind : EntityKind) (module : ModId) (range : Span)
    {sites : Array Site} {pendingBrings : List (ModId × EntityId)}, P s →
      P { s with entities := (s.entities.add name kind module range).1, sites, pendingBrings }

theorem Compiler.Lasting.standing {P : Compiler → Prop} (h : Compiler.Lasting P) :
    Compiler.Standing P where
  tree := h.tree
  rest hs hedits _ := h.rest hs hedits

theorem Compiler.Lasting.enrolling {P : Compiler → Prop} (h : Compiler.Lasting P) :
    Compiler.Enrolling P where
  tree := h.tree
  rest _ _ _ _ _ _ hs := h.rest hs (.single (.add ..))

/-- How the tree has come of another one lasts. -/
theorem Compiler.lasting_changes (t : ModuleTree) :
    Compiler.Lasting fun s => t.Changes s.modules :=
  ⟨fun h hchange => h.tail hchange, fun h _ => h⟩

/-- So does how the graph has come of another one. -/
theorem Compiler.lasting_edits (g : EntityGraph) : Compiler.Lasting fun s => Edits g s.entities :=
  ⟨fun h _ => h, fun h hedits => h.trans hedits⟩

/-- Names leave the types alone. -/
theorem Compiler.lasting_types (t : TypeTable) : Compiler.Lasting fun s => s.types = t :=
  ⟨fun h _ => h, fun h _ => h⟩

namespace Emit

variable {α β σ : Type} {P : Compiler → Prop}

/-! ## Rules -/

/-- What a triple says of both ends of an action holds of the state it ends with. -/
theorem state_of_triple {a : Emit α} {Q : α → Compiler → Prop} {E : Failure → Compiler → Prop}
    {R : Compiler → Prop} {o : Options} {s : Compiler}
    (h : ⦃fun _ s => ⌜P s⌝⦄ a ⦃post⟨fun v _ s => ⌜Q v s⌝, fun f s => ⌜E f s⌝⟩⦄)
    (hQ : ∀ v s', Q v s' → R s') (hE : ∀ f s', E f s' → R s') (hs : P s) : R (a o s).state := by
  have hrun := triple_iff.mp h o s hs
  cases hr : a o s with
  | ok v s' =>
    rw [hr] at hrun
    exact hQ v s' hrun
  | error f s' =>
    rw [hr] at hrun
    exact hE f s' hrun

/-- Where an action starts with something that holds, it ends with it, however it ends. -/
def Maintains (P : Compiler → Prop) (a : Emit α) : Prop := ∀ o s, P s → P (a o s).state

theorem Maintains.bind {a : Emit α} {k : α → Emit β} (ha : Maintains P a)
    (hk : ∀ v, Maintains P (k v)) : Maintains P (a >>= k) := by
  intro o s hs
  have h := ha o s hs
  rw [bind_apply]
  cases hr : a o s with
  | ok v s' =>
    rw [hr] at h
    exact hk v o s' h
  | error f s' =>
    rw [hr] at h
    exact h

theorem maintains_pure (v : α) : Maintains P (pure v) := fun _ _ hs => hs

theorem maintains_get {k : Compiler → Emit β} (h : ∀ s, P s → Maintains P (k s)) :
    Maintains P (get >>= k) := fun o s hs => h s hs o s hs

theorem maintains_set {s' : Compiler} (h : P s') : Maintains P (set s') := fun _ _ _ => h

theorem maintains_modify {f : Compiler → Compiler} (h : ∀ s, P s → P (f s)) :
    Maintains P (modify f) := fun _ s hs => h s hs

theorem maintains_refuse (f : Fault) (range : Span) : Maintains P (refuse f range : Emit α) :=
  fun _ _ hs => hs

theorem maintains_breach (b : Breach) : Maintains P (breach b : Emit α) := fun _ _ hs => hs

theorem maintains_require (value : Option α) (f : Fault) (range : Span) :
    Maintains P (require value f range) := by
  cases value with
  | none => exact maintains_refuse f range
  | some v => exact maintains_pure v

theorem maintains_forIn {f : β → Emit Unit} (h : ∀ b, Maintains P (f b)) : ∀ bs : List β,
    Maintains P (forIn bs PUnit.unit fun b _ => do f b; pure (ForInStep.yield PUnit.unit))
  | [] => maintains_pure _
  | b :: bs => by
    rw [List.forIn_cons, bind_assoc]
    exact (h b).bind fun _ => maintains_forIn h bs

def MaintainsBeside (P : Compiler → Prop) (a : StateT σ Emit α) : Prop :=
  ∀ own, Maintains P (a.run own)

theorem MaintainsBeside.bind {a : StateT σ Emit α} {k : α → StateT σ Emit β}
    (ha : MaintainsBeside P a) (hk : ∀ v, MaintainsBeside P (k v)) :
    MaintainsBeside P (a >>= k) := by
  intro own
  rw [StateT.run_bind]
  exact (ha own).bind fun r => hk r.1 r.2

theorem maintainsBeside_pure (v : α) : MaintainsBeside P (pure v : StateT σ Emit α) :=
  fun _ => maintains_pure _

theorem maintainsBeside_mapM {f : β → StateT σ Emit α} (h : ∀ b, MaintainsBeside P (f b)) :
    ∀ bs : List β, MaintainsBeside P (bs.mapM f)
  | [] => by
    rw [List.mapM_nil]
    exact maintainsBeside_pure []
  | b :: bs => by
    rw [List.mapM_cons]
    exact (h b).bind fun v => (maintainsBeside_mapM h bs).bind fun vs => maintainsBeside_pure _

/-! ## Names and dependencies -/

theorem maintains_registerName (hP : Compiler.TreeSafe P) (id : EntityId) (site : Site) :
    Maintains P (registerName id site) := by
  unfold registerName
  split
  · exact maintains_pure _
  · refine maintains_get fun s hs => ?_
    dsimp only
    split
    · rename_i hadd
      exact maintains_set (hP.tree hs (.addItem hadd))
    · exact maintains_refuse _ _

theorem maintains_siteOf (id : EntityId) : Maintains P (siteOf id) := by
  refine maintains_get fun s _ => ?_
  split
  · exact maintains_pure _
  · exact maintains_breach _

section

variable (hP : Compiler.Standing P)
include hP

theorem maintains_collectDependencies (id : EntityId) :
    Maintains P (collectDependencies id) := by
  refine (maintains_siteOf id).bind fun _ => maintains_get fun s hs => ?_
  exact maintains_set (hP.rest hs (edits_addDeps ..) (EntityGraph.size_addDeps ..))

/-! ## Brings -/

theorem maintains_bringModule (module : ModId) (b : BroughtModule) :
    Maintains P (bringModule module b) :=
  maintains_modify fun _ hs => hP.tree hs .addBroughtModule

theorem maintains_bringResolved (module : ModId) (found : Resolved) (name : Ident)
    (vis : Visibility) (range : Span) :
    Maintains P (bringResolved module found name vis range) := by
  cases found with
  | module target => exact maintains_bringModule hP module _
  | item item =>
    refine maintains_get fun s hs => ?_
    split
    · rename_i hadd
      exact maintains_set (hP.tree hs (.addBroughtEntity hadd))
    · exact maintains_refuse _ _

omit hP in
theorem maintains_modules : Maintains P modules := fun _ _ hs => hs

omit hP in
theorem maintains_refuseBring (e : ResolveError) : Maintains P (refuseBring e : Emit α) := by
  unfold refuseBring
  split <;> exact maintains_refuse _ _

omit hP in
theorem maintains_orRefuseBring (result : Except ResolveError α) :
    Maintains P (orRefuseBring result) := by
  cases result with
  | ok a => exact maintains_pure a
  | error e => exact maintains_refuseBring e

theorem maintains_bringMembers (view : Viewpoint) (target : ModId) (vis : Visibility) :
    ∀ names : List BroughtName, Maintains P (bringMembers view target vis names)
  | [] => maintains_pure _
  | n :: rest => by
    unfold bringMembers
    refine maintains_modules.bind fun tree => (maintains_orRefuseBring _).bind fun found => ?_
    have hbrings (found : Resolved) := (maintains_bringResolved hP view.module found
      (n.asName.getD n.name) vis n.name.range).bind fun _ =>
        maintains_bringMembers view target vis rest
    cases found with
    | none => exact (maintains_refuseBring _).bind hbrings
    | some found => exact (maintains_pure found).bind hbrings

theorem maintains_bringItem (view : Viewpoint) (vis : Visibility) (item : BringItem) :
    Maintains P (bringItem view vis item) := by
  cases item with
  | path path asName =>
    exact maintains_modules.bind fun _ => (maintains_orRefuseBring _).bind fun found =>
      (maintains_require _ _ _).bind fun name => maintains_bringResolved hP _ found name vis _
  | members source names =>
    exact maintains_modules.bind fun _ => (maintains_orRefuseBring _).bind fun target =>
      maintains_bringMembers hP view target vis names
  | file path asName range =>
    exact maintains_modules.bind fun _ => (maintains_require _ _ _).bind fun _ =>
      maintains_bringModule hP _ _

theorem maintains_settleBring (id : EntityId) : Maintains P (settleBring id) := by
  unfold settleBring
  refine Maintains.bind (maintains_modify fun s hs => ?_) fun _ => maintains_get fun s _ => ?_
  · exact hP.rest hs .refl rfl
  · exact (maintains_forIn (maintains_collectDependencies hP) _).bind fun _ => maintains_pure _

theorem maintains_bring (view : Viewpoint) (id : EntityId) (d : BringDecl) :
    Maintains P (bring view id d) := by
  refine maintains_modules.bind fun _ =>
    (maintains_forIn (maintains_bringItem hP view _) d.items).bind fun _ =>
      Maintains.bind (maintains_modify fun s hs => ?_) fun _ => maintains_settleBring hP id
  exact hP.rest hs .refl rfl

end

section

variable (hP : Compiler.Enrolling P)
include hP

/-! ## Registering -/

theorem maintains_registerEntity (module : ModId) (d : EntityDecl) :
    Maintains P (registerEntity module d) := by
  unfold registerEntity
  refine maintains_get fun s hs => Maintains.bind (maintains_set ?_) fun _ => ?_
  · exact hP.rest _ _ _ _ hs
  split
  · exact maintains_modify fun _ hs => hP.tree hs .addGuarded
  · exact maintains_registerName hP.toTreeSafe _ _
  · exact maintains_pure _

/-- A lib is listed after its name was looked for, and is seen by others after that. -/
theorem maintains_registerLib (parent : ModId) (name : Ident) (vis : VisSpec)
    (guard : Option Expr) : Maintains P (registerLib parent name vis guard) := by
  unfold registerLib
  have hrest : Maintains P (registerLib parent name vis none) := by
    refine maintains_get fun s hs => ?_
    dsimp only
    split
    · exact maintains_refuse _ _
    · rename_i hfree
      let file := ((s.modules.get? parent).map Mod.file).getD 0
      let path := (s.modules.get? parent).bind Mod.path
      let made := s.modules.addModule name .lib (some parent) file path
      have hlisted : P { s with modules := made.1 } := hP.tree hs (.addLib hfree)
      refine Maintains.bind (maintains_set ?_) fun _ => maintains_pure _
      exact hP.tree (s := { s with modules := made.1 }) hlisted .setVis
  cases guard with
  | none => exact hrest
  | some g => exact (maintains_refuse _ _).bind fun _ => hrest

end

mutual

theorem maintains_registerDecl (hP : Compiler.Enrolling P) (module : ModId) :
    ∀ d : Decl, Maintains P (registerDecl module d)
  | .entity d => by
    rw [registerDecl]
    exact maintains_registerEntity hP module d
  | .lib name vis guard decls _ => by
    rw [registerDecl]
    exact (maintains_registerLib hP module name vis guard).bind fun id =>
      maintains_registerDecls hP id decls

theorem maintains_registerDecls (hP : Compiler.Enrolling P) (module : ModId) :
    ∀ ds : List Decl, Maintains P (registerDecls module ds)
  | [] => by
    rw [registerDecls]
    exact maintains_pure _
  | d :: ds => by
    rw [registerDecls]
    exact (maintains_registerDecl hP module d).bind fun _ => maintains_registerDecls hP module ds

end

/-- The module of a source is a file or a folder. -/
theorem maintainsBeside_make (hP : Compiler.Enrolling P) (source : SourceModule)
    (parent : Option ModId) (index : Nat) :
    MaintainsBeside P (do
      let kind := match source.kind with
        | .file => ModKind.file
        | .folder => .folder
      let name : Ident := ⟨source.name, ⟨source.file, 0, 0⟩⟩
      let s ← getThe Compiler
      let (modules, id) := s.modules.addModule name kind parent source.file source.path
      set { s with modules }
      modify (·.set! index (some id))
      return id : StateT (Array (Option ModId)) Emit ModId) := by
  intro own o s hs
  refine hP.tree hs (.addSource ?_)
  cases source.kind <;> exact nofun

/-- Source modules are created one after another, the ones around a module first. -/
theorem maintainsBeside_sourceModule (hP : Compiler.Enrolling P) (p : Program) :
    ∀ fuel index : Nat, MaintainsBeside P (sourceModule p fuel index) := by
  intro fuel
  induction fuel with
  | zero =>
    intro index
    unfold sourceModule
    refine MaintainsBeside.bind (fun _ => maintains_pure _) fun known => ?_
    cases p.modules[index]? with
    | none => exact fun _ => maintains_breach _
    | some source =>
      cases known[index]?.join with
      | some id => exact maintainsBeside_pure id
      | none => exact fun _ => maintains_breach _
  | succ fuel ih =>
    intro index
    unfold sourceModule
    refine MaintainsBeside.bind (fun _ => maintains_pure _) fun known => ?_
    cases p.modules[index]? with
    | none => exact fun _ => maintains_breach _
    | some source =>
      cases known[index]?.join with
      | some id => exact maintainsBeside_pure id
      | none =>
        dsimp only
        cases source.parent with
        | none => exact maintainsBeside_make hP source none index
        | some parent =>
          refine MaintainsBeside.bind ?_ fun id => maintainsBeside_make hP source id index
          exact (ih parent).bind fun id => maintainsBeside_pure (some id)

theorem maintains_sourceModules (hP : Compiler.Enrolling P) (p : Program) :
    Maintains P (sourceModules p) :=
  (maintainsBeside_mapM (maintainsBeside_sourceModule hP p _) _ _).bind fun _ => maintains_pure _

/-- What lasts is not ended by registering a program, also if it fails. -/
theorem maintains_registerProgram (hP : Compiler.Lasting P) (p : Program) :
    Maintains P (registerProgram p) := by
  unfold registerProgram
  refine (maintains_sourceModules hP.enrolling p).bind fun ids => ?_
  have hdecls (x : SourceModule × ModId) : Maintains P (registerDecls x.2 x.1.decls) :=
    maintains_registerDecls hP.enrolling x.2 x.1.decls
  refine (maintains_forIn hdecls _).bind fun _ => maintains_get fun s _ => ?_
  exact (maintains_forIn (maintains_collectDependencies hP.standing) _).bind fun _ =>
    maintains_pure _

/-! ## Types -/

section

variable {t : TypeTable}

/-- Where an action starts with this type table, it ends with it, however it ends. -/
def Ignores (t : TypeTable) (a : Emit α) : Prop := ∀ o s, s.types = t → (a o s).state.types = t

theorem ignores_iff {a : Emit α} : Ignores t a ↔ Maintains (fun s => s.types = t) a := .rfl

theorem Ignores.bind {a : Emit α} {k : α → Emit β} (ha : Ignores t a) (hk : ∀ v, Ignores t (k v)) :
    Ignores t (a >>= k) :=
  (ignores_iff.mp ha).bind hk

theorem ignores_pure (v : α) : Ignores t (pure v) := maintains_pure v

theorem ignores_get {k : Compiler → Emit β} (h : ∀ s, s.types = t → Ignores t (k s)) :
    Ignores t (get >>= k) := maintains_get h

theorem ignores_modify {f : Compiler → Compiler} (h : ∀ s, (f s).types = s.types) :
    Ignores t (modify f) := maintains_modify fun s hs => (h s).trans hs

theorem ignores_refuse (f : Fault) (range : Span) : Ignores t (refuse f range : Emit α) :=
  maintains_refuse f range

theorem ignores_breach (b : Breach) : Ignores t (breach b : Emit α) := maintains_breach b

theorem ignores_registerName (id : EntityId) (site : Site) : Ignores t (registerName id site) :=
  maintains_registerName (Compiler.lasting_types t).standing.toTreeSafe id site

theorem ignores_bring (view : Viewpoint) (id : EntityId) (d : BringDecl) :
    Ignores t (bring view id d) :=
  maintains_bring (Compiler.lasting_types t).standing view id d

/-- Registering leaves the type table as it is, also if it fails. -/
theorem ignores_registerProgram (p : Program) : Ignores t (registerProgram p) :=
  maintains_registerProgram (Compiler.lasting_types t) p

end

end Emit

end Staged
