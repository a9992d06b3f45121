/-
  Staged.Proofs.Modules.Register — registering a program builds a forest of modules.

  A source may stand in one that is listed after it, so modules are made on demand: first the
  one around, then the module itself. On the way, a source could be given its module a second
  time only if it stood in itself; its first module would then be inside one that is made
  later (`Program.Gives.awaits`). Once every source has its module, the sources stand in one
  another as their modules do, which is without cycles (`Program.Houses.isForest`). What is
  declared then adds nothing but libs, below modules that exist (`Emit.grows_registerDecls`).

  Main statement: `registerProgram_forest`.
-/

import Staged.Proofs.Compile.Refusal
import Staged.Proofs.Modules.Forest

namespace Staged

/-! ## Homes -/

def SourceModule.toMod (source : SourceModule) (parent : Option ModId) : Mod :=
  { name := ⟨source.name, ⟨source.file, 0, 0⟩⟩, parent, file := source.file, path := source.path
    kind := match source.kind with
      | .file => .file
      | .folder => .folder }

/-- Sources that have a home have one of their own, inside that of the source around them.
Only libs are not the home of a source. -/
structure Program.Houses (p : Program) (home : Nat → Option ModId) (t : ModuleTree) : Prop where
  inj : ∀ i j id, home i = some id → home j = some id → i = j
  made : ∀ i id, home i = some id → ∃ source m parent, p.modules[i]? = some source ∧
    t.get? id = some m ∧ m.made = source.toMod parent ∧ source.parent.map home = parent.map some
  lib : ∀ id m, t.get? id = some m → m.kind = .lib ∨ ∃ i, home i = some id

namespace Program.Houses

variable {p : Program} {home : Nat → Option ModId} {t : ModuleTree}

theorem lt_size (h : p.Houses home t) {i : Nat} {id : ModId} (hi : home i = some id) :
    id < t.size := by
  obtain ⟨_, m, _, -, hm, -⟩ := h.made i id hi
  exact ModuleTree.lt_size_of_get? hm

/-- The home of a source stands in that of the source around it. -/
theorem inside (h : p.Houses home t) {i q : Nat} {id : ModId} (hi : home i = some id)
    (hq : p.Inside i q) : ∃ y, home q = some y ∧ t.parent? id = some y := by
  obtain ⟨source, m, parent, hsource, hm, hmade, hparent⟩ := h.made i id hi
  obtain ⟨source', hsource', hq⟩ := hq
  cases hsource.symm.trans hsource'
  rw [hq] at hparent
  obtain ⟨y, rfl, hy⟩ := Option.map_eq_some_iff.mp hparent.symm
  refine ⟨y, hy.symm, ?_⟩
  rw [ModuleTree.parent?_eq_made, hm, Option.map_some, hmade]
  rfl

/-- A source gets a new module, inside the home of the source around it. -/
theorem addModule (h : p.Houses home t) {i : Nat} {source : SourceModule} {parent : Option ModId}
    (hi : home i = none) (hsource : p.modules[i]? = some source)
    (hparent : source.parent.map home = parent.map some) :
    p.Houses (fun j => if j = i then some t.size else home j)
      (t.addModule ⟨source.name, ⟨source.file, 0, 0⟩⟩ (source.toMod parent).kind parent source.file
        source.path).1 := by
  have hlt : ∀ q, parent = some q → q < t.size := by
    rintro q rfl
    obtain ⟨around, -, hq⟩ := Option.map_eq_some_iff.mp hparent
    exact h.lt_size hq
  have hget := ModuleTree.made_addModule ⟨source.name, ⟨source.file, 0, 0⟩⟩
    (source.toMod parent).kind source.file source.path hlt
  -- no home is left or changed
  have hkeep {around : Option Nat} {parent : Option ModId}
      (hup : around.map home = parent.map some) :
      around.map (fun j => if j = i then some t.size else home j) = parent.map some := by
    rw [← hup]
    cases around with
    | none => rfl
    | some j =>
      obtain ⟨y, -, hy⟩ := Option.map_eq_some_iff.mp hup.symm
      rw [Option.map_some, Option.map_some, if_neg]
      rintro rfl
      cases hi.symm.trans hy.symm
  refine ⟨fun a b id ha hb => ?_, fun a id ha => ?_, fun id m hm => ?_⟩
  · split at ha <;> split at hb
    · exact ‹a = i›.trans ‹b = i›.symm
    · cases ha
      exact absurd (h.lt_size hb) (Nat.lt_irrefl _)
    · cases hb
      exact absurd (h.lt_size ha) (Nat.lt_irrefl _)
    · exact h.inj a b id ha hb
  · split at ha
    · rename_i ha'
      cases ha
      have hnew := hget t.size
      rw [if_pos rfl] at hnew
      obtain ⟨m, hm, hmade⟩ := Option.map_eq_some_iff.mp hnew
      exact ⟨source, m, parent, ha' ▸ hsource, hm, hmade, hkeep hparent⟩
    · obtain ⟨source', m, parent', hsource', hm, hmade, hup⟩ := h.made a id ha
      have hold := hget id
      rw [if_neg (Nat.ne_of_lt (h.lt_size ha)), hm] at hold
      obtain ⟨m', hm', hmade'⟩ := Option.map_eq_some_iff.mp hold
      exact ⟨source', m', parent', hsource', hm', hmade'.trans hmade, hkeep hup⟩
  · have hid := hget id
    rw [hm] at hid
    split at hid
    · rename_i hnew
      exact .inr ⟨i, by rw [if_pos rfl, hnew]⟩
    · obtain ⟨m', hm', hmade⟩ := Option.map_eq_some_iff.mp hid.symm
      have hkind : m'.kind = m.kind := (Mod.mk.inj hmade).2.1
      refine (h.lib id m' hm').imp hkind.symm.trans fun ⟨j, hj⟩ => ⟨j, ?_⟩
      rw [if_neg, hj]
      rintro rfl
      cases hi.symm.trans hj

theorem grows (h : p.Houses home t) {t' : ModuleTree} (ht : t.Grows t') : p.Houses home t' where
  inj := h.inj
  made i id hi := by
    obtain ⟨source, m, parent, hsource, hm, hmade, hparent⟩ := h.made i id hi
    obtain ⟨m₀, m', hm₀, hm', hmade'⟩ := ht.get? (ModuleTree.lt_size_of_get? hm)
    cases hm.symm.trans hm₀
    exact ⟨source, m', parent, hsource, hm', hmade'.trans hmade, hparent⟩
  lib id m' hm' := by
    rcases ht.lib id m' hm' with hid | hlib
    · obtain ⟨m, m₀, hm, hm₀, hmade⟩ := ht.get? hid
      cases hm'.symm.trans hm₀
      have hkind : m'.kind = m.kind := (Mod.mk.inj hmade).2.1
      exact (h.lib id m hm).imp_left hkind.trans
    · exact .inl hlib

/-- When every source has a home in a forest, sources stand in one another as their homes do. -/
theorem isForest (h : p.Houses home t) (ht : t.IsForest)
    (hall : ∀ i, i < p.modules.size → ∃ id, home i = some id) : p.IsForest := by
  refine Program.isForest_of_rank (fun i => (home i).getD 0) fun i q hiq => ?_
  obtain ⟨source, hsource, -⟩ := id hiq
  obtain ⟨id, hid⟩ := hall i (Array.getElem?_eq_some_iff.mp hsource).1
  obtain ⟨y, hy, hup⟩ := h.inside hid hiq
  obtain ⟨source', _, _, hsource', -⟩ := h.made q y hy
  refine ⟨(Array.getElem?_eq_some_iff.mp hsource').1, ?_⟩
  rw [hid, hy]
  exact ht.before id y hup

end Program.Houses

/-! ## Making modules on demand -/

structure Program.Housing (p : Program) (known : Array (Option ModId)) (s : Compiler) : Prop where
  size : known.size = p.modules.size
  forest : s.modules.IsForest
  houses : p.Houses (fun i => known[i]?.join) s.modules

structure Program.Gives (p : Program) (before : Array (Option ModId)) (index : Nat) (id : ModId)
    (known : Array (Option ModId)) (s : Compiler) : Prop where
  housing : p.Housing known s
  given : known[index]?.join = some id
  kept : ∀ (i : Nat) y, before[i]?.join = some y → known[i]?.join = some y
  new : ∀ (i : Nat) y, known[i]?.join = some y → before[i]?.join = some y ∨ y ≤ id

structure Program.Awaits (p : Program) (before : Array (Option ModId)) (index : Nat)
    (source : SourceModule) (parent : Option ModId) (known : Array (Option ModId)) (s : Compiler) :
    Prop where
  housing : p.Housing known s
  missing : known[index]?.join = none
  around : (source.parent.map fun i => known[i]?.join) = parent.map some
  kept : ∀ (i : Nat) y, before[i]?.join = some y → known[i]?.join = some y

structure Program.GivesAll (p : Program) (before : Array (Option ModId)) (is : List Nat)
    (ids : List ModId) (known : Array (Option ModId)) (s : Compiler) : Prop where
  housing : p.Housing known s
  given : (is.map fun i => known[i]?.join) = ids.map some
  kept : ∀ (i : Nat) y, before[i]?.join = some y → known[i]?.join = some y

section

variable {p : Program} {before known : Array (Option ModId)} {index : Nat} {s : Compiler}

theorem Program.Gives.of_known {id : ModId} (h : p.Housing known s)
    (hid : known[index]?.join = some id) : p.Gives known index id known s :=
  ⟨h, hid, fun _ _ hi => hi, fun _ _ hi => .inl hi⟩

/-- The home of a source is younger than that of the source around it. So when the latter is
given its home, the former is not. -/
theorem Program.Gives.awaits {q : Nat} {id : ModId} {source : SourceModule}
    (h : p.Gives before q id known s) (hindex : before[index]?.join = none)
    (hsource : p.modules[index]? = some source) (hq : source.parent = some q) :
    p.Awaits before index source (some id) known s := by
  refine ⟨h.housing, ?_, ?_, h.kept⟩
  · by_contra hsome
    obtain ⟨x, hx⟩ := Option.ne_none_iff_exists'.mp hsome
    obtain ⟨y, hy, hup⟩ := h.housing.houses.inside hx ⟨source, hsource, hq⟩
    cases h.given.symm.trans hy
    rcases h.new index x hx with hold | hle
    · cases hindex.symm.trans hold
    · exact absurd (h.housing.forest.before x id hup) (Nat.not_lt_of_le hle)
  · rw [hq, Option.map_some, h.given]
    rfl

theorem Program.Gives.cons {id : ModId} {is : List Nat} {ids : List ModId}
    {known' : Array (Option ModId)} {s' : Compiler} (h : p.Gives before index id known s)
    (hrest : p.GivesAll known is ids known' s') :
    p.GivesAll before (index :: is) (id :: ids) known' s' := by
  refine ⟨hrest.housing, ?_, fun i y hi => hrest.kept i y (h.kept i y hi)⟩
  rw [List.map_cons, List.map_cons, hrest.kept index id h.given, hrest.given]

/-- When all sources have modules, these are all that is known. -/
theorem Program.GivesAll.known_eq {ids : List ModId}
    (h : p.GivesAll before (List.range p.modules.size) ids known s) :
    ids.length = p.modules.size ∧ (fun i : Nat => known[i]?.join) = fun i => ids[i]? := by
  have hlength : ids.length = p.modules.size := by
    have := congrArg List.length h.given
    rw [List.length_map, List.length_map, List.length_range] at this
    exact this.symm
  refine ⟨hlength, funext fun i => ?_⟩
  by_cases hi : i < p.modules.size
  · have hgiven := congrArg (·[i]?) h.given
    rw [List.getElem?_map, List.getElem?_map, List.getElem?_range hi,
      List.getElem?_eq_getElem (hlength ▸ hi)] at hgiven
    rw [List.getElem?_eq_getElem (hlength ▸ hi)]
    exact Option.some.inj hgiven
  · rw [Array.getElem?_eq_none (h.housing.size ▸ Nat.le_of_not_lt hi),
      List.getElem?_eq_none (hlength ▸ Nat.le_of_not_lt hi)]
    rfl

/-- The module of a source comes last. -/
theorem Program.Awaits.make {source : SourceModule} {parent : Option ModId}
    (h : p.Awaits before index source parent known s) (hsource : p.modules[index]? = some source) :
    let made := s.modules.addModule ⟨source.name, ⟨source.file, 0, 0⟩⟩ (source.toMod parent).kind
      parent source.file source.path
    p.Gives before index made.2 (known.set! index (some made.2)) { s with modules := made.1 } := by
  intro made
  rw [show made.2 = s.modules.size from s.modules.id_addModule ..]
  have hlt : index < known.size := h.housing.size ▸ (Array.getElem?_eq_some_iff.mp hsource).1
  have hset (i : Nat) : (known.set! index (some s.modules.size))[i]?.join =
      if i = index then some s.modules.size else known[i]?.join := by
    rw [Array.set!_eq_setIfInBounds, Array.getElem?_setIfInBounds]
    by_cases hi : i = index
    · rw [if_pos hi.symm, if_pos (hi ▸ hlt), if_pos hi]
      rfl
    · rw [if_neg (Ne.symm hi), if_neg hi]
  refine ⟨⟨?_, ?_, ?_⟩, ?_, fun i y hi => ?_, fun i y hi => ?_⟩
  · rw [Array.size_set!]
    exact h.housing.size
  · refine h.housing.forest.addModule _ _ _ _ ?_
    rintro q rfl
    obtain ⟨around, -, hq⟩ := Option.map_eq_some_iff.mp h.around
    exact h.housing.houses.lt_size hq
  · rw [funext hset]
    exact h.housing.houses.addModule h.missing hsource h.around
  · rw [hset, if_pos rfl]
  · rw [hset, if_neg]
    · exact h.kept i y hi
    · rintro rfl
      cases h.missing.symm.trans (h.kept i y hi)
  · rw [hset] at hi
    split at hi
    · exact .inr (Option.some.inj hi).ge
    · exact .inr (Nat.le_of_lt (h.housing.houses.lt_size hi))

end

namespace Emit

variable {p : Program} {α β σ : Type}

/-- An action with a state of its own, which fails only if something is wrong with the sources. -/
def Threads (P : σ → Compiler → Prop) (a : StateT σ Emit α) (Q : α → σ → Compiler → Prop) : Prop :=
  ∀ t o s, P t s → match a.run t o s with
    | .ok r s' => Q r.1 r.2 s'
    | .error f _ => ∃ b, f = .breach b

namespace Threads

variable {P : σ → Compiler → Prop} {Q : α → σ → Compiler → Prop} {R : β → σ → Compiler → Prop}

theorem bind {a : StateT σ Emit α} {k : α → StateT σ Emit β} (ha : Threads P a Q)
    (hk : ∀ v, Threads (Q v) (k v) R) : Threads P (a >>= k) R := by
  intro t o s hs
  have hfirst := ha t o s hs
  show match EStateM.bind (a.run t o) (fun r => (k r.1).run r.2 o) s with
    | .ok r s' => R r.1 r.2 s'
    | .error f _ => ∃ b, f = .breach b
  unfold EStateM.bind
  cases hr : a.run t o s with
  | ok r s' =>
    rw [hr] at hfirst
    exact hk r.1 r.2 o s' hfirst
  | error f s' =>
    rw [hr] at hfirst
    exact hfirst

theorem pure {v : α} (h : ∀ t s, P t s → Q v t s) :
    Threads P (Pure.pure v : StateT σ Emit α) Q :=
  fun t _ s hs => h t s hs

theorem get {Q : σ → σ → Compiler → Prop} (h : ∀ t s, P t s → Q t t s) :
    Threads P (MonadState.get : StateT σ Emit σ) Q :=
  fun t _ s hs => h t s hs

theorem assume {q : Prop} {a : StateT σ Emit α} (h : q → Threads P a Q) :
    Threads (fun t s => q ∧ P t s) a Q :=
  fun t o s hs => h hs.1 t o s hs.2

end Threads

theorem threads_breach {P : σ → Compiler → Prop} {Q : α → σ → Compiler → Prop} (b : Breach) :
    Threads P (breach b : StateT σ Emit α) Q :=
  fun _ _ _ _ => ⟨b, rfl⟩

/-- A source gets its module after the sources around it. -/
theorem threads_sourceModule (p : Program) (fuel index : Nat) (before : Array (Option ModId)) :
    Threads (fun known s => known = before ∧ p.Housing known s) (sourceModule p fuel index)
      (p.Gives before index) := by
  have hget : Threads (fun known s => known = before ∧ p.Housing known s) get fun v known s =>
      v = before ∧ known = before ∧ p.Housing known s :=
    Threads.get fun known s h => ⟨h.1, h⟩
  have hknown {index : Nat} {id : ModId} (hid : before[index]?.join = some id) : Threads
      (fun known s => known = before ∧ p.Housing known s) (pure id) (p.Gives before index) := by
    refine Threads.pure ?_
    rintro _ s ⟨rfl, h⟩
    exact .of_known h hid
  induction fuel generalizing index with
  | zero =>
    unfold sourceModule
    refine Threads.bind hget fun v => Threads.assume ?_
    rintro rfl
    cases p.modules[index]? with
    | none => exact threads_breach _
    | some source =>
      cases hv : v[index]?.join with
      | some id => exact hknown hv
      | none => exact threads_breach _
  | succ fuel ih =>
    unfold sourceModule
    refine Threads.bind hget fun v => Threads.assume ?_
    rintro rfl
    cases hsource : p.modules[index]? with
    | none => exact threads_breach _
    | some source =>
      cases hv : v[index]?.join with
      | some id => exact hknown hv
      | none =>
        dsimp only
        cases hq : source.parent with
        | none =>
          refine Threads.bind (Q := p.Awaits v index source) (Threads.pure ?_) fun parent => ?_
          · rintro _ s ⟨rfl, h⟩
            refine ⟨h, hv, ?_, fun _ _ hi => hi⟩
            rw [hq]
            rfl
          · exact fun known o s h => h.make hsource
        | some q =>
          refine Threads.bind (Q := p.Awaits v index source) ?_ fun parent => ?_
          -- the parent first: its module is known by the time the source gets one
          · exact Threads.bind (ih q) fun id => Threads.pure fun known s h => h.awaits hv hsource hq
          · exact fun known o s h => h.make hsource

/-- One source after another gets its module. -/
theorem threads_sourceModules (p : Program) (fuel : Nat) : ∀ (is : List Nat)
    (before : Array (Option ModId)),
    Threads (fun known s => known = before ∧ p.Housing known s) (is.mapM (sourceModule p fuel))
      (p.GivesAll before is)
  | [], before => by
    rw [List.mapM_nil]
    refine Threads.pure ?_
    rintro _ s ⟨rfl, h⟩
    exact ⟨h, rfl, fun _ _ hi => hi⟩
  | i :: is, before => by
    rw [List.mapM_cons]
    refine (threads_sourceModule p fuel i before).bind fun id known o s h => ?_
    exact Threads.bind (R := p.GivesAll before (i :: is)) (threads_sourceModules p fuel is known)
      (fun ids => Threads.pure fun known' s' hrest => h.cons hrest) known o s ⟨rfl, h.housing⟩

theorem housing_empty (p : Program) (o : Options) :
    p.Housing (Array.replicate p.modules.size none) (.ofOptions o) := by
  have hnone (i : Nat) :
      (Array.replicate p.modules.size (none : Option ModId))[i]?.join = none := by
    rw [Array.getElem?_replicate]
    split <;> rfl
  refine ⟨Array.size_replicate, ModuleTree.isForest_empty, fun i _ _ hi => ?_, fun i _ hi => ?_,
    fun _ _ hm => ?_⟩
  · cases (hnone i).symm.trans hi
  · cases (hnone i).symm.trans hi
  · cases hm

/-- Making the modules of the sources gives each its own, or finds that they cannot stand in
one another. -/
theorem sourceModules_houses (p : Program) (o : Options) :
    match sourceModules p o (.ofOptions o) with
    | .ok ids s => ids.length = p.modules.size ∧ s.modules.IsForest ∧
        p.Houses (fun i => ids[i]?) s.modules
    | .error f _ => ∃ b, f = .breach b := by
  have hrun := threads_sourceModules p (p.modules.size + 1) (List.range p.modules.size) _ _ o _
    ⟨rfl, housing_empty p o⟩
  show match EStateM.bind (((List.range p.modules.size).mapM (sourceModule p _)).run _ o)
      (fun r => (pure r.1 : Emit (List ModId)) o) _ with
    | .ok ids s => ids.length = p.modules.size ∧ s.modules.IsForest ∧
        p.Houses (fun i => ids[i]?) s.modules
    | .error f _ => ∃ b, f = .breach b
  unfold EStateM.bind
  split at hrun
  · rename_i r s hr
    rw [hr]
    obtain ⟨hlength, hknown⟩ := hrun.known_eq
    exact ⟨hlength, hrun.housing.forest, hknown ▸ hrun.housing.houses⟩
  · rename_i f s hr
    rw [hr]
    exact hrun

/-! ## Declaring below them -/

section

variable {t : ModuleTree}

theorem grows_registerName (id : EntityId) (site : Site) :
    Yields (fun s => t.Grows s.modules) (registerName id site) fun _ s => t.Grows s.modules := by
  unfold registerName
  cases site.decl.body.name? with
  | none => exact yields_pure fun _ h => h
  | some name =>
    refine Yields.bind (Q := fun s _ => t.Grows s.modules) (yields_get fun _ h => h) fun s => ?_
    dsimp only
    cases hadd : s.modules.addItem site.module ⟨name, id, site.decl.body.kind,
        s.modules.visibility site.decl.body.vis site.module none⟩ with
    | error d => exact yields_refuse _ rfl
    | ok t' => exact yields_set fun _ h => h.trans (ModuleTree.alike_addItem hadd).grows

theorem grows_registerEntity (module : ModId) (d : EntityDecl) :
    Yields (fun s => t.Grows s.modules) (registerEntity module d) fun _ s => t.Grows s.modules := by
  unfold registerEntity
  refine Yields.bind (Q := fun s _ => t.Grows s.modules) (yields_get fun _ h => h) fun s => ?_
  refine Yields.bind (Q := fun _ s => t.Grows s.modules) (yields_set fun _ h => h) fun _ => ?_
  split
  · refine yields_modify fun s h => h.trans (ModuleTree.Alike.grows ?_)
    exact s.modules.alike_addGuarded module _ _
  · exact grows_registerName _ _
  · exact yields_pure fun _ h => h

/-- A lib is added below a module. -/
theorem grows_registerLib {parent : ModId} (hparent : parent < t.size) (name : Ident)
    (vis : VisSpec) (guard : Option Expr) :
    Yields (fun s => t.Grows s.modules) (registerLib parent name vis guard) fun id s =>
      t.Grows s.modules ∧ id < s.modules.size := by
  unfold registerLib
  cases guard with
  | some g => exact Yields.bind (Q := fun _ _ => False) (yields_refuse _ rfl) fun _ _ _ h => h.elim
  | none =>
    refine Yields.bind (Q := fun s _ => t.Grows s.modules) (yields_get fun _ h => h) fun s => ?_
    dsimp only
    split
    · exact yields_refuse _ rfl
    · let file := ((s.modules.get? parent).map Mod.file).getD 0
      let path := (s.modules.get? parent).bind Mod.path
      let made := s.modules.addModule name .lib (some parent) file path
      have hseen : made.1.Alike (made.1.modify made.2 fun m =>
          { m with vis := made.1.visibility vis parent none }) := by
        refine ModuleTree.alike_modify (fun m => ?_) _ _
        exact ⟨rfl, rfl⟩
      refine Yields.bind (Q := fun _ s => t.Grows s.modules ∧ made.2 < s.modules.size)
        (yields_set fun _ h => ⟨?_, hseen.grows.lt_size ?_⟩) fun _ => yields_pure fun _ h => h
      · have hadd := s.modules.grows_addModule name file path (h.lt_size hparent)
        exact (h.trans hadd).trans hseen.grows
      · rw [s.modules.id_addModule, s.modules.size_addModule]
        exact Nat.lt_succ_self _

/-- What is declared in a module that was just made. -/
theorem grows_below {a : Emit Unit} {id : ModId}
    (h : ∀ t : ModuleTree, id < t.size →
      Yields (fun s => t.Grows s.modules) a fun _ s => t.Grows s.modules) :
    Yields (fun s => t.Grows s.modules ∧ id < s.modules.size) a fun _ s => t.Grows s.modules := by
  intro o s hs
  have hgrows : Yields (fun s' => s.modules.Grows s'.modules) a fun _ s' => t.Grows s'.modules :=
    (h s.modules hs.2).mono (fun _ h => h) fun _ s' hs' => hs.1.trans hs'
  exact hgrows o s (.refl _)

end

mutual

theorem grows_registerDecl (t : ModuleTree) (module : ModId) (hmodule : module < t.size) :
    ∀ d : Decl,
      Yields (fun s => t.Grows s.modules) (registerDecl module d) fun _ s => t.Grows s.modules
  | .entity d => by
    rw [registerDecl]
    exact grows_registerEntity module d
  | .lib name vis guard decls _ => by
    rw [registerDecl]
    exact (grows_registerLib hmodule name vis guard).bind fun id =>
      grows_below fun t' hid => grows_registerDecls t' id hid decls

theorem grows_registerDecls (t : ModuleTree) (module : ModId) (hmodule : module < t.size) :
    ∀ ds : List Decl,
      Yields (fun s => t.Grows s.modules) (registerDecls module ds) fun _ s => t.Grows s.modules
  | [] => by
    rw [registerDecls]
    exact yields_pure fun _ h => h
  | d :: ds => by
    rw [registerDecls]
    exact (grows_registerDecl t module hmodule d).bind fun _ =>
      grows_registerDecls t module hmodule ds

end

def registerRest (p : Program) (ids : List ModId) : Emit Unit := do
  for (source, id) in p.modules.toList.zip ids do
    registerDecls id source.decls
  for id in List.range (← get).entities.size do
    collectDependencies id

theorem registerProgram_eq (p : Program) :
    registerProgram p = sourceModules p >>= registerRest p := rfl

theorem grows_registerRest {p : Program} {t : ModuleTree} {ids : List ModId}
    (hids : ∀ id ∈ ids, id < t.size) :
    Yields (fun s => t.Grows s.modules) (registerRest p ids) fun _ s => t.Grows s.modules := by
  unfold registerRest
  refine (yields_forIn fun x hx => ?_).bind fun _ => ?_
  · exact grows_registerDecls t x.2 (hids _ (List.of_mem_zip hx).2) x.1.decls
  · refine Yields.bind (Q := fun _ s => t.Grows s.modules) (yields_get fun _ h => h) fun s => ?_
    refine Yields.bind (Q := fun _ s => t.Grows s.modules) (yields_forIn fun id _ => ?_) fun _ =>
      yields_pure fun _ h => h
    exact yields_collectDependencies fun _ _ h _ => h

end Emit

/-! ## The registered tree -/

/-- A program whose sources form a forest is refused for a fault only. -/
theorem not_breach_of_isForest {p : Program} {o : Options} {f : Failure} {s : Compiler}
    (hp : p.IsForest) (h : Emit.registerProgram p o (.ofOptions o) = .error f s) :
    ¬∃ b, f = .breach b := by
  rintro ⟨b, rfl⟩
  have hsafe := Emit.safely_registerProgram hp _ o _ (Compiler.fresh_ofOptions o)
  rw [h] at hsafe
  cases hsafe

/-- The modules of a program form a forest once it is registered. Each source has one module,
listed once in that of the source around it; only libs are added; and whatever goes up from a
module comes to an end. A program whose sources stand in themselves, or in sources that are
not there, is an internal error, and no other program is. -/
theorem registerProgram_forest (p : Program) (o : Options) :
    match Emit.registerProgram p o (.ofOptions o) with
    | .ok _ s => p.IsForest ∧ s.modules.IsForest ∧
        (∃ ids s₀, Emit.sourceModules p o (.ofOptions o) = .ok ids s₀ ∧
          ids.length = p.modules.size ∧ p.Houses (fun i => ids[i]?) s.modules) ∧
        ∀ id, id < s.modules.size → ∃ path, s.modules.Walks id path
    | .error f _ => (∃ b, f = .breach b) ↔ ¬p.IsForest := by
  have hsources := Emit.sourceModules_houses p o
  have hbind : Emit.registerProgram p o (.ofOptions o) = EStateM.bind (Emit.sourceModules p o)
      (fun ids => Emit.registerRest p ids o) (.ofOptions o) := by
    rw [Emit.registerProgram_eq]
    rfl
  unfold EStateM.bind at hbind
  cases hs : Emit.sourceModules p o (.ofOptions o) with
  | error f s =>
    rw [hs] at hsources hbind
    rw [hbind]
    exact ⟨fun hb hp => not_breach_of_isForest hp hbind hb, fun _ => hsources⟩
  | ok ids s₀ =>
    rw [hs] at hsources hbind
    obtain ⟨hlength, hforest, hhouses⟩ := hsources
    have hp : p.IsForest := hhouses.isForest hforest fun i hi =>
      ⟨_, List.getElem?_eq_getElem (hlength ▸ hi)⟩
    have hids : ∀ id ∈ ids, id < s₀.modules.size := by
      intro id hid
      obtain ⟨i, hi⟩ := List.mem_iff_getElem?.mp hid
      exact hhouses.lt_size hi
    have hgrows := Emit.grows_registerRest (p := p) hids o s₀ (.refl _)
    cases hr : Emit.registerRest p ids o s₀ with
    | error f s =>
      dsimp only at hbind
      rw [hr] at hbind
      rw [hbind]
      exact ⟨fun hb => absurd hb (not_breach_of_isForest hp hbind), fun hno => absurd hp hno⟩
    | ok u s =>
      dsimp only at hbind
      rw [hr] at hbind hgrows
      rw [hbind]
      have htree := hgrows.forest hforest
      exact ⟨hp, htree, ⟨ids, s₀, rfl, hlength, hhouses.grows hgrows⟩,
        fun id _ => ⟨_, htree.walks id⟩⟩

/-- A file that is listed before the folder it stands in comes after it. -/
example : (match Emit.registerProgram ⟨#[⟨"app", .file, none, 0, some 1, []⟩,
      ⟨"src", .folder, none, 0, none, []⟩]⟩ {} (.ofOptions {}) with
    | .ok _ s => s.modules.modules.toList.map fun m => (m.name.text, m.parent, m.submodules)
    | .error .. => []) = [("src", none, [1]), ("app", some 0, [])] := by
  decide +kernel

end Staged
