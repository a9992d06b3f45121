/-
  Staged.Proofs.Tree — what a module tree holds.

  A tree fits a property of items when every item of it, declared or brought, has the
  property, and no visibility in it is bound to a type (`ModuleTree.Fits`). What a name is
  resolved to is what some module of the tree means by one of its segments
  (`resolve_means`). It was put there by a declaration, so it has the property
  (`Fits.resolve`). Whether a name stands inside a member function makes no difference,
  since only fields and members are open to the members of a type (`Fits.resolve_congr`).
-/

import Staged.Module.Resolve

namespace Staged

structure Mod.Fits (P : Item → Prop) (m : Mod) : Prop where
  vis : m.vis.type? = none
  item : ∀ i ∈ m.items, i.vis.type? = none ∧ P i
  brought : ∀ b ∈ m.brought, b.vis.type? = none
  broughtEntity : ∀ b ∈ m.broughtEntities, b.vis.type? = none ∧ b.item.vis.type? = none ∧ P b.item

/-- Every item of the tree has the property, and nothing is bound to a type. -/
def ModuleTree.Fits (P : Item → Prop) (t : ModuleTree) : Prop :=
  ∀ id m, t.get? id = some m → m.Fits P

namespace Mod.Fits

variable {P Q : Item → Prop} {m : Mod}

theorem mono (hm : m.Fits P) (h : ∀ i, P i → Q i) : m.Fits Q where
  vis := hm.vis
  item i hi := ⟨(hm.item i hi).1, h i (hm.item i hi).2⟩
  brought := hm.brought
  broughtEntity b hb := by
    obtain ⟨hv, hi, hp⟩ := hm.broughtEntity b hb
    exact ⟨hv, hi, h _ hp⟩

theorem item? (hm : m.Fits P) {key : String} {i : Item} (hi : m.item? key = some i) :
    i.vis.type? = none ∧ P i :=
  hm.item i (List.mem_of_find?_eq_some hi)

theorem broughtEntity? (hm : m.Fits P) {key : String} {b : BroughtEntity}
    (hb : m.broughtEntity? key = some b) :
    b.vis.type? = none ∧ b.item.vis.type? = none ∧ P b.item :=
  hm.broughtEntity b (List.mem_of_find?_eq_some hb)

end Mod.Fits

namespace ModuleTree

variable {P : Item → Prop} {t : ModuleTree}

/-! ## What tree operations keep -/

theorem get?_modify (t : ModuleTree) (id j : ModId) (f : Mod → Mod) :
    (t.modify id f).get? j = if id = j then (t.get? j).map f else t.get? j := by
  simp only [get?, modify, Array.getElem?_modify]

theorem Fits.mono {Q : Item → Prop} (ht : t.Fits P) (h : ∀ i, P i → Q i) : t.Fits Q :=
  fun id m hm => (ht id m hm).mono h

theorem fits_empty : Fits P {} := by
  intro id m hm
  simp [get?] at hm

theorem Fits.modify (ht : t.Fits P) (id : ModId) {f : Mod → Mod}
    (hf : ∀ m, m.Fits P → (f m).Fits P) : (t.modify id f).Fits P := by
  intro j m hm
  rw [get?_modify] at hm
  split at hm
  · obtain ⟨m', hm', rfl⟩ := Option.map_eq_some_iff.mp hm
    exact hf m' (ht j m' hm')
  · exact ht j m hm

theorem Fits.addModule (ht : t.Fits P) (name : Ident) (kind : ModKind) (parent : Option ModId)
    (file : Nat) (path : Option String) :
    (t.addModule name kind parent file path).1.Fits P := by
  have hpush : Fits P ⟨t.modules.push { name, kind, parent, file, path }⟩ := by
    intro j m hm
    simp only [get?, Array.getElem?_push] at hm
    split at hm
    · cases hm
      exact ⟨rfl, by simp, by simp, by simp⟩
    · exact ht j m hm
  unfold ModuleTree.addModule
  split
  · exact hpush.modify _ fun m hm => ⟨hm.vis, hm.item, hm.brought, hm.broughtEntity⟩
  · exact hpush

theorem Fits.addItem {module : ModId} {item : Item} {t' : ModuleTree} (ht : t.Fits P)
    (hv : item.vis.type? = none) (hi : P item) (ha : t.addItem module item = .ok t') :
    t'.Fits P := by
  unfold ModuleTree.addItem at ha
  split at ha <;> cases ha
  refine ht.modify _ fun m hm => ⟨hm.vis, fun i hmem => ?_, hm.brought, hm.broughtEntity⟩
  rcases List.mem_append.mp hmem with hmem | hmem
  · exact hm.item i hmem
  · rw [List.mem_singleton.mp hmem]
    exact ⟨hv, hi⟩

theorem Fits.addGuarded (ht : t.Fits P) (module : ModId) (name : String) (entity : EntityId) :
    (t.addGuarded module name entity).Fits P :=
  ht.modify _ fun _ hm => ⟨hm.vis, hm.item, hm.brought, hm.broughtEntity⟩

theorem Fits.addBroughtModule {b : BroughtModule} (ht : t.Fits P) (module : ModId)
    (hv : b.vis.type? = none) : (t.addBroughtModule module b).Fits P := by
  refine ht.modify _ fun m hm => ?_
  split
  · exact hm
  · refine ⟨hm.vis, hm.item, fun x hx => ?_, hm.broughtEntity⟩
    rcases List.mem_append.mp hx with hx | hx
    · exact hm.brought x hx
    · rw [List.mem_singleton.mp hx]
      exact hv

theorem Fits.addBroughtEntity {module : ModId} {b : BroughtEntity} {t' : ModuleTree}
    (ht : t.Fits P) (hv : b.vis.type? = none) (hi : b.item.vis.type? = none ∧ P b.item)
    (ha : t.addBroughtEntity module b = .ok t') : t'.Fits P := by
  unfold ModuleTree.addBroughtEntity at ha
  split at ha <;> cases ha
  refine ht.modify _ fun m hm => ⟨hm.vis, hm.item, hm.brought, fun x hx => ?_⟩
  rcases List.mem_append.mp hx with hx | hx
  · exact hm.broughtEntity x hx
  · rw [List.mem_singleton.mp hx]
    exact ⟨hv, hi⟩

/-- Outside types, a written visibility is never bound to one. -/
theorem type?_visibility (t : ModuleTree) (spec : VisSpec) (module : ModId) :
    (t.visibility spec module none).type? = none := by
  cases spec <;> rfl

/-! ## What names are resolved to -/

def Lists (t : ModuleTree) (i : Item) : Prop :=
  ∃ id m, t.get? id = some m ∧ (i ∈ m.items ∨ ∃ b ∈ m.broughtEntities, b.item = i)

theorem Fits.lists (ht : t.Fits P) {i : Item} (hi : t.Lists i) : i.vis.type? = none ∧ P i := by
  obtain ⟨id, m, hm, hi | ⟨b, hb, rfl⟩⟩ := hi
  · exact (ht id m hm).item i hi
  · exact ((ht id m hm).broughtEntity b hb).2

section

variable {view : Viewpoint} {id : ModId} {m : Mod} {key : String} {range : Span} {i : Item}
  {r : Resolved}

theorem lists_item? (hm : t.get? id = some m) (hi : m.item? key = some i) : t.Lists i :=
  ⟨id, m, hm, .inl (List.mem_of_find?_eq_some hi)⟩

theorem lists_broughtEntity? {b : BroughtEntity} (hm : t.get? id = some m)
    (hb : m.broughtEntity? key = some b) : t.Lists b.item :=
  ⟨id, m, hm, .inr ⟨b, List.mem_of_find?_eq_some hb, rfl⟩⟩

theorem lists_behind? {target : ModId} (h : t.behind? view key target = some (id, i)) :
    t.Lists i := by
  unfold behind? at h
  obtain ⟨m, hm, h⟩ := Option.bind_eq_some_iff.mp h
  rcases Option.or_eq_some_iff.mp h with h | ⟨-, h⟩
  · obtain ⟨j, hj, heq⟩ := Option.map_eq_some_iff.mp h
    cases heq
    exact lists_item? hm hj
  · obtain ⟨b, hb, h⟩ := Option.bind_eq_some_iff.mp h
    split at h <;> cases h
    exact lists_broughtEntity? hm hb

theorem checkItem_ok (h : t.checkItem view id range i = .ok r) :
    r = .item i ∧ t.isAccessible i.vis view = true := by
  unfold checkItem at h
  split at h
  · rename_i hvis
    cases h
    exact ⟨rfl, hvis⟩
  · cases h

theorem checkModule_ok (h : t.checkModule view range id = .ok r) :
    r = .module id ∧ ∀ m, t.get? id = some m → t.isAccessible m.vis view = true := by
  unfold checkModule at h
  split at h
  · rename_i hnone
    cases h
    refine ⟨rfl, fun m hm => ?_⟩
    rw [hnone] at hm
    cases hm
  · rename_i m hm
    split at h
    · rename_i hvis
      cases h
      refine ⟨rfl, fun m' hm' => ?_⟩
      rw [hm] at hm'
      cases hm'
      exact hvis
    · cases h

end

/-- Whichever way a module comes to the meaning of a name, it is checked. -/
theorem lookup?_eq_some {view : Viewpoint} {origin : Bool} {id : ModId} {m : Mod} {name : Ident}
    {result : Except ResolveError Resolved} (hm : t.get? id = some m)
    (h : t.lookup? view origin id m name = some result) :
    (∃ module i, t.Lists i ∧ result = t.checkItem view module name.range i) ∨
      ∃ s, result = t.checkModule view name.range s := by
  unfold lookup? at h
  rcases Option.or_eq_some_iff.mp h with h | ⟨-, h⟩
  · obtain ⟨i, hi, rfl⟩ := Option.map_eq_some_iff.mp h
    exact .inl ⟨id, i, lists_item? hm hi, rfl⟩
  rcases Option.or_eq_some_iff.mp h with h | ⟨-, h⟩
  · obtain ⟨s, -, rfl⟩ := Option.map_eq_some_iff.mp h
    exact .inr ⟨s, rfl⟩
  rcases Option.or_eq_some_iff.mp h with h | ⟨-, h⟩
  · obtain ⟨b, -, h⟩ := Option.bind_eq_some_iff.mp h
    split at h <;> cases h
    exact .inr ⟨b.module, rfl⟩
  rcases Option.or_eq_some_iff.mp h with h | ⟨-, h⟩
  · obtain ⟨b, hb, h⟩ := Option.bind_eq_some_iff.mp h
    split at h <;> cases h
    exact .inl ⟨id, b.item, lists_broughtEntity? hm hb, rfl⟩
  · obtain ⟨⟨target, i⟩, hi, rfl⟩ := Option.map_eq_some_iff.mp h
    obtain ⟨_, -, hi⟩ := List.exists_of_findSome?_eq_some hi
    exact .inl ⟨target, i, lists_behind? hi, rfl⟩

def Means (t : ModuleTree) (view : Viewpoint) (name : Ident) (r : Resolved) : Prop :=
  ∃ id origin m, t.get? id = some m ∧ t.lookup? view origin id m name = some (.ok r)

theorem Means.cases {view : Viewpoint} {name : Ident} {r : Resolved} (h : t.Means view name r) :
    (∃ i, r = .item i ∧ t.Lists i ∧ t.isAccessible i.vis view = true) ∨
      ∃ id, r = .module id ∧ ∀ m, t.get? id = some m → t.isAccessible m.vis view = true := by
  obtain ⟨id, origin, m, hm, hl⟩ := h
  rcases lookup?_eq_some hm hl with ⟨module, i, hi, hcheck⟩ | ⟨s, hcheck⟩
  · obtain ⟨rfl, hvis⟩ := checkItem_ok hcheck.symm
    exact .inl ⟨i, rfl, hi, hvis⟩
  · exact .inr ⟨s, checkModule_ok hcheck.symm⟩

theorem Fits.means (ht : t.Fits P) {view : Viewpoint} {name : Ident} {i : Item}
    (hi : t.Means view name (.item i)) : i.vis.type? = none ∧ P i := by
  rcases hi.cases with ⟨j, heq, hj, -⟩ | ⟨id, heq, -⟩
  · cases heq
    exact ht.lists hj
  · cases heq

theorem search_means (view : Viewpoint) (name : Ident) (unvisited : List ModId)
    (todo : List (ModId × Bool)) {r : Resolved}
    (h : t.search view name unvisited todo = .ok (some r)) : t.Means view name r := by
  fun_induction t.search view name unvisited todo with
  | case1 => cases h
  | case2 _ id origin rest _ _ ih => exact ih h
  | case3 _ id origin rest _ m hm found hl =>
    cases found with
    | error e => cases h
    | ok r' =>
      cases h
      exact ⟨id, origin, m, hm, hl⟩
  | case4 _ id origin rest _ m hm _ ih => exact ih h
  | case5 _ id origin rest _ ih => exact ih h

theorem findIn_means {module : ModId} {name : Ident} {view : Viewpoint} {r : Resolved}
    (h : t.findIn module name view = .ok (some r)) : t.Means view name r :=
  search_means view name _ _ h

theorem Fits.findIn (ht : t.Fits P) {module : ModId} {name : Ident} {view : Viewpoint} {i : Item}
    (hi : t.findIn module name view = .ok (some (.item i))) : i.vis.type? = none ∧ P i :=
  ht.means (findIn_means hi)

theorem findFirst_means {name : Ident} {view : Viewpoint} {r : Resolved} {ms : List ModId}
    (h : t.findFirst name view ms = .ok (some r)) : t.Means view name r := by
  induction ms with
  | nil => cases h
  | cons m rest ih =>
    unfold ModuleTree.findFirst at h
    cases hf : t.findIn m name view with
    | error e => rw [hf] at h; cases h
    | ok found =>
      rw [hf] at h
      cases found with
      | none => exact ih h
      | some r' => cases h; exact findIn_means hf

/-- Segments are followed one at a time, each in the module found for those before it. -/
theorem follow_cons {view : Viewpoint} {previous segment : Ident} {current r : Resolved}
    {rest : List Ident} (h : t.follow view previous current (segment :: rest) = .ok r) :
    ∃ m next, current = .module m ∧ t.findIn m segment view = .ok (some next) ∧
      t.follow view segment next rest = .ok r := by
  cases current with
  | item j => cases h
  | module m =>
    unfold ModuleTree.follow at h
    cases hf : t.findIn m segment view with
    | error e => simp only [hf] at h; cases h
    | ok found =>
      simp only [hf] at h
      cases found with
      | none => cases h
      | some next => exact ⟨m, next, rfl, hf, h⟩

theorem follow_means {view : Viewpoint} {r : Resolved} {segments : List Ident}
    {previous : Ident} {current : Resolved}
    (h : t.follow view previous current segments = .ok r) :
    current = r ∨ ∃ s ∈ segments, t.Means view s r := by
  induction segments generalizing previous current with
  | nil => cases h; exact .inl rfl
  | cons segment rest ih =>
    obtain ⟨m, next, -, hf, h⟩ := follow_cons h
    rcases ih h with rfl | ⟨s, hs, hmeans⟩
    · exact .inr ⟨segment, List.mem_cons_self, findIn_means hf⟩
    · exact .inr ⟨s, List.mem_cons_of_mem _ hs, hmeans⟩

def head (t : ModuleTree) (name : QName) (start : ModId) (first : Ident) (view : Viewpoint) :
    Except ResolveError (Option Resolved) :=
  if name.up = 0 then t.findUnqualified start first view else t.findIn start first view

theorem resolve_eq (t : ModuleTree) (start : ModId) (name : QName) (view : Viewpoint) :
    t.resolve start name view =
      (t.goUp name.range name.up start).bind fun m => match name.segments with
        | [] => .ok (.module m)
        | first :: rest => (t.head name m first view).bind fun found => match found with
          | some found => t.follow view first found rest
          | none => .error (.notFound first.text (t.fullName m) first.range) := by
  unfold resolve head
  cases t.goUp name.range name.up start with
  | error e => rfl
  | ok m => by_cases hup : name.up = 0 <;> simp only [hup, if_true, if_false] <;> rfl

theorem head_means {name : QName} {start : ModId} {first : Ident} {view : Viewpoint}
    {r : Resolved} (h : t.head name start first view = .ok (some r)) : t.Means view first r := by
  unfold head at h
  split at h
  · exact findFirst_means h
  · exact findIn_means h

/-- A name with segments is resolved by finding the first and following the others. -/
theorem resolve_cons {start : ModId} {name : QName} {view : Viewpoint} {r : Resolved}
    {first : Ident} {rest : List Ident} (hname : name.segments = first :: rest)
    (h : t.resolve start name view = .ok r) :
    ∃ m found, t.goUp name.range name.up start = .ok m ∧
      t.head name m first view = .ok (some found) ∧ t.follow view first found rest = .ok r := by
  rw [resolve_eq] at h
  cases hup : t.goUp name.range name.up start with
  | error e => rw [hup] at h; cases h
  | ok m =>
    rw [hup] at h
    simp only [Except.bind, hname] at h
    cases hf : t.head name m first view with
    | error e => rw [hf] at h; cases h
    | ok found =>
      rw [hf] at h
      cases found with
      | none => cases h
      | some found => exact ⟨m, found, rfl, hf, h⟩

/-- Only a name without segments can mean a module that is not looked up. -/
theorem resolve_means {start : ModId} {name : QName} {view : Viewpoint} {r : Resolved}
    (h : t.resolve start name view = .ok r) :
    (name.segments = [] ∧ ∃ m, r = .module m) ∨ ∃ s ∈ name.segments, t.Means view s r := by
  cases hname : name.segments with
  | nil =>
    rw [resolve_eq, hname] at h
    cases hup : t.goUp name.range name.up start with
    | error e => rw [hup] at h; cases h
    | ok m => rw [hup] at h; cases h; exact .inl ⟨rfl, m, rfl⟩
  | cons first rest =>
    obtain ⟨m, found, -, hf, h⟩ := resolve_cons hname h
    rcases follow_means h with rfl | ⟨s, hs, hmeans⟩
    · exact .inr ⟨first, List.mem_cons_self, head_means hf⟩
    · exact .inr ⟨s, List.mem_cons_of_mem _ hs, hmeans⟩

/-- What a name is resolved to was declared. -/
theorem Fits.resolve (ht : t.Fits P) {start : ModId} {name : QName} {view : Viewpoint} {i : Item}
    (hi : t.resolve start name view = .ok (.item i)) : i.vis.type? = none ∧ P i := by
  rcases resolve_means hi with ⟨-, m, hm⟩ | ⟨s, -, hmeans⟩
  · cases hm
  · exact ht.means hmeans

/-! ## Inside members of a type -/

section

variable {a b : Viewpoint} (hab : a.module = b.module)
include hab

theorem isAccessible_congr (t : ModuleTree) {vis : Visibility} (hv : vis.type? = none) :
    t.isAccessible vis a = t.isAccessible vis b := by
  cases vis with
  | pub => rfl
  | inside level module => simp only [isAccessible, hab]
  | ofType ty => cases hv

theorem usable_congr (t : ModuleTree) (origin : Bool) {vis : Visibility} (hv : vis.type? = none) :
    t.usable a origin vis = t.usable b origin vis := by
  simp only [usable, isAccessible_congr hab t hv]

theorem checkItem_congr (t : ModuleTree) (module : ModId) (range : Span) {i : Item}
    (hi : i.vis.type? = none) : t.checkItem a module range i = t.checkItem b module range i := by
  simp only [checkItem, isAccessible_congr hab t hi]

theorem Fits.checkModule_congr (ht : t.Fits P) (range : Span) (id : ModId) :
    t.checkModule a range id = t.checkModule b range id := by
  unfold checkModule
  cases hm : t.get? id with
  | none => rfl
  | some m => simp only [isAccessible_congr hab t (ht id m hm).vis]

theorem Fits.anonymousBrings_congr {m : Mod} (hm : m.Fits P) (origin : Bool) :
    t.anonymousBrings a origin m = t.anonymousBrings b origin m := by
  unfold anonymousBrings
  congr 1
  refine List.filter_congr fun x hx => ?_
  rw [usable_congr hab t origin (hm.brought x hx)]

theorem Fits.behind?_congr (ht : t.Fits P) (key : String) (target : ModId) :
    t.behind? a key target = t.behind? b key target := by
  unfold ModuleTree.behind?
  cases hm : t.get? target with
  | none => rfl
  | some m =>
    simp only [Option.bind_some]
    cases hb : m.broughtEntity? key with
    | none => rfl
    | some x =>
      simp only [Option.bind_some, isAccessible_congr hab t ((ht target m hm).broughtEntity? hb).1]

theorem Fits.lookup?_congr (ht : t.Fits P) {m : Mod} (hm : m.Fits P) (origin : Bool) (id : ModId)
    (name : Ident) : t.lookup? a origin id m name = t.lookup? b origin id m name := by
  have hitem : (m.item? name.text).map (t.checkItem a id name.range) =
      (m.item? name.text).map (t.checkItem b id name.range) := by
    cases hi : m.item? name.text with
    | none => rfl
    | some i => exact congrArg some (checkItem_congr hab t id _ (hm.item? hi).1)
  have hmodule : t.checkModule a name.range = t.checkModule b name.range :=
    funext fun s => ht.checkModule_congr hab _ s
  have hbrought : ((m.brought.find? fun x => x.asName.any (·.text == name.text)).bind fun x =>
        if t.usable a origin x.vis then some (t.checkModule a name.range x.module) else none) =
      ((m.brought.find? fun x => x.asName.any (·.text == name.text)).bind fun x =>
        if t.usable b origin x.vis then some (t.checkModule b name.range x.module) else none) := by
    cases hx : m.brought.find? fun x => x.asName.any (·.text == name.text) with
    | none => rfl
    | some x =>
      rw [Option.bind_some, Option.bind_some, hmodule,
        usable_congr hab t origin (hm.brought x (List.mem_of_find?_eq_some hx))]
  have hentity : ((m.broughtEntity? name.text).bind fun x =>
        if t.usable a origin x.vis then some (t.checkItem a id name.range x.item) else none) =
      ((m.broughtEntity? name.text).bind fun x =>
        if t.usable b origin x.vis then some (t.checkItem b id name.range x.item) else none) := by
    cases hx : m.broughtEntity? name.text with
    | none => rfl
    | some x =>
      obtain ⟨hv, hi, -⟩ := hm.broughtEntity? hx
      rw [Option.bind_some, Option.bind_some, usable_congr hab t origin hv,
        checkItem_congr hab t id name.range hi]
  have hbehind : ((t.anonymousBrings a origin m).findSome? (t.behind? a name.text)).map
        (fun r => t.checkItem a r.1 name.range r.2) =
      ((t.anonymousBrings b origin m).findSome? (t.behind? b name.text)).map
        (fun r => t.checkItem b r.1 name.range r.2) := by
    rw [anonymousBrings_congr hab hm, show t.behind? a name.text = t.behind? b name.text from
      funext fun target => ht.behind?_congr hab name.text target]
    cases hx : (t.anonymousBrings b origin m).findSome? (t.behind? b name.text) with
    | none => rfl
    | some x =>
      obtain ⟨_, -, hfound⟩ := List.exists_of_findSome?_eq_some hx
      exact congrArg some (checkItem_congr hab t x.1 name.range (ht.lists (lists_behind? hfound)).1)
  have hor {α : Type} {x x' y y' : Option α} (hx : x = x') (hy : y = y') :
      x.or y = x'.or y' := by rw [hx, hy]
  refine hor hitem (hor ?_ (hor hbrought (hor hentity hbehind)))
  rw [hmodule]

theorem Fits.search_congr (ht : t.Fits P) (name : Ident) :
    ∀ (unvisited : List ModId) (todo : List (ModId × Bool)),
      t.search a name unvisited todo = t.search b name unvisited todo := by
  intro unvisited todo
  fun_induction t.search a name unvisited todo with
  | case1 => rw [ModuleTree.search]
  | case2 _ id origin rest hseen hm ih => rw [ModuleTree.search, dif_pos hseen, hm]; exact ih
  | case3 _ id origin rest hseen m hm found hl =>
    rw [ModuleTree.search, dif_pos hseen, hm]
    simp only [← ht.lookup?_congr hab (ht id m hm), hl]
  | case4 _ id origin rest hseen m hm hl ih =>
    rw [ModuleTree.search, dif_pos hseen, hm]
    simp only [← ht.lookup?_congr hab (ht id m hm), hl, ← anonymousBrings_congr hab (ht id m hm)]
    exact ih
  | case5 _ id origin rest hseen ih => rw [ModuleTree.search, dif_neg hseen]; exact ih

theorem Fits.findIn_congr (ht : t.Fits P) (module : ModId) (name : Ident) :
    t.findIn module name a = t.findIn module name b :=
  ht.search_congr hab name _ _

theorem Fits.findFirst_congr (ht : t.Fits P) (name : Ident) (ms : List ModId) :
    t.findFirst name a ms = t.findFirst name b ms := by
  induction ms with
  | nil => rfl
  | cons m rest ih => simp only [ModuleTree.findFirst, ht.findIn_congr hab, ih]

theorem Fits.follow_congr (ht : t.Fits P) (segments : List Ident) :
    ∀ (previous : Ident) (current : Resolved),
      t.follow a previous current segments = t.follow b previous current segments := by
  induction segments with
  | nil => intro previous current; rfl
  | cons segment rest ih =>
    intro previous current
    cases current with
    | item i => rfl
    | module m => simp only [ModuleTree.follow, ht.findIn_congr hab, ih]

/-- A name means the same inside a member of a type. -/
theorem Fits.resolve_congr (ht : t.Fits P) (start : ModId) (name : QName) :
    t.resolve start name a = t.resolve start name b := by
  have hhead (m : ModId) (first : Ident) : t.head name m first a = t.head name m first b := by
    unfold head
    split
    · exact ht.findFirst_congr hab first _
    · exact ht.findIn_congr hab m first
  simp only [resolve_eq, hhead, ht.follow_congr hab]

end

end ModuleTree

end Staged
