/-
  Staged.Proofs.Modules.Scope — the names of a module.

  A module has names from four sources: the items declared in it, the libs that stand in it,
  the entities that are brought into it, and the modules that are brought under an alias. What
  is done to the module tree is one of a few changes (`ModuleTree.Change`), each after its own
  look for names that are taken.

  Items are compared with libs and with brought entities, libs with items, and brought entities
  with items. So these pairs have no name in common, in whatever order they come, and none of
  the three sources has a name twice (`Mod.Apart`, `ModuleTree.Changes.apart`). A name that is
  taken is refused (`ModuleTree.addItem_error`, `ModuleTree.addBroughtEntity_error`), and the
  error says where it is taken (`ModuleTree.Taken`).

  Brought entities are not compared with libs, nor aliases with anything but other brings of the
  same module. These may share a name.
-/

import Mathlib.Data.List.Nodup
import Staged.Proofs.Modules.Forest

namespace Staged

/-! ## Names -/

namespace Mod

def itemNames (m : Mod) : List String := m.items.map (·.name.text)

def broughtNames (m : Mod) : List String := m.broughtEntities.map (·.name.text)

variable {m : Mod} {name : String}

theorem item?_eq_none : m.item? name = none ↔ name ∉ m.itemNames := by
  simp [item?, itemNames]

theorem broughtEntity?_eq_none : m.broughtEntity? name = none ↔ name ∉ m.broughtNames := by
  simp [broughtEntity?, broughtNames]

end Mod

namespace ModuleTree

variable {t t' : ModuleTree} {id p : ModId} {m : Mod} {name : String}

def libName? (t : ModuleTree) (id : ModId) : Option String :=
  (t.get? id).bind fun s => if s.kind = .lib then some s.name.text else none

def libNames (t : ModuleTree) (m : Mod) : List String := m.submodules.filterMap t.libName?

theorem libNamed?_eq_none : t.libNamed? m name = none ↔ name ∉ t.libNames m := by
  simp only [libNamed?, libNames, libName?, List.find?_eq_none, List.mem_filterMap,
    Option.bind_eq_some_iff]
  constructor
  · rintro h ⟨j, hj, s, hs, hname⟩
    split at hname
    · exact h s ⟨j, hj, hs⟩ (by simp_all)
    · cases hname
  · rintro h s ⟨j, hj, hs⟩ hname
    simp only [Bool.and_eq_true, beq_iff_eq] at hname
    exact h ⟨j, hj, s, hs, by rw [if_pos hname.1, hname.2]⟩

theorem takenForItem?_eq_none : t.takenForItem? m name = none ↔
    name ∉ m.itemNames ∧ name ∉ m.broughtNames ∧ name ∉ t.libNames m := by
  simp [takenForItem?, Mod.item?_eq_none, Mod.broughtEntity?_eq_none, libNamed?_eq_none]

theorem takenForBrought?_eq_none :
    takenForBrought? m name = none ↔ name ∉ m.itemNames ∧ name ∉ m.broughtNames := by
  simp [takenForBrought?, Mod.item?_eq_none, Mod.broughtEntity?_eq_none]

/-- Where no submodule of the name is, there is no lib of that name. -/
theorem not_mem_of_takenForLib? (h : t.takenForLib? m name = none) :
    name ∉ m.itemNames ∧ name ∉ t.libNames m := by
  simp only [takenForLib?, Option.or_eq_none_iff, Option.map_eq_none_iff,
    Mod.item?_eq_none] at h
  refine ⟨h.1, libNamed?_eq_none.mp ?_⟩
  have hnone := List.find?_eq_none.mp h.2
  exact List.find?_eq_none.mpr fun s hs hname =>
    hnone s hs (Bool.and_eq_true_iff.mp hname).2

/-! ## Where a name is taken -/

def idents (t : ModuleTree) (m : Mod) : List Ident :=
  m.items.map Item.name ++ (m.broughtEntities.map BroughtEntity.name ++
    (m.submodules.filterMap t.get?).map Mod.name)

def Taken (t : ModuleTree) (m : Mod) (name : String) (range : Span) : Prop :=
  ∃ x ∈ t.idents m, x.text = name ∧ x.range = range

theorem named_of_find? {α : Type} {as : List α} {g : α → Ident} {q : α → Bool} {range : Span}
    (hq : ∀ a, q a = true → (g a).text = name)
    (h : (as.find? q).map (fun a => (g a).range) = some range) :
    ∃ x ∈ as.map g, x.text = name ∧ x.range = range := by
  obtain ⟨a, ha, rfl⟩ := Option.map_eq_some_iff.mp h
  exact ⟨g a, List.mem_map_of_mem (List.mem_of_find?_eq_some ha), hq a (List.find?_some ha), rfl⟩

section

variable {range : Span}

theorem taken_item (h : (m.item? name).map (·.name.range) = some range) :
    t.Taken m name range := by
  obtain ⟨x, hx, hname⟩ := named_of_find? (g := Item.name) (fun _ => eq_of_beq) h
  exact ⟨x, List.mem_append_left _ hx, hname⟩

theorem taken_brought (h : (m.broughtEntity? name).map (·.name.range) = some range) :
    t.Taken m name range := by
  obtain ⟨x, hx, hname⟩ := named_of_find? (g := BroughtEntity.name) (fun _ => eq_of_beq) h
  exact ⟨x, List.mem_append_right _ (List.mem_append_left _ hx), hname⟩

theorem taken_submodule {q : Mod → Bool} (hq : ∀ s, q s = true → s.name.text = name)
    (h : ((m.submodules.filterMap t.get?).find? q).map (·.name.range) = some range) :
    t.Taken m name range := by
  obtain ⟨x, hx, hname⟩ := named_of_find? (g := Mod.name) hq h
  exact ⟨x, List.mem_append_right _ (List.mem_append_right _ hx), hname⟩

theorem taken_of_takenForItem? (h : t.takenForItem? m name = some range) :
    t.Taken m name range := by
  rcases Option.or_eq_some_iff.mp h with h | ⟨-, h⟩
  · exact taken_item h
  · rcases Option.or_eq_some_iff.mp h with h | ⟨-, h⟩
    · exact taken_brought h
    · exact taken_submodule (fun _ hs => eq_of_beq (Bool.and_eq_true_iff.mp hs).2) h

theorem taken_of_takenForBrought? (h : takenForBrought? m name = some range) :
    t.Taken m name range := by
  rcases Option.or_eq_some_iff.mp h with h | ⟨-, h⟩
  · exact taken_item h
  · exact taken_brought h

theorem taken_of_takenForLib? (h : t.takenForLib? m name = some range) :
    t.Taken m name range := by
  rcases Option.or_eq_some_iff.mp h with h | ⟨-, h⟩
  · exact taken_item h
  · exact taken_submodule (fun _ => eq_of_beq) h

end

/-! ## Refusals -/

section

variable {item : Item} {b : BroughtEntity}

/-- An item is declared in a module that has no item, brought entity or lib of its name. -/
theorem addItem_ok (h : t.addItem id item = .ok t') :
    (∀ m, t.get? id = some m → t.takenForItem? m item.name.text = none) ∧
      t' = t.modify id fun m => { m with items := m.items ++ [item] } := by
  unfold addItem at h
  split at h
  · cases h
  · rename_i hfree
    refine ⟨fun m hm => ?_, (Except.ok.inj h).symm⟩
    rwa [hm, Option.bind_some] at hfree

/-- It is refused just where there is one. -/
theorem addItem_error : (∃ d, t.addItem id item = .error d) ↔
    ∃ m, t.get? id = some m ∧ (item.name.text ∈ m.itemNames ∨ item.name.text ∈ m.broughtNames ∨
      item.name.text ∈ t.libNames m) := by
  have htaken : (∃ d, t.addItem id item = .error d) ↔
      (t.get? id).bind (t.takenForItem? · item.name.text) ≠ none := by
    unfold addItem
    split <;> simp [*]
  rw [htaken, ne_eq, Option.bind_eq_none_iff]
  simp only [takenForItem?_eq_none, not_forall, not_and_or, not_not, exists_prop]

/-- The error says where. -/
theorem addItem_taken {d : DuplicateName} (h : t.addItem id item = .error d) :
    ∃ m, t.get? id = some m ∧ t.Taken m item.name.text d.existing := by
  unfold addItem at h
  split at h
  · rename_i htaken
    cases h
    obtain ⟨m, hm, htaken⟩ := Option.bind_eq_some_iff.mp htaken
    exact ⟨m, hm, taken_of_takenForItem? htaken⟩
  · cases h

/-- An entity is brought to a module that has no item or brought entity of its name. -/
theorem addBroughtEntity_ok (h : t.addBroughtEntity id b = .ok t') :
    (∀ m, t.get? id = some m → takenForBrought? m b.name.text = none) ∧
      t' = t.modify id fun m => { m with broughtEntities := m.broughtEntities ++ [b] } := by
  unfold addBroughtEntity at h
  split at h
  · cases h
  · rename_i hfree
    refine ⟨fun m hm => ?_, (Except.ok.inj h).symm⟩
    rwa [hm, Option.bind_some] at hfree

/-- It is refused just where there is one. -/
theorem addBroughtEntity_error : (∃ d, t.addBroughtEntity id b = .error d) ↔
    ∃ m, t.get? id = some m ∧ (b.name.text ∈ m.itemNames ∨ b.name.text ∈ m.broughtNames) := by
  have htaken : (∃ d, t.addBroughtEntity id b = .error d) ↔
      (t.get? id).bind (takenForBrought? · b.name.text) ≠ none := by
    unfold addBroughtEntity
    split <;> simp [*]
  rw [htaken, ne_eq, Option.bind_eq_none_iff]
  simp only [takenForBrought?_eq_none, not_forall, not_and_or, not_not, exists_prop]

theorem addBroughtEntity_taken {d : DuplicateName} (h : t.addBroughtEntity id b = .error d) :
    ∃ m, t.get? id = some m ∧ t.Taken m b.name.text d.existing := by
  unfold addBroughtEntity at h
  split at h
  · rename_i htaken
    cases h
    obtain ⟨m, hm, htaken⟩ := Option.bind_eq_some_iff.mp htaken
    exact ⟨m, hm, taken_of_takenForBrought? htaken⟩
  · cases h

end

/-! ## Changes -/

inductive Change (t : ModuleTree) : ModuleTree → Prop
  /-- A file or a folder is made. -/
  | addSource {name : Ident} {kind : ModKind} {parent : Option ModId} {file : Nat}
    {path : Option String} (h : kind ≠ .lib) :
    Change t (t.addModule name kind parent file path).1
  | addLib {name : Ident} {p : ModId} {file : Nat} {path : Option String}
    (h : (t.get? p).bind (t.takenForLib? · name.text) = none) :
    Change t (t.addModule name .lib (some p) file path).1
  | setVis {id : ModId} {vis : Visibility} : Change t (t.modify id fun m => { m with vis })
  | addItem {id : ModId} {item : Item} {t' : ModuleTree} (h : t.addItem id item = .ok t') :
    Change t t'
  | addGuarded {id : ModId} {name : String} {entity : EntityId} :
    Change t (t.addGuarded id name entity)
  | addBroughtModule {id : ModId} {b : BroughtModule} : Change t (t.addBroughtModule id b)
  | addBroughtEntity {id : ModId} {b : BroughtEntity} {t' : ModuleTree}
    (h : t.addBroughtEntity id b = .ok t') : Change t t'

abbrev Changes : ModuleTree → ModuleTree → Prop := Relation.ReflTransGen Change

end ModuleTree

/-! ## Apart -/

/-- The names of a module that are kept apart: items and libs, items and brought entities. The
same module is brought once under one alias. -/
structure Mod.Apart (t : ModuleTree) (m : Mod) : Prop where
  libs : (m.itemNames ++ t.libNames m).Nodup
  brought : (m.itemNames ++ m.broughtNames).Nodup
  modules : (m.brought.map fun b => (b.module, b.asName)).Nodup

namespace ModuleTree

variable {t t' : ModuleTree} {id p : ModId} {m : Mod} {name : String}

structure Apart (t : ModuleTree) : Prop where
  listed : ∀ id m, t.get? id = some m → ∀ j ∈ m.submodules, j < t.size
  names : ∀ id m, t.get? id = some m → m.Apart t

theorem libNames_congr (h : ∀ j ∈ m.submodules, t'.libName? j = t.libName? j) :
    t'.libNames m = t.libNames m := List.filterMap_congr h

theorem libName?_of_made (h : (t'.get? id).map Mod.made = (t.get? id).map Mod.made) :
    t'.libName? id = t.libName? id := by
  have hmade (t : ModuleTree) : t.libName? id = ((t.get? id).map Mod.made).bind fun s =>
      if s.kind = .lib then some s.name.text else none := by
    unfold libName?
    cases t.get? id <;> rfl
  rw [hmade, hmade, h]

section

variable {f : Mod → Mod}

theorem size_modify : (t.modify id f).size = t.size := Array.size_modify

theorem of_get?_modify {j : ModId} (h : (t.modify id f).get? j = some m) :
    t.get? j = some m ∨ ∃ m', t.get? id = some m' ∧ m = f m' := by
  rw [get?_modify] at h
  split at h
  · rename_i hid
    obtain ⟨m', hm', rfl⟩ := Option.map_eq_some_iff.mp h
    exact .inr ⟨m', hid ▸ hm', rfl⟩
  · exact .inl h

theorem libNames_modify (hf : ∀ m, (f m).made = m.made) (m : Mod) :
    (t.modify id f).libNames m = t.libNames m := by
  refine libNames_congr fun j _ => libName?_of_made ?_
  rw [get?_modify]
  split
  · rw [Option.map_map]
    exact congrArg (Option.map · (t.get? j)) (funext hf)
  · rfl

/-- What is done in one module where it stands. -/
theorem Apart.modify (ht : t.Apart) (hf : ∀ m, (f m).made = m.made)
    (hlisted : ∀ m, t.get? id = some m → ∀ j ∈ (f m).submodules, j ∈ m.submodules ∨ j < t.size)
    (hnames : ∀ m, t.get? id = some m → m.Apart t → (f m).Apart t) : (t.modify id f).Apart := by
  refine ⟨fun j m hm k hk => ?_, fun j m hm => ?_⟩
  · rw [size_modify]
    rcases of_get?_modify hm with hm | ⟨m', hm', rfl⟩
    · exact ht.listed j m hm k hk
    · exact (hlisted m' hm' k hk).elim (ht.listed id m' hm' k) (fun h => h)
  · have hapart : m.Apart t := by
      rcases of_get?_modify hm with hm | ⟨m', hm', rfl⟩
      · exact ht.names j m hm
      · exact hnames m' hm' (ht.names id m' hm')
    refine ⟨?_, hapart.brought, hapart.modules⟩
    rw [libNames_modify hf]
    exact hapart.libs

end

/-- A new name between others. -/
theorem nodup_between {xs ys : List String} (h : (xs ++ ys).Nodup) (hx : name ∉ xs)
    (hy : name ∉ ys) : (xs ++ [name] ++ ys).Nodup := by
  rw [List.append_assoc, List.singleton_append, List.nodup_middle, List.nodup_cons,
    List.mem_append, not_or]
  exact ⟨⟨hx, hy⟩, h⟩

theorem nodup_last {xs ys : List String} (h : (xs ++ ys).Nodup) (hx : name ∉ xs)
    (hy : name ∉ ys) : (xs ++ (ys ++ [name])).Nodup := by
  have hempty : (xs ++ ys ++ []).Nodup := by rwa [List.append_nil]
  have hfree : name ∉ xs ++ ys := fun hmem => (List.mem_append.mp hmem).elim hx hy
  have hbetween := nodup_between hempty hfree List.not_mem_nil
  rwa [List.append_nil, List.append_assoc] at hbetween

theorem Apart.addItem {item : Item} (ht : t.Apart) (h : t.addItem id item = .ok t') :
    t'.Apart := by
  obtain ⟨hfree, rfl⟩ := addItem_ok h
  refine ht.modify (fun _ => rfl) (fun _ _ _ => .inl) fun m hm hapart => ?_
  obtain ⟨hitem, hbrought, hlib⟩ := takenForItem?_eq_none.mp (hfree m hm)
  have hnames : Mod.itemNames { m with items := m.items ++ [item] } =
      m.itemNames ++ [item.name.text] := List.map_append
  exact ⟨hnames ▸ nodup_between hapart.libs hitem hlib,
    hnames ▸ nodup_between hapart.brought hitem hbrought, hapart.modules⟩

theorem Apart.addBroughtEntity {b : BroughtEntity} (ht : t.Apart)
    (h : t.addBroughtEntity id b = .ok t') : t'.Apart := by
  obtain ⟨hfree, rfl⟩ := addBroughtEntity_ok h
  refine ht.modify (fun _ => rfl) (fun _ _ _ => .inl) fun m hm hapart => ?_
  obtain ⟨hitem, hbrought⟩ := takenForBrought?_eq_none.mp (hfree m hm)
  have hnames : Mod.broughtNames { m with broughtEntities := m.broughtEntities ++ [b] } =
      m.broughtNames ++ [b.name.text] := List.map_append
  exact ⟨hapart.libs, hnames ▸ nodup_last hapart.brought hitem hbrought, hapart.modules⟩

theorem Apart.addBroughtModule (ht : t.Apart) (id : ModId) (b : BroughtModule) :
    (t.addBroughtModule id b).Apart := by
  refine ht.modify (fun m => ?_) (fun m _ j hj => .inl ?_) fun m _ hapart => ?_
  · split <;> rfl
  · split at hj <;> exact hj
  · split
    · exact hapart
    · rename_i hnew
      refine ⟨hapart.libs, hapart.brought, ?_⟩
      rw [List.map_append, List.nodup_append]
      refine ⟨hapart.modules, List.nodup_singleton _, ?_⟩
      rintro x hx y hy rfl
      obtain ⟨b', hb', rfl⟩ := List.mem_map.mp hx
      have hsame := List.mem_singleton.mp hy
      refine hnew (List.any_eq_true.mpr ⟨b', hb', ?_⟩)
      simpa using hsame

/-! ## Making modules -/

def push (t : ModuleTree) (m : Mod) : ModuleTree := ⟨t.modules.push m⟩

theorem addModule_eq (name : Ident) (kind : ModKind) (parent : Option ModId) (file : Nat)
    (path : Option String) : (t.addModule name kind parent file path).1 =
      match parent with
      | some p => (t.push { name, kind, parent, file, path }).modify p
          fun m => { m with submodules := m.submodules ++ [t.size] }
      | none => t.push { name, kind, parent, file, path } := by
  unfold addModule
  cases parent <;> rfl

theorem get?_push (t : ModuleTree) (m : Mod) (j : ModId) :
    (t.push m).get? j = if j = t.size then some m else t.get? j := Array.getElem?_push

theorem size_push (t : ModuleTree) (m : Mod) : (t.push m).size = t.size + 1 := Array.size_push _

theorem Apart.push (ht : t.Apart) (hlist : m.submodules = []) (hitems : m.items = [])
    (hbrought : m.broughtEntities = []) (hmodules : m.brought = []) : (t.push m).Apart := by
  have hold (j : ModId) (hj : j < t.size) : (t.push m).get? j = t.get? j := by
    rw [get?_push, if_neg (Nat.ne_of_lt hj)]
  refine ⟨fun j m' hm' k hk => ?_, fun j m' hm' => ?_⟩
  · rw [get?_push] at hm'
    rw [size_push]
    split at hm'
    · cases hm'
      rw [hlist] at hk
      cases hk
    · exact Nat.lt_succ_of_lt (ht.listed j m' hm' k hk)
  · rw [get?_push] at hm'
    split at hm'
    · cases hm'
      exact ⟨by simp [Mod.itemNames, libNames, hitems, hlist],
        by simp [Mod.itemNames, Mod.broughtNames, hitems, hbrought], by simp [hmodules]⟩
    · have hapart := ht.names j m' hm'
      have hlibs : (t.push m).libNames m' = t.libNames m' := libNames_congr fun k hk =>
        libName?_of_made (congrArg (Option.map Mod.made) (hold k (ht.listed j m' hm' k hk)))
      exact ⟨hlibs ▸ hapart.libs, hapart.brought, hapart.modules⟩

/-- A module is listed in another one. If it is a lib, no item and no lib there has its name. -/
theorem Apart.list (ht : t.Apart) {k : ModId} (hk : k < t.size)
    (hfree : ∀ m, t.get? p = some m → ∀ name, t.libName? k = some name →
      name ∉ m.itemNames ∧ name ∉ t.libNames m) :
    (t.modify p fun m => { m with submodules := m.submodules ++ [k] }).Apart := by
  refine ht.modify (fun _ => rfl) (fun m _ j hj => ?_) fun m hm hapart => ?_
  · refine (List.mem_append.mp hj).imp_right fun hnew => ?_
    rwa [List.mem_singleton.mp hnew]
  · refine ⟨?_, hapart.brought, hapart.modules⟩
    have hnames : t.libNames { m with submodules := m.submodules ++ [k] } =
        t.libNames m ++ (t.libName? k).toList := by
      unfold libNames
      rw [List.filterMap_append]
      cases hk : t.libName? k <;> simp [hk]
    rw [hnames]
    show (m.itemNames ++ (t.libNames m ++ (t.libName? k).toList)).Nodup
    cases hname : t.libName? k with
    | none => simpa using hapart.libs
    | some name =>
      obtain ⟨hitem, hlib⟩ := hfree m hm name hname
      exact nodup_last hapart.libs hitem hlib

theorem Apart.addModule (ht : t.Apart) {name : Ident} {kind : ModKind} {parent : Option ModId}
    {file : Nat} {path : Option String}
    (hfree : ∀ p m, parent = some p → kind = .lib → t.get? p = some m →
      name.text ∉ m.itemNames ∧ name.text ∉ t.libNames m) :
    (t.addModule name kind parent file path).1.Apart := by
  have hpush := ht.push (m := { name, kind, parent, file, path }) rfl rfl rfl rfl
  rw [addModule_eq]
  cases parent with
  | none => exact hpush
  | some p =>
    refine hpush.list (by rw [size_push]; exact Nat.lt_succ_self _) fun m hm name' hname => ?_
    have hnew : (t.push { name, kind, parent := some p, file, path }).libName? t.size =
        if kind = .lib then some name.text else none := by
      unfold libName?
      rw [get?_push, if_pos rfl]
      rfl
    rw [hnew, Option.ite_none_right_eq_some] at hname
    obtain ⟨hkind, hname⟩ := hname
    cases hname
    rw [get?_push] at hm
    split at hm
    · cases hm
      exact ⟨List.not_mem_nil, List.not_mem_nil⟩
    · obtain ⟨hitem, hlib⟩ := hfree p m rfl hkind hm
      refine ⟨hitem, ?_⟩
      rwa [libNames_congr fun j hj => libName?_of_made (congrArg (Option.map Mod.made) ?_)]
      rw [get?_push, if_neg (Nat.ne_of_lt (ht.listed p m hm j hj))]

/-! ## All changes -/

theorem apart_empty : Apart {} := ⟨fun id m hm => by simp [get?] at hm, fun id m hm => by
  simp [get?] at hm⟩

/-- No change of a tree gives a module a name twice that it is to have once. -/
theorem Change.apart (h : t.Change t') (ht : t.Apart) : t'.Apart := by
  cases h with
  | addSource hkind => exact ht.addModule fun _ _ _ hlib => absurd hlib hkind
  | addLib hfree =>
    refine ht.addModule fun p m hp _ hm => ?_
    cases hp
    rw [hm] at hfree
    exact not_mem_of_takenForLib? hfree
  | setVis =>
    exact ht.modify (fun _ => rfl) (fun _ _ _ => .inl) fun _ _ h => ⟨h.libs, h.brought, h.modules⟩
  | addItem h => exact ht.addItem h
  | addGuarded =>
    exact ht.modify (fun _ => rfl) (fun _ _ _ => .inl) fun _ _ h => ⟨h.libs, h.brought, h.modules⟩
  | addBroughtModule => exact ht.addBroughtModule _ _
  | addBroughtEntity h => exact ht.addBroughtEntity h

theorem Changes.apart (h : t.Changes t') (ht : t.Apart) : t'.Apart := by
  induction h with
  | refl => exact ht
  | tail _ h ih => exact h.apart ih

end ModuleTree

end Staged
