/-
  Staged.Proofs.Modules.Forest — modules stand in one another like the trees of a forest.

  A module is made after the one around it. That one lists it, once, and no other module
  does (`ModuleTree.IsForest`). Making a module keeps to this, and so does declaring names in
  a module, which leaves it where it is (`ModuleTree.Alike`). A tree to which only libs and
  names are added keeps the modules it has as they were made (`ModuleTree.Grows`).

  In a forest the way up from a module comes to an end, as a way over modules: that numbers
  become smaller on it is what is proved, not what ends it (`IsForest.climbs`). What is asked
  of a module and those around it is asked along this way (`IsForest.walks`).
-/

import Mathlib.Data.List.Count
import Mathlib.Logic.Relation
import Staged.Proofs.Tree

namespace Staged

def Mod.made (m : Mod) : Mod :=
  { name := m.name, kind := m.kind, parent := m.parent, file := m.file, path := m.path }

namespace ModuleTree

variable {t t' : ModuleTree} {id p : ModId} {m : Mod}

/-- A module comes after the one it stands in, which lists it once; no other does. -/
structure IsForest (t : ModuleTree) : Prop where
  before : ∀ id p, t.parent? id = some p → p < id
  listed : ∀ id p, t.parent? id = some p → ∃ m, t.get? p = some m ∧ m.submodules.count id = 1
  only : ∀ p m id, t.get? p = some m → id ∈ m.submodules → t.parent? id = some p

/-! ## Looking modules up -/

theorem lt_size_of_get? (h : t.get? id = some m) : id < t.size :=
  (Array.getElem?_eq_some_iff.mp h).1

theorem get?_of_lt (h : id < t.size) : ∃ m, t.get? id = some m :=
  ⟨_, Array.getElem?_eq_getElem h⟩

theorem parent?_eq_some : t.parent? id = some p ↔ ∃ m, t.get? id = some m ∧ m.parent = some p :=
  Option.bind_eq_some_iff

theorem parent?_eq_made (t : ModuleTree) (id : ModId) :
    t.parent? id = ((t.get? id).map Mod.made).bind Mod.parent := by
  rw [parent?]
  cases t.get? id <;> rfl

/-! ## Declaring names -/

/-- The same modules in one another, whatever is declared in them. -/
def Alike (t t' : ModuleTree) : Prop :=
  ∀ id, (t'.get? id).map (fun m => (m.made, m.submodules)) =
    (t.get? id).map fun m => (m.made, m.submodules)

theorem Alike.symm (h : t.Alike t') : t'.Alike t := fun id => (h id).symm

theorem Alike.get? (h : t.Alike t') {m' : Mod} (hm : t'.get? id = some m') :
    ∃ m, t.get? id = some m ∧ m'.made = m.made ∧ m'.submodules = m.submodules := by
  have hid := h id
  rw [hm] at hid
  obtain ⟨m, hm, hsame⟩ := Option.map_eq_some_iff.mp hid.symm
  obtain ⟨hmade, hlist⟩ := Prod.mk.inj hsame
  exact ⟨m, hm, hmade.symm, hlist.symm⟩

theorem Alike.made (h : t.Alike t') (id : ModId) :
    (t'.get? id).map Mod.made = (t.get? id).map Mod.made := by
  have hid := congrArg (Option.map Prod.fst) (h id)
  rwa [Option.map_map, Option.map_map] at hid

theorem Alike.parent? (h : t.Alike t') (id : ModId) : t'.parent? id = t.parent? id := by
  rw [parent?_eq_made, parent?_eq_made, h.made id]

theorem alike_modify {f : Mod → Mod}
    (hf : ∀ m, (f m).made = m.made ∧ (f m).submodules = m.submodules)
    (t : ModuleTree) (id : ModId) : t.Alike (t.modify id f) := by
  intro j
  rw [get?_modify]
  split
  · rw [Option.map_map]
    exact congrArg (Option.map · (t.get? j)) (funext fun m => Prod.ext (hf m).1 (hf m).2)
  · rfl

theorem alike_addItem {item : Item} (h : t.addItem id item = .ok t') : t.Alike t' := by
  unfold addItem at h
  split at h <;> cases h
  refine alike_modify (fun m => ?_) t id
  exact ⟨rfl, rfl⟩

theorem alike_addGuarded (t : ModuleTree) (id : ModId) (name : String) (entity : EntityId) :
    t.Alike (t.addGuarded id name entity) := by
  unfold addGuarded
  refine alike_modify (fun m => ?_) t id
  exact ⟨rfl, rfl⟩

theorem IsForest.alike (ht : t.IsForest) (h : t.Alike t') : t'.IsForest where
  before id p hp := ht.before id p (h.parent? id ▸ hp)
  listed id p hp := by
    obtain ⟨m, hm, hcount⟩ := ht.listed id p (h.parent? id ▸ hp)
    obtain ⟨m', hm', -, hlist⟩ := h.symm.get? hm
    exact ⟨m', hm', hlist ▸ hcount⟩
  only p m' id hm' hid := by
    obtain ⟨m, hm, -, hlist⟩ := h.get? hm'
    rw [h.parent? id]
    exact ht.only p m id hm (hlist ▸ hid)

/-! ## Making modules -/

section

variable (t : ModuleTree) (name : Ident) (kind : ModKind) {parent : Option ModId} (file : Nat)
  (path : Option String)

/-- The new module comes last, and the one around it lists it last. -/
theorem get?_addModule (hparent : ∀ p, parent = some p → p < t.size) (j : ModId) :
    (t.addModule name kind parent file path).1.get? j =
      if j = t.size then some { name, kind, parent, file, path }
      else (t.get? j).map fun m =>
        if parent = some j then { m with submodules := m.submodules ++ [t.size] } else m := by
  have hpush : ModuleTree.get? ⟨t.modules.push { name, kind, parent, file, path }⟩ j =
      if j = t.size then some { name, kind, parent, file, path } else t.get? j :=
    Array.getElem?_push
  unfold addModule
  cases parent with
  | none =>
    dsimp only
    rw [hpush]
    simp
  | some p =>
    have hp := hparent p rfl
    dsimp only
    rw [get?_modify, hpush]
    by_cases hj : j = t.size
    · rw [if_pos hj, if_pos hj, if_neg (Nat.ne_of_lt (hj ▸ hp))]
    · rw [if_neg hj, if_neg hj]
      by_cases hpj : p = j
      · simp [hpj, size]
      · simp [hpj]

theorem id_addModule : (t.addModule name kind parent file path).2 = t.size := by
  unfold addModule
  cases parent <;> rfl

theorem size_addModule : (t.addModule name kind parent file path).1.size = t.size + 1 := by
  unfold addModule
  cases parent <;> simp [size, modify]

variable {t}

/-- Making a module leaves the others as they were made. -/
theorem made_addModule (hparent : ∀ p, parent = some p → p < t.size) (j : ModId) :
    ((t.addModule name kind parent file path).1.get? j).map Mod.made =
      if j = t.size then some { name, kind, parent, file, path } else (t.get? j).map Mod.made := by
  rw [get?_addModule t name kind file path hparent]
  split
  · rfl
  · rw [Option.map_map]
    refine congrArg (Option.map · (t.get? j)) (funext fun m => ?_)
    show Mod.made (if _ then _ else _) = _
    split <;> rfl

theorem parent?_addModule (hparent : ∀ p, parent = some p → p < t.size) (j : ModId) :
    (t.addModule name kind parent file path).1.parent? j =
      if j = t.size then parent else t.parent? j := by
  rw [parent?_eq_made, made_addModule name kind file path hparent]
  split
  · rfl
  · exact (parent?_eq_made t j).symm

/-- What is yet to be made is not listed. -/
theorem IsForest.size_not_mem (ht : t.IsForest) {p : ModId} {m : Mod} (hm : t.get? p = some m) :
    t.size ∉ m.submodules := by
  intro hmem
  obtain ⟨m', hm', -⟩ := parent?_eq_some.mp (ht.only p m _ hm hmem)
  exact absurd (lt_size_of_get? hm') (Nat.lt_irrefl _)

theorem IsForest.addModule (ht : t.IsForest) (hparent : ∀ p, parent = some p → p < t.size) :
    (t.addModule name kind parent file path).1.IsForest := by
  have hget := get?_addModule t name kind file path hparent
  have hup := parent?_addModule name kind file path hparent
  refine ⟨fun id p hp => ?_, fun id p hp => ?_, fun p m id hm hid => ?_⟩
  · rw [hup] at hp
    split at hp
    · rename_i hid
      exact hid ▸ hparent p hp
    · exact ht.before id p hp
  -- the new module is listed once, and what was listed once still is
  · rw [hup] at hp
    split at hp
    · rename_i hid
      subst hid
      obtain ⟨m, hm⟩ := get?_of_lt (hparent p hp)
      refine ⟨{ m with submodules := m.submodules ++ [t.size] }, ?_, ?_⟩
      · rw [hget, if_neg (Nat.ne_of_lt (hparent p hp)), hm, Option.map_some, if_pos hp]
      · rw [List.count_append, List.count_eq_zero_of_not_mem (ht.size_not_mem hm)]
        simp
    · rename_i hid
      obtain ⟨m, hm, hcount⟩ := ht.listed id p hp
      have hlt : p < t.size := lt_size_of_get? hm
      refine ⟨_, by rw [hget, if_neg (Nat.ne_of_lt hlt), hm]; rfl, ?_⟩
      split
      · rw [List.count_append, hcount, List.count_eq_zero_of_not_mem]
        simpa using hid
      · exact hcount
  · rw [hup]
    rw [hget] at hm
    split at hm
    · cases hm
      cases hid
    · obtain ⟨m₀, hm₀, rfl⟩ := Option.map_eq_some_iff.mp hm
      have hold (hid : id ∈ m₀.submodules) :
          (if id = t.size then parent else t.parent? id) = some p := by
        rw [if_neg fun h : id = t.size => ht.size_not_mem hm₀ (h ▸ hid)]
        exact ht.only p m₀ id hm₀ hid
      split at hid
      · rename_i hp
        rcases List.mem_append.mp hid with hid | hid
        · exact hold hid
        · rw [if_pos (List.mem_singleton.mp hid)]
          exact hp
      · exact hold hid

end

theorem isForest_empty : IsForest {} where
  before _ _ h := by cases h
  listed _ _ h := by cases h
  only _ _ _ h := by cases h

/-! ## Adding libs -/

structure Grows (t t' : ModuleTree) : Prop where
  forest : t.IsForest → t'.IsForest
  made : ∀ id, id < t.size → (t'.get? id).map Mod.made = (t.get? id).map Mod.made
  lib : ∀ id m, t'.get? id = some m → id < t.size ∨ m.kind = .lib

theorem Grows.get? (h : t.Grows t') (hid : id < t.size) :
    ∃ m m', t.get? id = some m ∧ t'.get? id = some m' ∧ m'.made = m.made := by
  obtain ⟨m, hm⟩ := get?_of_lt hid
  have hmade := h.made id hid
  rw [hm] at hmade
  obtain ⟨m', hm', hmade⟩ := Option.map_eq_some_iff.mp hmade
  exact ⟨m, m', hm, hm', hmade⟩

theorem Grows.lt_size (h : t.Grows t') (hid : id < t.size) : id < t'.size := by
  obtain ⟨_, _, -, hm', -⟩ := h.get? hid
  exact lt_size_of_get? hm'

theorem Grows.refl (t : ModuleTree) : t.Grows t :=
  ⟨fun h => h, fun _ _ => rfl, fun _ _ hm => .inl (lt_size_of_get? hm)⟩

theorem Grows.trans {t'' : ModuleTree} (h : t.Grows t') (h' : t'.Grows t'') : t.Grows t'' where
  forest := h'.forest ∘ h.forest
  made id hid := (h'.made id (h.lt_size hid)).trans (h.made id hid)
  lib id m hm := by
    rcases h'.lib id m hm with hid | hlib
    · obtain ⟨m', _, hm', hm₂, hmade⟩ := h'.get? hid
      cases hm.symm.trans hm₂
      have hkind : m.kind = m'.kind := (Mod.mk.inj hmade).2.1
      rw [hkind]
      exact h.lib id m' hm'
    · exact .inr hlib

theorem Alike.grows (h : t.Alike t') : t.Grows t' where
  forest ht := ht.alike h
  made id _ := h.made id
  lib id m hm := by
    obtain ⟨m', hm', -⟩ := h.get? hm
    exact .inl (lt_size_of_get? hm')

theorem grows_addModule (name : Ident) (file : Nat) (path : Option String) (hp : p < t.size) :
    t.Grows (t.addModule name .lib (some p) file path).1 := by
  have hparent : ∀ q, some p = some q → q < t.size := by
    rintro _ ⟨⟩
    exact hp
  have hmade := made_addModule name .lib file path hparent
  refine ⟨fun ht => ht.addModule name .lib file path hparent, fun id hid => ?_, fun id m hm => ?_⟩
  · rw [hmade, if_neg (Nat.ne_of_lt hid)]
  · have hid := hmade id
    rw [hm] at hid
    split at hid
    · exact .inr (Mod.mk.inj (Option.some.inj hid)).2.1
    · obtain ⟨m', hm', -⟩ := Option.map_eq_some_iff.mp hid.symm
      exact .inl (lt_size_of_get? hm')

/-! ## The way up -/

inductive Climbs (t : ModuleTree) : ModId → List ModId → Prop
  | top {id : ModId} : t.parent? id = none → Climbs t id [id]
  | up {id p : ModId} {path : List ModId} : t.parent? id = some p → Climbs t p path →
      Climbs t id (id :: path)

def Inside (t : ModuleTree) (id p : ModId) : Prop := t.parent? id = some p

theorem IsForest.climbs (ht : t.IsForest) (id : ModId) : t.Climbs id (t.ancestors id) := by
  induction id using Nat.strongRecOn with
  | ind id ih =>
    rw [ancestors]
    cases hp : t.parent? id with
    | none => exact .top hp
    | some p =>
      have hlt : p < id := ht.before id p hp
      dsimp only
      rw [if_pos hlt]
      exact .up hp (ih p hlt)

namespace Climbs

variable {path : List ModId}

/-- The way leads through all modules around the first. -/
theorem mem_iff (h : t.Climbs id path) (a : ModId) :
    a ∈ path ↔ Relation.ReflTransGen t.Inside id a := by
  induction h with
  | @top id hnone =>
    rw [List.mem_singleton, Relation.ReflTransGen.cases_head_iff]
    constructor
    · rintro rfl
      exact .inl rfl
    · rintro (h | ⟨b, hb, -⟩)
      · exact h.symm
      · cases hnone.symm.trans hb
  | @up id p path hp _ ih =>
    rw [List.mem_cons, ih, Relation.ReflTransGen.cases_head_iff (a := id)]
    constructor
    · rintro (rfl | h)
      · exact .inl rfl
      · exact .inr ⟨p, hp, h⟩
    · rintro (h | ⟨b, hb, h⟩)
      · exact .inl h.symm
      · cases hp.symm.trans hb
        exact .inr h

theorem length_le (ht : t.IsForest) (h : t.Climbs id path) : path.length ≤ id + 1 := by
  induction h with
  | top => exact Nat.succ_le_succ (Nat.zero_le _)
  | up hp _ ih => exact Nat.succ_le_succ (Nat.le_trans ih (ht.before _ _ hp))

end Climbs

/-- What is asked of a module and those around it is asked along one way up, which ends. -/
structure Walks (t : ModuleTree) (id : ModId) (path : List ModId) : Prop where
  climbs : t.Climbs id path
  length_le : path.length ≤ id + 1
  fullName : t.fullName id = "::".intercalate (path.reverse.map t.nameOf)
  isWithin : ∀ a, t.isWithin id a = true ↔ Relation.ReflTransGen t.Inside id a
  nearest? : ∀ kind, t.nearest? id kind = path.find? fun m => (t.get? m).any (·.kind == kind)
  findUnqualified : ∀ name view, t.findUnqualified id name view = t.findFirst name view path
  guardedCandidates : ∀ name view last, name.last? = some last → name.isSingle = true →
    t.guardedCandidates id name view =
      path.flatMap fun m => ((t.get? m).map (·.guardedNamed last.text)).getD []

theorem IsForest.walks (ht : t.IsForest) (id : ModId) : t.Walks id (t.ancestors id) where
  climbs := ht.climbs id
  length_le := (ht.climbs id).length_le ht
  fullName := rfl
  isWithin a := by
    rw [ModuleTree.isWithin, List.contains_iff_mem]
    exact (ht.climbs id).mem_iff a
  nearest? _ := rfl
  findUnqualified _ _ := rfl
  guardedCandidates name view last hlast hsingle := by
    unfold ModuleTree.guardedCandidates
    rw [hlast]
    dsimp only
    rw [if_pos hsingle]

end ModuleTree

end Staged
