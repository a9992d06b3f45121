/-
  Staged.Proofs.Resolve — a name never leads to something its user may not see.

  A name has many ways to its meaning: items, submodules, modules and entities brought
  under a name, what stands behind the modules brought without one, near or far, and the
  modules around. All of them end in a check of what one module means by it, and what
  passes the check is visible from the viewpoint (`Means.visible`). So:
  - `resolve_visible`: what a name is resolved to is visible, and so is every module
    that its segments go through on the way.

  Only a name without segments escapes: it means the module it starts from, or one
  around it, and nothing is checked.
-/

import Staged.Proofs.Tree

namespace Staged

def Resolved.Visible (t : ModuleTree) (view : Viewpoint) : Resolved → Prop
  | .module id => ∀ m, t.get? id = some m → t.isAccessible m.vis view = true
  | .item i => t.isAccessible i.vis view = true

namespace ModuleTree

variable {t : ModuleTree} {view : Viewpoint} {r : Resolved}

theorem Means.visible {name : Ident} (h : t.Means view name r) : r.Visible t view := by
  rcases h.cases with ⟨i, rfl, -, hvis⟩ | ⟨id, rfl, hvis⟩
  · exact hvis
  · exact hvis

theorem visible_of_resolve {start : ModId} {name : QName} (hname : name.segments ≠ [])
    (h : t.resolve start name view = .ok r) : r.Visible t view := by
  rcases resolve_means h with ⟨hnil, -⟩ | ⟨s, -, hmeans⟩
  · exact absurd hnil hname
  · exact hmeans.visible

/-! ## On the way -/

/-- The first `k` segments lead to a module, in which the others are followed. -/
theorem follow_take {segments : List Ident} {k : Nat} {previous : Ident} {current : Resolved}
    (hk : k < segments.length) (h : t.follow view previous current segments = .ok r) :
    ∃ m before, t.follow view previous current (segments.take k) = .ok (.module m) ∧
      t.follow view before (.module m) (segments.drop k) = .ok r := by
  induction segments generalizing k previous current with
  | nil => exact absurd hk (Nat.not_lt_zero k)
  | cons segment rest ih =>
    obtain ⟨m, next, rfl, hfound, hrest⟩ := follow_cons h
    cases k with
    | zero => exact ⟨m, previous, rfl, h⟩
    | succ k =>
      obtain ⟨m', before, htake, hdrop⟩ := ih (Nat.lt_of_succ_lt_succ hk) hrest
      refine ⟨m', before, ?_, hdrop⟩
      simp only [List.take_succ_cons, ModuleTree.follow, hfound]
      exact htake

/-- So do the first `k` segments of a name, if there are some: the name cut off there is
resolved to the module in which the others are followed. -/
theorem resolve_take {start : ModId} {name : QName} {k : Nat} (hpos : 0 < k)
    (hk : k < name.segments.length) (h : t.resolve start name view = .ok r) :
    ∃ m before,
      t.resolve start { name with segments := name.segments.take k } view = .ok (.module m) ∧
      t.follow view before (.module m) (name.segments.drop k) = .ok r := by
  cases hname : name.segments with
  | nil =>
    rw [hname] at hk
    exact absurd hk (Nat.not_lt_zero k)
  | cons first rest =>
    obtain ⟨up, found, hup, hhead, hrest⟩ := resolve_cons hname h
    obtain ⟨k, rfl⟩ := Nat.exists_eq_succ_of_ne_zero (Nat.ne_of_gt hpos)
    rw [hname] at hk
    obtain ⟨m, before, htake, hdrop⟩ := follow_take (Nat.lt_of_succ_lt_succ hk) hrest
    refine ⟨m, before, ?_, hdrop⟩
    have hcut : t.head { name with segments := (first :: rest).take (k + 1) } up first view =
        .ok (some found) := hhead
    rw [resolve_eq, hup]
    simp only [List.take_succ_cons, Except.bind] at hcut ⊢
    rw [hcut]
    exact htake

/-- An item that a name is resolved to is visible, and so is a module unless the name has
no segments; and every proper part of the segments, from the first on, is itself resolved
to a visible module, the one in which the others are followed. -/
theorem resolve_visible {start : ModId} {name : QName}
    (h : t.resolve start name view = .ok r) :
    (∀ i, r = .item i → t.isAccessible i.vis view = true) ∧
      (name.segments ≠ [] → r.Visible t view) ∧
      ∀ k, 0 < k → k < name.segments.length → ∃ m before,
        t.resolve start { name with segments := name.segments.take k } view = .ok (.module m) ∧
        t.follow view before (.module m) (name.segments.drop k) = .ok r ∧
        (Resolved.module m).Visible t view := by
  refine ⟨fun i hi => ?_, fun hname => visible_of_resolve hname h, fun k hpos hk => ?_⟩
  · subst hi
    rcases resolve_means h with ⟨-, m, hm⟩ | ⟨s, -, hmeans⟩
    · cases hm
    · exact hmeans.visible
  · obtain ⟨m, before, htake, hdrop⟩ := resolve_take hpos hk h
    refine ⟨m, before, htake, hdrop, visible_of_resolve (fun hnil => ?_) htake⟩
    have hlength := congrArg List.length hnil
    rw [List.length_take, List.length_nil] at hlength
    omega

/-- A file with a lib open to the file only, and a public item in the lib. -/
def shelved : ModuleTree :=
  let range : Span := ⟨0, 0, 0⟩
  ⟨#[{ name := ⟨"app", range⟩, kind := .file, parent := none, file := 0, path := none,
       submodules := [1] },
    { name := ⟨"shelf", range⟩, kind := .lib, parent := some 0, vis := .inside .file 0, file := 0,
      path := none, items := [⟨⟨"book", range⟩, 0, .global, .pub⟩] }]⟩

theorem resolve_visible_shelved :
    let range : Span := ⟨0, 0, 0⟩
    let book : Item := ⟨⟨"book", range⟩, 0, .global, .pub⟩
    shelved.resolve 0 ⟨0, [⟨"shelf", range⟩, ⟨"book", range⟩], range⟩ ⟨0, none⟩ = .ok (.item book) ∧
      shelved.isAccessible book.vis ⟨0, none⟩ = true ∧
      ∃ m, shelved.resolve 0 ⟨0, [⟨"shelf", range⟩], range⟩ ⟨0, none⟩ = .ok (.module m) ∧
        (Resolved.module m).Visible shelved ⟨0, none⟩ := by
  intro range book
  have h : shelved.resolve 0 ⟨0, [⟨"shelf", range⟩, ⟨"book", range⟩], range⟩ ⟨0, none⟩ =
      .ok (.item book) := by
    with_unfolding_all rfl
  obtain ⟨hitem, -, hway⟩ := resolve_visible h
  obtain ⟨m, -, htake, -, hvisible⟩ := hway 1 (by decide) (by decide)
  exact ⟨h, hitem book rfl, m, htake, hvisible⟩

end ModuleTree

end Staged
