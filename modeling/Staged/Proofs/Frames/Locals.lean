/-
  Staged.Proofs.Frames.Locals — what a body may do to the locals of its call.

  A frame is kept when it has the same scopes with the same locals in the same order, and
  only variables have other values, of the types they had (`Frame.Kept`). A body may also
  declare locals, but only in the innermost scope: then the frame has grown (`Frame.Grows`).
  - `declare?_grows`, `set?_kept`: declaring a local grows a frame, and giving a variable a
    value of its type keeps it.
  - `Grows.pop`: whatever grows in a scope is gone once the scope is left.
-/

import Mathlib.Data.List.Forall2
import Staged.Constant.Frame

namespace Staged

/-! ## Locals and scopes -/

structure KnownLocal.Kept (l l' : KnownLocal) : Prop where
  isVar : l'.isVar = l.isVar
  type : l'.value.type = l.value.type
  fixed : l.isVar = false → l' = l

def Scope.Kept : Scope → Scope → Prop :=
  List.Forall₂ fun entry entry' => entry'.1 = entry.1 ∧ entry.2.Kept entry'.2

theorem KnownLocal.Kept.refl (l : KnownLocal) : l.Kept l := ⟨rfl, rfl, fun _ => rfl⟩

theorem KnownLocal.Kept.trans {l l' l'' : KnownLocal} (h : l.Kept l') (h' : l'.Kept l'') :
    l.Kept l'' where
  isVar := h'.isVar.trans h.isVar
  type := h'.type.trans h.type
  fixed hl := (h'.fixed (h.isVar.trans hl)).trans (h.fixed hl)

theorem forall₂_trans {α : Type} {R : α → α → Prop} (htrans : ∀ {a b c}, R a b → R b c → R a c)
    {as bs cs : List α} (h : List.Forall₂ R as bs) (h' : List.Forall₂ R bs cs) :
    List.Forall₂ R as cs := by
  induction h generalizing cs with
  | nil => exact h'
  | cons hab _ ih =>
    cases h' with
    | cons hbc hrest => exact .cons (htrans hab hbc) (ih hrest)

namespace Scope

variable {scope scope' scope'' : Scope} {name : String} {value : Constant} {l : KnownLocal}

theorem Kept.refl (scope : Scope) : scope.Kept scope :=
  List.forall₂_same.mpr fun entry _ => ⟨rfl, .refl entry.2⟩

theorem Kept.trans (h : scope.Kept scope') (h' : scope'.Kept scope'') : scope.Kept scope'' :=
  forall₂_trans (fun hab hbc => ⟨hbc.1.trans hab.1, hab.2.trans hbc.2⟩) h h'

/-- The name found first is the one that gets the value. -/
theorem kept_setIn (hl : scope.lookup name = some l) (hvar : l.isVar = true)
    (htype : value.type = l.value.type) : scope.Kept (Frame.setIn name value scope) := by
  induction scope with
  | nil => cases hl
  | cons entry rest ih =>
    obtain ⟨key, known⟩ := entry
    rw [List.lookup_cons] at hl
    unfold Frame.setIn
    by_cases hkey : key = name
    · subst hkey
      rw [BEq.rfl] at hl ⊢
      cases hl
      refine .cons ⟨rfl, rfl, htype, fun hfixed => ?_⟩ (Kept.refl rest)
      rw [hvar] at hfixed
      cases hfixed
    · rw [beq_false_of_ne (Ne.symm hkey)] at hl
      rw [beq_false_of_ne hkey]
      exact .cons ⟨rfl, .refl known⟩ (ih hl)

end Scope

namespace Frame

theorem kept_setScopes {name : String} {value : Constant} {l : KnownLocal} {scopes : List Scope}
    (hl : scopes.findSome? (·.lookup name) = some l) (hvar : l.isVar = true)
    (htype : value.type = l.value.type) :
    List.Forall₂ Scope.Kept scopes (setScopes name value scopes) := by
  induction scopes with
  | nil => cases hl
  | cons scope rest ih =>
    rw [List.findSome?_cons] at hl
    unfold setScopes
    cases hscope : scope.lookup name with
    | some known =>
      rw [hscope] at hl
      cases hl
      exact .cons (Scope.kept_setIn hscope hvar htype) (List.forall₂_same.mpr fun s _ => .refl s)
    | none =>
      rw [hscope] at hl
      exact .cons (.refl scope) (ih hl)

/-! ## Frames -/

structure Kept (f f' : Frame) : Prop where
  function : f'.function = f.function
  result : f'.result = f.result
  inner : f.inner.Kept f'.inner
  outer : List.Forall₂ Scope.Kept f.outer f'.outer

structure Grows (f f' : Frame) : Prop where
  function : f'.function = f.function
  result : f'.result = f.result
  inner : ∃ new old, f'.inner = new ++ old ∧ f.inner.Kept old
  outer : List.Forall₂ Scope.Kept f.outer f'.outer

variable {f f' f'' : Frame} {name : String} {value : Constant}

theorem Kept.grows (h : f.Kept f') : f.Grows f' :=
  ⟨h.function, h.result, ⟨[], f'.inner, rfl, h.inner⟩, h.outer⟩

theorem Kept.refl (f : Frame) : f.Kept f :=
  ⟨rfl, rfl, .refl f.inner, List.forall₂_same.mpr fun s _ => .refl s⟩

theorem Grows.refl (f : Frame) : f.Grows f := (Kept.refl f).grows

theorem Grows.trans (h : f.Grows f') (h' : f'.Grows f'') : f.Grows f'' where
  function := h'.function.trans h.function
  result := h'.result.trans h.result
  inner := by
    obtain ⟨new, old, hinner, hold⟩ := h.inner
    obtain ⟨new', old', hinner', hold'⟩ := h'.inner
    rw [hinner] at hold'
    -- what was new before is part of what is new now
    refine ⟨new' ++ old'.take new.length, old'.drop new.length, ?_, ?_⟩
    · rw [hinner', List.append_assoc, List.take_append_drop]
    · exact hold.trans (List.forall₂_drop_append old' new old hold'.flip).flip
  outer := forall₂_trans .trans h.outer h'.outer

theorem declare?_grows {isVar : Bool} (hf : f.declare? name value isVar = some f') :
    f.Grows f' := by
  unfold declare? at hf
  split at hf
  · cases hf
  · cases hf
    refine ⟨rfl, rfl, ⟨[(name, ⟨value, isVar⟩)], f.inner, rfl, .refl f.inner⟩, ?_⟩
    exact List.forall₂_same.mpr fun s _ => .refl s

theorem set?_kept {l : KnownLocal} (hl : f.get? name = some l) (hvar : l.isVar = true)
    (htype : value.type = l.value.type) (hf : f.set? name value = some f') : f.Kept f' := by
  unfold get? at hl
  rw [List.findSome?_cons] at hl
  unfold set? at hf
  split at hf
  · cases hf
  · split at hf
    · rename_i hinner
      obtain ⟨known, hknown⟩ := Option.isSome_iff_exists.mp hinner
      rw [hknown] at hl
      cases hl
      cases hf
      exact ⟨rfl, rfl, Scope.kept_setIn hknown hvar htype,
        List.forall₂_same.mpr fun s _ => .refl s⟩
    · rename_i hinner
      rw [Option.not_isSome_iff_eq_none] at hinner
      rw [hinner] at hl
      cases hf
      exact ⟨rfl, rfl, .refl f.inner, kept_setScopes hl hvar htype⟩

/-- Leaving a scope takes back what grew in it. -/
theorem Grows.pop (h : f.push.Grows f') : f.Kept f'.pop := by
  obtain ⟨function, result, inner, outer⟩ := f'
  obtain ⟨hfunction, hresult, -, houter⟩ := h
  cases houter with
  | cons hinner houter => exact ⟨hfunction, hresult, hinner, houter⟩

end Frame

end Staged
