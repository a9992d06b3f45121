/-
  Staged.Proofs.Lists — lists that are looked up or mapped with misses.

  A look-up may find nothing, and a list mapped by look-ups is there exactly if all of them
  find something. What holds of every single look-up then holds of the whole list.
-/

import Mathlib.Data.List.Forall2

namespace Staged

/-- What a key finds in a list of pairs is there. -/
theorem mem_of_lookup {α β : Type} [BEq α] [LawfulBEq α] {a : α} {b : β} :
    ∀ {pairs : List (α × β)}, pairs.lookup a = some b → (a, b) ∈ pairs
  | (key, value) :: rest, h => by
    rw [List.lookup_cons] at h
    split at h
    · rename_i hkey
      cases h
      rw [beq_iff_eq] at hkey
      rw [hkey]
      exact List.mem_cons_self
    · exact List.mem_cons_of_mem _ (mem_of_lookup h)

/-- What is there is found, if no other pair has its key. -/
theorem lookup_of_mem {α β : Type} [BEq α] [LawfulBEq α] {a : α} {b : β} {pairs : List (α × β)}
    (hnodup : (pairs.map Prod.fst).Nodup) (h : (a, b) ∈ pairs) : pairs.lookup a = some b := by
  induction pairs with
  | nil => cases h
  | cons p pairs ih =>
    obtain ⟨hnew, hnodup⟩ := List.nodup_cons.mp hnodup
    rcases List.mem_cons.mp h with rfl | h
    · exact List.lookup_cons_self
    · have hne : (a == p.1) = false := beq_eq_false_iff_ne.mpr fun heq =>
        hnew (heq ▸ List.mem_map_of_mem h)
      rw [List.lookup_cons, hne]
      exact ih hnodup h

section

variable {α β : Type} {f : α → Option β} {as : List α} {bs : List β}

theorem mapM_eq_some_iff :
    as.mapM f = some bs ↔ List.Forall₂ (fun a b => f a = some b) as bs := by
  induction as generalizing bs with
  | nil => cases bs <;> simp
  | cons a as ih =>
    cases bs with
    | nil => simp [Option.bind_eq_some_iff]
    | cons b bs => simp [Option.bind_eq_some_iff, ih]

theorem isSome_mapM : (as.mapM f).isSome = true ↔ ∀ a ∈ as, (f a).isSome = true := by
  induction as with
  | nil => simp
  | cons a as ih =>
    rw [List.mapM_cons, List.forall_mem_cons, ← ih]
    cases f a with
    | none => simp
    | some b => cases as.mapM f <;> simp

theorem exists_of_mem_mapM {b : β} (h : as.mapM f = some bs) (hb : b ∈ bs) :
    ∃ a ∈ as, f a = some b := by
  obtain ⟨i, hi, rfl⟩ := List.getElem_of_mem hb
  have hall := mapM_eq_some_iff.mp h
  exact ⟨_, List.getElem_mem (hall.length_eq ▸ hi), hall.get _ hi⟩

theorem exists_mem_of_mapM {a : α} (h : as.mapM f = some bs) (ha : a ∈ as) :
    ∃ b ∈ bs, f a = some b := by
  obtain ⟨i, hi, rfl⟩ := List.getElem_of_mem ha
  have hall := mapM_eq_some_iff.mp h
  exact ⟨_, List.getElem_mem (hall.length_eq ▸ hi), hall.get hi _⟩

theorem mapM_mono {g : α → Option β} (h : ∀ a b, f a = some b → g a = some b)
    (has : as.mapM f = some bs) : as.mapM g = some bs :=
  mapM_eq_some_iff.mpr ((mapM_eq_some_iff.mp has).imp h)

theorem mapM_inverse {g : β → Option α} (h : ∀ a b, f a = some b → g b = some a)
    (has : as.mapM f = some bs) : bs.mapM g = some as :=
  mapM_eq_some_iff.mpr (((mapM_eq_some_iff.mp has).imp h).flip)

end

end Staged
