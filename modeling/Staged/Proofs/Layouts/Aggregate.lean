/-
  Staged.Proofs.Layouts.Aggregate — members of an aggregate are placed as tightly as can be.

  Members stand in order, each where a multiple of its alignment is, and behind the end of the
  one before (`Layout.Fits`). Putting each of them at the first such place is best: no other
  way of placing them ends before that (`fitsFrom_iff`), as whatever ends later leaves less
  room for the rest. The size is then the first multiple of the largest alignment.

  Sizes are words. If there is a way to place the members below `2 ^ 64`, the one that is
  computed stays below it as well, and nothing wraps (`foldl_place`).

  Main statement: `aggregate_optimal`.
-/

import Mathlib
import Staged.Proofs.Lists
import Staged.Ty.Layout

namespace Staged

namespace Layout

/-- A member may start at an offset. One that is aligned to nothing may start anywhere. -/
def MayStart (l : Layout) (offset : Nat) : Prop := l.align ∣ offset ∨ l.align = 0

/-- Members can be placed in order within a size: they start at multiples of their alignments,
each of them behind the end of those before it, and end within the size. -/
def Fits (members : List Layout) (size : Nat) : Prop :=
  ∃ places : List (Nat × Layout), places.map Prod.snd = members ∧
    (∀ p ∈ places, p.2.MayStart p.1 ∧ p.1 + p.2.size ≤ size) ∧
    places.Pairwise fun p q => p.1 + p.2.size ≤ q.1

def largestAlign (members : List Layout) : Nat := (members.map align).foldl max 1

def totalSize (members : List Layout) : Nat := (members.map size).sum

variable {l : Layout} {ls : List Layout} {a m n o p : Nat}

/-! ## The first place -/

def firstFrom (offset align : Nat) : Nat :=
  if align ≤ 1 then offset else (offset + align - 1) / align * align

theorem alignTo_eq (h : firstFrom o a < 2 ^ 64) : alignTo o a = firstFrom o a := by
  unfold alignTo firstFrom at *
  split
  · rfl
  · rename_i ha
    rw [if_neg ha] at h
    exact Nat.mod_eq_of_lt h

theorem le_firstFrom (o a : Nat) : o ≤ firstFrom o a := by
  unfold firstFrom
  split
  · exact Nat.le_refl o
  · have hdiv := Nat.lt_div_mul_add (a := o + a - 1) (b := a) (by omega)
    omega

theorem mayStart_firstFrom (l : Layout) (o : Nat) : l.MayStart (firstFrom o l.align) := by
  unfold MayStart firstFrom
  split
  · rename_i h
    rcases Nat.le_one_iff_eq_zero_or_eq_one.mp h with h | h
    · exact .inr h
    · exact .inl (h ▸ Nat.one_dvd o)
  · exact .inl (Nat.dvd_mul_left _ _)

theorem firstFrom_le (h : l.MayStart p) (hle : o ≤ p) : firstFrom o l.align ≤ p := by
  unfold firstFrom
  split
  · exact hle
  · rename_i ha
    rcases h with ⟨k, rfl⟩ | h
    · rw [Nat.mul_comm l.align k]
      refine Nat.mul_le_mul_right _ (Nat.lt_succ_iff.mp ((Nat.div_lt_iff_lt_mul (by omega)).mpr ?_))
      rw [Nat.succ_mul, Nat.mul_comm k]
      omega
    · omega

/-! ## The tightest way -/

/-- Where the last member ends if each of them starts as early as it may, from an offset on. -/
def ends : Nat → List Layout → Nat
  | o, [] => o
  | o, l :: ls => ends (firstFrom o l.align + l.size) ls

theorem le_ends (o : Nat) (ls : List Layout) : o ≤ ends o ls := by
  induction ls generalizing o with
  | nil => exact Nat.le_refl o
  | cons l ls ih => exact (le_firstFrom o l.align).trans ((Nat.le_add_right _ _).trans (ih _))

def FitsFrom : Nat → List Layout → Nat → Prop
  | o, [], size => o ≤ size
  | o, l :: ls, size => ∃ p, o ≤ p ∧ l.MayStart p ∧ FitsFrom (p + l.size) ls size

theorem FitsFrom.mono (h : FitsFrom o ls n) (hle : p ≤ o) : FitsFrom p ls n := by
  cases ls with
  | nil => exact Nat.le_trans hle h
  | cons l ls =>
    obtain ⟨q, hq, hstart, hrest⟩ := h
    exact ⟨q, Nat.le_trans hle hq, hstart, hrest⟩

/-- Members fit exactly if they do when each of them starts as early as it may. -/
theorem fitsFrom_iff : FitsFrom o ls n ↔ ends o ls ≤ n := by
  induction ls generalizing o with
  | nil => exact Iff.rfl
  | cons l ls ih =>
    refine Iff.trans ⟨?_, fun h => ?_⟩ (ih (o := firstFrom o l.align + l.size))
    · rintro ⟨p, hp, hstart, hrest⟩
      exact hrest.mono (Nat.add_le_add_right (firstFrom_le hstart hp) _)
    · exact ⟨_, le_firstFrom o l.align, mayStart_firstFrom l o, h⟩

theorem FitsFrom.le (h : FitsFrom o ls n) : o ≤ n := (le_ends o ls).trans (fitsFrom_iff.mp h)

/-- Placing members from an offset on is choosing a place for each of them. -/
theorem fitsFrom_iff_places : FitsFrom o ls n ↔ o ≤ n ∧
    ∃ places : List (Nat × Layout), places.map Prod.snd = ls ∧
      (∀ p ∈ places, p.2.MayStart p.1 ∧ p.1 + p.2.size ≤ n) ∧
      places.Pairwise (fun p q => p.1 + p.2.size ≤ q.1) ∧ ∀ p ∈ places, o ≤ p.1 := by
  induction ls generalizing o with
  | nil => exact ⟨fun h => ⟨h, [], rfl, nofun, .nil, nofun⟩, fun h => h.1⟩
  | cons l ls ih =>
    constructor
    · intro h
      refine ⟨h.le, ?_⟩
      obtain ⟨p, hp, hstart, hrest⟩ := h
      obtain ⟨hend, places, hplaces, hinside, hordered, hbehind⟩ := ih.mp hrest
      refine ⟨(p, l) :: places, by rw [List.map_cons, hplaces], ?_, .cons hbehind hordered, ?_⟩
      · exact List.forall_mem_cons.mpr ⟨⟨hstart, hend⟩, hinside⟩
      · refine List.forall_mem_cons.mpr ⟨hp, fun q hq => ?_⟩
        have := hbehind q hq
        omega
    -- the places are in order, so all but the first lie behind the end of the first
    · rintro ⟨-, places, hplaces, hinside, hordered, hbehind⟩
      obtain ⟨⟨p, _⟩, places, rfl, rfl, hrest⟩ := List.map_eq_cons_iff.mp hplaces
      obtain ⟨hfirst, hinside⟩ := List.forall_mem_cons.mp hinside
      obtain ⟨hbefore, hordered⟩ := List.pairwise_cons.mp hordered
      exact ⟨p, (List.forall_mem_cons.mp hbehind).1, hfirst.1,
        ih.mpr ⟨hfirst.2, places, hrest, hinside, hordered, hbefore⟩⟩

theorem fits_iff : Fits ls n ↔ ends 0 ls ≤ n := by
  rw [← fitsFrom_iff, fitsFrom_iff_places]
  constructor
  · rintro ⟨places, hplaces, hinside, hordered⟩
    exact ⟨Nat.zero_le n, places, hplaces, hinside, hordered, fun _ _ => Nat.zero_le _⟩
  · rintro ⟨-, places, hplaces, hinside, hordered, -⟩
    exact ⟨places, hplaces, hinside, hordered⟩

/-! ## Words -/

/-- As long as the end is a word, nothing wraps on the way to it. -/
theorem foldl_place (h : ends o ls < 2 ^ 64) :
    ls.foldl (place false) ⟨o, a⟩ = ⟨ends o ls, (ls.map align).foldl max a⟩ := by
  induction ls generalizing o a with
  | nil => rfl
  | cons l ls ih =>
    have hend : firstFrom o l.align + l.size < 2 ^ 64 := (le_ends _ ls).trans_lt h
    have hstart : firstFrom o l.align < 2 ^ 64 := (Nat.le_add_right _ _).trans_lt hend
    rw [List.foldl_cons, List.map_cons, List.foldl_cons, ends, ← ih h]
    simp only [place, Bool.false_eq_true, if_false, alignTo_eq hstart]
    rw [show word (firstFrom o l.align + l.size) = _ from Nat.mod_eq_of_lt hend]

theorem foldl_place_packed (h : o + totalSize ls < 2 ^ 64) :
    ls.foldl (place true) ⟨o, a⟩ = ⟨o + totalSize ls, a⟩ := by
  induction ls generalizing o with
  | nil => rfl
  | cons l ls ih =>
    have hsum : o + totalSize (l :: ls) = o + l.size + totalSize ls := by
      simp [totalSize, Nat.add_assoc]
    rw [hsum] at h ⊢
    have hend : o + l.size < 2 ^ 64 := (Nat.le_add_right _ _).trans_lt h
    rw [List.foldl_cons, ← ih h]
    simp only [place, if_true]
    rw [show word (o + l.size) = _ from Nat.mod_eq_of_lt hend]

theorem one_le_largestAlign (ls : List Layout) : 1 ≤ largestAlign ls := by
  unfold largestAlign
  have hall (a : Nat) (as : List Nat) : a ≤ as.foldl max a := by
    induction as generalizing a with
    | nil => exact Nat.le_refl a
    | cons b as ih => exact (Nat.le_max_left a b).trans (ih _)
  exact hall 1 _

/-- The first multiple of the largest alignment at which everything has ended is the least size
that members fit in. -/
theorem isLeast_size (ls : List Layout) : IsLeast {n | largestAlign ls ∣ n ∧ Fits ls n}
    (firstFrom (ends 0 ls) (largestAlign ls)) := by
  have hstart := mayStart_firstFrom ⟨0, largestAlign ls⟩ (ends 0 ls)
  refine ⟨⟨hstart.resolve_right ?_, fits_iff.mpr (le_firstFrom _ _)⟩, ?_⟩
  · have := one_le_largestAlign ls
    dsimp only
    omega
  · rintro n ⟨halign, hfits⟩
    exact firstFrom_le (l := ⟨0, largestAlign ls⟩) (.inl halign) (fits_iff.mp hfits)

theorem aggregate_eq (h : firstFrom (ends 0 ls) (largestAlign ls) < 2 ^ 64) :
    aggregate false ls = ⟨firstFrom (ends 0 ls) (largestAlign ls), largestAlign ls⟩ := by
  have hall := foldl_place (a := 1) ((le_firstFrom _ _).trans_lt h)
  unfold aggregate
  rw [hall]
  exact congrArg (Layout.mk · _) (alignTo_eq h)

theorem aggregate_packed (h : totalSize ls < 2 ^ 64) : aggregate true ls = ⟨totalSize ls, 1⟩ := by
  unfold aggregate
  rw [foldl_place_packed (by rwa [Nat.zero_add]), Nat.zero_add]
  rfl

end Layout

namespace TypeTable

open Layout

variable {parts : Ty → Option Layout}

theorem layoutsStep_eq_mapM (t : TypeTable) (tys : List Ty) :
    t.layoutsStep parts tys = tys.mapM (t.layoutStep parts) := by
  induction tys with
  | nil => rw [layoutsStep, List.mapM_nil]; rfl
  | cons ty tys ih => rw [layoutsStep, List.mapM_cons, ih]; rfl

theorem layout_tuple (t : TypeTable) (members : List Ty) (packed : Bool) :
    t.layout? (.tuple members packed) = (members.mapM t.layout?).map (aggregate packed) := by
  unfold layout? depth
  rw [layoutWithin?, layoutStep, layoutsStep_eq_mapM]

/-- The layout of members without packing is aligned to the largest of their alignments, and
its size is the least multiple of that in which they can be placed in order, if there is one
below `2 ^ 64`. Packed members are aligned to nothing and take just as much as all of them
together. -/
theorem aggregate_optimal (t : TypeTable) (members : List Ty) (ls : List Layout)
    (hls : members.mapM t.layout? = some ls) :
    (∀ packed, t.layout? (.tuple members packed) = some (aggregate packed ls)) ∧
      ((∃ n < 2 ^ 64, largestAlign ls ∣ n ∧ Fits ls n) →
        (aggregate false ls).align = largestAlign ls ∧
          IsLeast {n | largestAlign ls ∣ n ∧ Fits ls n} (aggregate false ls).size) ∧
      (totalSize ls < 2 ^ 64 → aggregate true ls = ⟨totalSize ls, 1⟩) := by
  refine ⟨fun packed => by rw [layout_tuple, hls]; rfl, ?_, aggregate_packed⟩
  rintro ⟨n, hn, hfits⟩
  have hleast := isLeast_size ls
  rw [aggregate_eq ((hleast.2 hfits).trans_lt hn)]
  exact ⟨rfl, hleast⟩

/-- A byte, a large integer behind a gap, and a small one that is padded. -/
theorem aggregate_optimal_padded :
    (ofPointerWidth 64).layout? (.tuple [.bool, .int 64, .uint 16] false) = some ⟨24, 8⟩ ∧
      IsLeast {n | 8 ∣ n ∧ Fits [⟨1, 1⟩, ⟨8, 8⟩, ⟨2, 2⟩] n} 24 ∧
      (ofPointerWidth 64).layout? (.tuple [.bool, .int 64, .uint 16] true) = some ⟨11, 1⟩ := by
  obtain ⟨hlayout, hsize, hpacked⟩ := aggregate_optimal (ofPointerWidth 64)
    [.bool, .int 64, .uint 16] [⟨1, 1⟩, ⟨8, 8⟩, ⟨2, 2⟩] (by decide)
  have hfits : Fits [⟨1, 1⟩, ⟨8, 8⟩, ⟨2, 2⟩] 24 :=
    ⟨[(0, ⟨1, 1⟩), (8, ⟨8, 8⟩), (16, ⟨2, 2⟩)], rfl, by simp [MayStart], by simp⟩
  exact ⟨hlayout false, (hsize ⟨24, by decide, by decide, hfits⟩).2,
    (hlayout true).trans (congrArg some (hpacked (by decide)))⟩

end TypeTable

end Staged
