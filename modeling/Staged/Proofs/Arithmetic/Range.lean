/-
  Staged.Proofs.Arithmetic.Range — which numbers a type can hold, and which literals are values.

  Whether a constant fits a type is found by comparing it with bounds that are constants too. For
  all types of up to 128 bits but one, what fits is what is in the range of the type
  (`IntInfo.fits_iff_inRange`). The one is the type of 127 bits without a sign: its bound is one
  more than the greatest word and comes out as the least word, so it holds nothing
  (`IntInfo.not_fits_u127`). A choice gets the least width that holds its numbers, but 128 bits
  where 127 would do (`smallestInt_least`).

  A literal is a magnitude, with or without a minus sign. Its magnitude has to be a word before
  the sign is looked at. So of a signed type all values can be written but the least word of all,
  -2^127, as a value of the type of 128 bits (`TypeTable.intLiteral_plus`,
  `TypeTable.intLiteral_minus`).
-/

import Staged.Proofs.Arithmetic.Variants
import Staged.Proofs.Typing.Operator

namespace Staged

variable {info : IntInfo} {v : Int} {values : List Int} {w fuel : Nat}

/-! ## What fits -/

namespace IntInfo

/-- The bound of 127 bits is the least word. -/
theorem not_fits_u127 (v : Int) : (⟨127, false⟩ : IntInfo).fits v = false := by
  have hbound : wide (Int.pow 2 127) = -Int.pow 2 127 := by decide
  have hpow : (0 : Int) < Int.pow 2 127 := by decide
  refine Bool.eq_false_iff.mpr fun h => ?_
  have hends : (v ≥ 0 && v < wide (Int.pow 2 127)) = true := h
  rw [Bool.and_eq_true, decide_eq_true_eq, decide_eq_true_eq, hbound] at hends
  omega

/-- The bounds of fewer bits are words. -/
theorem wide_two_pow (h : w < 127) : wide (Int.pow 2 w) = 2 ^ w := by
  have hlt : (2 : Int) ^ w < 2 ^ 127 := pow_lt_pow_right₀ (by decide) h
  have hpos : (0 : Int) < 2 ^ w := by positivity
  exact wide_eq_self (v := 2 ^ w) (by omega) hlt

theorem fits_of_inRange (h : info.InRange v) (hpos : 0 < info.bits) (hbits : info.bits ≤ 128)
    (hother : info ≠ ⟨127, false⟩) : info.fits v = true := by
  obtain ⟨bits, signed⟩ := info
  dsimp only at hpos hbits
  rcases hbits.eq_or_lt with rfl | hlt
  · cases signed with
    | true => rfl
    | false => exact decide_eq_true (h.unsigned rfl).1
  · cases signed with
    | true => exact (fits_signed_iff rfl hpos hlt).mpr (h.signed rfl)
    | false =>
      have hnarrow : bits < 127 :=
        (Nat.le_of_lt_succ hlt).lt_of_ne fun heq => hother (congrArg (IntInfo.mk · false) heq)
      unfold IntInfo.fits
      rw [if_neg (Nat.not_le.mpr hlt), if_neg Bool.false_ne_true, wide_two_pow hnarrow,
        Bool.and_eq_true, decide_eq_true_eq, decide_eq_true_eq]
      exact h.unsigned rfl

/-- Of words, those fit a type that are in its range, if it is not the one of 127 bits without a
sign. -/
theorem fits_iff_inRange (hpos : 0 < info.bits) (hbits : info.bits ≤ 128)
    (hother : info ≠ ⟨127, false⟩) (hv : IsWord v) : info.fits v = true ↔ info.InRange v :=
  ⟨fun h => inRange_of_fits h hpos hv, fun h => fits_of_inRange h hpos hbits hother⟩

/-! ## Signed types -/

theorem half_le (hbits : info.bits ≤ 128) : 2 ^ (info.bits - 1) ≤ 2 ^ 127 :=
  Nat.pow_le_pow_right (by decide) (by omega)

theorem inRange_natCast {n : Nat} (hs : info.signed = true) :
    info.InRange (n : Int) ↔ n < 2 ^ (info.bits - 1) := by
  have hpos : (0 : Int) < 2 ^ (info.bits - 1) := by positivity
  rw [InRange, if_pos hs, ← Int.ofNat_lt]
  push_cast
  exact and_iff_right (by omega)

theorem inRange_neg_natCast {n : Nat} (hs : info.signed = true) :
    info.InRange (-(n : Int)) ↔ n ≤ 2 ^ (info.bits - 1) := by
  have hpos : (0 : Int) < 2 ^ (info.bits - 1) := by positivity
  rw [InRange, if_pos hs, neg_le_neg_iff, ← Int.ofNat_le]
  push_cast
  exact and_iff_left (by omega)

end IntInfo

/-! ## The least width -/

theorem bits_widen_le (values : List Int) (fuel : Nat) (info : IntInfo) :
    (widen values fuel info).bits ≤ info.bits + fuel := by
  induction fuel generalizing info with
  | zero => exact Nat.le_refl _
  | succ fuel ih =>
    unfold widen
    split
    · exact Nat.le_add_right _ _
    · have hle := ih { info with bits := info.bits + 1 }
      dsimp only at hle
      omega

/-- Every width that is passed over is too narrow for some number. -/
theorem not_fits_of_lt_widen (hle : info.bits ≤ w) (hlt : w < (widen values fuel info).bits) :
    ∃ v ∈ values, (⟨w, info.signed⟩ : IntInfo).fits v = false := by
  induction fuel generalizing info with
  | zero => exact absurd (hle.trans_lt hlt) (Nat.lt_irrefl _)
  | succ fuel ih =>
    unfold widen at hlt
    split at hlt
    · exact absurd (hle.trans_lt hlt) (Nat.lt_irrefl _)
    · rename_i hall
      rcases hle.eq_or_lt with heq | hnext
      · obtain ⟨v, hv, hfits⟩ : ∃ v ∈ values, info.fits v = false := by simpa using hall
        exact ⟨v, hv, by rw [← heq]; exact hfits⟩
      · exact @ih { info with bits := info.bits + 1 } hnext hlt

/-- The underlying type of a choice without a given one holds all its numbers, and a narrower one
of its sign does not, unless that is the one of 127 bits without a sign. -/
theorem smallestInt_least (hvalues : ∀ v ∈ values, IsWord v) :
    (smallestInt values).bits ≤ 128 ∧ (∀ v ∈ values, (smallestInt values).InRange v) ∧
      ∀ w, 0 < w → w < (smallestInt values).bits →
        (⟨w, (smallestInt values).signed⟩ : IntInfo) ≠ ⟨127, false⟩ →
        ∃ v ∈ values, ¬(⟨w, (smallestInt values).signed⟩ : IntInfo).InRange v := by
  have hbits : (smallestInt values).bits ≤ 128 := bits_widen_le values 127 ⟨1, _⟩
  refine ⟨hbits, fun v hv => IntInfo.inRange_of_fits (fits_smallestInt v hv)
    (bits_smallestInt_pos values) (hvalues v hv), fun w hpos hlt hother => ?_⟩
  rw [smallestInt, signed_widen] at hother ⊢
  obtain ⟨v, hv, hfits⟩ := not_fits_of_lt_widen (Nat.succ_le_of_lt hpos) hlt
  refine ⟨v, hv, fun hrange => Bool.false_ne_true ?_⟩
  exact hfits.symm.trans (IntInfo.fits_of_inRange hrange hpos (hlt.le.trans hbits) hother)

/-- 127 bits would do. -/
example : (smallestInt [2 ^ 126]).bits = 128 ∧ (⟨127, false⟩ : IntInfo).InRange (2 ^ 126) := by
  decide +kernel

/-! ## Literals -/

namespace TypeTable

variable {t : TypeTable} {ty : Ty} {c : Constant} {magnitude : Nat}

/-- A literal of an integer type is refused unless its magnitude is a word and its value fits. -/
theorem intLiteral_iff (hty : t.intInfo? ty = some info) (negative : Bool) :
    let value : Int := if negative then -(magnitude : Int) else magnitude
    t.intLiteral magnitude negative ty = .ok c ↔
      (magnitude : Int) ≤ wideMax ∧ info.fits value = true ∧ c = .int ty value := by
  intro value
  have hdef : t.intLiteral magnitude negative ty =
      if wideMax < (magnitude : Int) then .error (.literalTooLarge negative magnitude ty)
      else if info.fits value then .ok (.int ty value)
      else .error (.literalTooLarge negative magnitude ty) := by
    unfold intLiteral
    dsimp only
    rw [floatKind?_of_intInfo? hty, hty]
    rfl
  rw [hdef]
  split
  · rename_i hlarge
    exact ⟨nofun, fun h => absurd h.1 (Int.not_le.mpr hlarge)⟩
  · rename_i hword
    split
    · rename_i hfits
      exact ⟨fun h => ⟨Int.not_lt.mp hword, hfits, (Except.ok.inj h).symm⟩, fun h => by rw [h.2.2]⟩
    · rename_i hfits
      exact ⟨nofun, fun h => absurd h.2.1 hfits⟩

section

variable (hty : t.intInfo? ty = some info) (hs : info.signed = true) (hpos : 0 < info.bits)
  (hbits : info.bits ≤ 128)
include hty hs hpos hbits

/-- A literal of a signed type is a value if its magnitude is a word and its value is in the range
of the type. -/
theorem intLiteral_signed (negative : Bool) :
    let value : Int := if negative then -(magnitude : Int) else magnitude
    t.intLiteral magnitude negative ty = .ok c ↔
      magnitude < 2 ^ 127 ∧ info.InRange value ∧ c = .int ty value := by
  intro value
  have hother : info ≠ ⟨127, false⟩ := by
    rintro rfl
    cases hs
  have hword : (magnitude : Int) ≤ wideMax ↔ magnitude < 2 ^ 127 :=
    Int.le_sub_one_iff.trans Int.ofNat_lt
  have hvalue (h : (magnitude : Int) ≤ wideMax) : IsWord value := by
    have hmin : wideMin = -wideMax - 1 := by decide
    constructor <;> simp only [value] <;> split <;> omega
  rw [← hword]
  refine (intLiteral_iff hty negative).trans (and_congr_right fun h => and_congr_left' ?_)
  exact IntInfo.fits_iff_inRange hpos hbits hother (hvalue h)

/-- Of a signed type, a literal without a minus sign is a value exactly if it is less than half
of what the type tells apart. -/
theorem intLiteral_plus : t.intLiteral magnitude false ty = .ok c ↔
    magnitude < 2 ^ (info.bits - 1) ∧ c = .int ty magnitude := by
  refine (intLiteral_signed hty hs hpos hbits false).trans ⟨?_, ?_⟩
  · rintro ⟨-, hrange, rfl⟩
    exact ⟨(IntInfo.inRange_natCast hs).mp hrange, rfl⟩
  · rintro ⟨hlt, rfl⟩
    exact ⟨hlt.trans_le (IntInfo.half_le hbits), (IntInfo.inRange_natCast hs).mpr hlt, rfl⟩

/-- One more can be written with a minus sign, but not the least word of all. -/
theorem intLiteral_minus : t.intLiteral magnitude true ty = .ok c ↔
    magnitude ≤ 2 ^ (info.bits - 1) ∧ magnitude ≠ 2 ^ 127 ∧ c = .int ty (-magnitude) := by
  refine (intLiteral_signed hty hs hpos hbits true).trans ⟨?_, ?_⟩
  · rintro ⟨hword, hrange, rfl⟩
    exact ⟨(IntInfo.inRange_neg_natCast hs).mp hrange, hword.ne, rfl⟩
  · rintro ⟨hle, hne, rfl⟩
    have hword := (hle.trans (IntInfo.half_le hbits)).lt_of_ne hne
    exact ⟨hword, (IntInfo.inRange_neg_natCast hs).mpr hle, rfl⟩

end

/-- The least value of each width can be written, up to 127 bits. -/
example (t : TypeTable) :
    (t.intLiteral 128 true (.int 8)).toOption = some (.int (.int 8) (-128)) ∧
      (t.intLiteral (2 ^ 126) true (.int 127)).toOption = some (.int (.int 127) (-2 ^ 126)) ∧
      (t.intLiteral (2 ^ 127) true (.int 128)).toOption = none :=
  ⟨rfl, rfl, rfl⟩

end TypeTable

end Staged
