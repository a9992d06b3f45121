/-
  Staged.Proofs.Arithmetic.Word — constants as machine words.

  When the program runs, a value of an integer type of `w` bits is a word of `w` bits
  (`IntInfo.word`). The values of a type are the numbers in its range (`IntInfo.InRange`). So
  a value and its word determine each other: the word read with the sign of the type is the
  value (`toInt_word`, `toNat_word`). A constant is a signed 128-bit word, and those that the
  compiler lets a type of up to 128 bits hold are values of it (`Holds.inRange`). What folding
  does to bring a result back into range leaves the word alone (`word_wide`, `word_wrap`).

  Instructions compute on words (`Ir.Arith.onWords?`, `Ir.Pred.onWords?`, `Ir.CastOp.onWord?`).
  For each of them there is a lemma on what it computes of the words of constants.
-/

import Mathlib.Algebra.Order.Ring.Int
import Mathlib.Tactic.Positivity
import Staged.Constant.Fold
import Staged.Ir.Instr

namespace Staged

namespace Ir

variable {w : Nat}

/-- The word that an instruction computes. Division by zero and shifts by the width or more
compute nothing, and the instructions on numbers of the floating-point formats are not on
words. The quotient of the least signed word by minus one is taken back to the width, like
every sum and product. -/
def Arith.onWords? (op : Arith) (x y : BitVec w) : Option (BitVec w) :=
  match op with
  | .add => some (x + y)
  | .sub => some (x - y)
  | .mul => some (x * y)
  | .sdiv => if y = 0 then none else some (x.sdiv y)
  | .udiv => if y = 0 then none else some (x / y)
  | .srem => if y = 0 then none else some (x.srem y)
  | .urem => if y = 0 then none else some (x % y)
  | .and => some (x &&& y)
  | .or => some (x ||| y)
  | .xor => some (x ^^^ y)
  | .shl => if y.toNat < w then some (x <<< y) else none
  | .lshr => if y.toNat < w then some (x >>> y) else none
  | .ashr => if y.toNat < w then some (x.sshiftRight' y) else none
  | .fadd | .fsub | .fmul | .fdiv | .frem => none

def Pred.onWords? (p : Pred) (x y : BitVec w) : Option Bool :=
  match p with
  | .eq => some (x == y)
  | .ne => some (x != y)
  | .slt => some (x.slt y)
  | .sle => some (x.sle y)
  | .sgt => some (y.slt x)
  | .sge => some (y.sle x)
  | .ult => some (x.ult y)
  | .ule => some (x.ule y)
  | .ugt => some (y.ult x)
  | .uge => some (y.ule x)
  | .oeq | .one | .olt | .ole | .ogt | .oge => none

/-- The word of `n` bits that a conversion between integers makes of a word: its low bits,
more bits with zeros or with the sign in front, or the same bits. -/
def CastOp.onWord? (op : CastOp) (n : Nat) (x : BitVec w) : Option (BitVec n) :=
  match op with
  | .trunc => if n < w then some (x.setWidth n) else none
  | .zext => if w < n then some (x.setWidth n) else none
  | .sext => if w < n then some (x.signExtend n) else none
  | .bitcast => if w = n then some (x.setWidth n) else none
  | _ => none

end Ir

namespace IntInfo

variable {info : IntInfo} {a b v : Int}

def word (info : IntInfo) (v : Int) : BitVec info.bits := BitVec.ofInt info.bits v

/-- The numbers that are values of the type. -/
def InRange (info : IntInfo) (v : Int) : Prop :=
  if info.signed then -2 ^ (info.bits - 1) ≤ v ∧ v < 2 ^ (info.bits - 1)
  else 0 ≤ v ∧ v < 2 ^ info.bits

instance : Decidable (info.InRange v) :=
  inferInstanceAs (Decidable (if info.signed then -2 ^ (info.bits - 1) ≤ v ∧ v < 2 ^ (info.bits - 1)
    else 0 ≤ v ∧ v < 2 ^ info.bits))

structure Holds (info : IntInfo) (v : Int) : Prop where
  fits : info.fits v = true
  least : wideMin ≤ v
  greatest : v ≤ wideMax

/-! ## Ranges -/

theorem wide_eq_self (hle : -2 ^ 127 ≤ v) (hlt : v < 2 ^ 127) : wide v = v := by
  have hwide : wide v = v.bmod (2 ^ 128) := rfl
  rw [hwide]
  exact Int.bmod_eq_of_le_mul_two (by push_cast; omega) (by push_cast; omega)

/-- The bounds of a signed type that has a bit are words. -/
theorem fits_signed_iff (hs : info.signed = true) (hpos : 0 < info.bits)
    (hbits : info.bits < 128) :
    info.fits v = true ↔ -2 ^ (info.bits - 1) ≤ v ∧ v < 2 ^ (info.bits - 1) := by
  have hsign : Int.pow 2 info.signBit = 2 ^ (info.bits - 1) := by
    rw [signBit_eq hpos hbits]
    rfl
  have hone : (0 : Int) < 2 ^ (info.bits - 1) := by positivity
  have hlt : (2 : Int) ^ (info.bits - 1) < 2 ^ 127 := pow_lt_pow_right₀ (by decide) (by omega)
  unfold fits
  rw [if_neg (Nat.not_le.mpr hbits), if_pos hs, hsign]
  generalize (2 : Int) ^ (info.bits - 1) = half at hone hlt ⊢
  rw [wide_eq_self (v := half) (by omega) hlt, wide_eq_self (v := half - 1) (by omega) (by omega)]
  dsimp only
  rw [wide_eq_self (v := -(half - 1) - 1) (by omega) (by omega), Bool.and_eq_true,
    decide_eq_true_eq, decide_eq_true_eq]
  omega

/-- Taking a word back into range makes no natural number greater. -/
theorem wide_le_self (hv : 0 ≤ v) : wide v ≤ v := by
  have hmod : v % (2 ^ 128 : Nat) ≤ v := by
    have hsum := Int.emod_add_mul_ediv v (2 ^ 128 : Nat)
    have hquot : 0 ≤ v / (2 ^ 128 : Nat) := Int.ediv_nonneg hv (by decide)
    omega
  have hwide : wide v = v.bmod (2 ^ 128) := rfl
  rw [hwide, Int.bmod_def]
  split <;> omega

theorem Holds.signed (h : info.Holds v) (hs : info.signed = true) (hpos : 0 < info.bits)
    (hbits : info.bits ≤ 128) : -2 ^ (info.bits - 1) ≤ v ∧ v < 2 ^ (info.bits - 1) := by
  rcases hbits.eq_or_lt with heq | hlt
  · rw [heq]
    exact ⟨h.least, Int.lt_of_le_sub_one h.greatest⟩
  · exact (fits_signed_iff hs hpos hlt).mp h.fits

theorem Holds.unsigned (h : info.Holds v) (hs : info.signed = false) (hbits : info.bits ≤ 128) :
    0 ≤ v ∧ v < 2 ^ info.bits := by
  have hfits := h.fits
  unfold IntInfo.fits at hfits
  split at hfits
  · have heq : info.bits = 128 := by omega
    simp only [hs, Bool.false_or, decide_eq_true_eq] at hfits
    have hmax : wideMax < 2 ^ 128 := by decide
    rw [heq]
    exact ⟨hfits, h.greatest.trans_lt hmax⟩
  · simp only [hs, Bool.false_eq_true, if_false, Bool.and_eq_true, decide_eq_true_eq] at hfits
    refine ⟨hfits.1, hfits.2.trans_le ?_⟩
    exact wide_le_self (Int.pow_nonneg (by decide))

theorem Holds.inRange (h : info.Holds v) (hpos : 0 < info.bits) (hbits : info.bits ≤ 128) :
    info.InRange v := by
  unfold InRange
  split
  · exact h.signed ‹_› hpos hbits
  · exact h.unsigned (eq_false_of_ne_true ‹_›) hbits

theorem InRange.signed (h : info.InRange v) (hs : info.signed = true) :
    -2 ^ (info.bits - 1) ≤ v ∧ v < 2 ^ (info.bits - 1) := by
  unfold InRange at h
  rwa [if_pos hs] at h

theorem InRange.unsigned (h : info.InRange v) (hs : info.signed = false) :
    0 ≤ v ∧ v < 2 ^ info.bits := by
  unfold InRange at h
  rwa [if_neg (by rw [hs]; exact Bool.false_ne_true)] at h

/-! ## Values and their words -/

theorem toInt_word (h : info.InRange v) (hs : info.signed = true) (hpos : 0 < info.bits) :
    (info.word v).toInt = v := by
  obtain ⟨hle, hlt⟩ := h.signed hs
  have hpow : (2 : Int) ^ info.bits = 2 * 2 ^ (info.bits - 1) := by
    rw [← Int.pow_succ', Nat.sub_add_cancel hpos]
  rw [word, BitVec.toInt_ofInt]
  refine Int.bmod_eq_of_le_mul_two ?_ ?_ <;> push_cast <;> omega

theorem toNat_word (h : info.InRange v) (hs : info.signed = false) :
    ((info.word v).toNat : Int) = v := by
  obtain ⟨hle, hlt⟩ := h.unsigned hs
  rw [word, BitVec.toNat_ofInt]
  push_cast
  rw [Int.emod_eq_of_lt hle hlt]
  exact Int.toNat_of_nonneg hle

/-- Different values of a type have different words. -/
theorem word_inj (ha : info.InRange a) (hb : info.InRange b) (hpos : 0 < info.bits) :
    info.word a = info.word b ↔ a = b := by
  refine ⟨fun h => ?_, congrArg _⟩
  cases hs : info.signed with
  | true => rw [← toInt_word ha hs hpos, h, toInt_word hb hs hpos]
  | false => rw [← toNat_word ha hs, h, toNat_word hb hs]

theorem beq_word (ha : info.InRange a) (hb : info.InRange b) (hpos : 0 < info.bits) :
    (info.word a == info.word b) = (a == b) := by
  rw [Bool.eq_iff_iff, beq_iff_eq, beq_iff_eq, word_inj ha hb hpos]

theorem slt_word (ha : info.InRange a) (hb : info.InRange b) (hs : info.signed = true)
    (hpos : 0 < info.bits) : (info.word a).slt (info.word b) = decide (a < b) := by
  rw [BitVec.slt_eq_decide, toInt_word ha hs hpos, toInt_word hb hs hpos]

theorem sle_word (ha : info.InRange a) (hb : info.InRange b) (hs : info.signed = true)
    (hpos : 0 < info.bits) : (info.word a).sle (info.word b) = decide (a ≤ b) := by
  rw [BitVec.sle_eq_decide, toInt_word ha hs hpos, toInt_word hb hs hpos]

theorem ult_word (ha : info.InRange a) (hb : info.InRange b) (hs : info.signed = false) :
    (info.word a).ult (info.word b) = decide (a < b) := by
  have ha' := toNat_word ha hs
  have hb' := toNat_word hb hs
  rw [BitVec.ult_eq_decide, decide_eq_decide]
  omega

theorem ule_word (ha : info.InRange a) (hb : info.InRange b) (hs : info.signed = false) :
    (info.word a).ule (info.word b) = decide (a ≤ b) := by
  have ha' := toNat_word ha hs
  have hb' := toNat_word hb hs
  rw [BitVec.ule_eq_decide, decide_eq_decide]
  omega

/-- Numbers that differ by a multiple of the modulus have one word. -/
theorem word_congr (h : a % 2 ^ info.bits = b % 2 ^ info.bits) : info.word a = info.word b := by
  refine BitVec.eq_of_toNat_eq ?_
  rw [word, word, BitVec.toNat_ofInt, BitVec.toNat_ofInt]
  push_cast
  rw [h]

theorem word_wide (hbits : info.bits ≤ 128) : info.word (wide v) = info.word v := by
  refine BitVec.eq_of_toInt_eq ?_
  rw [word, word, BitVec.toInt_ofInt, BitVec.toInt_ofInt]
  exact Int.bmod_bmod_of_dvd (Nat.pow_dvd_pow 2 hbits)

theorem word_wrap : info.word (info.wrap v) = info.word v := by
  refine word_congr ?_
  unfold wrap
  split
  · rfl
  · have hpow : Int.pow 2 info.bits = 2 ^ info.bits := rfl
    dsimp only
    rw [hpow]
    split
    · rw [Int.sub_emod_right, Int.emod_emod]
    · rw [Int.emod_emod]

theorem word_eq_zero (h : info.InRange v) (hpos : 0 < info.bits) : info.word v = 0 ↔ v = 0 := by
  refine ⟨fun hzero => ?_, fun hzero => by rw [hzero]; exact BitVec.ofInt_ofNat _ 0⟩
  cases hs : info.signed with
  | true => rw [← toInt_word h hs hpos, hzero]; exact BitVec.toInt_zero
  | false => rw [← toNat_word h hs, hzero]; rfl

/-! ## What instructions compute of constants -/

theorem word_add : info.word (a + b) = info.word a + info.word b := BitVec.ofInt_add a b

theorem word_mul : info.word (a * b) = info.word a * info.word b := BitVec.ofInt_mul a b

theorem word_sub : info.word (a - b) = info.word a - info.word b := by
  rw [Int.sub_eq_add_neg, word_add, BitVec.sub_eq_add_neg]
  exact congrArg _ (BitVec.ofInt_neg)

theorem word_sdiv (ha : info.InRange a) (hb : info.InRange b) (hs : info.signed = true)
    (hpos : 0 < info.bits) : info.word (a.tdiv b) = (info.word a).sdiv (info.word b) := by
  refine BitVec.eq_of_toInt_eq ?_
  rw [BitVec.toInt_sdiv, toInt_word ha hs hpos, toInt_word hb hs hpos]
  exact BitVec.toInt_ofInt _

theorem word_srem (ha : info.InRange a) (hb : info.InRange b) (hs : info.signed = true)
    (hpos : 0 < info.bits) : info.word (a.tmod b) = (info.word a).srem (info.word b) := by
  refine BitVec.eq_of_toInt_eq ?_
  have hrem := BitVec.toInt_srem (info.word a) (info.word b)
  rw [toInt_word ha hs hpos, toInt_word hb hs hpos] at hrem
  rw [hrem, word, BitVec.toInt_ofInt, ← hrem]
  exact BitVec.toInt_bmod_cancel _

theorem word_udiv (ha : info.InRange a) (hb : info.InRange b) (hs : info.signed = false) :
    info.word (a.tdiv b) = info.word a / info.word b := by
  have hquot : a.tdiv b = ((info.word a / info.word b).toNat : Int) := by
    rw [BitVec.toNat_udiv, Int.natCast_ediv, toNat_word ha hs, toNat_word hb hs]
    exact Int.tdiv_eq_ediv_of_nonneg (ha.unsigned hs).1
  rw [hquot, word, BitVec.ofInt_natCast, BitVec.ofNat_toNat, BitVec.setWidth_eq]

theorem word_urem (ha : info.InRange a) (hb : info.InRange b) (hs : info.signed = false) :
    info.word (a.tmod b) = info.word a % info.word b := by
  have hrem : a.tmod b = ((info.word a % info.word b).toNat : Int) := by
    rw [BitVec.toNat_umod, Int.natCast_emod, toNat_word ha hs, toNat_word hb hs]
    exact Int.tmod_eq_emod_of_nonneg (ha.unsigned hs).1
  rw [hrem, word, BitVec.ofInt_natCast, BitVec.ofNat_toNat, BitVec.setWidth_eq]

/-- The low bits of a word that is as wide or wider. -/
theorem setWidth_ofInt {w : Nat} (hbits : info.bits ≤ w) :
    (BitVec.ofInt w v).setWidth info.bits = info.word v := by
  rw [← BitVec.signExtend_eq_setWidth_of_le _ hbits]
  refine BitVec.eq_of_toInt_eq ?_
  rw [BitVec.toInt_signExtend, Nat.min_eq_left hbits, word, BitVec.toInt_ofInt, BitVec.toInt_ofInt]
  exact Int.bmod_bmod_of_dvd (Nat.pow_dvd_pow 2 hbits)

theorem word_bitwise (f : BitVec 128 → BitVec 128 → BitVec 128) (hbits : info.bits ≤ 128) :
    info.word (bitwise f a b) =
      (f (BitVec.ofInt 128 a) (BitVec.ofInt 128 b)).setWidth info.bits := by
  rw [← BitVec.signExtend_eq_setWidth_of_le _ hbits]
  rfl

theorem word_and (hbits : info.bits ≤ 128) :
    info.word (bitwise (· &&& ·) a b) = info.word a &&& info.word b := by
  rw [word_bitwise _ hbits, BitVec.setWidth_and, setWidth_ofInt hbits, setWidth_ofInt hbits]

theorem word_or (hbits : info.bits ≤ 128) :
    info.word (bitwise (· ||| ·) a b) = info.word a ||| info.word b := by
  rw [word_bitwise _ hbits, BitVec.setWidth_or, setWidth_ofInt hbits, setWidth_ofInt hbits]

theorem word_xor (hbits : info.bits ≤ 128) :
    info.word (bitwise (· ^^^ ·) a b) = info.word a ^^^ info.word b := by
  rw [word_bitwise _ hbits, BitVec.setWidth_xor, setWidth_ofInt hbits, setWidth_ofInt hbits]

/-- The amount of a shift is the same on both sides. -/
theorem toNat_word_amount (hle : 0 ≤ b) (hlt : b < info.bits) :
    (info.word b).toNat = b.toNat := by
  have hpow : (info.bits : Int) < 2 ^ info.bits := by exact_mod_cast Nat.lt_two_pow_self
  rw [word, BitVec.toNat_ofInt]
  push_cast
  rw [Int.emod_eq_of_lt hle (hlt.trans hpow)]

theorem word_shl (hle : 0 ≤ b) (hlt : b < info.bits) :
    info.word (a * 2 ^ b.toNat) = info.word a <<< info.word b := by
  rw [word_mul, BitVec.shiftLeft_eq', toNat_word_amount hle hlt, BitVec.shiftLeft_eq_mul_twoPow]
  congr 1
  refine BitVec.eq_of_toNat_eq ?_
  rw [word, BitVec.toNat_ofInt, BitVec.toNat_twoPow]
  norm_cast

theorem word_ashr (ha : info.InRange a) (hs : info.signed = true) (hpos : 0 < info.bits)
    (hle : 0 ≤ b) (hlt : b < info.bits) :
    info.word (a.fdiv (2 ^ b.toNat)) = (info.word a).sshiftRight' (info.word b) := by
  have hshift := BitVec.toInt_sshiftRight (x := info.word a) (n := b.toNat)
  rw [toInt_word ha hs hpos, Int.shiftRight_eq_div_pow] at hshift
  push_cast at hshift
  rw [BitVec.sshiftRight_eq', toNat_word_amount hle hlt,
    Int.fdiv_eq_ediv_of_nonneg a (by positivity), ← hshift]
  exact BitVec.ofInt_toInt

theorem word_lshr (ha : info.InRange a) (hs : info.signed = false) (hle : 0 ≤ b)
    (hlt : b < info.bits) :
    info.word (a.fdiv (2 ^ b.toNat)) = info.word a >>> info.word b := by
  have hshift : a / 2 ^ b.toNat = ((info.word a >>> info.word b).toNat : Int) := by
    rw [BitVec.ushiftRight_eq', toNat_word_amount hle hlt, BitVec.toNat_ushiftRight,
      Nat.shiftRight_eq_div_pow, Int.natCast_ediv, toNat_word ha hs]
    push_cast
    rfl
  rw [Int.fdiv_eq_ediv_of_nonneg a (by positivity), hshift, word, BitVec.ofInt_natCast,
    BitVec.ofNat_toNat, BitVec.setWidth_eq]

end IntInfo

end Staged
