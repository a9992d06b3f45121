/-
  Staged.Number.Integer — machine integers of a given width and sign, and the 128-bit
  words in which constants are computed.

  A constant is an integer in the range of signed 128-bit words. Arithmetic on two
  constants is exact, taken back into that range (`wide`), and then into the range of
  the type (`IntInfo.wrap`). Types of 128 bits and more hold every constant as it is.

  Nothing is checked for overflow: widths are counted in 32-bit words, and a word is shifted
  by as many of the low bits of a count as it has positions.
-/

import Staged.Ty.Table

namespace Staged

/-- The signed 128-bit word with the same low bits. -/
def wide (v : Int) : Int := v.bmod (Nat.pow 2 128)

def wideMin : Int := -Int.pow 2 127
def wideMax : Int := Int.pow 2 127 - 1

/-- Apply a bitwise operation to two constants. -/
def bitwise (f : BitVec 128 → BitVec 128 → BitVec 128) (a b : Int) : Int :=
  (f (BitVec.ofInt 128 a) (BitVec.ofInt 128 b)).toInt

namespace IntInfo

/-- The position of the sign bit: one less than the width in a 32-bit word, of which a shift of
a 128-bit word reads the low seven bits. A type of no bits has it where 128 bits have it. -/
def signBit (info : IntInfo) : Nat := (info.bits + (Nat.pow 2 32 - 1)) % Nat.pow 2 32 % 128

theorem signBit_eq {info : IntInfo} (hpos : 0 < info.bits) (hbits : info.bits < 128) :
    info.signBit = info.bits - 1 := by
  rw [signBit, show Nat.pow 2 32 = 4294967296 from rfl]
  omega

/-- The value with the same low bits that the type can hold; unsigned types hold
non-negative values. -/
def wrap (info : IntInfo) (v : Int) : Int :=
  if info.bits ≥ 128 then v
  else
    let low := v % Int.pow 2 info.bits
    if info.signed && low ≥ Int.pow 2 info.signBit then low - Int.pow 2 info.bits else low

/-- Whether the type can hold the constant. The bounds are constants too. -/
def fits (info : IntInfo) (v : Int) : Bool :=
  if info.bits ≥ 128 then info.signed || v ≥ 0
  else if info.signed then
    let max := wide (wide (Int.pow 2 info.signBit) - 1)
    v ≥ wide (-max - 1) && v ≤ max
  else v ≥ 0 && v < wide (Int.pow 2 info.bits)

end IntInfo

end Staged
