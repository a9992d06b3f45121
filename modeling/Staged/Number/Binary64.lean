/-
  Staged.Number.Binary64 — the 64-bit binary floating-point numbers, held as bits.

  A finite number is sign · mantissa · 2^exponent (`decode`), and every operation that
  arithmetic units do not round in a single step is computed on that form with exact
  integers: the remainder that has the sign of the dividend, truncation to an integer
  that clamps at the ends of a range, and conversion of an integer to the nearest
  number, ties to the even mantissa. The rounded operations are those of the machine.
-/

namespace Staged

structure Binary64 where
  bits : UInt64
  deriving DecidableEq, Repr, Inhabited

namespace Binary64

def ofFloat (x : Float) : Binary64 := ⟨x.toBits⟩

def toFloat (x : Binary64) : Float := Float.ofBits x.bits

def isNegative (x : Binary64) : Bool := x.bits.toNat ≥ Nat.pow 2 63

def biasedExponent (x : Binary64) : Nat := x.bits.toNat / Nat.pow 2 52 % Nat.pow 2 11

def fraction (x : Binary64) : Nat := x.bits.toNat % Nat.pow 2 52

def isNaN (x : Binary64) : Bool := x.biasedExponent == 2047 && x.fraction != 0

def isInfinite (x : Binary64) : Bool := x.biasedExponent == 2047 && x.fraction == 0

/-- Mantissa and exponent of a finite number: its magnitude is `m * 2 ^ q`. -/
def decode (x : Binary64) : Nat × Int :=
  if x.biasedExponent = 0 then (x.fraction, -1074)
  else (Nat.pow 2 52 + x.fraction, (x.biasedExponent : Int) - 1075)

def zero : Binary64 := ⟨0⟩

/-- Put a sign on a magnitude given by its bits. -/
def withSign (negative : Bool) (magnitude : Nat) : Binary64 :=
  ⟨(magnitude + if negative then Nat.pow 2 63 else 0).toUInt64⟩

def nan : Binary64 := ⟨0x7ff8000000000000⟩

/-- The quotient `num / den`, to the nearest integer, ties to even. -/
def roundHalfEven (num den : Nat) : Nat :=
  let q := num / den
  let r := num % den
  if 2 * r < den then q
  else if 2 * r > den then q + 1
  else if q % 2 = 0 then q else q + 1

/-- The bits of the number nearest to the natural number `n`, ties to even. A rounded
mantissa of `2 ^ 53` carries into the exponent by itself. -/
def magnitudeOfNat (n : Nat) : Nat :=
  if n = 0 then 0
  else
    let e := n.log2
    if e ≤ 52 then (e + 1023) * Nat.pow 2 52 + (n * Nat.pow 2 (52 - e) - Nat.pow 2 52)
    else (e + 1023) * Nat.pow 2 52 + (roundHalfEven n (Nat.pow 2 (e - 52)) - Nat.pow 2 52)

def ofNat (n : Nat) : Binary64 := withSign false (magnitudeOfNat n)

def ofInt (i : Int) : Binary64 := withSign (i < 0) (magnitudeOfNat i.natAbs)

/-- The integer part, clamped to `lo .. hi`; zero for what is not a number. -/
def truncate (lo hi : Int) (x : Binary64) : Int :=
  if x.isNaN then 0
  else if x.isInfinite then (if x.isNegative then lo else hi)
  else
    let (m, q) := x.decode
    let whole : Nat := if q ≥ 0 then m * Nat.pow 2 q.toNat else m / Nat.pow 2 (-q).toNat
    let signed : Int := if x.isNegative then -(whole : Int) else whole
    max lo (min hi signed)

/-- The number with magnitude `m * 2 ^ q`, for a mantissa below `2 ^ 53` that needs no
rounding at exponent `q ≥ -1074`. -/
def ofExact (negative : Bool) (m : Nat) (q : Int) : Binary64 :=
  if m = 0 then withSign negative 0
  else
    let e := m.log2
    let top : Int := e + q
    if top < -1022 then withSign negative (m * Nat.pow 2 (q + 1074).toNat)
    else withSign negative ((top + 1023).toNat * Nat.pow 2 52 + (m * Nat.pow 2 (52 - e) - Nat.pow 2 52))

/-- What is left of `a` after taking away whole multiples of `b`, with the sign of `a`.
The result is exact. -/
def remainder (a b : Binary64) : Binary64 :=
  if a.isNaN || b.isNaN || a.isInfinite then nan
  else if b.isInfinite then a
  else
    let (ma, qa) := a.decode
    let (mb, qb) := b.decode
    if mb = 0 then nan
    else
      let q := min qa qb
      let r := (ma * Nat.pow 2 (qa - q).toNat) % (mb * Nat.pow 2 (qb - q).toNat)
      ofExact a.isNegative r q

def add (a b : Binary64) : Binary64 := ofFloat (a.toFloat + b.toFloat)
def sub (a b : Binary64) : Binary64 := ofFloat (a.toFloat - b.toFloat)
def mul (a b : Binary64) : Binary64 := ofFloat (a.toFloat * b.toFloat)
def div (a b : Binary64) : Binary64 := ofFloat (a.toFloat / b.toFloat)

/-- Flip the sign, of zeros and of what is not a number too. -/
def neg (x : Binary64) : Binary64 :=
  withSign (!x.isNegative) (x.bits.toNat % Nat.pow 2 63)

/-- Round to single precision and back. -/
def toSingle (x : Binary64) : Binary64 := ofFloat x.toFloat.toFloat32.toFloat

/-- A key that orders the numbers; the two zeros share one. -/
def orderKey (x : Binary64) : Int :=
  let magnitude : Int := (x.bits.toNat % Nat.pow 2 63 : Nat)
  if x.isNegative then -magnitude else magnitude

/-- Numeric equality: nothing equals what is not a number, and the zeros are equal. -/
def eq (a b : Binary64) : Bool := !a.isNaN && !b.isNaN && a.orderKey == b.orderKey

def lt (a b : Binary64) : Bool := !a.isNaN && !b.isNaN && decide (a.orderKey < b.orderKey)

def le (a b : Binary64) : Bool := !a.isNaN && !b.isNaN && decide (a.orderKey ≤ b.orderKey)

end Binary64

end Staged
