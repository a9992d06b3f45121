/-
  Staged.Number.Shortest — the fewest decimal digits that read back as a given
  binary number.

  The reals that round to `m * 2 ^ q` form an interval around it, closed exactly when
  `m` is even; below a power of two the gap is half as wide. For one digit, two digits
  and so on, the two neighbours of the number on that decimal grid are tested against
  the interval in exact arithmetic. The first grid with a hit gives the digits; of two
  hits the nearer one is taken, and the upper one on a tie. Seventeen digits always
  suffice.

  All quantities are fractions over one denominator, kept as numerators.
-/

import Staged.Number.Binary64

namespace Staged

/-- A decimal number `digits * 10 ^ exponent`, without trailing zeros in `digits`. -/
structure Decimal where
  digits : Nat
  exponent : Int
  deriving DecidableEq, Repr

namespace Decimal

/-- Drop trailing zeros; `fuel` bounds their number. -/
def normalize : Nat → Nat → Int → Decimal
  | 0, digits, e => ⟨digits, e⟩
  | fuel + 1, digits, e =>
    if digits ≠ 0 ∧ digits % 10 = 0 then normalize fuel (digits / 10) (e + 1) else ⟨digits, e⟩

end Decimal

namespace Binary64

/-- The interval of reals that round to a number, with the number itself, as numerators
over `den`. -/
structure Neighbourhood where
  low : Nat
  value : Nat
  high : Nat
  den : Nat
  closed : Bool

def neighbourhood (m : Nat) (q : Int) : Neighbourhood :=
  let scale := Nat.pow 2 (q - 2).toNat
  let below := if m = Nat.pow 2 52 ∧ q > -1074 then 4 * m - 1 else 4 * m - 2
  { low := below * scale
    value := 4 * m * scale
    high := (4 * m + 2) * scale
    den := Nat.pow 2 (2 - q).toNat
    closed := m % 2 == 0 }

namespace Neighbourhood

def contains (n : Neighbourhood) (x : Nat) : Bool :=
  if n.closed then n.low ≤ x && x ≤ n.high else n.low < x && x < n.high

/-- Multiply every quantity by a power of ten, so that the grid `10 ^ e` becomes the
grid of whole multiples of the denominator. -/
def rescale (n : Neighbourhood) (e : Int) : Neighbourhood :=
  let up := Nat.pow 10 (-e).toNat
  { n with low := n.low * up, value := n.value * up, high := n.high * up,
           den := n.den * Nat.pow 10 e.toNat }

/-- The neighbour of the number on the grid `10 ^ e` that reads back, if one does. -/
def onGrid? (n : Neighbourhood) (e : Int) : Option Nat :=
  let s := n.rescale e
  let d := s.value / s.den
  let lower := s.contains (d * s.den)
  let upper := s.contains ((d + 1) * s.den)
  if lower && upper then
    some (if 2 * (s.value - d * s.den) < s.den then d else d + 1)
  else if lower then some d
  else if upper then some (d + 1)
  else none

/-- The exponent of the leading decimal digit, searched upward from a lower bound. -/
def leading (n : Neighbourhood) : Nat → Int → Int
  | 0, x => x
  | fuel + 1, x =>
    let s := n.rescale (x + 1)
    if s.den ≤ s.value then leading n fuel (x + 1) else x

/-- Try `k` digits, then one more, for at most `fuel` grids. -/
def search (n : Neighbourhood) (lead : Int) : Nat → Nat → Decimal
  | 0, k =>
    let e := lead - k + 1
    let s := n.rescale e
    ⟨s.value / s.den, e⟩
  | fuel + 1, k =>
    let e := lead - k + 1
    match n.onGrid? e with
    | some d => Decimal.normalize 20 d e
    | none => search n lead fuel (k + 1)

end Neighbourhood

/-- The shortest decimal that reads back as the magnitude of a finite number. -/
def shortest (x : Binary64) : Decimal :=
  let (m, q) := x.decode
  if m = 0 then ⟨0, 0⟩
  else
    let n := neighbourhood m q
    -- 2 ^ k ≤ v gives a leading digit no lower than floor (k * 0.301) - 1
    let k : Int := m.log2 + q
    let low := k * 30103 / 100000 - 1
    n.search (n.leading 4 low) 17 1

end Binary64

/-- How numbers are written: positional between two powers of ten, with at least one
digit after the point, and in exponent form elsewhere. -/
structure NumberFormat where
  /-- Least power of ten, by leading digit, that is written positionally. -/
  positionalFrom : Int
  /-- First power of ten, by leading digit, that is not written positionally. -/
  positionalBelow : Int
  notANumber : String
  infinity : String

/-- Floating-point numbers in emitted code and messages. -/
def Binary64.format : NumberFormat := ⟨-4, 16, "NaN", "inf"⟩

namespace Decimal

def digitText (d : Decimal) : String := toString d.digits

/-- The exponent of the leading digit. -/
def leadingExponent (d : Decimal) : Int := d.exponent + d.digitText.length - 1

def exponential (d : Decimal) : String :=
  let ds := d.digitText.toList
  let point := if ds.length > 1 then "." else ""
  String.ofList (ds.take 1) ++ point ++ String.ofList (ds.drop 1) ++ "e" ++
    toString d.leadingExponent

def positional (d : Decimal) : String :=
  let ds := d.digitText.toList
  if d.exponent ≥ 0 then
    String.ofList (ds ++ List.replicate d.exponent.toNat '0') ++ ".0"
  else
    let places := (-d.exponent).toNat
    let padded := List.replicate (places + 1 - ds.length) '0' ++ ds
    String.ofList (padded.take (padded.length - places)) ++ "." ++
      String.ofList (padded.drop (padded.length - places))

end Decimal

namespace Binary64

def text (x : Binary64) : String :=
  if x.isNaN then format.notANumber
  else
    let sign := if x.isNegative then "-" else ""
    if x.isInfinite then sign ++ format.infinity
    else
      let d := x.shortest
      if d.digits = 0 then sign ++ d.positional
      else if format.positionalFrom ≤ d.leadingExponent ∧
          d.leadingExponent < format.positionalBelow then sign ++ d.positional
      else sign ++ d.exponential

end Binary64

end Staged
