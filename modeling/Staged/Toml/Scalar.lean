/-
  Staged.Toml.Scalar — strings, numbers, dates and times.

  Strings stand between one or three quotes of either kind; double quotes allow escapes,
  three quotes allow line ends, which are read as line feeds. Integers are signed 64-bit
  words in decimal, or in hexadecimal, octal or binary without a sign; an underscore may
  stand between two digits. Of fractions only the form is checked, and that they are not
  too large to be a number. Dates are those of the calendar, and a blank may stand in
  place of the `T` between date and time.
-/

import Staged.Toml.Moment
import Staged.Toml.Scan

namespace Staged.Toml

open Scan

/-! ## Digits -/

def digitValue? (base : Nat) (c : Char) : Option Nat :=
  let v? := if c.isDigit then some (c.toNat - 48)
    else if 'a' ≤ c ∧ c ≤ 'f' then some (c.toNat - 87)
    else if 'A' ≤ c ∧ c ≤ 'F' then some (c.toNat - 55)
    else none
  v?.filter (· < base)

def digit (base : Nat) : Scan Nat := fun cs => do
  let (c, rest) ← next (fun _ => true) cs
  some (← digitValue? base c, rest)

/-- Digits, with single underscores between them. -/
def digits (base : Nat) : Scan (List Nat) := do
  let first ← digit base
  let rest ← many (do let _ ← option (char '_'); digit base)
  return first :: rest

def ofDigits (base : Nat) (ds : List Nat) : Nat := ds.foldl (fun n d => n * base + d) 0

/-- Exactly so many digits, as a number. -/
def fixed (count : Nat) : Scan Nat := do
  let ds ← (List.replicate count ()).mapM fun _ => digit 10
  return ofDigits 10 ds

/-- A number of two digits within bounds. -/
def twoDigits (lo hi : Nat) : Scan Nat := do
  let n ← fixed 2
  if lo ≤ n ∧ n ≤ hi then return n else failure

/-! ## Strings -/

def unescape? : Char → Option Char
  | 'b' => some '\x08'
  | 't' => some '\t'
  | 'n' => some '\n'
  | 'f' => some '\x0c'
  | 'r' => some '\r'
  | '"' => some '"'
  | '\\' => some '\\'
  | _ => none

/-- A character by its code point, in so many hexadecimal digits. -/
def codePoint (count : Nat) : Scan Char := do
  let ds ← (List.replicate count ()).mapM fun _ => digit 16
  let n := ofDigits 16 ds
  if h : n.isValidChar then return Char.ofNatAux n h else failure

def escape : Scan Char := do
  char '\\'
  (char 'u' *> codePoint 4) <|> (char 'U' *> codePoint 8) <|> do
    match unescape? (← next fun _ => true) with
    | some c => return c
    | none => failure

def basicChar : Scan Char := next (fun c => isText c && c != '"' && c != '\\') <|> escape

def basicString : Scan String := do
  char '"'
  let cs ← many basicChar
  char '"'
  return String.ofList cs

def literalString : Scan String := do
  char '\''
  let cs ← many (next fun c => isText c && c != '\'')
  char '\''
  return String.ofList cs

def lineFeed : Scan Char := do
  newline
  return '\n'

/-- A backslash at the end of a line takes the blanks after it away, line ends too. -/
def continuation : Scan Unit := do
  char '\\'
  spaces
  newline
  discard (many (discard (next isSpace) <|> newline))

/-- Text between three quotes. One or two quotes may stand in it, at its end too, where
`piece` reads anything else. -/
def longString (quote : Char) (piece : Scan (List Char)) : Scan String := do
  let mark := String.ofList [quote, quote, quote]
  word mark
  let _ ← option newline
  let inner ← many (piece <|> do notAhead mark; char quote; return [quote])
  let closing ← many (char quote)
  if 3 ≤ closing.length ∧ closing.length ≤ 5 then
    return String.ofList (inner.flatten ++ List.replicate (closing.length - 3) quote)
  else failure

def longBasicString : Scan String :=
  longString '"' <|
    (do continuation; return []) <|> (return [← basicChar]) <|> (return [← lineFeed])

def longLiteralString : Scan String :=
  longString '\'' <|
    (return [← next fun c => isText c && c != '\'']) <|> (return [← lineFeed])

def string : Scan String :=
  longBasicString <|> basicString <|> longLiteralString <|> literalString

/-! ## Numbers -/

/-- A sign; says whether it is a minus. -/
def sign : Scan Bool := (do char '-'; return true) <|> (do char '+'; return false) <|> return false

/-- Decimal digits without a zero in front. -/
def wholeDigits : Scan (List Nat) := do
  let ds ← digits 10
  if ds.length = 1 ∨ ds.head? ≠ some 0 then return ds else failure

def prefixedInteger : Scan Int := do
  let number (mark : String) (base : Nat) : Scan Nat := do
    word mark
    return ofDigits base (← digits base)
  return (← number "0x" 16 <|> number "0o" 8 <|> number "0b" 2 : Nat)

def decimalInteger : Scan Int := do
  let negative ← sign
  let n := ofDigits 10 (← wholeDigits)
  return if negative then -(n : Int) else n

/-- A 64-bit integer. -/
def integer : Scan Int := do
  let n ← prefixedInteger <|> decimalInteger
  if -Int.pow 2 63 ≤ n ∧ n < Int.pow 2 63 then return n else failure

/-- Numbers from here on are nearer to the next power of two than to any 64-bit
floating-point number. -/
def overflowBound : Nat := Nat.pow 2 1024 - Nat.pow 2 970

/-- Whether `n * 10 ^ e`, which is positive, is too large for a 64-bit floating-point
number. Its first digit stands `top` places before the point, which decides unless the
number is about as long as the bound. -/
def overflows (n : Nat) (e top : Int) : Bool :=
  if top = 309 then n * Nat.pow 10 e.toNat ≥ overflowBound * Nat.pow 10 (-e).toNat else top > 309

/-- The decimal exponent after the mark `e`. -/
def exponent : Scan Int := do
  let _ ← next fun c => c == 'e' || c == 'E'
  let negative ← sign
  let n := ofDigits 10 (← digits 10)
  return if negative then -(n : Int) else n

/-- A number with a fraction, an exponent or both. -/
def decimalFraction : Scan Unit := do
  let negative ← sign
  let whole ← wholeDigits
  let frac ← option (do char '.'; digits 10)
  let exp ← option exponent
  if frac.isNone && exp.isNone then failure
  let all := whole ++ frac.getD []
  let n := ofDigits 10 all
  let leading := (all.takeWhile (· == 0)).length
  let top : Int := whole.length - leading + exp.getD 0
  let e : Int := exp.getD 0 - (frac.getD []).length
  if !negative && n > 0 && overflows n e top then failure

def specialFraction : Scan Unit := do
  let _ ← sign
  word "inf" <|> word "nan"

def fraction : Scan Unit := decimalFraction <|> specialFraction

/-! ## Dates and times -/

def date : Scan Date := do
  let year ← fixed 4
  char '-'
  let month ← twoDigits 1 12
  char '-'
  let day ← twoDigits 1 (daysIn year month)
  return { year, month, day }

/-- A time of day; the second 60 is that of a leap second. -/
def time : Scan Time := do
  let hour ← twoDigits 0 23
  char ':'
  let minute ← twoDigits 0 59
  char ':'
  let second ← twoDigits 0 60
  let places ← option (do char '.'; many1 (digit 10))
  return { hour, minute, second, nanosecond := nanoseconds (places.getD []) }

def hoursMinutes : Scan Int := do
  let hours ← twoDigits 0 23
  char ':'
  let minutes ← twoDigits 0 59
  return (60 * hours + minutes : Nat)

def offset : Scan Offset :=
  (do let _ ← next fun c => c == 'Z' || c == 'z'; return .utc)
    <|> (do char '+'; return .ahead (← hoursMinutes))
    <|> (do char '-'; return .ahead (-(← hoursMinutes)))

def moment : Scan Moment := dated <|> (return .time (← time))
where
  dated : Scan Moment := do
    let d ← date
    let t ← option (do
      let _ ← next fun c => c == 'T' || c == 't' || c == ' '
      return (← time, ← option offset))
    match t with
    | some (t, o) => return .both d t o
    | none => return .date d

end Staged.Toml
