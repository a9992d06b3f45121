/-
  Staged.Toml.Moment — dates, times of day, and both together.

  Time is kept to the nanosecond; whatever is finer is cut off. An offset from universal
  time is a number of minutes, or the mark `Z`, which is kept apart from an offset of
  nothing. The text of a moment is the same however it was written: `T` stands between
  date and time, and a fraction of a second ends in a digit other than zero.
-/

namespace Staged.Toml

structure Date where
  year : Nat
  month : Nat
  day : Nat
  deriving DecidableEq, Repr

structure Time where
  hour : Nat
  minute : Nat
  second : Nat
  nanosecond : Nat
  deriving DecidableEq, Repr

inductive Offset where
  | utc
  /-- Minutes ahead of universal time. -/
  | ahead (minutes : Int)
  deriving DecidableEq, Repr

inductive Moment where
  | date (date : Date)
  | time (time : Time)
  | both (date : Date) (time : Time) (offset : Option Offset)
  deriving DecidableEq, Repr

/-! ## The calendar -/

def isLeapYear (year : Nat) : Bool := year % 4 == 0 && (year % 100 != 0 || year % 400 == 0)

def daysIn (year month : Nat) : Nat :=
  if month = 2 then (if isLeapYear year then 29 else 28)
  else if month ∈ [4, 6, 9, 11] then 30 else 31

/-! ## Fractions of a second -/

/-- The places of a fraction of a second that count. -/
def secondPlaces : Nat := 9

/-- Nanoseconds, from the digits after the point. -/
def nanoseconds (ds : List Nat) : Nat :=
  let kept := ds.take secondPlaces
  kept.foldl (fun n d => n * 10 + d) 0 * Nat.pow 10 (secondPlaces - kept.length)

/-! ## Text -/

/-- A number in decimal, with zeros in front up to a width. -/
def padded (width n : Nat) : List Char :=
  let ds := Nat.toDigits 10 n
  List.replicate (width - ds.length) '0' ++ ds

def Date.text (d : Date) : String :=
  String.ofList (padded 4 d.year ++ '-' :: padded 2 d.month ++ '-' :: padded 2 d.day)

/-- The point and the places after it, or nothing for a whole second. -/
def Time.fractionText (t : Time) : List Char :=
  if t.nanosecond = 0 then []
  else '.' :: ((padded secondPlaces t.nanosecond).reverse.dropWhile (· == '0')).reverse

def Time.text (t : Time) : String :=
  String.ofList
    (padded 2 t.hour ++ ':' :: padded 2 t.minute ++ ':' :: padded 2 t.second ++ t.fractionText)

/-- Nothing ahead is written with a plus. -/
def Offset.text : Offset → String
  | utc => "Z"
  | ahead m =>
    String.ofList ((if m < 0 then '-' else '+') ::
      padded 2 (m.natAbs / 60) ++ ':' :: padded 2 (m.natAbs % 60))

def Moment.text : Moment → String
  | date d => d.text
  | time t => t.text
  | both d t offset => d.text ++ "T" ++ t.text ++ (offset.map Offset.text).getD ""

end Staged.Toml
