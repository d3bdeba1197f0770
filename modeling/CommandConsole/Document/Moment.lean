import CommandConsole.Decimal.Digits
import CommandConsole.Document.Take

/-!
# Moments

A moment is a date, a time of day, or both with perhaps an offset. It is written in one form: a
capital letter between date and time and for an offset of nothing, and a fraction of a second with
at most nine digits, of which the last is not zero.
-/

namespace CommandConsole.Document

structure Date where
  year : Nat
  month : Nat
  day : Nat
  deriving DecidableEq, Repr

/-- A time of day; a second may be a leap second. -/
structure TimeOfDay where
  hour : Nat
  minute : Nat
  second : Nat
  nanosecond : Nat
  deriving DecidableEq, Repr

/-- How far a clock is ahead of universal time. -/
inductive Offset where
  | universal
  | ahead (minutes : Int)
  deriving DecidableEq, Repr

inductive Moment where
  | date (d : Date)
  | time (t : TimeOfDay)
  | both (d : Date) (t : TimeOfDay) (offset : Option Offset)
  deriving DecidableEq, Repr

/-! ### The calendar -/

def daysOf (year month : Nat) : Nat :=
  if month == 2 then
    if year % 4 == 0 && (year % 100 != 0 || year % 400 == 0) then 29 else 28
  else if month == 4 || month == 6 || month == 9 || month == 11 then 30
  else 31

/-! ### Taking moments -/

/-- The nanoseconds that the digits of a fraction of a second stand for. Those behind the ninth
are left out. -/
def nanoseconds (digits : List Char) : Nat :=
  Decimal.digitsValue ((digits ++ List.replicate 9 '0').take 9)

namespace Take

def twoDigits : Take Nat
  | a :: b :: rest => (Decimal.natural? [a, b]).map (·, rest)
  | _ => none

def date : Take Date := do
  let century ← twoDigits
  let years ← twoDigits
  char '-'
  let month ← twoDigits
  char '-'
  let day ← twoDigits
  let year := 100 * century + years
  guard (1 ≤ month ∧ month ≤ 12)
  guard (1 ≤ day ∧ day ≤ daysOf year month)
  return ⟨year, month, day⟩

/-- Takes a fraction of a second, which may be missing. -/
def fraction : Take Nat := do
  if (← peek?) == some '.' then
    char '.'
    let digits ← span Char.isDigit
    guard (!digits.isEmpty)
    return nanoseconds digits
  else return 0

def clock : Take (Nat × Nat) := do
  let hour ← twoDigits
  char ':'
  let minute ← twoDigits
  guard (hour ≤ 23 ∧ minute ≤ 59)
  return (hour, minute)

def timeOfDay : Take TimeOfDay := do
  let (hour, minute) ← clock
  char ':'
  let second ← twoDigits
  guard (second ≤ 60)
  return ⟨hour, minute, second, ← fraction⟩

def offset : Take (Option Offset) := do
  match ← get with
  | [] => return none
  | c :: rest =>
    set rest
    if c == 'Z' || c == 'z' then return some .universal
    else
      guard (c == '+' || c == '-')
      let (hours, minutes) ← clock
      let ahead : Int := 60 * hours + minutes
      return some (.ahead (if c == '-' then -ahead else ahead))

end Take

def Moment.ofChars? (cs : List Char) : Option Moment :=
  match Take.date cs with
  | some (d, []) => some (.date d)
  | some (d, c :: rest) => do
    guard (c == 'T' || c == 't' || c == ' ')
    let (t, rest) ← Take.timeOfDay rest
    let (offset, rest) ← Take.offset rest
    guard rest.isEmpty
    return .both d t offset
  | none => do
    let (t, rest) ← Take.timeOfDay cs
    guard rest.isEmpty
    return .time t

/-! ### Writing moments -/

def padded (width n : Nat) : String :=
  let ds := Decimal.digits n
  String.ofList (List.replicate (width - ds.length) '0' ++ ds)

def Date.text (d : Date) : String :=
  padded 4 d.year ++ "-" ++ padded 2 d.month ++ "-" ++ padded 2 d.day

def TimeOfDay.text (t : TimeOfDay) : String :=
  let fraction :=
    if t.nanosecond == 0 then ""
    else
      let ds := (padded 9 t.nanosecond).toList
      "." ++ String.ofList (ds.reverse.dropWhile (· == '0')).reverse
  padded 2 t.hour ++ ":" ++ padded 2 t.minute ++ ":" ++ padded 2 t.second ++ fraction

def Offset.text : Offset → String
  | .universal => "Z"
  | .ahead minutes =>
    (if minutes < 0 then "-" else "+") ++
      padded 2 (minutes.natAbs / 60) ++ ":" ++ padded 2 (minutes.natAbs % 60)

def Moment.text : Moment → String
  | .date d => d.text
  | .time t => t.text
  | .both d t none => d.text ++ "T" ++ t.text
  | .both d t (some offset) => d.text ++ "T" ++ t.text ++ offset.text

end CommandConsole.Document
