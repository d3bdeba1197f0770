import CommandConsole.Decimal.Binary
import CommandConsole.Decimal.Digits

/-!
# Reading decimals

A decimal is an optional sign, digits with at most one point among or around them, and an optional
power of ten; the words for infinity and for no number are read in any case. It is rounded once,
straight to the format it is read for.
-/

namespace CommandConsole.Decimal

inductive Written where
  /-- The number coefficient · 10 ^ exponent. -/
  | finite (coefficient : Nat) (exponent : Int)
  | infinite
  | notANumber

/-- The power of ten behind a coefficient, none when the text is over. -/
def scale? : List Char → Option Int
  | [] => some 0
  | c :: cs =>
    if c == 'e' || c == 'E' then
      match cs with
      | '+' :: ds => (natural? ds).map Int.ofNat
      | ds => whole? ds
    else none

/-- Digits with at most one point, at least one digit, and an optional power of ten. -/
def unsigned? (cs : List Char) : Option Written :=
  let front := cs.takeWhile Char.isDigit
  let (fraction, tail) :=
    match cs.dropWhile Char.isDigit with
    | '.' :: r => (r.takeWhile Char.isDigit, r.dropWhile Char.isDigit)
    | r => ([], r)
  if front.isEmpty && fraction.isEmpty then
    let word := String.ofList (cs.map Char.toLower)
    if word == "inf" || word == "infinity" then some .infinite
    else if word == "nan" then some .notANumber
    else none
  else
    (scale? tail).map fun e =>
      .finite (digitsValue (front ++ fraction)) (e - (fraction.length : Int))

/-- A sign, true for minus, and the number behind it. -/
def written? : List Char → Option (Bool × Written)
  | '-' :: cs => (unsigned? cs).map (true, ·)
  | '+' :: cs => (unsigned? cs).map (false, ·)
  | cs => (unsigned? cs).map (false, ·)

/-! ### Rounding to a format -/

/-- No format here reaches numbers with more places than this on either side of the point. -/
def farPlaces : Nat := 400

/-- The magnitude pattern nearest to a written number. -/
def Written.pattern (f : BinaryFormat) : Written → Nat
  | .infinite => f.infinity
  | .notANumber => f.infinity + twoTo (f.fractionBits - 1)
  | .finite coefficient exponent =>
    let leading := ((digits coefficient).length : Int) + exponent
    if coefficient = 0 then 0
    else if leading < -farPlaces then 0
    else if farPlaces < leading then f.infinity
    else if exponent < 0 then f.nearest coefficient (tenTo exponent.natAbs)
    else f.nearest (coefficient * tenTo exponent.natAbs) 1

/-- The pattern nearest to the number that a text stands for. -/
def pattern? (f : BinaryFormat) (cs : List Char) : Option Nat :=
  (written? cs).map fun (negative, w) => w.pattern f + if negative then f.signBit else 0

def double? (cs : List Char) : Option Float :=
  (pattern? .double cs).map fun p => Float.ofBits (UInt64.ofNat p)

def single? (cs : List Char) : Option Float32 :=
  (pattern? .single cs).map fun p => Float32.ofBits (UInt32.ofNat p)

end CommandConsole.Decimal
