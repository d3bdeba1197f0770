import CommandConsole.Decimal.Binary
import CommandConsole.Decimal.Digits

/-!
# Shortest decimals of binary floating numbers

A finite number is written with the fewest digits that no other number of its format is nearer
to, and of two such decimals the nearer, an exact tie going up. The text is positional, however
large or small the number is.
-/

namespace CommandConsole.Decimal

/-! ### Digits -/

/-- A positive decimal, coefficient · 10 ^ exponent. -/
structure Scaled where
  coefficient : Nat
  exponent : Int

def powerOfTen (e : Int) : Nat × Nat :=
  if e < 0 then (1, tenTo e.natAbs) else (tenTo e.natAbs, 1)

/-- How often a fraction below one must be multiplied by ten to reach one. -/
def placesToOne : Nat → Nat → Nat → Nat
  | 0, _, _ => 0
  | fuel + 1, num, den => if num < den then placesToOne fuel (10 * num) den + 1 else 0

/-- The exponent k with 10 ^ (k - 1) ≤ num / den < 10 ^ k. -/
def leadingPlace (num den : Nat) : Int :=
  if num < den then 1 - (placesToOne (den.log2 + 1) num den : Int)
  else ((digits (num / den)).length : Int)

/-- The decimals that read back as one number: those from low / den to high / den. -/
structure Interval where
  low : Nat
  high : Nat
  den : Nat
  closed : Bool

/-- Whether coefficient · up / down lies in the interval. -/
def Interval.holds (i : Interval) (coefficient up down : Nat) : Bool :=
  let value := coefficient * up * i.den
  if i.closed then i.low * down ≤ value && value ≤ i.high * down
  else i.low * down < value && value < i.high * down

/-- The decimal nearest to num / den on the grid of multiples of 10 ^ e, if one of the two
neighbours on the grid lies in the interval; a tie goes up. -/
def onGrid? (i : Interval) (num den : Nat) (e : Int) : Option Scaled :=
  let (up, down) := powerOfTen e
  let below := num * down / (den * up)
  let twice := 2 * (num * down - below * (den * up))
  match i.holds below up down, i.holds (below + 1) up down with
  | true, true => some ⟨if twice < den * up then below else below + 1, e⟩
  | true, false => some ⟨below, e⟩
  | false, true => some ⟨below + 1, e⟩
  | false, false => none

/-- The first grid with a decimal in the interval, from the coarsest on. -/
def firstGrid (i : Interval) (num den : Nat) : Nat → Int → Scaled
  | 0, e => ⟨num * (powerOfTen e).2 / (den * (powerOfTen e).1), e⟩
  | fuel + 1, e => (onGrid? i num den e).getD (firstGrid i num den fuel (e - 1))

def shortest (mantissa : Nat) (power : Int) (narrow : Bool) : Scaled :=
  let (up, down) := BinaryFormat.powerOfTwo power
  let num := mantissa * up
  let interval : Interval :=
    { low := (4 * mantissa - if narrow then 1 else 2) * up
      high := (4 * mantissa + 2) * up
      den := 4 * down
      closed := mantissa % 2 == 0 }
  firstGrid interval num down 20 (leadingPlace num down - 1)

/-! ### Positional text -/

def Scaled.trimZeros : Nat → Scaled → Scaled
  | 0, s => s
  | fuel + 1, s =>
    if s.coefficient % 10 = 0 then trimZeros fuel ⟨s.coefficient / 10, s.exponent + 1⟩ else s

/-- The positional text of a decimal, with a point only before a fraction. -/
def Scaled.text (s : Scaled) : List Char :=
  let s := s.trimZeros (digits s.coefficient).length
  let ds := digits s.coefficient
  if 0 ≤ s.exponent then ds ++ List.replicate s.exponent.toNat '0'
  else
    let places := s.exponent.natAbs
    if places < ds.length then
      ds.take (ds.length - places) ++ '.' :: ds.drop (ds.length - places)
    else '0' :: '.' :: List.replicate (places - ds.length) '0' ++ ds

/-- The text of a pattern of a binary floating format. -/
def ofPattern (f : BinaryFormat) (pattern : Nat) : String :=
  let negative := decide (f.signBit ≤ pattern)
  let signed (cs : List Char) := String.ofList (if negative then '-' :: cs else cs)
  match f.magnitude pattern with
  | .notANumber => "NaN"
  | .infinite => signed ['i', 'n', 'f']
  | .finite mantissa power narrow =>
    if mantissa = 0 then signed ['0'] else signed (shortest mantissa power narrow).text

def ofDouble (x : Float) : String := ofPattern .double x.toBits.toNat

def ofSingle (x : Float32) : String := ofPattern .single x.toBits.toNat

end CommandConsole.Decimal
