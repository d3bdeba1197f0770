/-!
# Binary floating formats

A format is fixed by the widths of its fraction and exponent fields. A bit pattern stands for a
sign and either a magnitude m · 2 ^ q, infinity or no number. The nearest pattern to a positive
fraction is found in exact arithmetic, halves going to the even neighbour.
-/

namespace CommandConsole.Decimal

def twoTo (n : Nat) : Nat := Nat.pow 2 n

structure BinaryFormat where
  fractionBits : Nat
  exponentBits : Nat

namespace BinaryFormat

def single : BinaryFormat := ⟨23, 8⟩

def double : BinaryFormat := ⟨52, 11⟩

/-- The power of two of the last place of the smallest numbers. -/
def leastPower (f : BinaryFormat) : Int :=
  2 - (twoTo (f.exponentBits - 1) : Int) - f.fractionBits

/-- The pattern of infinity, which is above the patterns of all finite magnitudes. -/
def infinity (f : BinaryFormat) : Nat := (twoTo f.exponentBits - 1) * twoTo f.fractionBits

def signBit (f : BinaryFormat) : Nat := twoTo (f.exponentBits + f.fractionBits)

end BinaryFormat

inductive Magnitude where
  /-- The number mantissa · 2 ^ power; narrow when the gap below is half the gap above. -/
  | finite (mantissa : Nat) (power : Int) (narrow : Bool)
  | infinite
  | notANumber

namespace BinaryFormat

def magnitude (f : BinaryFormat) (pattern : Nat) : Magnitude :=
  let fraction := pattern % twoTo f.fractionBits
  let exponent := pattern / twoTo f.fractionBits % twoTo f.exponentBits
  if exponent = twoTo f.exponentBits - 1 then
    if fraction = 0 then .infinite else .notANumber
  else if exponent = 0 then .finite fraction f.leastPower false
  else
    .finite (twoTo f.fractionBits + fraction) (f.leastPower + (exponent - 1))
      (fraction = 0 && exponent > 1)

/-! ### Rounding -/

/-- The whole number nearest to a fraction, a half going to the even neighbour. -/
def roundHalfEven (num den : Nat) : Nat :=
  let low := num / den
  let twice := 2 * (num % den)
  if twice < den then low
  else if den < twice then low + 1
  else low + low % 2

def powerOfTwo (q : Int) : Nat × Nat :=
  if q < 0 then (1, twoTo q.natAbs) else (twoTo q.natAbs, 1)

/-- The power of two of the last place of the number nearest to a positive fraction. -/
def lastPlace (f : BinaryFormat) (num den : Nat) : Int :=
  let guess : Int := (num.log2 : Int) - den.log2
  let (up, down) := powerOfTwo guess
  let exact := if num * down < den * up then guess - 1 else guess
  max f.leastPower (exact - f.fractionBits)

/-- The pattern nearest to a positive fraction; what is too big is infinite. -/
def nearest (f : BinaryFormat) (num den : Nat) : Nat :=
  let q := f.lastPlace num den
  let (up, down) := powerOfTwo q
  let mantissa := roundHalfEven (num * down) (den * up)
  min f.infinity ((q - f.leastPower).toNat * twoTo f.fractionBits + mantissa)

end BinaryFormat

end CommandConsole.Decimal
