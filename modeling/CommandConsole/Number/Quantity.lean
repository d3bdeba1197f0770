import CommandConsole.Decimal.Reading
import CommandConsole.Decimal.Shortest
import CommandConsole.Line.Fault

/-!
# Kinds of numbers

Lines hold four kinds of numbers: whole numbers of 32 and 64 bits, and floating numbers of single
and double precision. Each kind says how a number token is read, how a number is written, and how
two numbers compare; a floating number that is no number compares with nothing.
-/

namespace CommandConsole

/-- What a kind of numbers has to offer. -/
class Quantity (α : Type) where
  /-- The number that a token stands for. -/
  read? : List Char → Option α
  /-- The text of a number. -/
  text : α → String
  /-- Whether the first is below the second. -/
  lt : α → α → Bool
  /-- Whether the first is not above the second. -/
  le : α → α → Bool
  /-- Whether both are the same quantity. -/
  same : α → α → Bool
  /-- The least and the greatest finite number. -/
  least : α
  most : α
  /-- Whether a number may have a fraction. -/
  floating : Bool
  /-- The name of the kind in wordings. -/
  kind : String
  /-- The fault of a missing number. -/
  expected : Fault
  /-- The fault of a token that is no number of this kind. -/
  invalid : String → Fault

/-! ### Whole numbers -/

def int32? (cs : List Char) : Option Int32 :=
  (Decimal.whole? cs).bind fun i =>
    if Int32.minValue.toInt ≤ i ∧ i ≤ Int32.maxValue.toInt then some (Int32.ofInt i) else none

def int64? (cs : List Char) : Option Int64 :=
  (Decimal.whole? cs).bind fun i =>
    if Int64.minValue.toInt ≤ i ∧ i ≤ Int64.maxValue.toInt then some (Int64.ofInt i) else none

instance : Quantity Int32 where
  read? := int32?
  text i := Decimal.ofInt i.toInt
  lt a b := decide (a < b)
  le a b := decide (a ≤ b)
  same a b := a == b
  least := Int32.minValue
  most := Int32.maxValue
  floating := false
  kind := "Integer"
  expected := .expectedInt
  invalid := .invalidInt

instance : Quantity Int64 where
  read? := int64?
  text i := Decimal.ofInt i.toInt
  lt a b := decide (a < b)
  le a b := decide (a ≤ b)
  same a b := a == b
  least := Int64.minValue
  most := Int64.maxValue
  floating := false
  kind := "Long"
  expected := .expectedLong
  invalid := .invalidLong

/-! ### Floating numbers -/

instance : Quantity Float32 where
  read? := Decimal.single?
  text := Decimal.ofSingle
  lt a b := decide (a < b)
  le a b := decide (a ≤ b)
  same a b := a == b
  least := Float32.ofBits 0xFF7FFFFF
  most := Float32.ofBits 0x7F7FFFFF
  floating := true
  kind := "Float"
  expected := .expectedFloat
  invalid := .invalidFloat

instance : Quantity Float where
  read? := Decimal.double?
  text := Decimal.ofDouble
  lt a b := decide (a < b)
  le a b := decide (a ≤ b)
  same a b := a == b
  least := Float.ofBits 0xFFEFFFFFFFFFFFFF
  most := Float.ofBits 0x7FEFFFFFFFFFFFFF
  floating := true
  kind := "Double"
  expected := .expectedDouble
  invalid := .invalidDouble

/-! ### Squares -/

class Squared (α : Type) (β : outParam Type) where
  square : α → β
  le : β → β → Bool

instance : Squared Int32 Int64 where
  square i := i.toInt64 * i.toInt64
  le a b := decide (a ≤ b)

instance : Squared Float Float where
  square x := x * x
  le a b := decide (a ≤ b)

end CommandConsole
