import CommandConsole.Argument.Value
import CommandConsole.Suggestion.Draft

/-!
# Built-in types of arguments

Truth values, numbers between two limits, words, quoted strings, the rest of the line, and bounds
of numbers. Each type reads a value at the cursor, may suggest values, gives examples that it
accepts and has a name under which it is exported.
-/

namespace CommandConsole

/-- The limits of a number, both included. -/
structure Limits (α : Type) where
  least : α
  most : α

def Limits.all {α : Type} [Quantity α] : Limits α := ⟨Quantity.least, Quantity.most⟩

/-- The types of arguments that need nothing but the line. -/
inductive Builtin where
  | bool
  | integer (limits : Limits Int32)
  | long (limits : Limits Int64)
  | float (limits : Limits Float32)
  | double (limits : Limits Float)
  /-- One word. -/
  | word
  /-- One word or a quoted string. -/
  | string
  /-- All that is left of the line. -/
  | greedy
  | intRange
  | floatRange

/-! ### Reading -/

/-- Reads a number between limits; a number outside is an error at its start. -/
def Limits.scan {α : Type} [Quantity α] (limits : Limits α) : Scan α := do
  let start ← get
  let v ← Scan.number Quantity.read? (Quantity.expected α) (Quantity.invalid α)
  if Quantity.lt v limits.least then
    Scan.failBack start
      (.tooLow (Quantity.kind α) (Quantity.text limits.least) (Quantity.text v))
  else if Quantity.lt limits.most v then
    Scan.failBack start
      (.tooHigh (Quantity.kind α) (Quantity.text limits.most) (Quantity.text v))
  else return v

def Scan.greedy : Scan String := modifyGet fun r => (r.remaining, r.passAll)

namespace Builtin

def scan : Builtin → Scan Value
  | bool => Value.bool <$> Scan.boolean
  | integer limits => Value.int <$> limits.scan
  | long limits => Value.long <$> limits.scan
  | float limits => Value.float <$> limits.scan
  | double limits => Value.double <$> limits.scan
  | word => Value.string <$> Scan.word
  | string => Value.string <$> Scan.string
  | greedy => Value.string <$> Scan.greedy
  | intRange => Value.intRange <$> Bounds.scan
  | floatRange => Value.floatRange <$> Bounds.scan

/-! ### Suggesting and describing -/

def suggest? : Builtin → Draft → Option Suggestions
  | bool, draft => (draft.suggestMatching ["true", "false"]).build?
  | _, _ => some .none

def examples : Builtin → List String
  | bool => ["true", "false"]
  | integer _ | long _ => ["0", "123", "-123"]
  | float _ | double _ => ["0", "1.2", ".5", "-1", "-.5", "-1234.56"]
  | word => ["word", "words_with_underscores"]
  | string => ["\"quoted phrase\"", "word", "\"\""]
  | greedy => ["word", "words with spaces", "\"and symbols\""]
  | intRange => ["0..5", "0", "-5", "-100..", "..100"]
  | floatRange => ["0..5.2", "0", "-5.4", "-100.76..", "..100"]

def name : Builtin → String
  | bool => "bool"
  | integer _ => "integer"
  | long _ => "long"
  | float _ => "float"
  | double _ => "double"
  | word => "word"
  | string => "string"
  | greedy => "greedy_string"
  | intRange => "int_range"
  | floatRange => "float_range"

end Builtin

end CommandConsole
