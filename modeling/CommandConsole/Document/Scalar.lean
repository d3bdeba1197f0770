import CommandConsole.Decimal.Reading
import CommandConsole.Document.Moment
import CommandConsole.Document.Quoted

/-!
# Bare words in a document

A bare word in a document is a truth value, a moment, a whole number in base ten, sixteen, eight
or two, or a number with a point or an exponent. Underscores may stand between digits.
-/

namespace CommandConsole.Document

inductive Datum where
  | text (s : String)
  | whole (n : Int64)
  | real (x : Float)
  | truth (b : Bool)
  | moment (m : Moment)
  | list (items : List Datum)
  | table (entries : List (String × Datum))

/-! ### Digits -/

/-- Digits without the underscores that may stand between them. -/
def grouped? (isDigit : Char → Bool) : List Char → Option (List Char)
  | [] => none
  | [c] => if isDigit c then some [c] else none
  | c :: '_' :: cs => if isDigit c then (grouped? isDigit cs).map (c :: ·) else none
  | c :: cs => if isDigit c then (grouped? isDigit cs).map (c :: ·) else none

/-- The digits of a number in base ten, which has no leading zero. -/
def decimalDigits? (cs : List Char) : Option (List Char) :=
  match grouped? Char.isDigit cs with
  | some ('0' :: _ :: _) => none
  | digits => digits

def signed : List Char → Bool × List Char
  | '-' :: cs => (true, cs)
  | '+' :: cs => (false, cs)
  | cs => (false, cs)

/-! ### Whole numbers -/

/-- A number as a word of 64 bits, if it is in range. -/
def inRange? (i : Int) : Option Int64 :=
  if Int64.minValue.toInt ≤ i ∧ i ≤ Int64.maxValue.toInt then some (Int64.ofInt i) else none

def whole? : List Char → Option Int64
  | '0' :: 'x' :: cs => radix 16 cs
  | '0' :: 'o' :: cs => radix 8 cs
  | '0' :: 'b' :: cs => radix 2 cs
  | cs => do
    let (negative, cs) := signed cs
    let n := Decimal.digitsValue (← decimalDigits? cs)
    inRange? (if negative then -(n : Int) else n)
where
  /-- A number in a base, without a sign. -/
  radix (base : Nat) (cs : List Char) : Option Int64 := do
    let digits ← grouped? (fun c => (hexDigit? c).isSome) cs
    inRange? (← numeral? base digits)

/-! ### Numbers with a point or an exponent -/

/-- The digits of an exponent behind its letter, with the letter in front. -/
def exponent? : List Char → Option (List Char)
  | [] => some []
  | e :: cs => do
    guard (e == 'e' || e == 'E')
    let (negative, cs) := signed cs
    let digits ← grouped? Char.isDigit cs
    return 'e' :: (if negative then '-' :: digits else digits)

/-- The digits of a fraction behind the point, and the exponent, as plain digits. -/
def fraction? : List Char → Option (List Char)
  | '.' :: cs => do
    let isPart (c : Char) := c.isDigit || c == '_'
    let digits ← grouped? Char.isDigit (cs.takeWhile isPart)
    return '.' :: digits ++ (← exponent? (cs.dropWhile isPart))
  | cs => exponent? cs

/-- A number with a fraction or an exponent, infinity or no number at all. A number that is too
large to be finite is refused. -/
def real? (cs : List Char) : Option Float := do
  let (negative, magnitude) := signed cs
  let sign := if negative then ['-'] else []
  if magnitude == ['i', 'n', 'f'] || magnitude == ['n', 'a', 'n'] then
    Decimal.double? (sign ++ magnitude)
  else
    let isPart (c : Char) := c.isDigit || c == '_'
    let front ← decimalDigits? (magnitude.takeWhile isPart)
    let back ← fraction? (magnitude.dropWhile isPart)
    guard (!back.isEmpty)
    let value ← Decimal.double? (sign ++ front ++ back)
    guard value.isFinite
    return value

/-! ### Taking words -/

def scalarOf? (cs : List Char) : Option Datum :=
  if cs == "true".toList then some (.truth true)
  else if cs == "false".toList then some (.truth false)
  else ((Moment.ofChars? cs).map .moment).or (((whole? cs).map .whole).or ((real? cs).map .real))

def isWordPart (c : Char) : Bool :=
  !(isSpace c || c == '\n' || c == '\r' || c == '#' || c == ',' || c == ']' || c == '\x7d')

namespace Take

/-- Takes a bare word; a date and a time of day may be separated by a space. -/
def scalar : Take (String × Datum) := do
  let word ← span isWordPart
  let more ← match date word, ← get with
    | some (_, []), ' ' :: c :: rest =>
      if c.isDigit then do
        set (c :: rest)
        let time ← span isWordPart
        pure (' ' :: time)
      else pure []
    | _, _ => pure []
  let datum ← scalarOf? (word ++ more)
  return (String.ofList (word ++ more), datum)

end Take

end CommandConsole.Document
