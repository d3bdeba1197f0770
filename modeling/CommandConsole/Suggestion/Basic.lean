import CommandConsole.Line.Span
import CommandConsole.Decimal.Digits
import CommandConsole.Text.Bytes
import CommandConsole.Text.Lowercase

/-!
# Suggestions

A suggestion puts a text in the place of a span of the line. It can be widened to a larger span by
taking the text of the line around it along, which changes nothing in the line that results. A
number suggests itself and sorts by its value.
-/

namespace CommandConsole

open Text

structure Suggestion where
  span : Span
  text : String
  tooltip : Option String
  /-- The number that a numeric suggestion sorts by. -/
  value : Option Int32
  deriving DecidableEq

namespace Suggestion

def plain (span : Span) (text : String) : Suggestion := ⟨span, text, none, none⟩

def withTooltip (span : Span) (text tooltip : String) : Suggestion :=
  ⟨span, text, some tooltip, none⟩

def integer (span : Span) (value : Int32) (tooltip : Option String) : Suggestion :=
  ⟨span, Decimal.ofInt value.toInt, tooltip, some value⟩

/-- Whether two suggestions offer the same; the number to sort by takes no part. -/
def same (a b : Suggestion) : Bool :=
  a.span == b.span && a.text == b.text && a.tooltip == b.tooltip

/-! ### The line that results -/

/-- The line with the text in the place of the span, if the span cuts the line at characters. -/
def applyTo? (s : Suggestion) (line : String) : Option String :=
  if s.span.start = 0 ∧ s.span.stop = bytes line then some s.text
  else do
    let before ← if 0 < s.span.start then front? s.span.start line else some ""
    let after ← if s.span.stop < bytes line then back? s.span.stop line else some ""
    return before ++ s.text ++ after

/-- The suggestion for a wider span, with the parts of the line that it now covers. -/
def expand? (s : Suggestion) (line : String) (span : Span) : Option Suggestion :=
  if span = s.span then some s
  else do
    let before ←
      if span.start < s.span.start then between? span.start s.span.start line else some ""
    let after ←
      if s.span.stop < span.stop then between? s.span.stop span.stop line else some ""
    return { span, text := before ++ s.text ++ after, tooltip := s.tooltip, value := none }

/-! ### Order -/

/-- Texts by code points, which is the order of their bytes. -/
def compareText (a b : String) : Ordering := compareOfLessAndEq a b

def compare (a b : Suggestion) : Ordering :=
  match a.value, b.value with
  | some x, some y => compareOfLessAndEq x y
  | _, _ => compareText a.text b.text

/-- Numbers by value, all else by lowercase text and then by text. -/
def compareIgnoreCase (a b : Suggestion) : Ordering :=
  match a.value, b.value with
  | some x, some y => compareOfLessAndEq x y
  | _, _ =>
    (compareText (lowercase a.text) (lowercase b.text)).then (compareText a.text b.text)

end Suggestion

end CommandConsole
