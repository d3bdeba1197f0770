import CommandConsole.Suggestion.Basic

/-!
# Groups of suggestions

The suggestions for one line are brought to one span, the hull of their spans; of those that then
offer the same only the first is kept, and the rest is sorted without regard to case. Equal ones
keep their order.
-/

namespace CommandConsole

structure Suggestions where
  span : Span
  list : List Suggestion
  deriving DecidableEq

namespace Suggestions

def none : Suggestions := ⟨Span.atOffset 0, []⟩

/-! ### Steps -/

def hullOf (first : Suggestion) (rest : List Suggestion) : Span :=
  rest.foldl (fun span s => span.hull s.span) first.span

/-- The first of each kind of suggestions that offer the same. -/
def dedupe (list : List Suggestion) : List Suggestion :=
  (list.foldl (fun kept s => if kept.any (·.same s) then kept else s :: kept) []).reverse

/-- Inserts into a list sorted from the last to the first, before the first that is not after. -/
def insertLast (s : Suggestion) : List Suggestion → List Suggestion
  | [] => [s]
  | t :: ts => if s.compareIgnoreCase t == .lt then t :: insertLast s ts else s :: t :: ts

/-- Sorts without regard to case; equal ones keep their order. -/
def sort (list : List Suggestion) : List Suggestion :=
  (list.foldl (fun sorted s => insertLast s sorted) []).reverse

def expandAll (line : String) (span : Span) : List Suggestion → Option (List Suggestion)
  | [] => some []
  | s :: ss => do
    let first ← s.expand? line span
    let others ← expandAll line span ss
    return first :: others

/-! ### Building -/

/-- The group of some suggestions for a line, if their spans cut the line at characters. -/
def create? (line : String) : List Suggestion → Option Suggestions
  | [] => some none
  | first :: rest => do
    let span := hullOf first rest
    let widened ← expandAll line span (first :: rest)
    return ⟨span, sort (dedupe widened)⟩

/-- One group out of several for the same line; a single group is left as it is. -/
def merge? (line : String) : List Suggestions → Option Suggestions
  | [] => some none
  | [single] => some single
  | several => create? line (several.flatMap (·.list))

end Suggestions

end CommandConsole
