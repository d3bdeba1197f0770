import CommandConsole.Suggestion.Group

/-!
# Drafts of suggestions for one token

A draft collects what may stand in the place of the end of a line, from the start of a token on.
A candidate that is already typed in full is not suggested; a candidate matches when its lowercase
form starts with what has been typed, in lowercase.
-/

namespace CommandConsole

open Text

/-- Suggestions being collected for the token that starts at an offset. -/
structure Draft where
  line : String
  lowercaseLine : String
  start : Nat
  found : List Suggestion

namespace Draft

/-- An empty draft for a line with its lowercase form. -/
def withLowercase (line lowercaseLine : String) (start : Nat) : Draft :=
  ⟨line, lowercaseLine, start, []⟩

def new (line : String) (start : Nat) : Draft := withLowercase line (lowercase line) start

def remaining (d : Draft) : String := (back? d.start d.line).getD ""

/-- The lowercase form of the line from the same offset on. -/
def remainingLowercase (d : Draft) : String := (back? d.start d.lowercaseLine).getD ""

def span (d : Draft) : Span := ⟨min d.start (bytes d.line), bytes d.line⟩

def push (d : Draft) (s : Suggestion) : Draft := { d with found := d.found ++ [s] }

def suggest (d : Draft) (text : String) : Draft :=
  if text == d.remaining then d else d.push (.plain d.span text)

def suggestWithTooltip (d : Draft) (text tooltip : String) : Draft :=
  if text == d.remaining then d else d.push (.withTooltip d.span text tooltip)

def suggestInteger (d : Draft) (value : Int32) : Draft := d.push (.integer d.span value none)

/-- Whether a candidate starts with what has been typed, without regard to case. -/
def matchesTyped (d : Draft) (candidate : String) : Bool :=
  d.remainingLowercase.toList.isPrefixOf (lowercase candidate).toList

def suggestIfMatching (d : Draft) (candidate : String) : Draft :=
  if d.matchesTyped candidate then d.suggest candidate else d

def suggestMatching (d : Draft) (candidates : List String) : Draft :=
  candidates.foldl suggestIfMatching d

def append (d other : Draft) : Draft := { d with found := d.found ++ other.found }

/-- An empty draft for the same line from another offset on. -/
def offset (d : Draft) (start : Nat) : Draft := withLowercase d.line d.lowercaseLine start

def restart (d : Draft) : Draft := d.offset d.start

def build? (d : Draft) : Option Suggestions := Suggestions.create? d.line d.found

end Draft

end CommandConsole
