/-!
# Taking from the front of a text

A document is read by computations that take something from the front of the text that is left,
or fail. Here are the pieces that stand between its statements and values: blanks, comments and
the ends of lines. A line ends with a line feed, in front of which a carriage return may stand;
what is kept of the pieces has no carriage returns.
-/

namespace CommandConsole.Document

/-- A computation that takes something from the front of a text, or fails. -/
abbrev Take (α : Type) : Type := StateT (List Char) Option α

/-! ### Characters -/

def isSpace (c : Char) : Bool := c == ' ' || c == '\t'

/-- Whether a character may stand for itself in comments and texts: no control character but the
tab. -/
def isPlain (c : Char) : Bool := c == '\t' || (0x20 ≤ c.toNat && c.toNat != 0x7F)

/-! ### Ends of lines -/

def startsLineEnd : List Char → Bool
  | '\n' :: _ => true
  | '\r' :: '\n' :: _ => true
  | _ => false

def dropLineEnd : List Char → List Char
  | '\n' :: cs => cs
  | '\r' :: '\n' :: cs => cs
  | cs => cs

/-- What is kept of spaces, comments and ends of lines. -/
def layout (cs : List Char) : String := String.ofList (cs.filter (· != '\r'))

/-! ### Gaps -/

/-- The spaces, ends of lines and comments in front of a text, and what is left; the flag says
whether the text starts within a comment. -/
def gapFrom : Bool → List Char → Option (List Char × List Char)
  | _, [] => some ([], [])
  | inComment, c :: cs =>
    let goOn (flag : Bool) := (gapFrom flag cs).map fun (gap, rest) => (c :: gap, rest)
    if startsLineEnd (c :: cs) then goOn false
    else if inComment then if isPlain c then goOn true else none
    else if isSpace c then goOn false
    else if c == '#' then goOn true
    else some ([], c :: cs)

/-! ### Taking -/

namespace Take

def peek? : Take (Option Char) := fun cs => some (cs.head?, cs)

def char (c : Char) : Take Unit
  | d :: cs => if d = c then some ((), cs) else none
  | [] => none

def span (test : Char → Bool) : Take (List Char) :=
  fun cs => some (cs.takeWhile test, cs.dropWhile test)

def withText {α : Type} (t : Take α) : Take (String × α) := fun cs =>
  (t cs).map fun (a, rest) => ((String.ofList (cs.take (cs.length - rest.length)), a), rest)

def spaces : Take (List Char) := span isSpace

/-- Takes a comment, up to the end of its line, if there is one. -/
def comment : Take (List Char) := do
  if (← peek?) == some '#' then span isPlain else return []

def gap : Take (List Char) := gapFrom false

/-- Takes the rest of a line, on which only spaces and a comment may stand, with its end. -/
def lineEnd : Take (List Char) := do
  let before ← spaces
  let cs ← comment
  let rest ← get
  guard (rest.isEmpty || startsLineEnd rest)
  set (dropLineEnd rest)
  return before ++ cs

end Take

end CommandConsole.Document
