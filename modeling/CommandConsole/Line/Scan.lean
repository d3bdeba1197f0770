import CommandConsole.Line.Fault

/-!
# Reading tokens from a line

A scan reads something at the cursor of a reader. It ends with a value or an error, and in both
cases with a reader: where the cursor stands after a failure is part of what a scan does. Number
tokens, unquoted words, quoted strings and truth values are read here.
-/

namespace CommandConsole

open Text

/-- A reading of a value that may fail, from one reader to the next. -/
abbrev Scan (α : Type) : Type := ExceptT LineError (StateM Reader) α

namespace Scan

variable {α : Type}

def start (x : Scan α) (r : Reader) : Except LineError α × Reader := (ExceptT.run x).run r

def fail (f : Fault) : Scan α := do throw (f.pinned (← get))

def failBack (start : Reader) (f : Fault) : Scan α := do
  set start
  fail f

def takeWhile (p : Char → Bool) : Scan (List Char) := modifyGet (Reader.takeWhile p)

def pass (n : Nat) : Scan Unit := modify (·.pass n)

def next? : Scan (Option Char) := modifyGet fun r => (r.peek?, r.pass 1)

def skipBlank : Scan Unit := modify Reader.skipBlank

def expect (c : Char) : Scan Unit := do
  if (← get).peek? == some c then pass 1 else fail (.expectedSymbol c)

end Scan

/-! ### Numbers -/

/-- The number token that a text starts with: digits, minus signs and, if allowed, one point that
has no other point behind it. -/
def numberToken : Bool → List Char → List Char
  | _, [] => []
  | point, c :: cs =>
    if c.isDigit || c == '-' then c :: numberToken point cs
    else if c == '.' && point && cs.head? != some '.' then c :: numberToken false cs
    else []

theorem exists_numberToken_append (point : Bool) (cs : List Char) :
    ∃ tail, numberToken point cs ++ tail = cs := by
  induction cs generalizing point with
  | nil => exact ⟨[], rfl⟩
  | cons c cs ih =>
    unfold numberToken
    split
    · obtain ⟨tail, h⟩ := ih point
      exact ⟨tail, by simp [h]⟩
    · split
      · obtain ⟨tail, h⟩ := ih false
        exact ⟨tail, by simp [h]⟩
      · exact ⟨c :: cs, rfl⟩

namespace Scan

variable {α : Type}

def numberToken (point : Bool) : Scan (List Char) := modifyGet fun r =>
  let found := CommandConsole.numberToken point r.rest
  (found, r.pass found.length)

/-- Reads a number: a missing token is an error at the cursor, one that is no number of the kind
is an error at its start. -/
def number (read? : List Char → Option α) (expected : Fault) (invalid : String → Fault) :
    Scan α := do
  let start ← get
  let found ← numberToken true
  if found.isEmpty then fail expected
  else
    match read? found with
    | some v => return v
    | none => failBack start (invalid (String.ofList found))

end Scan

/-! ### Words and quoted strings -/

/-- The characters of a word: ASCII letters and digits, and four signs. -/
def isWordChar (c : Char) : Bool :=
  c.isAlphanum || c == '_' || c == '-' || c == '.' || c == '+'

def isQuote (c : Char) : Bool := c == '"' || c == '\''

/-- What a quoted string turns out to be, with the number of characters passed. -/
inductive Quoted where
  /-- The value, closed by its quote. -/
  | closed (value : List Char) (passed : Nat)
  /-- A backslash before a character that must not have one; that character is not passed. -/
  | badEscape (found : Char) (passed : Nat)
  /-- The line ends before the quote. -/
  | unclosed
  deriving DecidableEq

/-- A quoted string with one more character in front, written with a number of characters. -/
def Quoted.push (c : Char) (written : Nat) : Quoted → Quoted
  | closed value passed => closed (c :: value) (passed + written)
  | badEscape found passed => badEscape found (passed + written)
  | unclosed => unclosed

/-- Reads a string up to its quote; the quote and the backslash may be escaped, nothing else. -/
def unquote (quote : Char) : List Char → Quoted
  | [] => .unclosed
  | '\\' :: [] => .unclosed
  | '\\' :: d :: cs =>
    if d == quote || d == '\\' then (unquote quote cs).push d 2 else .badEscape d 1
  | c :: cs => if c == quote then .closed [] 1 else (unquote quote cs).push c 1

namespace Scan

def stringUntil (terminator : Char) : Scan String := do
  match unquote terminator (← get).rest with
  | .closed value passed => do pass passed; return String.ofList value
  | .badEscape found passed => do pass passed; fail (.invalidEscape found)
  | .unclosed => do modify Reader.passAll; fail .expectedEndOfQuote

def word : Scan String := String.ofList <$> takeWhile isWordChar

/-- Reads a quoted string; nothing at all is the empty string. -/
def quotedString : Scan String := do
  match (← get).peek? with
  | none => return ""
  | some c => if isQuote c then do pass 1; stringUntil c else fail .expectedStartOfQuote

def string : Scan String := do
  match (← get).peek? with
  | none => return ""
  | some c => if isQuote c then do pass 1; stringUntil c else word

def boolean : Scan Bool := do
  let start ← get
  let value ← string
  if value == "" then fail .expectedBool
  else if value == "true" then return true
  else if value == "false" then return false
  else failBack start (.invalidBool value)

end Scan

end CommandConsole
