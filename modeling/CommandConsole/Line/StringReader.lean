import CommandConsole.Line.Scan
import CommandConsole.Number.Quantity

/-!
# A reader by byte offsets

A string with a byte offset. Reading slices the string at the offset, adds the width of each
character that is passed and takes it away again where a character is given back. A slice exists
only at character boundaries, and a number of bytes is never below zero: where an operation asks for
something else the program stops, and there is no result. That this never happens, and that the
offset stays at a boundary, is no part of the type.
-/

namespace CommandConsole

open Text

/-- A string with a byte offset. -/
structure StringReader where
  string : String
  cursor : Nat
  deriving DecidableEq, Repr

namespace StringReader

def new (s : String) : StringReader := ⟨s, 0⟩

def totalLength (r : StringReader) : Nat := bytes r.string

def remainingLength? (r : StringReader) : Option Nat :=
  if r.cursor ≤ r.totalLength then some (r.totalLength - r.cursor) else none

def readSoFar? (r : StringReader) : Option String := front? r.cursor r.string

def remaining? (r : StringReader) : Option String := back? r.cursor r.string

def canRead (r : StringReader) : Bool := r.cursor < r.totalLength

def canReadMany? (r : StringReader) (n : Nat) : Option Bool :=
  if n = 0 then some true else r.remaining?.map fun s => s.toList[n - 1]?.isSome

def peek? (r : StringReader) : Option (Option Char) := r.remaining?.map fun s => s.toList.head?

def peekAt? (r : StringReader) (n : Nat) : Option (Option Char) :=
  r.remaining?.map fun s => s.toList[n]?

def peekToken? (r : StringReader) : Option String :=
  r.remaining?.map fun s => String.ofList (token s.toList)

def advance (r : StringReader) (c : Char) : StringReader :=
  { r with cursor := r.cursor + c.utf8Size }

def goBack? (r : StringReader) (c : Char) : Option StringReader :=
  if c.utf8Size ≤ r.cursor then some { r with cursor := r.cursor - c.utf8Size } else none

def pinned (r : StringReader) (f : Fault) : LineError := ⟨f, some ⟨r.string, r.cursor⟩⟩

theorem length_advance_lt {r : StringReader} {c : Char} (h : r.peek? = some (some c)) :
    (r.advance c).totalLength - (r.advance c).cursor < r.totalLength - r.cursor := by
  obtain ⟨s, hs, hc⟩ := Option.map_eq_some_iff.1 h
  obtain ⟨⟨a, b⟩, hsplit, rfl⟩ := Option.map_eq_some_iff.1 hs
  obtain ⟨hab, ha⟩ := append_of_splitAt? hsplit
  obtain ⟨b', rfl⟩ : ∃ b', b = c :: b' := by
    rw [String.toList_ofList] at hc
    exact List.head?_eq_some_iff.1 hc
  have hlength : bytes r.string = r.cursor + (c.utf8Size + byteLength b') := by
    rw [bytes, ← hab, byteLength_append, ha, byteLength]
  have hpos := c.utf8Size_pos
  simp only [totalLength, advance]
  omega

/-! ### Loops -/

/-- The reader behind the characters that a condition allows, each looked at from in front of it;
the condition may keep a state from one to the next. -/
def passWhile? {σ : Type} (allows : σ → StringReader → Char → Option (Bool × σ)) (state : σ)
    (r : StringReader) : Option StringReader :=
  match _h : r.peek? with
  | none => none
  | some none => some r
  | some (some c) =>
    match allows state r c with
    | none => none
    | some (false, _) => some r
    | some (true, state) => passWhile? allows state (r.advance c)
termination_by r.totalLength - r.cursor
decreasing_by exact length_advance_lt ‹_›

/-- Reads up to a terminator that is not escaped, with what was found so far and whether a backslash
is in front. -/
def stringUntil? (terminator : Char) (found : String) (escaped : Bool) (r : StringReader) :
    Option (Except LineError String × StringReader) :=
  match _h : r.peek? with
  | none => none
  | some none => some (.error (r.pinned .expectedEndOfQuote), r)
  | some (some c) =>
    if escaped then
      if c == terminator || c == '\\' then
        stringUntil? terminator (found.push c) false (r.advance c)
      else ((r.advance c).goBack? c).map fun r => (.error (r.pinned (.invalidEscape c)), r)
    else if c == '\\' then stringUntil? terminator found true (r.advance c)
    else if c == terminator then some (.ok found, r.advance c)
    else stringUntil? terminator (found.push c) false (r.advance c)
termination_by r.totalLength - r.cursor
decreasing_by all_goals exact length_advance_lt ‹_›

end StringReader

/-! ### Operations -/

/-- An operation of a reader, with a value or an error unless the program stops. -/
abbrev OffsetScan (α : Type) : Type := ExceptT LineError (StateT StringReader Option) α

namespace OffsetScan

variable {α σ : Type}

def start (x : OffsetScan α) (r : StringReader) : Option (Except LineError α × StringReader) :=
  (ExceptT.run x).run r

def look (view : StringReader → Option α) : OffsetScan α :=
  ExceptT.mk fun r => (view r).map fun v => (.ok v, r)

def fail (f : Fault) : OffsetScan α := do throw ((← get).pinned f)

def goTo (cursor : Nat) : OffsetScan Unit := modify fun r => { r with cursor }

def setCursor (cursor : Nat) : OffsetScan Unit := do
  let _ ← look fun r => splitAt? cursor r.string.toList
  goTo cursor

def read : OffsetScan (Option Char) := do
  match ← look (·.peek?) with
  | none => return none
  | some c => do
    modify (·.advance c)
    return some c

def skip : OffsetScan Unit := do let _ ← read

def expect (c : Char) : OffsetScan Unit := do
  if (← look (·.peek?)) == some c then skip else fail (.expectedSymbol c)

/-- Passes characters under a condition; what was passed is the slice between both offsets. -/
def readWhile (allows : σ → StringReader → Char → Option (Bool × σ)) (state : σ) :
    OffsetScan String :=
  ExceptT.mk fun r => do
    let behind ← r.passWhile? allows state
    let found ← between? r.cursor behind.cursor behind.string
    return (.ok found, behind)

def skipWhitespace : OffsetScan Unit :=
  ExceptT.mk fun r => (r.passWhile? (fun _ _ c => some (isBlank c, ())) ()).map (.ok (), ·)

/-- Whether a character goes on with a number token, given whether its point has been seen. -/
def goesOnNumber (allowDecimal seenDot : Bool) (r : StringReader) (c : Char) :
    Option (Bool × Bool) :=
  if c.isDigit || c == '-' then some (true, seenDot)
  else if c == '.' && allowDecimal && !seenDot then
    (r.peekAt? 1).map fun next => if next != some '.' then (true, true) else (false, seenDot)
  else some (false, seenDot)

def readNumberToken (allowDecimal : Bool) : OffsetScan String :=
  readWhile (goesOnNumber allowDecimal) false

def readNumber (read? : List Char → Option α) (expected : Fault) (invalid : String → Fault) :
    OffsetScan α := do
  let start ← get
  let number ← readNumberToken true
  if number.toList.isEmpty then fail expected
  else
    match read? number.toList with
    | some v => return v
    | none => do
      goTo start.cursor
      fail (invalid number)

def readInt : OffsetScan Int32 := readNumber int32? .expectedInt .invalidInt

def readLong : OffsetScan Int64 := readNumber int64? .expectedLong .invalidLong

def readFloat : OffsetScan Float32 := readNumber Decimal.single? .expectedFloat .invalidFloat

def readDouble : OffsetScan Float := readNumber Decimal.double? .expectedDouble .invalidDouble

def readUnquotedString : OffsetScan String := readWhile (fun _ _ c => some (isWordChar c, ())) ()

def readStringUntil (terminator : Char) : OffsetScan String :=
  ExceptT.mk fun r => r.stringUntil? terminator "" false

def readQuotedString : OffsetScan String := do
  match ← look (·.peek?) with
  | none => return ""
  | some c => if isQuote c then do skip; readStringUntil c else fail .expectedStartOfQuote

def readString : OffsetScan String := do
  match ← look (·.peek?) with
  | none => return ""
  | some c => if isQuote c then do skip; readStringUntil c else readUnquotedString

def readBoolean : OffsetScan Bool := do
  let start ← get
  let value ← readString
  if value == "" then fail .expectedBool
  else if value == "true" then return true
  else if value == "false" then return false
  else do
    goTo start.cursor
    fail (.invalidBool value)

end OffsetScan

end CommandConsole
