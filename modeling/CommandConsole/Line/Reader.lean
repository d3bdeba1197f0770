import CommandConsole.Text.Blank
import CommandConsole.Text.Bytes

/-!
# A reader over a line

A reader is a line with a cursor: the characters already passed, nearest first, and the rest. The
cursor counts the bytes passed, so it is always on a character boundary inside the line. Moving
forward is passing a number of characters, and passing never changes the line.
-/

namespace CommandConsole

open Text

/-- A line with a cursor between two of its characters. -/
structure Reader where
  /-- The characters before the cursor, nearest first. -/
  passed : List Char
  /-- The characters from the cursor on. -/
  rest : List Char
  deriving DecidableEq

namespace Reader

def ofString (s : String) : Reader := ⟨[], s.toList⟩

def text (r : Reader) : List Char := r.passed.reverse ++ r.rest

def line (r : Reader) : String := String.ofList r.text

def readSoFar (r : Reader) : String := String.ofList r.passed.reverse

def remaining (r : Reader) : String := String.ofList r.rest

def cursor (r : Reader) : Nat := byteLength r.passed

def totalLength (r : Reader) : Nat := byteLength r.text

def remainingLength (r : Reader) : Nat := byteLength r.rest

/-- The reader of the same line at a byte offset, if that is a character boundary. -/
def seek? (r : Reader) (n : Nat) : Option Reader :=
  (splitAt? n r.text).map fun (a, b) => ⟨a.reverse, b⟩

def canRead (r : Reader) : Bool := !r.rest.isEmpty

def canReadMany (r : Reader) (n : Nat) : Bool := n ≤ r.rest.length

def peek? (r : Reader) : Option Char := r.rest.head?

def peekAt? (r : Reader) (n : Nat) : Option Char := r.rest[n]?

def peekToken (r : Reader) : String := String.ofList (token r.rest)

/-! ### Moving -/

def pass (r : Reader) (n : Nat) : Reader :=
  ⟨(r.rest.take n).reverse ++ r.passed, r.rest.drop n⟩

def passAll (r : Reader) : Reader := r.pass r.rest.length

def takeWhile (p : Char → Bool) (r : Reader) : List Char × Reader :=
  let found := r.rest.takeWhile p
  (found, r.pass found.length)

def skipBlank (r : Reader) : Reader := (r.takeWhile isBlank).2

@[simp] theorem text_pass (r : Reader) (n : Nat) : (r.pass n).text = r.text := by
  simp [text, pass]

@[simp] theorem text_skipBlank (r : Reader) : r.skipBlank.text = r.text := text_pass ..

theorem cursor_pass (r : Reader) (n : Nat) :
    (r.pass n).cursor = r.cursor + byteLength (r.rest.take n) := by
  simp [cursor, pass, Nat.add_comm]

theorem line_ofString (s : String) : (ofString s).line = s := String.ofList_toList

theorem cursor_eq (r : Reader) : r.cursor = byteLength r.passed.reverse :=
  (byteLength_reverse _).symm

theorem cursor_add_remainingLength (r : Reader) :
    r.cursor + r.remainingLength = r.totalLength := by
  simp [cursor, remainingLength, totalLength, text]

theorem rest_takeWhile (p : Char → Bool) (r : Reader) :
    (r.takeWhile p).2.rest = r.rest.dropWhile p := by
  obtain ⟨passed, rest⟩ := r
  simp only [takeWhile, pass]
  induction rest with
  | nil => rfl
  | cons c cs ih => by_cases h : p c = true <;> simp_all

theorem rest_skipBlank (r : Reader) : r.skipBlank.rest = trimFront r.rest := rest_takeWhile ..

theorem rest_pass (r : Reader) (n : Nat) : (r.pass n).rest = r.rest.drop n := rfl

theorem pass_pass (r : Reader) (a b : Nat) : (r.pass a).pass b = r.pass (a + b) := by
  simp [pass, List.take_add]

theorem skipBlank_eq_pass (r : Reader) :
    r.skipBlank = r.pass (r.rest.takeWhile isBlank).length := rfl

theorem canRead_iff {r : Reader} : r.canRead = true ↔ r.rest ≠ [] := by
  simp [canRead]

theorem not_canRead_iff {r : Reader} : ¬r.canRead = true ↔ r.rest = [] := by
  simp [canRead]

def AtInk (r : Reader) : Prop := ∃ c cs, r.rest = c :: cs ∧ isBlank c = false

theorem AtInk.rest_ne_nil {r : Reader} (h : r.AtInk) : r.rest ≠ [] := by
  obtain ⟨c, cs, hr, -⟩ := h
  simp [hr]

theorem AtInk.not_endsToken {r : Reader} (h : r.AtInk) : ¬endsToken r.rest = true := by
  obtain ⟨c, cs, hr, hc⟩ := h
  simp [hr, endsToken, hc]

theorem skipBlank_cases (r : Reader) : r.skipBlank.rest = [] ∨ r.skipBlank.AtInk := by
  unfold AtInk
  rw [rest_skipBlank]
  unfold trimFront
  induction r.rest with
  | nil => exact Or.inl rfl
  | cons c cs ih =>
    by_cases hc : isBlank c = true
    · simpa [hc] using ih
    · exact Or.inr ⟨c, cs, by simp [hc], by simpa using hc⟩

theorem text_seek? {r s : Reader} {n : Nat} (h : r.seek? n = some s) :
    s.text = r.text ∧ s.cursor = n := by
  obtain ⟨⟨a, b⟩, hs, rfl⟩ := Option.map_eq_some_iff.1 h
  obtain ⟨hab, hn⟩ := append_of_splitAt? hs
  exact ⟨by simp [text, hab], by simp [cursor, hn]⟩

end Reader

end CommandConsole
