import CommandConsole.Proofs.Failures
import CommandConsole.Proofs.Offsets

/-!
# Runs of a reader

A string may be read in any order of operations, some of which fail, with going back in between to a
cursor that was seen before. The offset is moved by the widths of characters and set back by hand,
and yet it is at a character boundary after every operation, so that no operation asks for a slice
that does not exist. An operation ends where it started or further on, also where it fails; only
going to a cursor moves the cursor back.
-/

namespace CommandConsole

open Text OffsetScan

/-! ### Operations -/

/-- What can be done with a reader, besides looking at its string, its cursor and their lengths. -/
inductive ReaderOp : Type 1 where
  | remainingLength
  | readSoFar
  | remaining
  | canReadMany (n : Nat)
  | peek
  | peekAt (n : Nat)
  | peekToken
  | setCursor (cursor : Nat)
  | read
  | skip
  | expect (c : Char)
  | skipWhitespace
  /-- Passing characters under a condition, which may look at the reader and keep a state. -/
  | readWhile {σ : Type} (allows : σ → StringReader → Char → Bool × σ) (state : σ)
  | readNumberToken (allowDecimal : Bool)
  | readInt
  | readLong
  | readFloat
  | readDouble
  | readUnquotedString
  | readQuotedString
  | readString
  | readStringUntil (terminator : Char)
  | readBoolean

/-- The reader that an operation leaves, with a value or with an error. -/
def OffsetScan.left? {α : Type} (x : OffsetScan α) (r : StringReader) : Option StringReader :=
  (x.start r).map (·.2)

/-- The reader behind an operation; none if the program stops. -/
def ReaderOp.run? (r : StringReader) : ReaderOp → Option StringReader
  | remainingLength => (look (·.remainingLength?)).left? r
  | readSoFar => (look (·.readSoFar?)).left? r
  | remaining => (look (·.remaining?)).left? r
  | canReadMany n => (look (·.canReadMany? n)).left? r
  | peek => (look (·.peek?)).left? r
  | peekAt n => (look (·.peekAt? n)).left? r
  | peekToken => (look (·.peekToken?)).left? r
  | setCursor cursor => (OffsetScan.setCursor cursor).left? r
  | read => OffsetScan.read.left? r
  | skip => OffsetScan.skip.left? r
  | expect c => (OffsetScan.expect c).left? r
  | skipWhitespace => OffsetScan.skipWhitespace.left? r
  | readWhile allows state =>
    (OffsetScan.readWhile (fun state r c => some (allows state r c)) state).left? r
  | readNumberToken allowDecimal => (OffsetScan.readNumberToken allowDecimal).left? r
  | readInt => OffsetScan.readInt.left? r
  | readLong => OffsetScan.readLong.left? r
  | readFloat => OffsetScan.readFloat.left? r
  | readDouble => OffsetScan.readDouble.left? r
  | readUnquotedString => OffsetScan.readUnquotedString.left? r
  | readQuotedString => OffsetScan.readQuotedString.left? r
  | readString => OffsetScan.readString.left? r
  | readStringUntil terminator => (OffsetScan.readStringUntil terminator).left? r
  | readBoolean => OffsetScan.readBoolean.left? r

/-- Whether an operation goes nowhere but to a cursor that was seen before. -/
def ReaderOp.StaysWithin (seen : List Nat) (op : ReaderOp) : Prop :=
  ∀ n, op = setCursor n → n ∈ seen

/-! ### Operations pass characters -/

namespace Scan

variable {α : Type} {r : Reader}

/-- Whether a scan leaves a reader behind some more characters, or none. -/
def Passes (r : Reader) (x : Scan α) : Prop := ∃ n, (start x r).2 = r.pass n

theorem stayingAhead_at (r : Reader) : (stayingAhead r).At r r := ⟨rfl, 0, by simp [Reader.pass]⟩

theorem passes_expect (c : Char) : Passes r (expect c) := by
  unfold Passes expect
  rw [start_get_bind]
  split
  · exact ⟨1, rfl⟩
  · exact ⟨0, by simp [Reader.pass]; rfl⟩

theorem passes_quotedString : Passes r quotedString := by
  have hat := stayingAhead_at r
  unfold Passes quotedString
  rw [start_get_bind]
  cases hpeek : r.peek? with
  | none => exact ((stayingAhead r).pure hat "").1
  | some c =>
    dsimp only
    split
    · have hopened := (stayingAhead r).pass hat (Reader.one_le_of_peek? hpeek)
      exact ((stayingAhead r).bind hopened fun _ _ _ hs => (stayingAhead r).stringUntil hs c).1
    · exact ((stayingAhead r).fail hat (by nofun)).1

end Scan

namespace OffsetScan

variable {α σ : Type} {x : OffsetScan α} {y : Scan α}

theorem left?_look {view : StringReader → Option α} {r : StringReader} {v : α}
    (h : view r = some v) : (look view).left? r = some r := by
  show ((view r).map fun v => (Except.ok v, r)).map (·.2) = some r
  rw [h]
  rfl

theorem Refines.left?_eq {r : Reader} {b b' : StringReader} (h : Refines r.line x y)
    (hb : r.bytewise = b) (hb' : (Scan.start y r).2.bytewise = b') : x.left? b = some b' := by
  rw [← hb, ← hb', left?, (h r rfl).2]
  rfl

theorem Refines.exists_left?_eq {r : Reader} (h : Refines r.line x y) (hy : y.Passes r) :
    ∃ n, x.left? r.bytewise = some (r.pass n).bytewise := by
  obtain ⟨n, hn⟩ := hy
  exact ⟨n, h.left?_eq rfl (congrArg Reader.bytewise hn)⟩

theorem exists_left?_readWhile (allows : σ → StringReader → Char → Bool × σ) (state : σ)
    (r : Reader) : ∃ n, (readWhile (fun state r c => some (allows state r c)) state).left?
      r.bytewise = some (r.pass n).bytewise := by
  obtain ⟨n, hn⟩ := @Reader.exists_passWhile?_eq σ (fun state r c => some (allows state r c))
    (fun _ _ _ => rfl) state r
  refine ⟨n, ?_⟩
  show ((r.bytewise.passWhile? _ state).bind _).map _ = _
  rw [hn]
  show ((between? r.cursor (r.pass n).cursor (r.pass n).line).bind _).map _ = _
  rw [Reader.between?_pass]
  rfl

theorem exists_left?_readNumber (read? : List Char → Option α) {expected : Fault}
    {invalid : String → Fault} (hexpected : expected ≠ .unknownCommand)
    (hinvalid : ∀ s, invalid s ≠ .unknownCommand) (r : Reader) :
    ∃ n, (readNumber read? expected invalid).left? r.bytewise = some (r.pass n).bytewise := by
  have hrefines : Refines r.line _ _ := refines_readNumber read? expected invalid
  exact hrefines.exists_left?_eq
    ((stayingAhead r).number (Scan.stayingAhead_at r) hexpected hinvalid).1

theorem left?_setCursor {r : StringReader} {n : Nat} (hn : CutsAt r.string n) :
    (setCursor n).left? r = some { r with cursor := n } := by
  obtain ⟨parts, hparts⟩ := Option.isSome_iff_exists.1 (cutsAt_iff.1 hn)
  unfold setCursor left?
  rw [start_bind]
  show (((splitAt? n r.string.toList).map fun v => (Except.ok v, r)).bind _).map _ = _
  rw [hparts]
  rfl

end OffsetScan

theorem ReaderOp.exists_run?_eq {op : ReaderOp} (h : ∀ n, op ≠ .setCursor n) (r : Reader) :
    ∃ n, op.run? r.bytewise = some (r.pass n).bytewise := by
  have hat := Scan.stayingAhead_at r
  have hlook {α : Type} {view : StringReader → Option α} {v : α}
      (hview : view r.bytewise = some v) :
      ∃ n, (look view).left? r.bytewise = some (r.pass n).bytewise :=
    ⟨0, by rw [left?_look hview]; simp [Reader.pass]⟩
  cases op with
  | remainingLength => exact hlook r.remainingLength?_bytewise
  | readSoFar => exact hlook r.readSoFar?_bytewise
  | remaining => exact hlook r.remaining?_bytewise
  | canReadMany n => exact hlook (r.canReadMany?_bytewise n)
  | peek => exact hlook r.peek?_bytewise
  | peekAt n => exact hlook (r.peekAt?_bytewise n)
  | peekToken => exact hlook r.peekToken?_bytewise
  | setCursor cursor => exact absurd rfl (h cursor)
  | read => exact refines_read.exists_left?_eq ⟨1, rfl⟩
  | skip => exact refines_skip.exists_left?_eq ⟨1, rfl⟩
  | expect c => exact (refines_expect c).exists_left?_eq (Scan.passes_expect c)
  | skipWhitespace => exact refines_skipWhitespace.exists_left?_eq ⟨_, rfl⟩
  | readWhile allows state => exact exists_left?_readWhile allows state r
  | readNumberToken allowDecimal =>
    exact (refines_readNumberToken allowDecimal).exists_left?_eq ⟨_, rfl⟩
  | readInt => exact exists_left?_readNumber int32? (by simp) (by simp) r
  | readLong => exact exists_left?_readNumber int64? (by simp) (by simp) r
  | readFloat => exact exists_left?_readNumber Decimal.single? (by simp) (by simp) r
  | readDouble => exact exists_left?_readNumber Decimal.double? (by simp) (by simp) r
  | readUnquotedString => exact refines_readUnquotedString.exists_left?_eq ⟨_, rfl⟩
  | readQuotedString => exact refines_readQuotedString.exists_left?_eq Scan.passes_quotedString
  | readString =>
    exact refines_readString.exists_left?_eq ((stayingAhead r).string hat).1
  | readStringUntil terminator =>
    exact (refines_readStringUntil terminator).exists_left?_eq
      ((stayingAhead r).stringUntil hat terminator).1
  | readBoolean => exact refines_readBoolean.exists_left?_eq ((stayingAhead r).boolean hat).1

/-! ### Runs -/

/-- The readers that operations on a string come to, each with the cursors that were seen on the way
there, the last one first. -/
inductive StringReader.Comes (line : String) : StringReader → List Nat → Prop
  | start : Comes line (.new line) [0]
  | step {r r' : StringReader} {seen : List Nat} (op : ReaderOp) : Comes line r seen →
      op.StaysWithin seen → op.run? r = some r' → Comes line r' (r'.cursor :: seen)

namespace StringReader

variable {line : String} {r r' : StringReader} {seen : List Nat}

/-- Whether a reader reads a string, and its cursor and all that were seen are character
boundaries. -/
structure Keeps (line : String) (r : StringReader) (seen : List Nat) : Prop where
  string : r.string = line
  cursor : CutsAt line r.cursor
  seen : ∀ n ∈ seen, CutsAt line n

theorem keeps_new (line : String) : Keeps line (.new line) [0] where
  string := rfl
  cursor := cutsAt_zero line
  seen n hn := by
    rw [List.mem_singleton.1 hn]
    exact cutsAt_zero line

/-- Going to a cursor that was seen leads there, and every other operation leads on from where it
starts; none stops the program. -/
theorem Keeps.run? (h : Keeps line r seen) {op : ReaderOp} (hop : op.StaysWithin seen) :
    ∃ r', op.run? r = some r' ∧ r'.string = line ∧ CutsAt line r'.cursor ∧
      (∀ n, op = .setCursor n → r'.cursor = n) ∧
      ((∀ n, op ≠ .setCursor n) → r.cursor ≤ r'.cursor) := by
  obtain ⟨string, cursor⟩ := r
  obtain rfl : string = line := h.string
  by_cases hgo : ∃ n, op = .setCursor n
  · obtain ⟨n, rfl⟩ := hgo
    have hn := h.seen n (hop n rfl)
    exact ⟨⟨string, n⟩, left?_setCursor hn, rfl, hn, fun m hm => ReaderOp.setCursor.inj hm,
      fun hno => absurd rfl (hno n)⟩
  · have hno : ∀ n, op ≠ .setCursor n := fun n hn => hgo ⟨n, hn⟩
    obtain ⟨s, hs⟩ := Reader.exists_bytewise_eq (b := ⟨string, cursor⟩) h.cursor
    obtain ⟨n, hn⟩ := ReaderOp.exists_run?_eq hno s
    obtain ⟨hline, hcursor⟩ := StringReader.mk.inj hs
    rw [hs] at hn
    refine ⟨_, hn, (s.line_pass n).trans hline, ?_, fun m hm => absurd hm (hno m), fun _ => ?_⟩
    · rw [← hline, ← s.line_pass n]
      exact cutsAt_cursor (by rw [Reader.line, String.toList_ofList])
    · rw [← hcursor]
      exact s.cursor_le_pass n

theorem Keeps.step (h : Keeps line r seen) {op : ReaderOp} (hop : op.StaysWithin seen)
    (hrun : op.run? r = some r') : Keeps line r' (r'.cursor :: seen) := by
  obtain ⟨s, hs, hstring, hcursor, -⟩ := h.run? hop
  obtain rfl : s = r' := Option.some.inj (hs.symm.trans hrun)
  exact ⟨hstring, hcursor, List.forall_mem_cons.2 ⟨hcursor, h.seen⟩⟩

theorem Comes.keeps (h : Comes line r seen) : Keeps line r seen := by
  induction h with
  | start => exact keeps_new line
  | step op _ hop hrun ih => exact ih.step hop hrun

/-- However a string is read, the cursor is at a boundary of two characters inside it, what was read
and what remains make up the string, and the string is the one that reading began with. From there
every operation can be carried out: going to a cursor that was seen leads there, and no other
operation leaves the cursor in front of where it started. -/
theorem Comes.cursor_within (h : Comes line r seen) :
    CutsAt line r.cursor ∧ r.cursor ≤ bytes line ∧ r.string = line ∧
      (∃ front back, r.readSoFar? = some front ∧ r.remaining? = some back ∧ front ++ back = line) ∧
      ∀ op : ReaderOp, op.StaysWithin seen → ∃ r', op.run? r = some r' ∧
        (∀ n, op = .setCursor n → r'.cursor = n) ∧
        ((∀ n, op ≠ .setCursor n) → r.cursor ≤ r'.cursor) := by
  have hkeeps := h.keeps
  obtain ⟨string, cursor⟩ := r
  obtain rfl : string = line := hkeeps.string
  obtain ⟨s, hs⟩ := Reader.exists_bytewise_eq (b := ⟨string, cursor⟩) hkeeps.cursor
  have hline : s.line = string := (StringReader.mk.inj hs).1
  refine ⟨hkeeps.cursor, hkeeps.cursor.le, rfl, ⟨s.readSoFar, s.remaining, ?_, ?_, ?_⟩,
    fun op hop => ?_⟩
  · rw [← hs, s.readSoFar?_bytewise]
  · rw [← hs, s.remaining?_bytewise]
  · rw [← hline, Reader.line, Reader.text, String.ofList_append]
    rfl
  · obtain ⟨r', hrun, -, -, hcursor⟩ := hkeeps.run? hop
    exact ⟨r', hrun, hcursor⟩

/-- A word, the blank behind it, a quoted string that fails inside, and back to where it started. -/
theorem Comes.cursor_within_escape :
    let line := "a 'é\\x'"
    let failed : StringReader := ⟨line, 6⟩
    let r : StringReader := ⟨line, 2⟩
    ReaderOp.readString.run? r = some failed ∧ Comes line r [2, 6, 2, 1, 0] ∧
      CutsAt line r.cursor ∧ r.cursor ≤ bytes line ∧ r.string = line ∧
      (∃ front back, r.readSoFar? = some front ∧ r.remaining? = some back ∧ front ++ back = line) ∧
      ∀ op : ReaderOp, op.StaysWithin [2, 6, 2, 1, 0] → ∃ r', op.run? r = some r' ∧
        (∀ n, op = .setCursor n → r'.cursor = n) ∧
        ((∀ n, op ≠ .setCursor n) → r.cursor ≤ r'.cursor) := by
  intro line failed r
  have hword : ReaderOp.readUnquotedString.run? (.new line) = some ⟨line, 1⟩ :=
    refines_readUnquotedString.left?_eq (r := .ofString line) (by decide +kernel)
      (by decide +kernel)
  have hblank : ReaderOp.skipWhitespace.run? ⟨line, 1⟩ = some r :=
    refines_skipWhitespace.left?_eq (r := ⟨['a'], [' ', '\'', 'é', '\\', 'x', '\'']⟩)
      (by decide +kernel) (by decide +kernel)
  have hfailed : ReaderOp.readString.run? r = some failed :=
    refines_readString.left?_eq (r := ⟨[' ', 'a'], ['\'', 'é', '\\', 'x', '\'']⟩)
      (by decide +kernel) (by decide +kernel)
  have hback : (ReaderOp.setCursor 2).run? failed = some r :=
    left?_setCursor (r := failed) (by decide +kernel)
  have hcomes : Comes line r [2, 6, 2, 1, 0] := by
    refine .step (.setCursor 2) (.step .readString (.step .skipWhitespace
      (.step .readUnquotedString .start (by nofun) hword) (by nofun) hblank) (by nofun) hfailed)
      ?_ hback
    rintro n ⟨⟩
    decide
  exact ⟨hfailed, hcomes, hcomes.cursor_within⟩

end StringReader

end CommandConsole
