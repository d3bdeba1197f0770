import CommandConsole.Proofs.Interchange
import CommandConsole.Proofs.Transport

/-!
# Lines behind a front

What is matched from an offset of a line on does not depend on what stands in front of the offset.
Matching there comes to what matching the rest alone comes to, with every offset greater by the
length of the front; so blanks in front of a line change nothing but offsets.
-/

namespace CommandConsole

open Text

variable {L : Language}

/-- Behind a front: the same nodes, and offsets, readers and places with the front before them. -/
def Transport.behind (front : String) : Transport where
  node id := id
  offset i := bytes front + i
  reader r := ⟨r.passed ++ front.toList.reverse, r.rest⟩
  error e := { e with place := e.place.map fun p => ⟨front ++ p.line, bytes front + p.cursor⟩ }

variable {front : String}

theorem Reader.Beyond.eq_behind {r r' : Reader} (h : Reader.Beyond [] front.toList r r') :
    r' = (Transport.behind front).reader r := by
  obtain ⟨passed', rest'⟩ := r'
  obtain ⟨between, hr, hr'⟩ := h.passed
  obtain rfl : rest' = r.rest := h.rest
  rw [List.reverse_nil, List.append_nil] at hr
  subst hr
  exact congrArg (Reader.mk · r.rest) hr'

theorem Reader.line_behind (r : Reader) :
    ((Transport.behind front).reader r).line = front ++ r.line := by
  apply String.toList_inj.1
  simp [Transport.behind, line, text]

theorem Reader.cursor_behind (r : Reader) :
    ((Transport.behind front).reader r).cursor = bytes front + r.cursor := by
  simp [Transport.behind, cursor, bytes, Nat.add_comm]

theorem LineError.Beyond.eq_behind {e e' : LineError} (h : LineError.Beyond [] front.toList e e') :
    e' = (Transport.behind front).error e := by
  cases h with
  | unplaced f => rfl
  | @pinned f r r' hr =>
    rw [hr.eq_behind]
    unfold Fault.pinned
    rw [Reader.line_behind, Reader.cursor_behind]
    rfl

theorem Alignment.carriedBy_behind (hL : L.LooksAhead) (front : String) :
    (Alignment.beyond hL [] front.toList).CarriedBy (.behind front) where
  node h := Eq.symm h
  offset := by
    rintro i i' ⟨k, rfl, rfl⟩
    simp [Transport.behind, byteLength, bytes]
  reader h := Reader.Beyond.eq_behind h
  error h := LineError.Beyond.eq_behind h

namespace CommandTree

theorem parseFrom_of_skipBlank (t : CommandTree L) {r s : Reader} (h : r.skipBlank = s.skipBlank)
    (source : L.Source) : t.parseFrom r source = t.parseFrom s source := by
  unfold parseFrom
  rw [h]

theorem skipBlank_front (hfront : ∀ c ∈ front.toList, isBlank c = true) (line : String) :
    (Reader.ofString (front ++ line)).skipBlank =
      (⟨front.toList.reverse, line.toList⟩ : Reader).skipBlank := by
  unfold Reader.skipBlank Reader.takeWhile Reader.ofString Reader.pass
  simp [List.takeWhile_append_of_pos hfront, List.take_length_add_append,
    List.drop_length_add_append]

theorem outcomes_behind (hL : L.LooksAhead) (t : CommandTree L) (source : L.Source)
    (front line : String) :
    (Alignment.beyond hL [] front.toList).Outcomes (Alignment.plain _)
      (t.parse line source).outcome
      (t.parseFrom ⟨front.toList.reverse, line.toList⟩ source).outcome := by
  let A := Alignment.beyond hL [] front.toList
  have htrees : A.Trees t t := Alignment.trees_beyond t
  have hreader : A.reader (Reader.ofString line) ⟨front.toList.reverse, line.toList⟩ :=
    ⟨⟨[], rfl, rfl⟩, rfl⟩
  have hskip := Alignment.skipBlank hreader
  apply Alignment.follow htrees _ htrees.twins rfl _ hskip (Nat.lt_succ_self _)
  exact Alignment.Contexts.startAt rfl (A.cursor hskip) .inherited

/-- Matching a line from the end of a front on comes to what matching the rest alone comes to,
behind the front: the same nodes, values, options, commands and redirects, and the same failures,
with every offset greater by the length of the front. Types of arguments read what is ahead of the
cursor; one that looks back would see the front. -/
theorem parseFrom_behind (hL : L.LooksAhead) (t : CommandTree L) (source : L.Source)
    (front line : String) :
    ∃ r, (Reader.ofString (front ++ line)).seek? (bytes front) = some r ∧
      let p := t.parse line source
      let p' := t.parseFrom r source
      p' = p.carry (.behind front) ∧ p'.isComplete = p.isComplete ∧
        p'.chain.last.command = p.chain.last.command ∧
        p'.failure = (Transport.behind front).error p.failure ∧
        ((∀ c ∈ front.toList, isBlank c = true) → t.parse (front ++ line) source = p') := by
  have hseek : (Reader.ofString (front ++ line)).seek? (bytes front) =
      some ⟨front.toList.reverse, line.toList⟩ := by
    have htext : (Reader.ofString (front ++ line)).text = front.toList ++ line.toList := by
      simp [Reader.ofString, Reader.text]
    unfold Reader.seek?
    rw [htext, bytes, splitAt?_append]
    rfl
  have hA := Alignment.carriedBy_behind hL front
  have houtcomes := outcomes_behind hL t source front line
  refine ⟨_, hseek, ?_, houtcomes.isComplete_eq, houtcomes.chain.last_command,
    hA.error houtcomes.failure, fun hfront => ?_⟩
  · exact congrArg (Parsed.mk source) (houtcomes.eq_carry hA)
  · exact t.parseFrom_of_skipBlank (skipBlank_front hfront line) source

theorem parseFrom_behind_console :
    console.LooksAhead ∧ (∀ c ∈ " \t ".toList, isBlank c = true) ∧
      ∃ r, (Reader.ofString (" \t " ++ "ban Steve 7..3")).seek? (bytes " \t ") = some r ∧
        let p := commandTree.parse "ban Steve 7..3" (.console "Server")
        let p' := commandTree.parseFrom r (.console "Server")
        p' = p.carry (.behind " \t ") ∧ p'.isComplete = p.isComplete ∧
          p'.chain.last.command = p.chain.last.command ∧
          p'.failure = (Transport.behind " \t ").error p.failure ∧
          commandTree.parse (" \t " ++ "ban Steve 7..3") (.console "Server") = p' := by
  have hblank : ∀ c ∈ " \t ".toList, isBlank c = true := List.all_eq_true.1 (by decide)
  obtain ⟨r, hr, hcarry, hcomplete, hcommand, hfailure, hsame⟩ :=
    parseFrom_behind console_looksAhead commandTree (.console "Server") " \t " "ban Steve 7..3"
  exact ⟨console_looksAhead, hblank, r, hr, hcarry, hcomplete, hcommand, hfailure, hsame hblank⟩

end CommandTree

end CommandConsole
