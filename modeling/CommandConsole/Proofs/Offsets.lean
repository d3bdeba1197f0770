import CommandConsole.Line.StringReader
import CommandConsole.Proofs.Gathering
import CommandConsole.Proofs.Reading

/-!
# Readers and byte offsets

A reader that holds the characters on both sides of its cursor is a string with a byte offset at a
character boundary. What a scan does with the one, an operation by offsets does with the other: it
never asks for a slice that does not exist, and comes to the same value or error at the same place.
-/

namespace CommandConsole

open Text

/-! ### A reader as a string with an offset -/

namespace Reader

/-- The line of a reader with the number of bytes in front of the cursor. -/
def bytewise (r : Reader) : StringReader := ⟨r.line, r.cursor⟩

theorem splitAt?_cursor (r : Reader) :
    splitAt? r.cursor r.line.toList = some (r.passed.reverse, r.rest) := by
  rw [line, String.toList_ofList, text, cursor_eq, splitAt?_append]

theorem exists_bytewise_eq {b : StringReader} (h : CutsAt b.string b.cursor) :
    ∃ r : Reader, r.bytewise = b := by
  obtain ⟨string, cursor⟩ := b
  obtain ⟨front, back, hline, hcursor⟩ := h
  refine ⟨⟨front.reverse, back⟩, ?_⟩
  have htext : (⟨front.reverse, back⟩ : Reader).text = string.toList := by
    rw [hline, text, List.reverse_reverse]
  rw [bytewise, line, htext, String.ofList_toList]
  simp only [Reader.cursor, byteLength_reverse, hcursor]

@[simp] theorem line_pass (r : Reader) (n : Nat) : (r.pass n).line = r.line := by
  rw [line, text_pass, line]

@[simp] theorem remaining?_bytewise (r : Reader) : r.bytewise.remaining? = some r.remaining := by
  simp only [StringReader.remaining?, back?, bytewise, splitAt?_cursor]
  rfl

@[simp] theorem readSoFar?_bytewise (r : Reader) : r.bytewise.readSoFar? = some r.readSoFar := by
  simp only [StringReader.readSoFar?, front?, bytewise, splitAt?_cursor]
  rfl

theorem totalLength_bytewise (r : Reader) : r.bytewise.totalLength = r.totalLength := by
  rw [StringReader.totalLength, bytewise, bytes, line, String.toList_ofList]
  rfl

@[simp] theorem remainingLength?_bytewise (r : Reader) :
    r.bytewise.remainingLength? = some r.remainingLength := by
  have hlength := r.cursor_add_remainingLength
  unfold StringReader.remainingLength?
  rw [totalLength_bytewise, ← hlength]
  simp [bytewise]

@[simp] theorem canReadMany?_bytewise (r : Reader) (n : Nat) :
    r.bytewise.canReadMany? n = some (r.canReadMany n) := by
  unfold StringReader.canReadMany? canReadMany
  rw [remaining?_bytewise]
  cases n with
  | zero => simp
  | succ n =>
    simp only [Nat.add_one_ne_zero, if_false, Option.map_some, remaining, String.toList_ofList,
      Nat.add_sub_cancel]
    refine congrArg some (Bool.eq_iff_iff.2 ?_)
    rw [decide_eq_true_eq, ← Nat.lt_iff_add_one_le]
    exact Iff.of_eq (isSome_getElem? r.rest n)

@[simp] theorem peek?_bytewise (r : Reader) : r.bytewise.peek? = some r.peek? := by
  rw [StringReader.peek?, remaining?_bytewise, Option.map_some, remaining, String.toList_ofList]
  rfl

@[simp] theorem peekAt?_bytewise (r : Reader) (n : Nat) :
    r.bytewise.peekAt? n = some (r.peekAt? n) := by
  rw [StringReader.peekAt?, remaining?_bytewise, Option.map_some, remaining, String.toList_ofList]
  rfl

@[simp] theorem peekToken?_bytewise (r : Reader) : r.bytewise.peekToken? = some r.peekToken := by
  rw [StringReader.peekToken?, remaining?_bytewise, Option.map_some, remaining,
    String.toList_ofList]
  rfl

@[simp] theorem pinned_bytewise (r : Reader) (f : Fault) : r.bytewise.pinned f = f.pinned r := rfl

/-! ### Passing by the width of a character -/

variable {c : Char} {passed cs : List Char}

theorem advance_bytewise (c : Char) (passed cs : List Char) :
    (bytewise ⟨passed, c :: cs⟩).advance c = bytewise ⟨c :: passed, cs⟩ := by
  have hline : line ⟨c :: passed, cs⟩ = line ⟨passed, c :: cs⟩ := by simp [line, text]
  simp only [StringReader.advance, bytewise, hline, StringReader.mk.injEq, true_and]
  simp only [cursor, byteLength]
  omega

theorem goBack?_bytewise (c : Char) (passed cs : List Char) :
    (bytewise ⟨c :: passed, cs⟩).goBack? c = some (bytewise ⟨passed, c :: cs⟩) := by
  have hline : line ⟨c :: passed, cs⟩ = line ⟨passed, c :: cs⟩ := by simp [line, text]
  have hcursor : cursor ⟨c :: passed, cs⟩ = c.utf8Size + cursor ⟨passed, c :: cs⟩ := rfl
  rw [StringReader.goBack?, bytewise, hcursor, if_pos (Nat.le_add_right _ _), bytewise, hline,
    Nat.add_sub_cancel_left]

theorem between?_pass (r : Reader) (n : Nat) :
    between? r.cursor (r.pass n).cursor (r.pass n).line = some (String.ofList (r.rest.take n)) := by
  have htext : (r.pass n).line.toList = r.passed.reverse ++ r.rest.take n ++ r.rest.drop n := by
    rw [line_pass, line, String.toList_ofList, text, List.append_assoc, List.take_append_drop]
  have hstop : (r.pass n).cursor = byteLength (r.passed.reverse ++ r.rest.take n) := by
    rw [cursor_pass, byteLength_append, byteLength_reverse]
    rfl
  unfold between?
  rw [htext, hstop, cursor_eq, slice?_append]
  rfl

section

variable {σ : Type} {allows : σ → StringReader → Char → Option (Bool × σ)}

theorem passWhile?_nil (state : σ) (passed : List Char) :
    (bytewise ⟨passed, []⟩).passWhile? allows state = some (bytewise ⟨passed, []⟩) := by
  unfold StringReader.passWhile?
  split <;> simp_all [peek?]

theorem passWhile?_cons (state : σ) (c : Char) (passed cs : List Char) :
    (bytewise ⟨passed, c :: cs⟩).passWhile? allows state =
      (allows state (bytewise ⟨passed, c :: cs⟩) c).bind fun (goesOn, next) =>
        if goesOn then (bytewise ⟨c :: passed, cs⟩).passWhile? allows next
        else some (bytewise ⟨passed, c :: cs⟩) := by
  rw [StringReader.passWhile?]
  split
  · simp_all
  · simp_all [peek?]
  · next d hpeek =>
    obtain rfl : c = d := by simpa [peek?] using hpeek
    rw [advance_bytewise]
    split <;> simp_all

/-- A condition that looks at the reader without stopping the program lets some characters pass. -/
theorem exists_passWhile?_eq
    (hallows : ∀ state (r : Reader) c, (allows state r.bytewise c).isSome = true) (state : σ)
    (r : Reader) : ∃ n, r.bytewise.passWhile? allows state = some (r.pass n).bytewise := by
  obtain ⟨passed, rest⟩ := r
  induction rest generalizing passed state with
  | nil => exact ⟨0, passWhile?_nil state passed⟩
  | cons c cs ih =>
    rw [passWhile?_cons]
    obtain ⟨⟨goesOn, next⟩, hnext⟩ := Option.isSome_iff_exists.1 (hallows state ⟨passed, c :: cs⟩ c)
    rw [hnext]
    cases goesOn with
    | false => exact ⟨0, rfl⟩
    | true =>
      obtain ⟨n, hn⟩ := ih next (c :: passed)
      exact ⟨n + 1, by simpa [pass] using hn⟩

theorem passWhile?_takeWhile (p : Char → Bool) (r : Reader) :
    r.bytewise.passWhile? (fun _ _ c => some (p c, ())) () =
      some (r.pass (r.rest.takeWhile p).length).bytewise := by
  obtain ⟨passed, rest⟩ := r
  induction rest generalizing passed with
  | nil => exact passWhile?_nil () passed
  | cons c cs ih =>
    rw [passWhile?_cons]
    by_cases hc : p c = true
    · simpa [hc, pass] using ih (c :: passed)
    · simp [hc, pass]

end

theorem passWhile?_numberToken (allowDecimal seenDot : Bool) (r : Reader) :
    r.bytewise.passWhile? (OffsetScan.goesOnNumber allowDecimal) seenDot =
      some (r.pass (numberToken (allowDecimal && !seenDot) r.rest).length).bytewise := by
  obtain ⟨passed, rest⟩ := r
  induction rest generalizing passed seenDot with
  | nil => exact passWhile?_nil seenDot passed
  | cons c cs ih =>
    have hnext : peekAt? ⟨passed, c :: cs⟩ 1 = cs.head? := by
      simp [peekAt?, List.head?_eq_getElem?]
    rw [passWhile?_cons, OffsetScan.goesOnNumber, peekAt?_bytewise, hnext, numberToken]
    by_cases hdigit : (c.isDigit || c == '-') = true
    · rw [if_pos hdigit, if_pos hdigit]
      simpa [pass] using ih seenDot (c :: passed)
    · rw [if_neg hdigit, if_neg hdigit]
      by_cases hpoint : (c == '.' && (allowDecimal && !seenDot)) = true
      · rw [Bool.and_assoc, hpoint, if_pos rfl, Option.map_some, Bool.true_and]
        by_cases hhead : (cs.head? != some '.') = true
        · rw [if_pos hhead, if_pos hhead]
          simpa [pass] using ih true (c :: passed)
        · rw [if_neg hhead, if_neg hhead]
          simp [pass]
      · rw [Bool.and_assoc, Bool.eq_false_iff.2 hpoint]
        simp [pass]

/-! ### Quoted strings -/

theorem stringUntil?_nil (quote : Char) (found : String) (escaped : Bool) (passed : List Char) :
    (bytewise ⟨passed, []⟩).stringUntil? quote found escaped =
      some (.error (Fault.expectedEndOfQuote.pinned ⟨passed, []⟩), bytewise ⟨passed, []⟩) := by
  unfold StringReader.stringUntil?
  split <;> simp_all [peek?]

theorem stringUntil?_cons (quote : Char) (found : String) (escaped : Bool) (c : Char)
    (passed cs : List Char) :
    (bytewise ⟨passed, c :: cs⟩).stringUntil? quote found escaped =
      if escaped then
        if c == quote || c == '\\' then
          (bytewise ⟨c :: passed, cs⟩).stringUntil? quote (found.push c) false
        else some (.error ((Fault.invalidEscape c).pinned ⟨passed, c :: cs⟩),
          bytewise ⟨passed, c :: cs⟩)
      else if c == '\\' then (bytewise ⟨c :: passed, cs⟩).stringUntil? quote found true
      else if c == quote then some (.ok found, bytewise ⟨c :: passed, cs⟩)
      else (bytewise ⟨c :: passed, cs⟩).stringUntil? quote (found.push c) false := by
  rw [StringReader.stringUntil?]
  split
  · simp_all
  · simp_all [peek?]
  · next d hpeek =>
    obtain rfl : c = d := by simpa [peek?] using hpeek
    rw [advance_bytewise, goBack?_bytewise, Option.map_some, pinned_bytewise]

end Reader

/-- What reading a quoted string comes to, behind what was found of it before. -/
def Quoted.outcome (found : String) (r : Reader) : Quoted → Except LineError String × Reader
  | closed value passed => (.ok (found ++ String.ofList value), r.pass passed)
  | badEscape c passed => Scan.failedAt (.invalidEscape c) (r.pass passed)
  | unclosed => Scan.failedAt .expectedEndOfQuote r.passAll

theorem Quoted.outcome_push (found : String) {r : Reader} (c : Char) {n : Nat} (q : Quoted)
    (hn : n ≤ r.rest.length) :
    (q.push c n).outcome found r = q.outcome (found.push c) (r.pass n) := by
  cases q with
  | closed value passed =>
    have hfound : found ++ String.ofList (c :: value) = found.push c ++ String.ofList value := by
      rw [← String.toList_inj]
      simp
    simp only [push, outcome, hfound, Reader.pass_pass, Nat.add_comm]
  | badEscape d passed => simp only [push, outcome, Reader.pass_pass, Nat.add_comm]
  | unclosed =>
    have hall : (r.pass n).passAll = r.passAll := by
      rw [Reader.passAll, Reader.pass_pass, Reader.rest_pass, List.length_drop,
        Nat.add_sub_cancel' hn]
      rfl
    simp only [push, outcome, hall]

theorem Quoted.start_stringUntil_eq (quote : Char) (r : Reader) :
    Scan.start (Scan.stringUntil quote) r = (unquote quote r.rest).outcome "" r := by
  rw [Scan.start_stringUntil]
  cases unquote quote r.rest with
  | closed value n => simp only [Quoted.outcome, String.empty_append]
  | badEscape c n => rfl
  | unclosed => rfl

theorem Reader.stringUntil?_bytewise (quote : Char) (found : String) (r : Reader) :
    r.bytewise.stringUntil? quote found false =
      some (((unquote quote r.rest).outcome found r).map id bytewise) := by
  obtain ⟨passed, rest⟩ := r
  show _ = some (((unquote quote rest).outcome found ⟨passed, rest⟩).map id bytewise)
  fun_induction unquote quote rest generalizing passed found with
  | case1 => exact stringUntil?_nil quote found false passed
  | case2 =>
    rw [stringUntil?_cons, if_neg Bool.false_ne_true, if_pos (beq_self_eq_true _), stringUntil?_nil]
    rfl
  | case3 d cs hd ih =>
    rw [stringUntil?_cons, if_neg Bool.false_ne_true, if_pos (beq_self_eq_true _),
      stringUntil?_cons, if_pos rfl, if_pos hd,
      Quoted.outcome_push found d _ (Nat.le_add_left 2 cs.length)]
    exact ih (found.push d) (d :: '\\' :: passed)
  | case4 d cs hd =>
    rw [stringUntil?_cons, if_neg Bool.false_ne_true, if_pos (beq_self_eq_true _),
      stringUntil?_cons, if_pos rfl, if_neg hd]
    rfl
  | case5 d cs hnil hcons hd =>
    have hne : (d == '\\') = false := beq_false_of_ne (Scan.ne_backslash hnil hcons)
    rw [stringUntil?_cons, if_neg Bool.false_ne_true, hne, if_neg Bool.false_ne_true, if_pos hd]
    simp [Quoted.outcome, pass]
  | case6 d cs hnil hcons hd ih =>
    have hne : (d == '\\') = false := beq_false_of_ne (Scan.ne_backslash hnil hcons)
    rw [stringUntil?_cons, if_neg Bool.false_ne_true, hne, if_neg Bool.false_ne_true, if_neg hd,
      Quoted.outcome_push found d _ (Nat.le_add_left 1 cs.length)]
    exact ih (found.push d) (d :: passed)

/-! ### Operations and scans -/

namespace OffsetScan

variable {α β γ : Type} {line : String}

theorem start_bind (x : OffsetScan α) (f : α → OffsetScan β) (b : StringReader) :
    start (x >>= f) b =
      (start x b).bind fun (result, behind) =>
        match result with
        | .ok v => start (f v) behind
        | .error e => some (.error e, behind) := by
  show (start x b).bind (fun (a, behind) => start (ExceptT.mk (ExceptT.bindCont f a)) behind) = _
  refine congrArg (start x b).bind (funext fun (a, behind) => ?_)
  cases a <;> rfl

/-- Whether an operation comes to what a scan does, in a line that the scan stays in. -/
def Refines (line : String) (x : OffsetScan α) (y : Scan α) : Prop :=
  ∀ r : Reader, r.line = line → (Scan.start y r).2.line = line ∧
    x.start r.bytewise = some ((Scan.start y r).map id Reader.bytewise)

theorem refines_pure (v : α) : Refines line (pure v) (pure v) := fun _ hr => ⟨hr, rfl⟩

theorem Refines.bind_map {x : OffsetScan β} {y : Scan α} {form : α → β}
    {f : β → OffsetScan γ} {g : α → Scan γ} (hx : Refines line x (form <$> y))
    (hf : ∀ v, Refines line (f (form v)) (g v)) : Refines line (x >>= f) (y >>= g) := by
  intro r hr
  have hxr := hx r hr
  rw [map_eq_pure_bind, Scan.start_bind] at hxr
  rw [start_bind, Scan.start_bind]
  cases hy : Scan.start y r with
  | mk result behind =>
    rw [hy] at hxr
    cases result with
    | ok v =>
      rw [hxr.2]
      exact hf v behind hxr.1
    | error e =>
      rw [hxr.2]
      exact ⟨hxr.1, rfl⟩

theorem Refines.bind {x : OffsetScan α} {y : Scan α} {f : α → OffsetScan β} {g : α → Scan β}
    (hx : Refines line x y) (hf : ∀ v, Refines line (f v) (g v)) :
    Refines line (x >>= f) (y >>= g) := by
  rw [← id_map y] at hx
  exact hx.bind_map hf

theorem refines_look {view : StringReader → Option β} {seen : Reader → β}
    (hview : ∀ r : Reader, view r.bytewise = some (seen r)) {f : β → OffsetScan α}
    {g : Reader → Scan α} (hf : ∀ r : Reader, Refines line (f (seen r)) (g r)) :
    Refines line (look view >>= f) (get >>= g) := by
  intro r hr
  rw [start_bind, Scan.start_get_bind]
  show _ ∧ ((view r.bytewise).map fun v => (Except.ok v, r.bytewise)).bind _ = _
  rw [hview]
  exact hf r r hr

theorem refines_get {f : StringReader → OffsetScan α} {g : Reader → Scan α}
    (hf : ∀ r : Reader, r.line = line → Refines line (f r.bytewise) (g r)) :
    Refines line (get >>= f) (get >>= g) :=
  fun r hr => hf r hr r hr

theorem refines_fail (f : Fault) : Refines line (fail f : OffsetScan α) (Scan.fail f) :=
  fun _ hr => ⟨hr, rfl⟩

theorem refines_failBack {start : Reader} (hstart : start.line = line) (f : Fault) :
    Refines line (do goTo start.bytewise.cursor; fail f : OffsetScan α)
      (Scan.failBack start f) := by
  intro r hr
  refine ⟨hstart, ?_⟩
  have hback : { r.bytewise with cursor := start.cursor } = start.bytewise := by
    rw [Reader.bytewise, Reader.bytewise, hr, hstart]
  show some (Except.error (StringReader.pinned { r.bytewise with cursor := start.cursor } f),
    { r.bytewise with cursor := start.cursor }) = _
  rw [hback]
  rfl

/-! ### One operation after the other -/

theorem refines_read : Refines line read Scan.next? := by
  intro r hr
  refine ⟨(r.line_pass 1).trans hr, ?_⟩
  obtain ⟨passed, rest⟩ := r
  show ((Reader.bytewise ⟨passed, rest⟩).peek?.map fun v => (Except.ok v, _)).bind _ = _
  rw [Reader.peek?_bytewise]
  cases rest with
  | nil => rfl
  | cons c cs =>
    show some (Except.ok (some c), (Reader.bytewise ⟨passed, c :: cs⟩).advance c) = _
    rw [Reader.advance_bytewise]
    rfl

theorem refines_skip : Refines line skip (Scan.pass 1) := by
  intro r hr
  refine ⟨(r.line_pass 1).trans hr, ?_⟩
  unfold skip
  rw [start_bind, (refines_read r hr).2]
  rfl

theorem refines_expect (c : Char) : Refines line (expect c) (Scan.expect c) := by
  refine refines_look Reader.peek?_bytewise fun r => ?_
  split
  · exact refines_skip
  · exact refines_fail _

theorem refines_readWhile {σ : Type} {allows : σ → StringReader → Char → Option (Bool × σ)}
    {state : σ} {find : List Char → List Char} (hfront : ∀ cs, find cs <+: cs)
    (hfind : ∀ r : Reader, r.bytewise.passWhile? allows state =
      some (r.pass (find r.rest).length).bytewise) :
    Refines line (readWhile allows state) (String.ofList <$> Scan.take find) := by
  intro r hr
  refine ⟨(r.line_pass _).trans hr, ?_⟩
  show (r.bytewise.passWhile? allows state).bind _ = _
  rw [hfind]
  show (between? r.cursor (r.pass (find r.rest).length).cursor _).bind _ = _
  rw [Reader.bytewise, Reader.between?_pass, ← List.prefix_iff_eq_take.1 (hfront r.rest)]
  rfl

theorem refines_skipWhitespace : Refines line skipWhitespace Scan.skipBlank := by
  intro r hr
  refine ⟨(r.line_pass _).trans hr, ?_⟩
  show (r.bytewise.passWhile? _ ()).map _ = _
  rw [Reader.passWhile?_takeWhile]
  rfl

theorem refines_readNumberToken (allowDecimal : Bool) :
    Refines line (readNumberToken allowDecimal)
      (String.ofList <$> Scan.numberToken allowDecimal) := by
  refine refines_readWhile (fun cs => ?_) fun r => ?_
  · obtain ⟨tail, htail⟩ := exists_numberToken_append allowDecimal cs
    exact ⟨tail, htail⟩
  · rw [Reader.passWhile?_numberToken, Bool.not_false, Bool.and_true]

theorem refines_readNumber (read? : List Char → Option α) (expected : Fault)
    (invalid : String → Fault) :
    Refines line (readNumber read? expected invalid) (Scan.number read? expected invalid) := by
  refine refines_get fun r hr => (refines_readNumberToken true).bind_map fun found => ?_
  rw [String.toList_ofList]
  split
  · exact refines_fail _
  · cases read? found with
    | some v => exact refines_pure v
    | none => exact refines_failBack hr _

theorem refines_readUnquotedString : Refines line readUnquotedString Scan.word :=
  refines_readWhile (fun _ => List.takeWhile_prefix _) (Reader.passWhile?_takeWhile isWordChar)

theorem refines_readStringUntil (quote : Char) :
    Refines line (readStringUntil quote) (Scan.stringUntil quote) := by
  intro r hr
  rw [Quoted.start_stringUntil_eq]
  refine ⟨?_, r.stringUntil?_bytewise quote ""⟩
  cases unquote quote r.rest <;> exact (r.line_pass _).trans hr

theorem refines_readQuotedString : Refines line readQuotedString Scan.quotedString := by
  refine refines_look Reader.peek?_bytewise fun r => ?_
  cases r.peek? with
  | none => exact refines_pure ""
  | some c =>
    dsimp only
    split
    · exact refines_skip.bind fun _ => refines_readStringUntil _
    · exact refines_fail _

theorem refines_readString : Refines line readString Scan.string := by
  refine refines_look Reader.peek?_bytewise fun r => ?_
  cases r.peek? with
  | none => exact refines_pure ""
  | some c =>
    dsimp only
    split
    · exact refines_skip.bind fun _ => refines_readStringUntil _
    · exact refines_readUnquotedString

theorem refines_readBoolean : Refines line readBoolean Scan.boolean := by
  refine refines_get fun r hr => refines_readString.bind fun value => ?_
  split
  · exact refines_fail _
  · split
    · exact refines_pure _
    · split
      · exact refines_pure _
      · exact refines_failBack hr _

end OffsetScan

end CommandConsole
