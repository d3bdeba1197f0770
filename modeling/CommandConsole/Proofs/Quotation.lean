import CommandConsole.Proofs.Reading
import Mathlib.Data.List.TakeWhile

/-!
# Quoted strings

A text is written as a quoted string by a quote on either side and a backslash in front of every
quote and backslash in it. Reading accepts exactly what is written so. All else that starts with a
quote fails at the first character with a backslash that it must not have, or at the end of the
line.
-/

namespace CommandConsole

open Text

variable {quote : Char}

/-! ### Writing -/

/-- A character with a backslash in front, if it needs one between quotes. -/
def escapeChar (quote c : Char) : List Char := if c == quote || c == '\\' then ['\\', c] else [c]

def escape (quote : Char) (value : List Char) : List Char := value.flatMap (escapeChar quote)

def quoted (quote : Char) (value : List Char) : List Char :=
  quote :: (escape quote value ++ [quote])

theorem quoted_append (quote : Char) (value back : List Char) :
    quoted quote value ++ back = quote :: (escape quote value ++ quote :: back) := by
  simp [quoted]

theorem escape_cons (quote c : Char) (value : List Char) :
    escape quote (c :: value) = escapeChar quote c ++ escape quote value := rfl

theorem escapeChar_cases (quote c : Char) :
    escapeChar quote c = ['\\', c] ∧ (c = quote ∨ c = '\\') ∨
      escapeChar quote c = [c] ∧ c ≠ quote ∧ c ≠ '\\' := by
  unfold escapeChar
  split
  · next h => exact Or.inl ⟨rfl, by simpa using h⟩
  · next h => exact Or.inr ⟨rfl, by simpa using h⟩

/-! ### Reading what is written -/

/-- A quoted string with more of its value in front, written with a number of characters. -/
def Quoted.prepend (front : List Char) (written : Nat) : Quoted → Quoted
  | closed value passed => closed (front ++ value) (passed + written)
  | badEscape found passed => badEscape found (passed + written)
  | unclosed => unclosed

theorem push_prepend (q : Quoted) (c : Char) (front : List Char) (m n : Nat) :
    (q.prepend front m).push c n = q.prepend (c :: front) (m + n) := by
  cases q <;> simp [Quoted.prepend, Quoted.push, Nat.add_assoc]

/-- What is written for a text is read as the text, whatever stands behind it. -/
theorem unquote_escape_append (value tail : List Char) :
    unquote quote (escape quote value ++ tail) =
      (unquote quote tail).prepend value (escape quote value).length := by
  induction value with
  | nil => cases h : unquote quote tail <;> simp [escape, Quoted.prepend, h]
  | cons c value ih =>
    rw [escape_cons, List.append_assoc]
    rcases escapeChar_cases quote c with ⟨heq, hc⟩ | ⟨heq, hquote, hslash⟩ <;> rw [heq]
    · rw [List.cons_append, List.singleton_append, unquote, if_pos (by simpa using hc), ih,
        push_prepend]
      simp
    · rw [List.singleton_append, Scan.unquote_cons quote hslash, if_neg (by simpa using hquote),
        ih,
        push_prepend]
      simp

/-- What reading stops at: the quote, a backslash in front of a character that must not have one,
or the end of the line, perhaps with a last backslash in front. -/
inductive Stops (quote : Char) : List Char → Prop
  | quote (back : List Char) : Stops quote (quote :: back)
  | wrong {c : Char} (behind : List Char) : c ≠ quote → c ≠ '\\' → Stops quote ('\\' :: c :: behind)
  | nil : Stops quote []
  | backslash : Stops quote ['\\']

/-- Every text starts with what is written for some other, up to where reading stops. -/
theorem exists_escape_append (quote : Char) (cs : List Char) :
    ∃ value tail, cs = escape quote value ++ tail ∧ Stops quote tail := by
  fun_induction unquote quote cs with
  | case1 => exact ⟨[], [], rfl, .nil⟩
  | case2 => exact ⟨[], ['\\'], rfl, .backslash⟩
  | case3 d cs hd ih =>
    obtain ⟨value, tail, rfl, hstops⟩ := ih
    refine ⟨d :: value, tail, ?_, hstops⟩
    rw [escape_cons, escapeChar, if_pos hd]
    rfl
  | case4 d cs hd =>
    obtain ⟨hquote, hslash⟩ : d ≠ quote ∧ d ≠ '\\' := by simpa using hd
    exact ⟨[], _, rfl, .wrong cs hquote hslash⟩
  | case5 c cs hnil hcons hc =>
    rw [beq_iff_eq.1 hc]
    exact ⟨[], _, rfl, .quote cs⟩
  | case6 c cs hnil hcons hc ih =>
    obtain ⟨value, tail, rfl, hstops⟩ := ih
    have hslash : c ≠ '\\' := Scan.ne_backslash hnil hcons
    refine ⟨c :: value, tail, ?_, hstops⟩
    rw [escape_cons, escapeChar, if_neg (by simpa [hslash] using hc)]
    rfl

/-! ### Characters that must not be escaped -/

/-- Whether the character behind a text is escaped: an odd number of backslashes ends the text. -/
def Escapes (before : List Char) : Prop := (before.reverse.takeWhile (· == '\\')).length % 2 = 1

instance (before : List Char) : Decidable (Escapes before) :=
  inferInstanceAs (Decidable (_ = _))

/-- Whether a character behind a text is escaped though it must not be. -/
def WronglyEscaped (quote : Char) (before : List Char) (c : Char) : Prop :=
  Escapes before ∧ c ≠ quote ∧ c ≠ '\\'

/-- Whether a text is cut at the first character that is wrongly escaped. -/
structure FirstWrong (quote : Char) (cs before : List Char) (c : Char) (behind : List Char) :
    Prop where
  cut : cs = before ++ c :: behind
  wrong : WronglyEscaped quote before c
  first : ∀ before' c' behind', cs = before' ++ c' :: behind' → WronglyEscaped quote before' c' →
    before.length ≤ before'.length

theorem escapes_cons {c : Char} (hc : c ≠ '\\') (before : List Char) :
    Escapes (c :: before) ↔ Escapes before := by
  unfold Escapes
  rw [List.reverse_cons, List.takeWhile_append]
  split
  · next h => simp [hc, h]
  · rfl

theorem escapes_cons_cons (c : Char) (before : List Char) :
    Escapes ('\\' :: c :: before) ↔ Escapes before := by
  by_cases hc : c = '\\'
  · subst hc
    unfold Escapes
    rw [List.reverse_cons, List.reverse_cons, List.append_assoc, List.takeWhile_append]
    split
    · next h => simp [h, Nat.add_mod_right]
    · rfl
  · rw [← escapes_cons hc before]
    unfold Escapes
    rw [List.reverse_cons, List.takeWhile_append, if_neg]
    intro h
    have hall := (List.takeWhile_prefix (· == '\\')).eq_of_length h
    exact hc (by simpa using List.takeWhile_eq_self_iff.1 hall c (by simp))

theorem escapes_escape_append (value before : List Char) :
    Escapes (escape quote value ++ before) ↔ Escapes before := by
  induction value with
  | nil => rfl
  | cons c value ih =>
    rw [escape_cons, List.append_assoc]
    rcases escapeChar_cases quote c with ⟨heq, -⟩ | ⟨heq, -, hslash⟩ <;> rw [heq]
    · exact (escapes_cons_cons c _).trans ih
    · exact (escapes_cons hslash _).trans ih

theorem not_escapes_escape (value : List Char) : ¬Escapes (escape quote value) := by
  rw [← List.append_nil (escape quote value), escapes_escape_append]
  decide

theorem length_escape_le {value tail before behind : List Char} {c : Char}
    (hcut : escape quote value ++ tail = before ++ c :: behind)
    (hwrong : WronglyEscaped quote before c) : (escape quote value).length ≤ before.length := by
  have hempty : ¬Escapes [] := by decide
  obtain ⟨hescapes, hquote, hslash⟩ := hwrong
  induction value generalizing before with
  | nil => exact Nat.zero_le _
  | cons d value ih =>
    rw [escape_cons, List.append_assoc] at hcut
    rw [escape_cons, List.length_append]
    cases before with
    | nil => exact absurd hescapes hempty
    | cons e before =>
      rcases escapeChar_cases quote d with ⟨heq, hd⟩ | ⟨heq, -, hd⟩ <;> rw [heq] at hcut ⊢ <;>
        simp only [List.cons_append, List.nil_append, List.cons.injEq] at hcut <;>
        obtain ⟨rfl, hcut⟩ := hcut
      · cases before with
        | nil =>
          obtain ⟨rfl, -⟩ := List.cons.inj hcut
          exact (hd.elim hquote hslash).elim
        | cons e before =>
          obtain ⟨rfl, hrest⟩ := List.cons.inj hcut
          have hle := ih hrest ((escapes_cons_cons d before).1 hescapes)
          simp only [List.length_cons, List.length_nil]
          omega
      · have hle := ih hcut ((escapes_cons hd before).1 hescapes)
        simp only [List.length_cons, List.length_nil]
        omega

/-- A backslash where reading stops escapes the character behind it, which is the first to be
wrongly escaped. -/
theorem firstWrong_escape (value behind : List Char) {c : Char} (hquote : c ≠ quote)
    (hslash : c ≠ '\\') :
    FirstWrong quote (escape quote value ++ '\\' :: c :: behind) (escape quote value ++ ['\\']) c
      behind := by
  refine ⟨by simp, ⟨(escapes_escape_append _ _).2 (by decide), hquote, hslash⟩,
    fun before c' behind' hcut hwrong => ?_⟩
  have hle := length_escape_le hcut hwrong
  rw [List.length_append, List.length_singleton]
  refine Nat.lt_of_le_of_ne hle fun hlength => ?_
  -- the backslash itself is not escaped, as an even number of backslashes stands in front of it
  obtain ⟨rfl, -⟩ := List.append_inj hcut hlength
  exact not_escapes_escape value hwrong.1

theorem not_wronglyEscaped_escape {value tail before behind : List Char} {c : Char}
    (htail : tail = [] ∨ tail = ['\\'])
    (hcut : escape quote value ++ tail = before ++ c :: behind) :
    ¬WronglyEscaped quote before c := by
  intro hwrong
  have hle := length_escape_le hcut hwrong
  have hlength := congrArg List.length hcut
  simp only [List.length_append, List.length_cons] at hlength
  rcases htail with rfl | rfl
  · simp only [List.length_nil] at hlength
    omega
  · simp only [List.length_singleton] at hlength
    obtain ⟨rfl, -⟩ := List.append_inj hcut (by omega)
    exact not_escapes_escape value hwrong.1

/-! ### Reading at the cursor -/

namespace Scan

variable {read : Scan String}

theorem pass_append (passed front back : List Char) :
    (⟨passed, front ++ back⟩ : Reader).pass front.length = ⟨front.reverse ++ passed, back⟩ := by
  simp [Reader.pass]

theorem passAll_eq (passed rest : List Char) :
    (⟨passed, rest⟩ : Reader).passAll = ⟨rest.reverse ++ passed, []⟩ := by
  simp [Reader.passAll, Reader.pass]

theorem ne_backslash_of_isQuote (hquote : isQuote quote = true) : quote ≠ '\\' := by
  rintro rfl
  cases hquote

section Quotes

variable (hquote : isQuote quote = true) (hread : read = quotedString ∨ read = string)

include hquote hread

theorem start_at_quote (passed rest : List Char) :
    start read ⟨passed, quote :: rest⟩ = start (stringUntil quote) ⟨quote :: passed, rest⟩ := by
  rcases hread with rfl | rfl
  · unfold quotedString
    rw [start_get_bind]
    simp only [Reader.peek?, List.head?_cons, hquote, if_true]
    rfl
  · unfold string
    rw [start_get_bind]
    simp only [Reader.peek?, List.head?_cons, hquote, if_true]
    rfl

theorem start_quoted (value back passed : List Char) :
    start read ⟨passed, quoted quote value ++ back⟩ =
      (.ok (String.ofList value), ⟨(quoted quote value).reverse ++ passed, back⟩) := by
  rw [quoted_append, start_at_quote hquote hread, start_stringUntil]
  simp only
  rw [unquote_escape_append, unquote_cons quote (ne_backslash_of_isQuote hquote),
    if_pos (beq_self_eq_true quote)]
  have hpass := pass_append (quote :: passed) (escape quote value ++ [quote]) back
  simp only [List.append_assoc, List.singleton_append, List.length_append,
    List.length_singleton] at hpass
  simp only [Quoted.prepend, List.append_nil, Nat.add_comm 1, hpass]
  simp [quoted]

theorem start_wrong (value behind passed : List Char) {c : Char} (hc : c ≠ quote)
    (hslash : c ≠ '\\') :
    start read ⟨passed, quote :: (escape quote value ++ '\\' :: c :: behind)⟩ =
      failedAt (.invalidEscape c)
        ⟨(escape quote value ++ ['\\']).reverse ++ quote :: passed, c :: behind⟩ := by
  rw [start_at_quote hquote hread, start_stringUntil]
  simp only
  rw [unquote_escape_append, unquote, if_neg (by simp [hc, hslash])]
  have hpass := pass_append (quote :: passed) (escape quote value ++ ['\\']) (c :: behind)
  simp only [List.append_assoc, List.singleton_append, List.length_append,
    List.length_singleton] at hpass
  simp only [Quoted.prepend, Nat.add_comm 1, hpass]

theorem start_unclosed (value passed : List Char) {tail : List Char}
    (htail : tail = [] ∨ tail = ['\\']) :
    start read ⟨passed, quote :: (escape quote value ++ tail)⟩ =
      failedAt .expectedEndOfQuote
        ⟨(escape quote value ++ tail).reverse ++ quote :: passed, []⟩ := by
  have hunclosed : unquote quote (escape quote value ++ tail) = .unclosed := by
    rw [unquote_escape_append]
    rcases htail with rfl | rfl <;> simp [unquote, Quoted.prepend]
  rw [start_at_quote hquote hread, start_stringUntil]
  simp only
  rw [hunclosed, passAll_eq]

theorem start_at_quote_cases (cs passed : List Char) :
    (∃ value back, quote :: cs = quoted quote value ++ back) ∨
    (∃ before c behind, FirstWrong quote cs before c behind ∧
      start read ⟨passed, quote :: cs⟩ =
        failedAt (.invalidEscape c) ⟨before.reverse ++ quote :: passed, c :: behind⟩) ∨
    (∀ before c behind, cs = before ++ c :: behind → ¬WronglyEscaped quote before c) ∧
      start read ⟨passed, quote :: cs⟩ =
        failedAt .expectedEndOfQuote ⟨cs.reverse ++ quote :: passed, []⟩ := by
  obtain ⟨value, tail, rfl, hstops⟩ := exists_escape_append quote cs
  cases hstops with
  | quote back => exact Or.inl ⟨value, back, (quoted_append ..).symm⟩
  | @wrong c behind hc hslash =>
    exact Or.inr (Or.inl ⟨_, c, behind, firstWrong_escape value behind hc hslash,
      start_wrong hquote hread value behind passed hc hslash⟩)
  | nil =>
    exact Or.inr (Or.inr ⟨fun before c behind => not_wronglyEscaped_escape (Or.inl rfl),
      start_unclosed hquote hread value passed (Or.inl rfl)⟩)
  | backslash =>
    exact Or.inr (Or.inr ⟨fun before c behind => not_wronglyEscaped_escape (Or.inr rfl),
      start_unclosed hquote hread value passed (Or.inr rfl)⟩)

end Quotes

/-! ### Quoted strings and what they are read from -/

/-- Reading a quoted string gives the text that it was written for and stops behind it; whatever is
read as a quoted string was written so; and all else that starts with a quote fails, at the first
character that is wrongly escaped, or at the end of the line if there is none. -/
theorem quotedString_reads_quoted :
    (∀ quote, isQuote quote = true → ∀ read, read = quotedString ∨ read = string →
      ∀ value back passed, start read ⟨passed, quoted quote value ++ back⟩ =
        (.ok (String.ofList value), ⟨(quoted quote value).reverse ++ passed, back⟩)) ∧
    (∀ r after v, r.rest ≠ [] → start quotedString r = (.ok v, after) →
      ∃ quote, isQuote quote = true ∧ r.rest = quoted quote v.toList ++ after.rest ∧
        after.passed = (quoted quote v.toList).reverse ++ r.passed) ∧
    ∀ quote, isQuote quote = true → ∀ read, read = quotedString ∨ read = string →
      ∀ cs passed, (∀ value back, quote :: cs ≠ quoted quote value ++ back) →
        (∃ before c behind, FirstWrong quote cs before c behind ∧
          start read ⟨passed, quote :: cs⟩ =
            failedAt (.invalidEscape c) ⟨before.reverse ++ quote :: passed, c :: behind⟩) ∨
        (∀ before c behind, cs = before ++ c :: behind → ¬WronglyEscaped quote before c) ∧
          start read ⟨passed, quote :: cs⟩ =
            failedAt .expectedEndOfQuote ⟨cs.reverse ++ quote :: passed, []⟩ := by
  refine ⟨fun quote hquote read hread => start_quoted hquote hread, fun r after v hrest h => ?_,
    fun quote hquote read hread cs passed hno => ?_⟩
  · obtain ⟨passed, rest⟩ := r
    obtain ⟨quote, cs, rfl⟩ := List.exists_cons_of_ne_nil hrest
    cases hquote : isQuote quote with
    | false =>
      unfold quotedString at h
      rw [start_get_bind] at h
      simp only [Reader.peek?, List.head?_cons, hquote] at h
      cases h
    | true =>
      rcases start_at_quote_cases hquote (Or.inl rfl) cs passed with
        ⟨value, back, heq⟩ | ⟨_, _, _, -, hfails⟩ | ⟨-, hfails⟩
      · rw [heq, start_quoted hquote (Or.inl rfl)] at h
        obtain ⟨hv, rfl⟩ := Prod.mk.inj h
        obtain rfl := Except.ok.inj hv
        rw [String.toList_ofList]
        exact ⟨quote, hquote, heq, rfl⟩
      · rw [hfails] at h
        cases h
      · rw [hfails] at h
        cases h
  · refine (start_at_quote_cases hquote hread cs passed).resolve_left ?_
    rintro ⟨value, back, heq⟩
    exact hno value back heq

/-- A backslash and a quote between quotes are read back, and a backslash in front of a letter is
where reading fails. -/
theorem quotedString_reads_quoted_slash :
    quoted '"' ['\\', 'a', '"'] = ['"', '\\', '\\', 'a', '\\', '"', '"'] ∧
      start string ⟨[], quoted '"' ['\\', 'a', '"'] ++ [' ', 'b']⟩ =
        (.ok (String.ofList ['\\', 'a', '"']),
          ⟨(quoted '"' ['\\', 'a', '"']).reverse, [' ', 'b']⟩) ∧
      (∀ value back, ['"', 'a', '\\', 'n', '"'] ≠ quoted '"' value ++ back) ∧
      ∃ before c behind, FirstWrong '"' ['a', '\\', 'n', '"'] before c behind ∧
        start quotedString ⟨[], ['"', 'a', '\\', 'n', '"']⟩ =
          failedAt (.invalidEscape c) ⟨before.reverse ++ ['"'], c :: behind⟩ := by
  obtain ⟨hread, -, hfail⟩ := quotedString_reads_quoted
  have hno : ∀ value back, ['"', 'a', '\\', 'n', '"'] ≠ quoted '"' value ++ back := by
    intro value back heq
    have hok := hread '"' rfl quotedString (Or.inl rfl) value back []
    rw [← heq] at hok
    cases hok
  refine ⟨rfl, hread '"' rfl string (Or.inr rfl) _ _ [], hno, ?_⟩
  refine (hfail '"' rfl quotedString (Or.inl rfl) _ [] hno).resolve_right ?_
  rintro ⟨hright, -⟩
  exact hright ['a', '\\'] 'n' ['"'] rfl ⟨by decide, by decide, by decide⟩

end Scan

end CommandConsole
