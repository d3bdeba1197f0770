import CommandConsole.Argument.Builtin
import CommandConsole.Proofs.Ranges

/-!
# Whole numbers between limits

A number token is said by what it may consist of, and the one at a cursor is the longest of these:
the scanner takes it character by character. A whole number is read exactly if this token spells one
between the limits, the cursor then stands behind it, and a failure leaves the cursor alone. What is
said of one kind of whole numbers holds for all kinds that are read, compared and written as
integers are.
-/

namespace CommandConsole

open Text Decimal

/-! ### Number tokens -/

/-- Whether some characters in front of a tail are a number token: digits, minus signs and not too
many points, none of which has another point behind it. -/
structure IsNumberToken (points : Nat) (cs tail : List Char) : Prop where
  signs : ∀ c ∈ cs, isSigned c = true ∨ c = '.'
  few : cs.count '.' ≤ points
  single : ∀ front back, cs = front ++ '.' :: back → (back ++ tail).head? ≠ some '.'

/-- Whether some characters in front of a tail are the longest number token there, with one point at
most. -/
structure IsLongestToken (cs tail : List Char) : Prop where
  token : IsNumberToken 1 cs tail
  longest : ∀ cs' tail', cs' ++ tail' = cs ++ tail → IsNumberToken 1 cs' tail' →
    cs'.length ≤ cs.length

/-- Whether a text does not go on with a number: with neither a digit nor a minus sign nor a single
point. -/
structure EndsNumber (tail : List Char) : Prop where
  unsigned : ∀ c ∈ tail.head?, isSigned c = false
  points : tail.head? = some '.' → tail.tail.head? = some '.'

section Tokens

variable {points : Nat} {c : Char} {cs tail : List Char}

theorem isNumberToken_nil (points : Nat) (tail : List Char) : IsNumberToken points [] tail where
  signs c hc := by cases hc
  few := Nat.zero_le _
  single front back h := by simp at h

theorem ne_point_of_isSigned (hc : isSigned c = true) : c ≠ '.' := by
  rintro rfl
  cases hc

theorem isNumberToken_cons_signed (hc : isSigned c = true) :
    IsNumberToken points (c :: cs) tail ↔ IsNumberToken points cs tail := by
  have hne : c ≠ '.' := ne_point_of_isSigned hc
  constructor
  · intro h
    refine ⟨fun d hd => h.signs d (List.mem_cons_of_mem _ hd), ?_, fun front back hsplit => ?_⟩
    · simpa [List.count_cons_of_ne hne] using h.few
    · exact h.single (c :: front) back (by rw [hsplit, List.cons_append])
  · intro h
    refine ⟨List.forall_mem_cons.2 ⟨Or.inl hc, h.signs⟩, ?_, fun front back hsplit => ?_⟩
    · simpa [List.count_cons_of_ne hne] using h.few
    · cases front with
      | nil => exact absurd (List.cons.inj hsplit).1 hne
      | cons d front => exact h.single front back (List.cons.inj hsplit).2

theorem isNumberToken_cons_point :
    IsNumberToken points ('.' :: cs) tail ↔
      ∃ fewer, points = fewer + 1 ∧ (cs ++ tail).head? ≠ some '.' ∧
        IsNumberToken fewer cs tail := by
  constructor
  · intro h
    have hfew : cs.count '.' + 1 ≤ points := by simpa using h.few
    refine ⟨points - 1, by omega, h.single [] cs rfl, ?_, by omega, fun front back hsplit => ?_⟩
    · exact fun d hd => h.signs d (List.mem_cons_of_mem _ hd)
    · exact h.single ('.' :: front) back (by rw [hsplit, List.cons_append])
  · rintro ⟨fewer, rfl, hhead, h⟩
    refine ⟨List.forall_mem_cons.2 ⟨Or.inr rfl, h.signs⟩, ?_, fun front back hsplit => ?_⟩
    · simpa using h.few
    · cases front with
      | nil =>
        obtain rfl := (List.cons.inj hsplit).2
        exact hhead
      | cons d front => exact h.single front back (List.cons.inj hsplit).2

theorem numberToken_cons_signed (hc : isSigned c = true) (point : Bool) :
    numberToken point (c :: cs) = c :: numberToken point cs :=
  if_pos hc

theorem isNumberToken_numberToken (point : Bool) (text : List Char) :
    ∃ tail, numberToken point text ++ tail = text ∧
      IsNumberToken point.toNat (numberToken point text) tail := by
  fun_induction numberToken point text with
  | case1 point => exact ⟨[], rfl, isNumberToken_nil _ _⟩
  | case2 point c cs hc ih =>
    obtain ⟨tail, htext, htoken⟩ := ih
    exact ⟨tail, by rw [List.cons_append, htext], (isNumberToken_cons_signed hc).2 htoken⟩
  | case3 point c cs _ hc ih =>
    obtain ⟨tail, htext, htoken⟩ := ih
    simp only [Bool.and_eq_true, beq_iff_eq, bne_iff_ne] at hc
    obtain ⟨⟨rfl, rfl⟩, hhead⟩ := hc
    refine ⟨tail, by rw [List.cons_append, htext], isNumberToken_cons_point.2 ⟨0, rfl, ?_, htoken⟩⟩
    rwa [htext]
  | case4 point c cs => exact ⟨c :: cs, rfl, isNumberToken_nil _ _⟩

theorem IsNumberToken.length_le (point : Bool) (h : IsNumberToken point.toNat cs tail) :
    cs.length ≤ (numberToken point (cs ++ tail)).length := by
  induction cs generalizing point with
  | nil => exact Nat.zero_le _
  | cons c cs ih =>
    rcases h.signs c List.mem_cons_self with hc | rfl
    · rw [List.cons_append, numberToken_cons_signed hc]
      exact Nat.succ_le_succ (ih point ((isNumberToken_cons_signed hc).1 h))
    · obtain ⟨fewer, hfewer, hhead, h⟩ := isNumberToken_cons_point.1 h
      cases point with
      | false => cases hfewer
      | true =>
        obtain rfl : 0 = fewer := Nat.succ.inj hfewer
        have htake : numberToken true ('.' :: (cs ++ tail)) =
            '.' :: numberToken false (cs ++ tail) := by
          rw [numberToken, if_neg (by decide), if_pos (by simpa using hhead)]
        rw [List.cons_append, htake]
        exact Nat.succ_le_succ (ih false h)

theorem isLongestToken_iff : IsLongestToken cs tail ↔ numberToken true (cs ++ tail) = cs := by
  obtain ⟨tail', htext, htoken⟩ := isNumberToken_numberToken true (cs ++ tail)
  constructor
  · intro h
    exact (List.append_inj htext
      (Nat.le_antisymm (h.longest _ _ htext htoken) (h.token.length_le true))).1
  · intro h
    rw [h] at htext htoken
    refine ⟨List.append_cancel_left htext ▸ htoken, fun cs' tail' hsame htoken' => ?_⟩
    have hle := htoken'.length_le true
    rwa [hsame, h] at hle

theorem numberToken_signed_append (h : ∀ c ∈ cs, isSigned c = true) (point : Bool) :
    numberToken point (cs ++ tail) = cs ++ numberToken point tail := by
  induction cs with
  | nil => rfl
  | cons c cs ih =>
    rw [List.cons_append, numberToken_cons_signed (h c List.mem_cons_self),
      ih fun d hd => h d (List.mem_cons_of_mem _ hd), List.cons_append]

theorem EndsNumber.numberToken_eq (h : EndsNumber tail) : numberToken true tail = [] := by
  cases tail with
  | nil => rfl
  | cons c tail =>
    have hc : ¬(c.isDigit || c == '-') = true := Bool.eq_false_iff.1 (h.unsigned c rfl)
    rw [numberToken, if_neg hc, if_neg]
    simp only [Bool.and_true, Bool.and_eq_true, beq_iff_eq, bne_iff_ne, not_and, not_not]
    rintro rfl
    exact h.points rfl

theorem isLongestToken_of_endsNumber (h : ∀ c ∈ cs, isSigned c = true) (htail : EndsNumber tail) :
    IsLongestToken cs tail := by
  rw [isLongestToken_iff, numberToken_signed_append h, htail.numberToken_eq, List.append_nil]

end Tokens

/-! ### Kinds of whole numbers -/

/-- The texts that stand for a whole number: digits behind an optional minus sign. -/
inductive SpellsWhole : List Char → Int → Prop
  | digits {ds : List Char} : ds ≠ [] → (∀ c ∈ ds, c.isDigit = true) →
      SpellsWhole ds (digitsValue ds)
  | negative {ds : List Char} : ds ≠ [] → (∀ c ∈ ds, c.isDigit = true) →
      SpellsWhole ('-' :: ds) (-(digitsValue ds : Int))

theorem spellsWhole_iff {cs : List Char} {i : Int} : SpellsWhole cs i ↔ whole? cs = some i := by
  rw [whole?_eq_some_iff]
  constructor
  · intro h
    cases h with
    | digits hne hall => exact Or.inr ⟨hne, hall, rfl⟩
    | negative hne hall => exact Or.inl ⟨_, rfl, hne, hall, rfl⟩
  · rintro (⟨ds, rfl, hne, hall, rfl⟩ | ⟨hne, hall, rfl⟩)
    · exact .negative hne hall
    · exact .digits hne hall

theorem SpellsWhole.ne_nil {cs : List Char} {i : Int} (h : SpellsWhole cs i) : cs ≠ [] := by
  cases h with
  | digits hne _ => exact hne
  | negative _ _ => exact List.cons_ne_nil _ _

theorem SpellsWhole.isSigned {cs : List Char} {i : Int} (h : SpellsWhole cs i) :
    ∀ c ∈ cs, isSigned c = true := by
  intro c hc
  cases h with
  | digits _ hall => simp [CommandConsole.isSigned, hall c hc]
  | negative _ hall =>
    rcases List.mem_cons.1 hc with rfl | hc
    · rfl
    · simp [CommandConsole.isSigned, hall c hc]

/-- What makes a kind of numbers whole: its numbers are read, compared and written as the integers
that they stand for. -/
structure IsWhole {α : Type} [Quantity α] (value : α → Int) : Prop where
  read : ∀ cs n, Quantity.read? cs = some n ↔ whole? cs = some (value n)
  lt : ∀ n m, Quantity.lt n m = true ↔ value n < value m
  text : ∀ n, Quantity.text n = ofInt (value n)

theorem int64?_eq_some_iff {cs : List Char} {v : Int64} :
    int64? cs = some v ↔ whole? cs = some v.toInt := by
  unfold int64?
  rw [Option.bind_eq_some_iff]
  constructor
  · rintro ⟨i, hi, h⟩
    rw [Option.ite_none_right_eq_some, Option.some.injEq, Int64.toInt_minValue,
      Int64.toInt_maxValue] at h
    obtain ⟨⟨hlow, hhigh⟩, rfl⟩ := h
    rw [hi, Int64.toInt_ofInt_of_le hlow (by omega)]
  · intro h
    refine ⟨v.toInt, h, ?_⟩
    rw [if_pos ⟨v.minValue_le_toInt, v.toInt_le⟩, Int64.ofInt_toInt]

theorem isWhole_int32 : IsWhole Int32.toInt where
  read _ _ := int32?_eq_some_iff
  lt _ _ := decide_eq_true_iff.trans Int32.lt_iff_toInt_lt
  text _ := rfl

theorem isWhole_int64 : IsWhole Int64.toInt where
  read _ _ := int64?_eq_some_iff
  lt _ _ := decide_eq_true_iff.trans Int64.lt_iff_toInt_lt
  text _ := rfl

/-! ### Reading -/

namespace Scan

theorem start_map {α β : Type} (f : α → β) (x : Scan α) (r : Reader) :
    start (f <$> x) r =
      match start x r with
      | (.ok v, s) => (.ok (f v), s)
      | (.error e, s) => (.error e, s) := by
  rw [map_eq_pure_bind, start_bind]
  rfl

theorem start_number {α : Type} (read? : List Char → Option α) (expected : Fault)
    (invalid : String → Fault) (r : Reader) :
    let token := CommandConsole.numberToken true r.rest
    start (number read? expected invalid) r =
      if token = [] then (.error (expected.pinned r), r)
      else match read? token with
        | some v => (.ok v, r.pass token.length)
        | none => (.error ((invalid (String.ofList token)).pinned r), r) := by
  intro token
  have htake : start (numberToken true) r = (.ok token, r.pass token.length) := rfl
  unfold number
  rw [start_get_bind, start_bind, htake]
  simp only [List.isEmpty_iff]
  by_cases hnil : token = []
  · rw [if_pos hnil, if_pos hnil, hnil]
    show (_, r.pass 0) = _
    simp [Reader.pass, Fault.pinned]
  · rw [if_neg hnil, if_neg hnil]
    cases read? token <;> rfl

theorem start_number_error {α : Type} {read? : List Char → Option α} {expected : Fault}
    {invalid : String → Fault} {r s : Reader} {e : LineError}
    (h : start (number read? expected invalid) r = (.error e, s)) : s = r := by
  rw [start_number] at h
  split at h
  · exact (Prod.mk.inj h).2.symm
  · split at h
    · cases h
    · exact (Prod.mk.inj h).2.symm

end Scan

section Kinds

variable {α : Type} [Quantity α] {value : α → Int} {limits : Limits α} {r s : Reader}

open Scan

theorem start_number_eq_ok (hwhole : IsWhole value) {n : α} :
    start (number Quantity.read? (Quantity.expected α) (Quantity.invalid α)) r = (.ok n, s) ↔
      ∃ token tail, r.rest = token ++ tail ∧ IsLongestToken token tail ∧
        SpellsWhole token (value n) ∧ s = r.pass token.length := by
  rw [start_number]
  constructor
  · intro h
    obtain ⟨tail, htail⟩ := exists_numberToken_append true r.rest
    refine ⟨_, tail, htail.symm, isLongestToken_iff.2 (by rw [htail]), ?_⟩
    split at h
    · cases h
    · split at h
      · next m hm =>
        obtain ⟨hn, rfl⟩ := Prod.mk.inj h
        obtain rfl := Except.ok.inj hn
        exact ⟨spellsWhole_iff.2 ((hwhole.read _ _).1 hm), rfl⟩
      · cases h
  · rintro ⟨token, tail, hrest, htoken, hspells, rfl⟩
    rw [hrest, isLongestToken_iff.1 htoken, if_neg hspells.ne_nil,
      (hwhole.read _ _).2 (spellsWhole_iff.1 hspells)]

theorem Limits.start_scan_eq_ok (hwhole : IsWhole value) {n : α} :
    start limits.scan r = (.ok n, s) ↔
      start (number Quantity.read? (Quantity.expected α) (Quantity.invalid α)) r = (.ok n, s) ∧
        value limits.least ≤ value n ∧ value n ≤ value limits.most := by
  unfold Limits.scan
  rw [start_get_bind, start_bind_eq_ok]
  constructor
  · rintro ⟨m, behind, hnumber, h⟩
    split at h
    · cases h
    · next hlow =>
      split at h
      · cases h
      · next hhigh =>
        obtain ⟨hn, rfl⟩ := Prod.mk.inj h
        obtain rfl := Except.ok.inj hn
        rw [hwhole.lt] at hlow hhigh
        exact ⟨hnumber, by omega, by omega⟩
  · rintro ⟨hnumber, hlow, hhigh⟩
    have hleast : ¬Quantity.lt n limits.least = true := by
      rw [hwhole.lt]
      omega
    have hmost : ¬Quantity.lt limits.most n = true := by
      rw [hwhole.lt]
      omega
    refine ⟨n, s, hnumber, ?_⟩
    rw [if_neg hleast, if_neg hmost]
    rfl

theorem Limits.start_scan_error {e : LineError} (h : start limits.scan r = (.error e, s)) :
    s = r := by
  unfold Limits.scan at h
  rw [start_get_bind, start_bind] at h
  cases hnumber : start (number (Quantity.read? (α := α)) (Quantity.expected α)
      (Quantity.invalid α)) r with
  | mk result behind =>
    rw [hnumber] at h
    cases result with
    | error e' =>
      obtain ⟨-, rfl⟩ := Prod.mk.inj h
      exact start_number_error hnumber
    | ok n =>
      simp only at h
      split at h
      · exact (Prod.mk.inj h).2.symm
      · split at h
        · exact (Prod.mk.inj h).2.symm
        · cases h

/-- Whether a scan reads exactly the whole numbers between two limits, and goes back if it fails. -/
structure ReadsBetween (value : α → Int) (limits : Limits α) (wrap : α → Value)
    (x : Scan Value) : Prop where
  /-- The longest token at the cursor spells a number between the limits, and is passed. -/
  accepts : ∀ r v s, start x r = (.ok v, s) ↔ ∃ n token tail, v = wrap n ∧
    r.rest = token ++ tail ∧ IsLongestToken token tail ∧ SpellsWhole token (value n) ∧
    value limits.least ≤ value n ∧ value n ≤ value limits.most ∧ s = r.pass token.length
  goesBack : ∀ r e s, start x r = (.error e, s) → s = r
  /-- A written number between the limits is read back from in front of what does not go on with
  it. -/
  rereads : ∀ n, value limits.least ≤ value n → value n ≤ value limits.most → ∀ r tail,
    r.rest = (Quantity.text n).toList ++ tail → EndsNumber tail →
    start x r = (.ok (wrap n), r.pass (Quantity.text n).toList.length)

theorem readsBetween_scan (hwhole : IsWhole value) (limits : Limits α) (wrap : α → Value) :
    ReadsBetween value limits wrap (wrap <$> limits.scan) := by
  have haccepts : ∀ r v s, start (wrap <$> limits.scan) r = (.ok v, s) ↔ ∃ n token tail,
      v = wrap n ∧ r.rest = token ++ tail ∧ IsLongestToken token tail ∧
      SpellsWhole token (value n) ∧ value limits.least ≤ value n ∧
      value n ≤ value limits.most ∧ s = r.pass token.length := by
    intro r v s
    rw [start_map]
    constructor
    · intro h
      cases hscan : start limits.scan r with
      | mk result behind =>
        rw [hscan] at h
        cases result with
        | error e => cases h
        | ok n =>
          obtain ⟨hv, rfl⟩ := Prod.mk.inj h
          obtain ⟨hnumber, hlow, hhigh⟩ := (Limits.start_scan_eq_ok hwhole).1 hscan
          obtain ⟨token, tail, hrest, htoken, hspells, hs⟩ := (start_number_eq_ok hwhole).1 hnumber
          exact ⟨n, token, tail, (Except.ok.inj hv).symm, hrest, htoken, hspells, hlow, hhigh, hs⟩
    · rintro ⟨n, token, tail, rfl, hrest, htoken, hspells, hlow, hhigh, rfl⟩
      have hnumber := (start_number_eq_ok hwhole).2 ⟨token, tail, hrest, htoken, hspells, rfl⟩
      rw [(Limits.start_scan_eq_ok hwhole).2 ⟨hnumber, hlow, hhigh⟩]
  refine ⟨haccepts, fun r e s h => ?_, fun n hlow hhigh r tail hrest htail => ?_⟩
  · rw [start_map] at h
    cases hscan : start limits.scan r with
    | mk result behind =>
      rw [hscan] at h
      cases result with
      | ok n => cases h
      | error e' =>
        obtain ⟨-, rfl⟩ := Prod.mk.inj h
        exact Limits.start_scan_error hscan
  · have hspells : SpellsWhole (Quantity.text n).toList (value n) := by
      rw [hwhole.text, ofInt, String.toList_ofList]
      exact spellsWhole_iff.2 (whole?_signedDigits _)
    exact (haccepts _ _ _).2 ⟨n, _, tail, rfl, hrest,
      isLongestToken_of_endsNumber hspells.isSigned htail, hspells, hlow, hhigh, rfl⟩

end Kinds

/-- The arguments for whole numbers of both widths accept exactly the numbers between their limits,
and leave the cursor where it was if they fail. -/
theorem Builtin.whole_numbers_read (limits : Limits Int32) (limits' : Limits Int64) :
    ReadsBetween Int32.toInt limits .int (integer limits).scan ∧
      ReadsBetween Int64.toInt limits' .long (long limits').scan :=
  ⟨readsBetween_scan isWhole_int32 limits .int, readsBetween_scan isWhole_int64 limits' .long⟩

theorem Builtin.whole_numbers_read_range :
    Scan.start (integer ⟨-10, 10⟩).scan ⟨['='], ['-', '7', '.', '.', '9']⟩ =
        (.ok (.int (-7)), ⟨['7', '-', '='], ['.', '.', '9']⟩) ∧
      ∀ e s, Scan.start (integer ⟨-10, 10⟩).scan ⟨['='], ['7', '.', '9']⟩ = (.error e, s) →
        s = ⟨['='], ['7', '.', '9']⟩ := by
  obtain ⟨hint, -⟩ := whole_numbers_read ⟨-10, 10⟩ .all
  have hlongest : IsLongestToken ['-', '7'] ['.', '.', '9'] :=
    isLongestToken_of_endsNumber (List.all_eq_true.1 rfl) ⟨by simp [isSigned], fun _ => rfl⟩
  have hspells : SpellsWhole ['-', '7'] (-7) :=
    .negative (List.cons_ne_nil _ _) (List.all_eq_true.1 rfl)
  refine ⟨(hint.accepts _ _ _).2 ⟨-7, ['-', '7'], ['.', '.', '9'], rfl, rfl, hlongest, hspells,
    by decide, by decide, rfl⟩, fun e s h => hint.goesBack _ e s h⟩

end CommandConsole
