import CommandConsole.Proofs.Completeness

/-!
# Candidates without regard to case

A candidate is compared with the end of the lowercase line from the offset of the token on. That is
the lowercase of what is typed as long as the text in front of it is as long in lowercase, and what
is typed starts with no sigma that ends a word only because of the text in front of it.
-/

namespace CommandConsole

open Text

namespace Text

/-! ### One character in lowercase -/

/-- The lowercase of a character between two texts, the one in front nearest first. -/
def lowercaseAt (before : List Char) (c : Char) (cs : List Char) : List Char :=
  if c.toNat == 0x3A3 then
    [Char.ofNat (if meetsCased before && !meetsCased cs then 0x3C2 else 0x3C3)]
  else lowercaseChar c

theorem toList_lowercase (s : String) : (lowercase s).toList = lowercaseFrom [] s.toList :=
  String.toList_ofList

theorem lowercaseFrom_cons (before : List Char) (c : Char) (cs : List Char) :
    lowercaseFrom before (c :: cs) = lowercaseAt before c cs ++ lowercaseFrom (c :: before) cs :=
  rfl

theorem lowercaseAt_of_ne {c : Char} (h : c ≠ 'Σ') (before cs : List Char) :
    lowercaseAt before c cs = lowercaseChar c := by
  have hsigma : ¬c.toNat = 0x3A3 := fun heq => h (Char.toNat_inj.1 heq)
  simp [lowercaseAt, hsigma]

theorem lowercaseAt_sigma (before cs : List Char) :
    lowercaseAt before 'Σ' cs = [if meetsCased before && !meetsCased cs then 'ς' else 'σ'] := by
  unfold lowercaseAt
  cases meetsCased before && !meetsCased cs <;> rfl

theorem lowercaseAt_size (before before' : List Char) (c : Char) (cs cs' : List Char) :
    (lowercaseAt before c cs).length = (lowercaseAt before' c cs').length ∧
      byteLength (lowercaseAt before c cs) = byteLength (lowercaseAt before' c cs') := by
  by_cases h : c = 'Σ'
  · rw [h, lowercaseAt_sigma, lowercaseAt_sigma]
    cases meetsCased before && !meetsCased cs <;> cases meetsCased before' && !meetsCased cs' <;>
      exact ⟨rfl, rfl⟩
  · rw [lowercaseAt_of_ne h, lowercaseAt_of_ne h]
    exact ⟨rfl, rfl⟩

/-! ### The lowercase of a text behind another -/

theorem meetsCased_cons (c : Char) (before : List Char) : meetsCased (c :: before) =
    if isCaseIgnorable c then meetsCased before else isCased c := by
  unfold meetsCased
  cases h : isCaseIgnorable c with
  | true => simp [List.dropWhile_cons_of_pos h]
  | false => simp [List.dropWhile_cons_of_neg (Bool.eq_false_iff.1 h)]

/-- Of what stands in front, only the nearest letter takes part. -/
theorem lowercaseFrom_congr {before before' : List Char}
    (h : meetsCased before = meetsCased before') (cs : List Char) :
    lowercaseFrom before cs = lowercaseFrom before' cs := by
  induction cs generalizing before before' with
  | nil => rfl
  | cons c cs ih =>
    have hnext : meetsCased (c :: before) = meetsCased (c :: before') := by
      rw [meetsCased_cons, meetsCased_cons, h]
    rw [lowercaseFrom_cons, lowercaseFrom_cons, lowercaseAt, lowercaseAt, h, ih hnext]

theorem length_lowercaseFrom (before before' cs : List Char) :
    (lowercaseFrom before cs).length = (lowercaseFrom before' cs).length := by
  induction cs generalizing before before' with
  | nil => rfl
  | cons c cs ih =>
    rw [lowercaseFrom_cons, lowercaseFrom_cons, List.length_append, List.length_append,
      (lowercaseAt_size before before' c cs cs).1, ih (c :: before) (c :: before')]

/-- A text is followed by the lowercase of what stands behind it, and takes as many bytes as it does
on its own. -/
theorem lowercaseFrom_append (before a b : List Char) : ∃ low,
    lowercaseFrom before (a ++ b) = low ++ lowercaseFrom (a.reverse ++ before) b ∧
      byteLength low = byteLength (lowercaseFrom before a) := by
  induction a generalizing before with
  | nil => exact ⟨[], rfl, rfl⟩
  | cons c a ih =>
    obtain ⟨low, heq, hlength⟩ := ih (c :: before)
    refine ⟨lowercaseAt before c (a ++ b) ++ low, ?_, ?_⟩
    · rw [List.cons_append, lowercaseFrom_cons, heq]
      simp
    · rw [lowercaseFrom_cons, byteLength_append, byteLength_append, hlength,
        (lowercaseAt_size before before c (a ++ b) a).2]

/-- Whether the first letter of a text is a capital sigma that ends a word which begins in the text
in front, given nearest first. -/
def EndsWordOf (before cs : List Char) : Prop :=
  meetsCased before = true ∧ (cs.dropWhile isCaseIgnorable).head? = some 'Σ' ∧
    meetsCased (cs.dropWhile isCaseIgnorable).tail = false

instance (before cs : List Char) : Decidable (EndsWordOf before cs) :=
  inferInstanceAs (Decidable (_ ∧ _ ∧ _))

theorem not_isCaseIgnorable_sigma : isCaseIgnorable 'Σ' = false := by decide +kernel

/-- A sigma that ends a word is the only letter that a text in front makes another one. -/
theorem lowercaseFrom_eq_iff {before start : List Char} (hbefore : meetsCased before = true)
    (hstart : meetsCased start = false) (cs : List Char) :
    lowercaseFrom before cs = lowercaseFrom start cs ↔ ¬EndsWordOf before cs := by
  induction cs generalizing before start with
  | nil => simp [lowercaseFrom, EndsWordOf]
  | cons c cs ih =>
    rw [lowercaseFrom_cons, lowercaseFrom_cons]
    cases hc : isCaseIgnorable c with
    | true =>
      have hne : c ≠ 'Σ' := by
        rintro rfl
        simp [not_isCaseIgnorable_sigma] at hc
      have hnext : lowercaseFrom (c :: before) cs = lowercaseFrom (c :: start) cs ↔
          ¬EndsWordOf (c :: before) cs :=
        ih (by rw [meetsCased_cons, if_pos hc, hbefore])
          (by rw [meetsCased_cons, if_pos hc, hstart])
      have hends : EndsWordOf (c :: before) cs ↔ EndsWordOf before (c :: cs) := by
        rw [EndsWordOf, EndsWordOf, meetsCased_cons, if_pos hc, List.dropWhile_cons_of_pos hc]
      rw [lowercaseAt_of_ne hne, lowercaseAt_of_ne hne, List.append_right_inj, hnext, hends]
    | false =>
      have htail : lowercaseFrom (c :: before) cs = lowercaseFrom (c :: start) cs :=
        lowercaseFrom_congr (by simp [meetsCased_cons, hc]) cs
      have hends : EndsWordOf before (c :: cs) ↔ c = 'Σ' ∧ meetsCased cs = false := by
        simp [EndsWordOf, hbefore, List.dropWhile_cons_of_neg (Bool.eq_false_iff.1 hc)]
      rw [htail, List.append_left_inj, hends]
      by_cases hsigma : c = 'Σ'
      · subst hsigma
        rw [lowercaseAt_sigma, lowercaseAt_sigma, hbefore, hstart]
        cases meetsCased cs <;> simp
      · rw [lowercaseAt_of_ne hsigma, lowercaseAt_of_ne hsigma]
        simp [hsigma]

theorem lowercaseFrom_eq_self_iff (before cs : List Char) :
    lowercaseFrom before cs = lowercaseFrom [] cs ↔ ¬EndsWordOf before cs := by
  cases hbefore : meetsCased before with
  | true => exact lowercaseFrom_eq_iff hbefore rfl cs
  | false =>
    refine iff_of_true (lowercaseFrom_congr hbefore cs) fun h => ?_
    simp [h.1] at hbefore

theorem lowercaseFrom_append_space (before cs : List Char) :
    lowercaseFrom before (cs ++ [' ']) = lowercaseFrom before cs ++ [' '] := by
  have hspace : isCaseIgnorable ' ' = false := by decide +kernel
  have hmeets : ∀ cs, meetsCased (cs ++ [' ']) = meetsCased cs := by
    intro cs
    induction cs with
    | nil => decide +kernel
    | cons c cs ih => rw [List.cons_append, meetsCased_cons, meetsCased_cons, ih]
  induction cs generalizing before with
  | nil => rfl
  | cons c cs ih =>
    rw [List.cons_append, lowercaseFrom_cons, lowercaseFrom_cons, ih, lowercaseAt, lowercaseAt,
      hmeets, List.append_assoc]

end Text

/-! ### Candidates -/

/-- The candidates other than what is typed that start with it, without regard to case. -/
def startingWith (typed : String) (candidates : List String) : List String :=
  candidates.filter fun c => c ≠ typed ∧ (lowercase typed).toList <+: (lowercase c).toList

namespace Draft

theorem found_suggestMatching (d : Draft) (candidates : List String) :
    (d.suggestMatching candidates).found = d.found ++
      (candidates.filter fun c => d.matchesTyped c && c != d.remaining).map
        (Suggestion.plain d.span) := by
  unfold suggestMatching
  induction candidates generalizing d with
  | nil => simp
  | cons c candidates ih =>
    rw [List.foldl_cons, List.filter_cons]
    by_cases hmatches : d.matchesTyped c = true
    · by_cases htyped : c = d.remaining
      · simpa [suggestIfMatching, suggest, hmatches, htyped] using ih d
      · have hpush : (candidates.foldl suggestIfMatching (d.push (.plain d.span c))).found =
            d.found ++ [.plain d.span c] ++
              (candidates.filter fun c => d.matchesTyped c && c != d.remaining).map
                (Suggestion.plain d.span) := ih (d.push (.plain d.span c))
        simpa [suggestIfMatching, suggest, hmatches, htyped] using hpush
    · simpa [suggestIfMatching, hmatches] using ih d

variable {front typed : String}

theorem remaining_new : (new (front ++ typed) (bytes front)).remaining = typed := by
  show (back? (bytes front) (front ++ typed)).getD "" = typed
  rw [back?_typed]
  rfl

theorem remainingLowercase_new (h : bytes (lowercase front) = bytes front) :
    (new (front ++ typed) (bytes front)).remainingLowercase =
      String.ofList (lowercaseFrom front.toList.reverse typed.toList) := by
  obtain ⟨low, heq, hlength⟩ := lowercaseFrom_append [] front.toList typed.toList
  have hlow : bytes front = byteLength low := by
    rw [hlength, ← h, bytes, lowercase, String.toList_ofList]
  show (back? (bytes front) (lowercase (front ++ typed))).getD "" = _
  rw [lowercase, String.toList_append, heq, hlow, CommandTree.back?_append, List.append_nil]
  rfl

theorem span_new : (new (front ++ typed) (bytes front)).span =
    ⟨bytes front, bytes (front ++ typed)⟩ := by
  have hle : bytes front ≤ bytes (front ++ typed) := (cutsAt_pre front typed).le
  show Span.mk (min (bytes front) (bytes (front ++ typed))) (bytes (front ++ typed)) = _
  rw [Nat.min_eq_left hle]

/-- Behind a text that is as long in lowercase, just the candidates that start with what is typed
are suggested, in their order, unless a capital sigma that is typed ends a word of that text. -/
theorem suggestMatching_eq_startingWith_iff (h : bytes (lowercase front) = bytes front) :
    (∀ candidates, ((new (front ++ typed) (bytes front)).suggestMatching candidates).found =
      (startingWith typed candidates).map
        (Suggestion.plain ⟨bytes front, bytes (front ++ typed)⟩)) ↔
      ¬EndsWordOf front.toList.reverse typed.toList := by
  rw [← lowercaseFrom_eq_self_iff, ← toList_lowercase]
  have hmatches : ∀ c, (new (front ++ typed) (bytes front)).matchesTyped c = true ↔
      lowercaseFrom front.toList.reverse typed.toList <+: (lowercase c).toList := by
    intro c
    rw [matchesTyped, remainingLowercase_new h, List.isPrefixOf_iff_prefix, String.toList_ofList]
  have hfound : ∀ candidates, ((new (front ++ typed) (bytes front)).suggestMatching
      candidates).found = (candidates.filter fun c =>
        (new (front ++ typed) (bytes front)).matchesTyped c && c != typed).map
          (Suggestion.plain ⟨bytes front, bytes (front ++ typed)⟩) := by
    intro candidates
    rw [found_suggestMatching, remaining_new, span_new]
    rfl
  constructor
  · intro hall
    -- what is typed with a blank behind it is a candidate
    have hlow : (lowercase (typed ++ " ")).toList = (lowercase typed).toList ++ [' '] := by
      rw [toList_lowercase, toList_lowercase, String.toList_append]
      exact lowercaseFrom_append_space [] typed.toList
    have hne : typed ++ " " ≠ typed := fun heq => by
      simpa using congrArg (·.toList.length) heq
    have hone : startingWith typed [typed ++ " "] = [typed ++ " "] := by
      rw [startingWith, List.filter_cons_of_pos]
      · rfl
      · simp [hne, hlow]
    have hmine := hall [typed ++ " "]
    rw [hfound, hone] at hmine
    have hprefix : lowercaseFrom front.toList.reverse typed.toList <+:
        (lowercase typed).toList ++ [' '] := by
      rw [← hlow, ← hmatches]
      by_contra hnot
      simp [hnot] at hmine
    have hlength := length_lowercaseFrom front.toList.reverse [] typed.toList
    rw [← toList_lowercase] at hlength
    rw [List.prefix_iff_eq_take.1 hprefix, hlength, List.take_left]
  · intro heq candidates
    rw [hfound, startingWith]
    congr 1
    refine List.filter_congr fun c _ => ?_
    rw [Bool.eq_iff_iff, Bool.and_eq_true, hmatches, heq, bne_iff_ne, decide_eq_true_eq, and_comm]

theorem suggestMatching_eq_startingWith_iff_inside_word :
    bytes (lowercase "É") = bytes "É" ∧
      ((∀ candidates, ((new ("É" ++ "ΣΑ") (bytes "É")).suggestMatching candidates).found =
        (startingWith "ΣΑ" candidates).map
          (Suggestion.plain ⟨bytes "É", bytes ("É" ++ "ΣΑ")⟩)) ↔
        ¬EndsWordOf "É".toList.reverse "ΣΑ".toList) ∧
      ¬EndsWordOf "É".toList.reverse "ΣΑ".toList :=
  ⟨by decide +kernel, suggestMatching_eq_startingWith_iff (by decide +kernel), by decide +kernel⟩

/-- The lowercase line is cut at an offset of the line, so behind a dotted capital I, which is
longer in lowercase, a candidate is not found. -/
theorem suggestMatching_misses :
    ¬∀ (front typed : String) (candidates : List String),
      ((new (front ++ typed) (bytes front)).suggestMatching candidates).found =
        (startingWith typed candidates).map
          (Suggestion.plain ⟨bytes front, bytes (front ++ typed)⟩) := by
  intro h
  have hmissing := h "İ " "x" ["xa"]
  revert hmissing
  decide +kernel

end Draft

end CommandConsole
