import CommandConsole.Views.Completion
import CommandConsole.Proofs.Cut

/-!
# Completing at a cursor

What is completed at a cursor in a line is compared with what is completed at the end of the line
that is cut there. The two are the same unless what stands behind the cursor leaks in: through a
choice between arguments that only the rest of the line decides, through blanks inside of a
context, through options given behind the cursor, or through a value that only one of the lines
reads.
-/

namespace CommandConsole

open Text

variable {L : Language}

/-- Whether suggestions depend on nothing but the draft and the surroundings. -/
def Language.SuggestsAlone (L : Language) : Prop :=
  ∀ (type : L.Argument) (around : L.Surroundings) (raw raw' : String → Option String)
    (draft : Draft), L.suggest? type around raw draft = L.suggest? type around raw' draft

def Language.IsBuiltin (L : Language) : Prop :=
  ∀ type : L.Argument, ∃ b : Builtin, L.scan type = b.scan ∧
    ∀ (around : L.Surroundings) (raw : String → Option String) (draft : Draft),
      L.suggest? type around raw draft = b.suggest? draft

theorem Language.IsBuiltin.readsLocally (h : L.IsBuiltin) : L.ReadsLocally := by
  intro type
  obtain ⟨b, hscan, -⟩ := h type
  rw [hscan]
  exact b.isLocal_scan

theorem Language.IsBuiltin.suggestsAlone (h : L.IsBuiltin) : L.SuggestsAlone := by
  intro type around raw raw' draft
  obtain ⟨b, -, hsuggest⟩ := h type
  rw [hsuggest, hsuggest]

def Language.builtins : Language where
  Source := Unit
  Argument := Builtin
  Action := Unit
  Modifier := Unit
  Surroundings := Unit
  holds _ _ := true
  isConsole _ := false
  scan := Builtin.scan
  suggest? type _ _ draft := type.suggest? draft
  examples := Builtin.examples
  parserName := Builtin.name

theorem Language.isBuiltin_builtins : builtins.IsBuiltin := fun b => ⟨b, rfl, fun _ _ _ => rfl⟩

theorem NodeKind.suggest?_raw (h : L.SuggestsAlone) (kind : NodeKind L) (around : L.Surroundings)
    (raw raw' : String → Option String) (draft : Draft) :
    kind.suggest? around raw draft = kind.suggest? around raw' draft := by
  cases kind with
  | root => rfl
  | literal name => rfl
  | argument name type => exact h type around raw raw' draft
  | option name type => exact h type around raw raw' draft

namespace CommandTree

variable {t : CommandTree L} {source : L.Source}

/-! ### What takes part in completing a target -/

theorem suggestAll?_raw (h : L.SuggestsAlone) (around : L.Surroundings)
    (raw raw' : String → Option String) (draft : Draft) (ids : List NodeId) :
    t.suggestAll? around raw draft ids = t.suggestAll? around raw' draft ids := by
  induction ids with
  | nil => rfl
  | cons id ids ih => rw [suggestAll?, suggestAll?, NodeKind.suggest?_raw h _ _ raw raw', ih]

theorem optionNames_congr {parent : NodeId} {policy : ConsolePolicy}
    {given given' : List MatchedOption} {draft : Draft}
    (h : draft.remaining.toList.head? = some '-' →
      ∀ e ∈ (t.node parent).options.entries,
        given.any (·.name == e.1) = given'.any (·.name == e.1)) :
    t.optionNames source parent policy given draft =
      t.optionNames source parent policy given' draft := by
  unfold optionNames
  split
  · rfl
  · next hminus =>
    have hsame := h (by simpa using hminus)
    refine List.foldl_rel (r := Eq) rfl fun e he d d' hd => ?_
    rw [hd]
    simp only [hsame e he]

/-! ### Options that wait for their value -/

variable {p : Position L} {pre w b front : List Char}

theorem value_at_end {name : String} {named start : Reader}
    (hread : p.reader = ⟨pre, w ++ b⟩) (hfront : pre.reverse ++ w = front)
    (htoken : token p.reader.rest = '-' :: '-' :: name.toList)
    (hnamed : named = p.reader.pass (2 + name.length)) (hstart : start = named.skipBlank)
    (hlt : named.cursor < start.cursor) (hle : start.cursor ≤ byteLength front) :
    ∃ blanks value, w = ('-' :: '-' :: name.toList) ++ (blanks ++ value) ∧ blanks ≠ [] ∧
      (∀ d ∈ blanks, isBlank d = true) ∧ (∀ d ∈ value.head?, isBlank d = false) ∧
      byteLength front = start.cursor + byteLength value := by
  have hlen : ('-' :: '-' :: name.toList).length = 2 + name.length := by
    rw [List.length_cons, List.length_cons, String.length_toList]
    omega
  have hsplit := token_append_dropWhile p.reader.rest
  rw [htoken] at hsplit
  generalize hword : '-' :: '-' :: name.toList = word at hlen hsplit ⊢
  generalize p.reader.rest.dropWhile (fun d => !isBlank d) = tail at hsplit
  have hrest : p.reader.rest = w ++ b := by rw [hread]
  have hpassed : named = ⟨word.reverse ++ pre, tail⟩ := by
    rw [hnamed, ← hlen, Reader.pass, ← hsplit, hread, List.take_left, List.drop_left]
  have hblanks : tail.takeWhile isBlank ++ tail.dropWhile isBlank = tail :=
    List.takeWhile_append_dropWhile
  have hall : ∀ d ∈ tail.takeWhile isBlank, isBlank d = true :=
    List.all_eq_true.1 List.all_takeWhile
  have hhead := List.head?_dropWhile_not isBlank tail
  have hcursor : start.cursor = named.cursor + byteLength (tail.takeWhile isBlank) := by
    rw [hstart, Reader.skipBlank_eq_pass, Reader.cursor_pass, hpassed]
    rw [← List.prefix_iff_eq_take.1 (List.takeWhile_prefix isBlank)]
  generalize tail.takeWhile isBlank = blanks at hblanks hall hcursor
  generalize tail.dropWhile isBlank = rest at hblanks hhead
  have hnamedCursor : named.cursor = byteLength pre + byteLength word := by
    rw [hpassed, Reader.cursor, byteLength_append, byteLength_reverse]
    omega
  have hwhole : (word ++ blanks) ++ rest = w ++ b := by
    rw [List.append_assoc, hblanks, hsplit, hrest]
  have hfrontLength : byteLength front = byteLength pre + byteLength w := by
    rw [← hfront, byteLength_append, byteLength_reverse]
  obtain ⟨value, hw, hvalue⟩ := append_of_byteLength_le hwhole (by
    rw [byteLength_append]
    omega)
  refine ⟨blanks, value, by rw [hw, List.append_assoc], ?_, hall, ?_, ?_⟩
  · rintro rfl
    rw [hcursor] at hlt
    exact Nat.lt_irrefl _ hlt
  · intro d hd
    cases value with
    | nil => cases hd
    | cons e value =>
      rw [hvalue] at hhead
      obtain rfl : e = d := by simpa using hd
      simpa using hhead
  · rw [hfrontLength, hw, byteLength_append, byteLength_append]
    omega

theorem back?_append (a b : List Char) :
    back? (byteLength a) (String.ofList (a ++ b)) = some (String.ofList b) := by
  rw [back?, String.toList_ofList, splitAt?_append]
  rfl

theorem token_word {word blanks value : List Char} (hword : ∀ d ∈ word, isBlank d = false)
    (hsome : blanks ≠ []) (hall : ∀ d ∈ blanks, isBlank d = true) :
    token (word ++ (blanks ++ value)) = word := by
  obtain ⟨d, blanks, rfl⟩ := List.exists_cons_of_ne_nil hsome
  exact token_append hword (hall d (List.mem_cons_self ..))

theorem trimFront_blanks {blanks value : List Char} (hall : ∀ d ∈ blanks, isBlank d = true)
    (hhead : ∀ d ∈ value.head?, isBlank d = false) : trimFront (blanks ++ value) = value := by
  rw [trimFront, List.dropWhile_append_of_pos hall]
  cases value with
  | nil => rfl
  | cons d value => rw [List.dropWhile_cons, hhead d (by simp)]; rfl

theorem pending_of_named {name : String} {option : NodeId} {named start : Reader}
    (hread : p.reader = ⟨pre, w ++ b⟩) (hfront : pre.reverse ++ w = front)
    (hn : t.NamesOption p name option) (ha : t.Admits source option p.context.console)
    (hnamed : named = p.reader.pass (2 + name.length)) (hstart : start = named.skipBlank)
    (hlt : named.cursor < start.cursor) (hle : start.cursor ≤ byteLength front) :
    token w = '-' :: '-' :: name.toList ∧
      start.cursor = byteLength front - byteLength (trimFront (w.drop (token w).length)) ∧
      ∃ value, back? start.cursor (String.ofList front) = some (String.ofList value) ∧
        (value.any isBlank = false → t.pendingOption? source p.node p.context.console
          (String.ofList front) (byteLength pre) = some ⟨option, start.cursor⟩) := by
  obtain ⟨blanks, value, hw, hsome, hall, hhead, hlength⟩ :=
    value_at_end hread hfront hn.1 hnamed hstart hlt hle
  have hword : ∀ d ∈ '-' :: '-' :: name.toList, isBlank d = false := by
    intro d hd
    rw [← hn.1] at hd
    exact not_isBlank_of_mem_token hd
  have htoken : token w = '-' :: '-' :: name.toList := by
    rw [hw]
    exact token_word hword hsome hall
  have hdrop : w.drop (token w).length = blanks ++ value := by
    rw [htoken, hw, List.drop_left]
  have hstartCursor : start.cursor = byteLength front - byteLength value := by omega
  refine ⟨htoken, ?_, value, ?_, fun hvalue => ?_⟩
  · rw [hdrop, trimFront_blanks hall hhead]
    exact hstartCursor
  · have hfrontSplit : front = (pre.reverse ++ ('-' :: '-' :: name.toList) ++ blanks) ++ value := by
      rw [← hfront, hw]
      simp only [List.append_assoc]
    have hcursor : start.cursor =
        byteLength (pre.reverse ++ ('-' :: '-' :: name.toList) ++ blanks) := by
      rw [hfrontSplit, byteLength_append] at hlength
      omega
    rw [hcursor, hfrontSplit]
    exact back?_append _ _
  · have hback : back? (byteLength pre) (String.ofList front) = some (String.ofList w) := by
      rw [← hfront, ← byteLength_reverse pre]
      exact back?_append _ _
    have hnamedOption : namedOption? (t.node p.node) (token w) = some option := by
      rw [htoken, ← hn.1]
      exact namedOption?_eq_some_iff.2 ⟨name, hn⟩
    have hnonempty : (blanks ++ value).isEmpty = false := by
      cases blanks with
      | nil => exact absurd rfl hsome
      | cons d blanks => rfl
    unfold pendingOption?
    simp only [hback, String.toList_ofList, Option.bind_eq_bind, Option.bind_some, hdrop, hnonempty,
      hnamedOption, (canUse_iff_admits ..).2 ha, trimFront_blanks hall hhead, hvalue, hstartCursor,
      bytes, Bool.not_true, Bool.false_eq_true, if_false]
    rfl

/-! ### Targets that agree -/

theorem completeTarget?_pending {around : L.Surroundings} {raw : String → Option String}
    {given : List MatchedOption} {line : String} {parent option : NodeId} {policy : ConsolePolicy}
    {start valueStart : Nat}
    (h : t.pendingOption? source parent policy line start = some ⟨option, valueStart⟩) :
    t.completeTarget? around raw source given line (.branch parent policy start) =
      t.completeTarget? around raw source given line (.optionValue option valueStart) := by
  simp only [completeTarget?, h]

theorem completeTarget?_congr (hL : L.SuggestsAlone) (around : L.Surroundings)
    (raw raw' : String → Option String) {given given' : List MatchedOption} {line : String}
    (found : CursorTarget)
    (hgiven : ∀ parent policy start, found = .branch parent policy start →
      (Draft.new line start).remaining.toList.head? = some '-' →
      ∀ e ∈ (t.node parent).options.entries,
        given.any (·.name == e.1) = given'.any (·.name == e.1)) :
    t.completeTarget? around raw source given line found =
      t.completeTarget? around raw' source given' line found := by
  cases found with
  | optionValue option start => exact NodeKind.suggest?_raw hL _ _ raw raw' _
  | branch parent policy start =>
    have hnames : t.optionNames source parent policy given (Draft.new line start) =
        t.optionNames source parent policy given' (Draft.new line start) :=
      optionNames_congr (hgiven parent policy start rfl)
    simp only [completeTarget?, hnames, suggestAll?_raw hL around raw raw',
      NodeKind.suggest?_raw hL _ _ raw raw']

/-- Targets that agree are completed alike, if the options given are alike where names of options
are typed, and a value that is typed for one of the targets only has no blank. -/
theorem Agrees.complete (hL : L.SuggestsAlone) {found found' : CursorTarget}
    (h : Agrees t source front found found') (around : L.Surroundings)
    (raw raw' : String → Option String) {given given' : List MatchedOption}
    (hgiven : ∀ parent policy start, found' = .branch parent policy start →
      (Draft.new (.ofList front) start).remaining.toList.head? = some '-' →
      ∀ e ∈ (t.node parent).options.entries,
        given.any (·.name == e.1) = given'.any (·.name == e.1))
    (hvalue : ∀ option start, found = .optionValue option start ∨
      found' = .optionValue option start → found ≠ found' →
      ∀ typed, back? start (.ofList front) = some typed → typed.toList.any isBlank = false) :
    t.completeTarget? around raw source given (.ofList front) found =
      t.completeTarget? around raw' source given' (.ofList front) found' := by
  cases h with
  | same => exact completeTarget?_congr hL around raw raw' _ hgiven
  | @token p pre w b b' _ _ hfront hink hread htyped htyped' =>
    have hcursor : p.reader.cursor = byteLength pre := by rw [hread]; rfl
    cases htyped with
    | branch =>
      rw [hcursor] at hvalue ⊢
      cases htyped' with
      | branch => exact completeTarget?_congr hL around raw raw' _ hgiven
      | @value name option named start hn ha hnamed hstart hlt hle =>
        obtain ⟨-, -, value, hback, hpending⟩ :=
          pending_of_named rfl hfront hn ha hnamed hstart hlt hle
        have hblank := hvalue option _ (Or.inr rfl) (by simp) _ hback
        rw [String.toList_ofList] at hblank
        rw [completeTarget?_pending (hpending hblank)]
        exact completeTarget?_congr hL around raw raw' _ fun _ _ _ heq => by cases heq
    | @value name option named start hn ha hnamed hstart hlt hle =>
      obtain ⟨htoken, hcut, value, hback, hpending⟩ :=
        pending_of_named hread hfront hn ha hnamed hstart hlt hle
      cases htyped' with
      | branch =>
        have hblank := hvalue option _ (Or.inl rfl) (by simp) _ hback
        rw [String.toList_ofList] at hblank
        have hpending' := hpending hblank
        rw [← completeTarget?_pending hpending']
        exact completeTarget?_congr hL around raw raw' _ hgiven
      | @value name' option' named' start' hn' ha' hnamed' hstart' hlt' hle' =>
        -- both values belong to the option that the token of the front names
        obtain ⟨htoken', hcut', -⟩ := pending_of_named rfl hfront hn' ha' hnamed' hstart' hlt' hle'
        rw [htoken] at htoken'
        have hname : name = name' := by simpa [String.ext_iff] using htoken'
        have hoption : option = option' := by
          have hfind := hn.2
          rw [hname] at hfind
          exact Option.some.inj (hfind.symm.trans hn'.2)
        rw [hcut, hcut', hoption]
        exact completeTarget?_congr hL around raw raw' _ fun _ _ _ heq => by cases heq

/-! ### The line that is cut -/

theorem boundaryBefore_append (a b : List Char) :
    boundaryBefore (byteLength a) (a ++ b) = byteLength a := by
  induction a with
  | nil =>
    cases b with
    | nil => rfl
    | cons c b =>
      have hpos := c.utf8Size_pos
      rw [List.nil_append, boundaryBefore, if_neg]
      · rfl
      · simp only [byteLength]
        omega
  | cons c a ih =>
    have hsub : byteLength (c :: a) - c.utf8Size = byteLength a := by
      simp only [byteLength]
      omega
    rw [List.cons_append, boundaryBefore, if_pos (by simp only [byteLength]; omega), hsub, ih]
    rfl

theorem completeAt?_front {q : Parsed L} (around : L.Surroundings)
    (h : q.reader.line.toList = front ++ b) :
    t.completeAt? around q (byteLength front) =
      t.completeTarget? around (q.chain.outer.raw? (.ofList front)) q.source q.chain.last.options
        (.ofList front) (q.chain.target q.reader.line (byteLength front)) := by
  have hcut : cutAt q.reader.line (byteLength front) = front := by
    unfold cutAt
    rw [h, boundaryBefore_append, splitAt?_append]
  unfold completeAt?
  simp only [hcut]

/-- Whether nothing behind a cursor takes part in what is completed there. -/
structure Undisturbed (t : CommandTree L) (source : L.Source) (line cut : String) (cursor : Nat) :
    Prop where
  /-- In both lines, a token that ends in front of the cursor leaves no choice. -/
  decided : Decided t source (.start (Reader.ofString line).skipBlank) cursor
  decidedCut : Decided t source (.start (Reader.ofString cut).skipBlank) cursor
  /-- In both lines, the search for the cursor finds what is typed there. -/
  openAt : (t.parse line source).chain.OpenAt cursor
  openCut : (t.parse cut source).chain.OpenAt cursor
  /-- Where names of options are typed, both lines have given the same options of the node. -/
  given : ∀ parent policy start,
    (t.parse cut source).chain.target cut cursor = .branch parent policy start →
    (Draft.new cut start).remaining.toList.head? = some '-' →
    ∀ e ∈ (t.node parent).options.entries,
      (t.parse line source).chain.last.hasOption e.1 =
        (t.parse cut source).chain.last.hasOption e.1
  /-- The value of an option that is found in only one of the lines has no blank so far. -/
  value : ∀ option start,
    (t.parse line source).chain.target line cursor = .optionValue option start ∨
      (t.parse cut source).chain.target cut cursor = .optionValue option start →
    (t.parse line source).chain.target line cursor ≠
      (t.parse cut source).chain.target cut cursor →
    ∀ typed, back? start cut = some typed → typed.toList.any isBlank = false

/-! ### A tree with one switch -/

/-- The tree of a command that takes a truth value. -/
def switch : CommandTree .builtins := built [
    { Blueprint.literal "toggle" with children := [.argument "state" Builtin.bool] }]

theorem reachable_switch : switch.Reachable := reachable_built _

theorem arguments_switch (id : NodeId) : (switch.node id).arguments.length ≤ 1 := by
  rcases Nat.lt_or_ge id 3 with hlt | hge
  · have hall : ∀ id < 3, (switch.node id).arguments.length ≤ 1 := by decide +kernel
    exact hall id hlt
  · rw [node_of_size_le (Nat.le_trans (by decide +kernel) hge)]
    exact Nat.zero_le 1

theorem undisturbed_switch : switch.Undisturbed () "toggle true" "toggle t" 8 where
  decided := decided_of_arguments arguments_switch
  decidedCut := decided_of_arguments arguments_switch
  openAt := by decide +kernel
  openCut := by decide +kernel
  given parent policy start h := by
    have htarget : (switch.parse "toggle t" ()).chain.target "toggle t" 8 =
        .branch 1 .inherited 7 := by decide +kernel
    obtain ⟨-, -, rfl⟩ := CursorTarget.branch.inj (htarget.symm.trans h)
    intro hminus
    exact absurd hminus (by decide +kernel)
  value option start h hne := by
    refine absurd ?_ hne
    decide +kernel

/-! ### Completion at a cursor -/

/-- Completion at a cursor ignores the rest of the line, where nothing behind the cursor takes
part. -/
theorem completion_ignores_rest (hL : L.IsBuiltin) (ht : t.Reachable) {line cut : String}
    {cursor : Nat} (hcut : front? cursor line = some cut) (around : L.Surroundings)
    (h : t.Undisturbed source line cut cursor) :
    t.completeAt? around (t.parse line source) cursor =
      t.complete? around (t.parse cut source) := by
  obtain ⟨layer, hg⟩ := ht.grown
  obtain ⟨⟨front, back⟩, hsplit, rfl⟩ := Option.map_eq_some_iff.1 hcut
  obtain ⟨happend, rfl⟩ := append_of_splitAt? hsplit
  have hline : line.toList = front ++ back := happend.symm
  have hfront : (String.ofList front).toList = front ++ [] := by
    rw [String.toList_ofList, List.append_nil]
  have hparsed := hg.filed.line_parse hL.readsLocally.readsForward line source
  have hparsedCut := hg.filed.line_parse hL.readsLocally.readsForward (.ofList front) source
  have hlength : (t.parse (.ofList front) source).reader.totalLength = byteLength front := by
    have htext := congrArg String.toList hparsedCut
    rw [Reader.line, String.toList_ofList, String.toList_ofList] at htext
    rw [Reader.totalLength, htext]
  have hagrees := hg.filed.parse_agrees hL.readsLocally hline hfront h.decided
    h.decidedCut h.openAt h.openCut
  rw [complete?, hlength, completeAt?_front around (by rw [hparsed]; exact hline),
    completeAt?_front around (by rw [hparsedCut]; exact hfront), hparsed, hparsedCut]
  exact hagrees.complete hL.suggestsAlone around _ _ h.given h.value

theorem completion_ignores_rest_switch :
    front? 8 "toggle true" = some "toggle t" ∧
      switch.completeAt? () (switch.parse "toggle true" ()) 8 =
        switch.complete? () (switch.parse "toggle t" ()) :=
  ⟨by decide +kernel, completion_ignores_rest Language.isBuiltin_builtins reachable_switch
    (by decide +kernel) () undisturbed_switch⟩

/-- In the second of two blanks in front of an argument, the argument is not suggested. -/
theorem completion_in_gap_ne :
    ¬∀ (t : CommandTree .builtins) (source : Unit) (line cut : String) (cursor : Nat),
      t.Reachable → front? cursor line = some cut →
        t.completeAt? () (t.parse line source) cursor = t.complete? () (t.parse cut source) := by
  intro h
  have heq := h switch () "toggle   true" "toggle  " 8 reachable_switch (by decide +kernel)
  revert heq
  decide +kernel

end CommandTree

end CommandConsole
