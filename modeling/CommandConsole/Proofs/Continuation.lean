import CommandConsole.Proofs.Completeness

/-!
# Completed lines are complete

Completion looks at a position that parsing has passed. Whatever ink stands behind the text in front
of that position, the same steps lead there, since each of them has ended in front of a blank. So a
literal that is put there is reached, and takes what is left of the line.
-/

namespace CommandConsole

open Text

variable {L : Language}

theorem Reader.skipBlank_blanks (passed : List Char) {blanks : List Char}
    (hblank : ∀ e ∈ blanks, isBlank e = true) {d : Char} (hd : isBlank d = false) (b : List Char) :
    (⟨passed, blanks ++ d :: b⟩ : Reader).skipBlank = ⟨blanks.reverse ++ passed, d :: b⟩ := by
  have htake : (blanks ++ d :: b).takeWhile isBlank = blanks := by
    rw [List.takeWhile_append_of_pos hblank, List.takeWhile_cons, hd]
    simp
  rw [skipBlank_eq_pass, htake]
  simp [pass]

/-- A reader that has passed some text in front of blanks has passed the same text and blanks in
every line that goes on with ink there. -/
theorem Reader.pass_skipBlank {r : Reader} {n : Nat} {e : Char} {back : List Char}
    (hback : (r.pass n).rest = e :: back) (he : isBlank e = true) :
    ∃ a more, r.rest = a ++ e :: back ∧
      (r.pass n).skipBlank.passed.reverse = r.passed.reverse ++ (a ++ e :: more) ∧
      ∀ d b, isBlank d = false →
        ((⟨r.passed, a ++ e :: (more ++ d :: b)⟩ : Reader).pass n).skipBlank =
          ⟨(r.pass n).skipBlank.passed, d :: b⟩ := by
  obtain ⟨a, ha⟩ : ∃ a, r.rest.take n = a := ⟨_, rfl⟩
  have hsplit : r.rest = a ++ e :: back := by
    rw [← hback, rest_pass, ← ha, List.take_append_drop]
  have hn : n = a.length := by
    have hlength := congrArg List.length ha
    rw [hsplit, List.length_take, List.length_append, List.length_cons] at hlength
    omega
  have hmore : ∀ x ∈ e :: back.takeWhile isBlank, isBlank x = true := by
    intro x hx
    rcases List.mem_cons.1 hx with rfl | hx
    · exact he
    · exact List.all_eq_true.1 List.all_takeWhile x hx
  have hpassed : (r.pass n).skipBlank.passed =
      (e :: back.takeWhile isBlank).reverse ++ (a.reverse ++ r.passed) := by
    have htake : (r.pass n).rest.takeWhile isBlank = e :: back.takeWhile isBlank := by
      rw [hback, List.takeWhile_cons, if_pos he]
    rw [skipBlank_eq_pass, htake]
    simp only [pass, ha]
    rw [hsplit, hn, List.drop_left]
    simp [← List.prefix_iff_eq_take.1 (List.takeWhile_prefix isBlank)]
  refine ⟨a, back.takeWhile isBlank, hsplit, by simp [hpassed], fun d b hd => ?_⟩
  have hpass : (⟨r.passed, a ++ e :: (back.takeWhile isBlank ++ d :: b)⟩ : Reader).pass n =
      ⟨a.reverse ++ r.passed, (e :: back.takeWhile isBlank) ++ d :: b⟩ := by
    rw [hn]
    simp [pass]
  rw [hpass, skipBlank_blanks _ hmore hd, hpassed]

def Position.onto (p : Position L) (rest : List Char) : Position L :=
  { p with reader := ⟨p.reader.passed, rest⟩ }

namespace CommandTree

variable {t : CommandTree L} {source : L.Source} {p q r : Position L} {layer : NodeId → Nat}
  {n : Nat} {c : Context L} {line : Reader}

/-! ### Positions that all ink leads to -/

/-- Whether steps lead to a position in every line that goes on with ink there. -/
def Steady (t : CommandTree L) (source : L.Source) (p : Position L) : Prop :=
  ∀ d b, isBlank d = false → ∃ choices, Run t source
    (.start (⟨[], p.reader.passed.reverse ++ d :: b⟩ : Reader).skipBlank) choices (p.onto (d :: b))

theorem Run.snoc {choices : List Nat} (h : Run t source p choices q) (hq : q.reader.rest ≠ [])
    {i : Nat} (hs : Step t source q i r) : Run t source p (choices ++ [i]) r := by
  induction h with
  | done p => exact .step hq hs (.done _)
  | step hp hs' _ ih => exact .step hp hs' (ih hq hs)

theorem steady_start (cs : List Char) :
    Steady t source (.start (⟨[], cs⟩ : Reader).skipBlank) := by
  intro d b hd
  obtain ⟨blanks, hpassed, hblank⟩ := Reader.passed_skipBlank ⟨[], cs⟩
  have hmine : (⟨[], cs⟩ : Reader).skipBlank.passed = blanks.reverse := by
    rw [← List.reverse_reverse (Reader.passed _), hpassed]
    rfl
  have hskip := Reader.skipBlank_blanks [] hblank hd b
  refine ⟨[], ?_⟩
  unfold Position.onto Position.start
  simp only [Reader.cursor, hmine, List.reverse_reverse, hskip, List.append_nil]
  exact .done _

theorem Abreast.eq_onto {q' : Position L} (h : Abreast q q') {rest : List Char}
    (hreader : q'.reader = ⟨q.reader.passed, rest⟩) : q' = q.onto rest := by
  have hcontext := h.context (by rw [hreader]; rfl)
  obtain ⟨closed, node, context, reader⟩ := q'
  obtain rfl : closed = _ := h.closed
  obtain rfl : node = _ := h.node
  obtain rfl : context = _ := hcontext
  obtain rfl : reader = _ := hreader
  rfl

theorem Steady.step (hL : L.ReadsLocally) (h : t.Steady source p) (hink : p.reader.AtInk) {i : Nat}
    (hs : Step t source p i q) :
    ∃ n c, Takes t source p n c q ∧ ((p.reader.pass n).rest ≠ [] → t.Steady source q) := by
  obtain ⟨n, c, ht, halike⟩ := hs.movesAlike hL
  refine ⟨n, c, ht, fun hrest d b hd => ?_⟩
  obtain ⟨e, back, hback⟩ := List.exists_cons_of_ne_nil hrest
  have he : isBlank e = true := ht.isBlank_head hback
  obtain ⟨a, more, hsplit, hpassed, hskip⟩ := Reader.pass_skipBlank hback he
  rw [← ht.reader] at hpassed hskip
  obtain ⟨d₀, ds, hfirst, hd₀⟩ := hink
  obtain ⟨a', rfl⟩ : ∃ a', a = d₀ :: a' := by
    cases a with
    | nil =>
      -- the step would have passed nothing, and stand in front of a blank
      rw [hfirst, List.nil_append] at hsplit
      rw [(List.cons.inj hsplit).1, he] at hd₀
      cases hd₀
    | cons x a' =>
      rw [hfirst] at hsplit
      exact ⟨a', by rw [(List.cons.inj hsplit).1]⟩
  obtain ⟨choices, hrun⟩ := h d₀ (a' ++ e :: (more ++ d :: b)) hd₀
  have halike' : p.reader.Alike e back (more ++ d :: b)
      ⟨p.reader.passed, d₀ :: a' ++ e :: (more ++ d :: b)⟩ :=
    ⟨p.reader.passed, d₀ :: a', by rw [← hsplit], rfl⟩
  obtain ⟨q', c', hs', ht', habreast⟩ := halike e back (more ++ d :: b) _ he halike' (by
    rw [hback]
    exact Nat.lt_succ_self _)
  have hq' : q' = q.onto (d :: b) := habreast.eq_onto (ht'.reader.trans (hskip d b hd))
  have htext : q.reader.passed.reverse ++ d :: b =
      p.reader.passed.reverse ++ d₀ :: (a' ++ e :: (more ++ d :: b)) := by
    rw [hpassed]
    simp
  refine ⟨choices ++ [i], ?_⟩
  rw [htext, ← hq']
  exact hrun.snoc (List.cons_ne_nil _ _) hs'

/-! ### The positions on the way through a line -/

/-- What is known of the positions on the way through a line: all ink leads to them, and the pieces
in front of them end in front of the end of the line. -/
structure Passed (t : CommandTree L) (source : L.Source) (layer : NodeId → Nat) (line : Reader)
    (p : Position L) : Prop where
  tracked : Tracked t source layer line p
  clear : ClearOf p line.totalLength
  steady : t.Steady source p

/-- Whether the context at a position was started at one that was passed, too. -/
def Opened (t : CommandTree L) (source : L.Source) (layer : NodeId → Nat) (line : Reader)
    (p : Position L) : Prop :=
  ∃ p₀, Passed t source layer line p₀ ∧ p₀.node = p.context.root ∧
    p₀.context.console = p.context.startConsole ∧ p₀.reader.cursor = p.context.span.start

theorem passed_start (text : String) :
    Passed t source layer (Reader.ofString text) (.start (Reader.ofString text).skipBlank) where
  tracked := tracked_start text
  clear := ⟨fun _ hd => absurd hd List.not_mem_nil, Or.inl ⟨rfl, rfl, rfl⟩⟩
  steady := steady_start text.toList

theorem Passed.step (hf : Filed t layer) (hL : L.ReadsForward) (h : Passed t source layer line p)
    {i : Nat} (hs : Step t source p i q) (ht : Takes t source p n c q)
    (hrest : (p.reader.pass n).rest ≠ []) (hsteady : t.Steady source q) :
    Passed t source layer line q := by
  have hsome : p.reader.rest ≠ [] := by
    intro hnil
    rw [Reader.rest_pass, hnil, List.drop_nil] at hrest
    exact hrest rfl
  obtain ⟨y, hsettled, -⟩ := h.tracked.settled
  have hlt : (p.reader.pass n).cursor < line.totalLength := by
    have hsum := Reader.cursor_add_remainingLength (p.reader.pass n)
    have hpos := Reader.byteLength_pos hrest
    rw [Reader.totalLength, Reader.text_pass, h.tracked.text] at hsum
    unfold Reader.remainingLength at hsum
    unfold Reader.totalLength
    omega
  exact ⟨h.tracked.step hf hL hsome hs ht, (ht.settled hsettled).clearOf hlt, hsteady⟩

theorem Opened.step (h : Opened t source layer line p) (hp : Passed t source layer line p)
    (ht : Takes t source p n c q) (hq : Passed t source layer line q) :
    Opened t source layer line q := by
  obtain ⟨y, hsettled, -⟩ := hp.tracked.settled
  rcases ht.goesOn with ⟨-, hcontext⟩ | ⟨-, -, hcontext⟩
  · have hgrows := ht.piece.growsTo hsettled.start_le
    obtain ⟨p₀, hp₀, hroot, hconsole, hstart⟩ := h
    refine ⟨p₀, hp₀, ?_, ?_, ?_⟩
    · rw [hcontext, hgrows.root, hroot]
    · rw [hcontext, hgrows.startConsole, hconsole]
    · rw [hcontext, hgrows.start, hstart]
  · refine ⟨q, hq, ?_, ?_, ?_⟩ <;> rw [hcontext] <;> rfl

theorem Ends.passed (hf : Filed t layer) (hL : L.ReadsLocally) (h : Ends t source p r)
    (hp : Passed t source layer line p) (hopened : Opened t source layer line p) :
    ∃ p', Passed t source layer line p' ∧ Opened t source layer line p' ∧
      t.LastStep source p' r := by
  induction h with
  | finished _ => exact ⟨_, hp, hopened, Or.inl rfl⟩
  | stuck _ _ => exact ⟨_, hp, hopened, Or.inl rfl⟩
  | @step p q r i hrest hs hends ih =>
    have hink : p.reader.AtInk := hp.tracked.ink.resolve_left hrest
    obtain ⟨n, c, ht, hsteady⟩ := hp.steady.step hL hink hs
    by_cases hover : (p.reader.pass n).rest = []
    · exact ⟨p, hp, hopened, lastStep_of_over hs ht hover hends⟩
    · have hq := hp.step hf hL.readsForward hs ht hover (hsteady hover)
      exact ih hq (hopened.step hp ht hq)

theorem Filed.parse_passed (hf : Filed t layer) (hL : L.ReadsLocally) (source : L.Source)
    (text : String) :
    ∃ p r, (t.parse text source).chain = r.chain ∧
      Passed t source layer (Reader.ofString text) p ∧
      Opened t source layer (Reader.ofString text) p ∧ t.LastStep source p r := by
  obtain ⟨r, hchain, -, hleaves, hends⟩ := hf.parse_leaves hL.readsForward text source
  have hstart : Passed t source layer (Reader.ofString text) _ := passed_start text
  have hopened : Opened t source layer (Reader.ofString text)
      (.start (Reader.ofString text).skipBlank) := ⟨_, hstart, rfl, rfl, rfl⟩
  rcases hstart.tracked.ink with hnil | hink
  · refine ⟨_, r, hchain, hstart, hopened, ?_⟩
    rcases hleaves with rfl | ⟨i, q, hs, hq⟩
    · exact Or.inl rfl
    · obtain ⟨n, c, ht⟩ := hs.takes hL.readsForward
      refine lastStep_of_over hs ht ?_ hq
      rw [Reader.rest_pass, hnil, List.drop_nil]
  · obtain ⟨p, hp, hpopened, hlast⟩ := (hends hink).passed hf hL hstart hopened
    exact ⟨p, r, hchain, hp, hpopened, hlast⟩

/-! ### The position that completion looks at -/

theorem Opened.tailTarget (h : Opened t source layer line p) (hbefore : p.context.Before
    line.totalLength) (hnodes : p.context.nodes = []) :
    ∃ p₀, Passed t source layer line p₀ ∧ p.context.tailTarget line.line line.totalLength =
      .branch p₀.node p₀.context.console p₀.reader.cursor := by
  obtain ⟨p₀, hp₀, hroot, hconsole, hstart⟩ := h
  have htext : line.line.toList = p₀.reader.passed.reverse ++ ([] ++ p₀.reader.rest) ++ [] := by
    rw [Reader.line, String.toList_ofList, ← hp₀.tracked.text, Reader.text]
    simp
  have hlt := hbefore.start
  rw [← hstart] at hlt
  obtain ⟨d, ds, hrest, hd⟩ : p₀.reader.AtInk :=
    hp₀.tracked.ink.resolve_left fun hnil => Nat.ne_of_lt hlt (hp₀.tracked.cursor_end hnil)
  have htotal : line.totalLength =
      byteLength (p₀.reader.passed.reverse ++ ([] ++ p₀.reader.rest)) := by
    rw [Reader.totalLength, ← hp₀.tracked.text]
    rfl
  have hfirst := firstInk?_append htext (by simp) (by simp [hrest, hd])
  rw [← htotal, if_neg (by simp [hrest]), List.append_nil, ← Reader.cursor_eq] at hfirst
  refine ⟨p₀, hp₀, ?_⟩
  have htail : p.context.tailStop = p₀.reader.cursor := by
    rw [Context.tailStop, hnodes, hstart]
    rfl
  rw [Context.tailTarget_eq, htail, hfirst, hroot, hconsole, Context.standsAt, Context.policyHere,
    hnodes]
  rfl

theorem LastStep.branch (hf : Filed t layer) (hL : L.ReadsForward)
    (hp : Passed t source layer line p) (hopened : Opened t source layer line p)
    (h : t.LastStep source p r) {parent : NodeId} {policy : ConsolePolicy} {start : Nat}
    (htarget : r.chain.target line.line line.totalLength = .branch parent policy start) :
    ∃ p₀, Passed t source layer line p₀ ∧ p₀.node = parent ∧ p₀.context.console = policy ∧
      p₀.reader.cursor = start := by
  obtain ⟨p₀, hp₀, hfound⟩ : ∃ p₀, Passed t source layer line p₀ ∧
      r.chain.target line.line line.totalLength =
        .branch p₀.node p₀.context.console p₀.reader.cursor := by
    rcases h with rfl | ⟨i, n, c, hs, ht, hover⟩
    · by_cases htail : r.context.nodes = [] → r.context.options = []
      · refine ⟨r, hp, hp.tracked.target hp.clear ?_⟩
        rwa [Position.last_chain]
      · -- options without a node: the search goes back to the start of the context
        obtain ⟨hnodes, hoptions⟩ := Classical.not_imp.1 htail
        have hbefore : r.context.Before line.totalLength :=
          hp.clear.2.resolve_left fun hfresh => hoptions hfresh.options
        obtain ⟨p₀, hp₀, hfound⟩ := hopened.tailTarget hbefore hnodes
        refine ⟨p₀, hp₀, ?_⟩
        rw [target_last hp.clear.1, hbefore.target?, Option.getD_none, hfound]
    · have htyped := hp.tracked.typed_over hf hL hs ht hover hp.clear
      rw [htarget] at htyped ⊢
      cases htyped
      exact ⟨p, hp, rfl⟩
  rw [hfound] at htarget
  obtain ⟨hnode, hpolicy, hstart⟩ := CursorTarget.branch.inj htarget
  exact ⟨p₀, hp₀, hnode, hpolicy, hstart⟩

/-! ### Literals behind a position -/

theorem Steady.literal (hf : Filed t layer) (h : t.Steady source p) {child : NodeId}
    {word : String} (hchild : (t.node p.node).literals.find? word = some child)
    (ha : t.Admits source child p.context.console) (hsome : word ≠ "")
    (hink : ∀ d ∈ word.toList, isBlank d = false)
    (hoption : namedOption? (t.node p.node) word.toList = none) :
    ∃ choices r, Run t source
      (.start (⟨[], p.reader.passed.reverse ++ word.toList⟩ : Reader).skipBlank) choices r ∧
      r.reader.rest = [] := by
  obtain ⟨d, ds, hword⟩ := List.exists_cons_of_ne_nil (mt String.toList_eq_nil_iff.1 hsome)
  obtain ⟨choices, hrun⟩ := h d ds (hink d (by simp [hword]))
  rw [← hword] at hrun
  have htoken : token (p.onto word.toList).reader.rest = word.toList := token_eq_self hink
  have hs : Step t source (p.onto word.toList) 0 (t.beyond (p.onto word.toList) child p.context
      ((p.onto word.toList).reader.pass word.length)) := by
    refine .literal (namedOption?_eq_none_iff.1 ?_) ?_ (enters_word hf htoken hchild ha)
    · rwa [htoken]
    · unfold NamesLiteral
      rwa [htoken, String.ofList_toList]
  refine ⟨_, _, hrun.snoc ?_ hs, ?_⟩
  · show word.toList ≠ []
    rw [hword]
    exact List.cons_ne_nil _ _
  · rw [reader_beyond]
    refine skipBlank_of_rest_nil ?_
    rw [Reader.rest_pass, ← String.length_toList]
    exact List.drop_length

theorem Filed.literal_of_child (hf : Filed t layer) (ht : t.Tidied) {parent child : NodeId}
    {word : String} (hchild : child ∈ (t.node parent).children.values)
    (hkind : (t.node child).kind = .literal word) :
    (t.node parent).literals.find? word = some child := by
  obtain ⟨⟨name, id⟩, he, rfl⟩ := List.mem_map.1 hchild
  obtain rfl : word = name := by
    have hname := ((hf parent).child _ he).2.2
    rwa [Node.name, hkind] at hname
  refine (ht parent).literal word id ((Keyed.find?_eq_some_iff (ht parent).children).2 he) ?_
  rw [hkind]
  rfl

end CommandTree

/-! ### What a literal suggests -/

theorem Suggestions.create?_singleton (line : String) (s : Suggestion) :
    Suggestions.create? line [s] = some ⟨s.span, [s]⟩ := by
  simp [create?, hullOf, expandAll, Suggestion.expand?, dedupe, sort, insertLast]

/-- A literal suggests nothing but its name, in the place of all that is typed. -/
theorem NodeKind.suggest?_literal (around : L.Surroundings) (raw : String → Option String)
    (draft : Draft) (hnew : draft.found = []) (word : String) {own : Suggestions}
    (h : (NodeKind.literal word : NodeKind L).suggest? around raw draft = some own) :
    ∀ s ∈ own.list, s = .plain draft.span word := by
  have hfound : (draft.suggestIfMatching word).found = [] ∨
      (draft.suggestIfMatching word).found = [.plain draft.span word] := by
    unfold Draft.suggestIfMatching Draft.suggest
    split
    · split
      · exact Or.inl hnew
      · exact Or.inr (by simp [Draft.push, hnew])
    · exact Or.inl hnew
  have hown : Suggestions.create? _ (draft.suggestIfMatching word).found = some own := h
  rcases hfound with hnil | hone
  · rw [hnil] at hown
    obtain rfl := Option.some.inj hown
    simp [Suggestions.none]
  · rw [hone, Suggestions.create?_singleton] at hown
    obtain rfl := Option.some.inj hown
    simp

namespace CommandTree

variable {t : CommandTree L} {source : L.Source} {line word : String} {parent child : NodeId}
  {policy : ConsolePolicy} {start : Nat}

/-! ### Completing with a literal -/

/-- Whether completion of a parsed line asks a child of a node for suggestions, from an offset
on. -/
structure Consults (t : CommandTree L) (source : L.Source) (line : String) (parent : NodeId)
    (policy : ConsolePolicy) (start : Nat) (child : NodeId) : Prop where
  target : (t.parse line source).chain.target line (bytes line) = .branch parent policy start
  pending : t.pendingOption? source parent policy line start = none
  mem : child ∈ (t.node parent).children.values
  usable : (t.node child).canUse source policy = true

theorem Consults.steady (h : t.Consults source line parent policy start child)
    {layer : NodeId → Nat} (hf : Filed t layer) (hL : L.ReadsLocally) :
    ∃ p, t.Steady source p ∧ p.node = parent ∧ p.context.console = policy ∧
      p.reader.cursor = start ∧ p.reader.text = line.toList := by
  obtain ⟨p, r, hchain, hp, hopened, hlast⟩ := hf.parse_passed hL source line
  have htarget : r.chain.target (Reader.ofString line).line (Reader.ofString line).totalLength =
      .branch parent policy start := by
    rw [Reader.line_ofString, ← hchain]
    exact h.target
  obtain ⟨p₀, hp₀, hnode, hpolicy, hstart⟩ :=
    hlast.branch hf hL.readsForward hp hopened htarget
  exact ⟨p₀, hp₀.steady, hnode, hpolicy, hstart, hp₀.tracked.text⟩

/-- The suggestion of a literal that completion asks results in a line that parses completely. -/
theorem consulted_literal_complete (hL : L.IsBuiltin) (ht : t.Reachable)
    (h : t.Consults source line parent policy start child)
    (hkind : (t.node child).kind = .literal word) (hsome : word ≠ "")
    (hink : ∀ d ∈ word.toList, isBlank d = false)
    (hoption : namedOption? (t.node parent) word.toList = none) (around : L.Surroundings) :
    ∃ g own, t.complete? around (t.parse line source) = some g ∧
      (t.node child).kind.suggest? around ((t.parse line source).chain.outer.raw? line)
        (Draft.new line start) = some own ∧
      ∀ s ∈ own.list, (∃ s' ∈ g.list, s'.applyTo? line = s.applyTo? line) ∧
        ∃ result, s.applyTo? line = some result ∧
          (t.parse result source).isComplete = true := by
  obtain ⟨layer, hg⟩ := ht.grown
  have hf := hg.filed
  have hforward := hL.readsLocally.readsForward
  obtain ⟨p, hsteady, rfl, rfl, rfl, htext⟩ := h.steady hf hL.readsLocally
  have hcuts : CutsAt line p.reader.cursor := ⟨_, _, htext.symm, (Reader.cursor_eq _).symm⟩
  obtain ⟨g, own, hfound, hown, hkept⟩ := completeTarget?_child hL.suggestsInside around
    ((t.parse line source).chain.outer.raw? line) (t.parse line source).chain.last.options hcuts
    h.pending h.mem h.usable
  refine ⟨g, own, ?_, hown, fun s hs => ⟨hkept s hs, ?_⟩⟩
  · rw [hf.complete?_parse hforward, h.target]
    exact hfound
  -- the word takes the place of all that the position has left to read
  rw [hkind] at hown
  obtain rfl := NodeKind.suggest?_literal around _ _ rfl word hown s hs
  have hline : line.toList = p.reader.passed.reverse ++ p.reader.rest ++ [] := by
    rw [List.append_nil]
    exact htext.symm
  have hfront : byteLength p.reader.passed.reverse = (Draft.new line p.reader.cursor).span.start :=
    (Reader.cursor_eq _).symm.trans (Nat.min_eq_left hcuts.le).symm
  have hall : byteLength (p.reader.passed.reverse ++ p.reader.rest) =
      (Draft.new line p.reader.cursor).span.stop := congrArg byteLength htext
  refine ⟨_, Suggestion.applyTo?_of_split hline hfront hall, ?_⟩
  rw [List.append_nil]
  obtain ⟨d, hd⟩ := List.exists_mem_of_ne_nil _ (mt String.toList_eq_nil_iff.1 hsome)
  refine (parse_complete_iff_run hforward ht _ source ⟨d, ?_, hink d hd⟩).1.2 ?_
  · rw [String.toList_ofList]
    exact List.mem_append_right _ hd
  · rw [Reader.ofString, String.toList_ofList]
    exact hsteady.literal hf (hf.literal_of_child hg.tidied h.mem hkind)
      ((canUse_iff_admits ..).1 h.usable) hsome hink hoption

/-- A command that is done some number of times, with another one behind it. -/
def chores : CommandTree .builtins := built [
    { Blueprint.literal "do" with
      options := [.option "times" Builtin.word]
      children := [.literal "rest",
        { Blueprint.literal "then" with forward := some ⟨root, none, false⟩ }] }]

theorem reachable_chores : chores.Reachable := reachable_built _

example : (chores.complete? () (chores.parse "do --times 5 then do r" ())).map
    (fun g => g.list.filterMap (·.applyTo? "do --times 5 then do r")) =
      some ["do --times 5 then do rest"] := by decide +kernel

theorem consulted_literal_complete_chores :
    let line := "do --times 5 then do r"
    chores.Consults () line 1 .inherited 21 3 ∧ (chores.node 3).kind = .literal "rest" ∧
      "rest" ≠ "" ∧ (∀ d ∈ "rest".toList, isBlank d = false) ∧
      namedOption? (chores.node 1) "rest".toList = none ∧
      ∃ g own, chores.complete? () (chores.parse line ()) = some g ∧
        (chores.node 3).kind.suggest? () ((chores.parse line ()).chain.outer.raw? line)
          (Draft.new line 21) = some own ∧
        ∀ s ∈ own.list, (∃ s' ∈ g.list, s'.applyTo? line = s.applyTo? line) ∧
          ∃ result, s.applyTo? line = some result ∧ (chores.parse result ()).isComplete = true := by
  intro line
  have hconsults : chores.Consults () line 1 .inherited 21 3 :=
    ⟨by decide +kernel, Option.isNone_iff_eq_none.1 (by decide +kernel), by decide +kernel,
      by decide +kernel⟩
  have hkind : (chores.node 3).kind = .literal "rest" :=
    NodeKind.eq_literal (by decide +kernel) (by decide +kernel)
  have hplain : ("rest".toList.all fun d => !isBlank d) = true := by decide
  have hink : ∀ d ∈ "rest".toList, isBlank d = false := fun d hd => by
    simpa using List.all_eq_true.1 hplain d hd
  have hoption : namedOption? (chores.node 1) "rest".toList = none := by decide +kernel
  exact ⟨hconsults, hkind, by decide, hink, hoption, consulted_literal_complete
    Language.isBuiltin_builtins reachable_chores hconsults hkind (by decide) hink hoption ()⟩

end CommandTree

end CommandConsole
