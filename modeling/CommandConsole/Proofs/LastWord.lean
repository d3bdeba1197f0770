import CommandConsole.Proofs.Filing
import CommandConsole.Proofs.Grouping
import CommandConsole.Proofs.Tokens

/-!
# The last word of a line

Parsing stands at a position in front of the last word of a line before it takes the word. Two
lines that have the same tokens there are read up to the same offset, so the position is the same
for both, and it is where the word is completed.
-/

namespace CommandConsole

open Text

variable {L : Language}

/-! ### What was matched in front of an offset -/

/-- What a context has matched, or a part of it. -/
structure Stretch where
  root : NodeId
  nodes : List MatchedNode
  options : List MatchedOption
  deriving DecidableEq

def Stretch.pieces (s : Stretch) : List Span :=
  s.nodes.map (·.span) ++ s.options.map fun o => ⟨o.nameSpan.start, o.valueSpan.stop⟩

def Context.stretch (c : Context L) : Stretch := ⟨c.root, c.nodes, c.options⟩

def Context.inFrontOf (c : Context L) (x : Nat) : Stretch :=
  ⟨c.root, c.nodes.filter (·.span.start < x), c.options.filter (·.nameSpan.start < x)⟩

def Chain.inFrontOf (ch : Chain L) (x : Nat) : List Stretch := ch.toList.map (·.inFrontOf x)

def Position.pieces (p : Position L) : List Span := p.chain.toList.flatMap Context.pieces

def Position.stretches (p : Position L) : List Stretch := p.chain.toList.map Context.stretch

theorem Context.pieces_inFrontOf (c : Context L) (x : Nat) :
    (c.inFrontOf x).pieces = c.pieces.filter (·.start < x) := by
  simp [Stretch.pieces, inFrontOf, pieces, List.filter_map, Function.comp_def]

theorem Chain.pieces_inFrontOf (ch : Chain L) (x : Nat) :
    (ch.inFrontOf x).flatMap Stretch.pieces =
      (ch.toList.flatMap Context.pieces).filter (·.start < x) := by
  unfold inFrontOf
  rw [List.flatMap_map, List.filter_flatMap]
  exact List.flatMap_congr fun c _ => c.pieces_inFrontOf x

theorem Position.pieces_stretches (p : Position L) :
    p.stretches.flatMap Stretch.pieces = p.pieces := List.flatMap_map ..

theorem Context.inFrontOf_eq {c : Context L} {x : Nat} (h : ∀ s ∈ c.pieces, s.start < x) :
    c.inFrontOf x = c.stretch := by
  unfold pieces at h
  have hnodes : c.nodes.filter (·.span.start < x) = c.nodes := by
    refine List.filter_eq_self.2 fun m hm => decide_eq_true ?_
    exact h m.span (List.mem_append_left _ (List.mem_map_of_mem hm))
  have hoptions : c.options.filter (·.nameSpan.start < x) = c.options := by
    refine List.filter_eq_self.2 fun o ho => decide_eq_true ?_
    exact h ⟨o.nameSpan.start, o.valueSpan.stop⟩
      (List.mem_append_right _ (List.mem_map.2 ⟨o, ho, rfl⟩))
  rw [inFrontOf, hnodes, hoptions, stretch]

theorem Position.inFrontOf_eq {p : Position L} {x : Nat} (h : ∀ s ∈ p.pieces, s.start < x) :
    p.chain.inFrontOf x = p.stretches :=
  List.map_congr_left fun c hc =>
    Context.inFrontOf_eq fun s hs => h s (List.mem_flatMap.2 ⟨c, hc, hs⟩)

/-! ### Offsets in front of the last word -/

section Words

variable {s : Reader} {front word : List Char}

theorem skipBlank_le_word (htext : s.text = front ++ word)
    (hword : ∀ d ∈ word, isBlank d = false) (hle : s.cursor ≤ byteLength front) :
    s.skipBlank.cursor ≤ byteLength front := by
  obtain ⟨m, rfl, hrest⟩ := append_of_byteLength_le htext (s.cursor_eq ▸ hle)
  have hblanks : s.rest.takeWhile isBlank <+: m := by
    have hnone : word.takeWhile isBlank = [] := by
      cases word with
      | nil => rfl
      | cons d word => simp [hword d (List.mem_cons_self ..)]
    rw [hrest, List.takeWhile_append]
    split
    · simp [hnone]
    · exact List.takeWhile_prefix _
  obtain ⟨m', hm'⟩ := hblanks
  rw [Reader.skipBlank_eq_pass, Reader.cursor_pass, Reader.cursor_eq,
    ← List.prefix_iff_eq_take.1 (List.takeWhile_prefix isBlank), byteLength_append, ← hm',
    byteLength_append]
  omega

theorem nil_of_endsToken {cs : List Char} (hends : endsToken cs = true)
    (hink : ∀ d ∈ cs, isBlank d = false) : cs = [] := by
  cases cs with
  | nil => rfl
  | cons d cs =>
    have hblank : isBlank d = true := hends
    rw [hink d List.mem_cons_self] at hblank
    cases hblank

theorem rest_nil_in_word (htext : s.text = front ++ word)
    (hword : ∀ d ∈ word, isBlank d = false) (hends : endsToken s.rest = true)
    (hlt : byteLength front < s.cursor) : s.rest = [] := by
  obtain ⟨m, -, hsplit⟩ :=
    append_of_byteLength_le htext.symm (Nat.le_of_lt (s.cursor_eq ▸ hlt))
  refine nil_of_endsToken hends fun d hd => hword d ?_
  rw [hsplit]
  exact List.mem_append_right _ hd

end Words

namespace CommandTree

variable {t : CommandTree L} {source : L.Source} {p q r : Position L} {layer : NodeId → Nat}
  {n : Nat} {c : Context L} {line : Reader} {front word : List Char}

/-- What is known of every position on the way through a line. -/
structure Tracked (t : CommandTree L) (source : L.Source) (layer : NodeId → Nat) (line : Reader)
    (p : Position L) : Prop where
  guarded : t.Guarded source layer p
  laid : ∃ spans, Laid line p spans
  settled : ∃ y, Settled p y ∧
    (y = 0 ∧ p.closed = [] ∧ p.context.FreshAt p.reader.cursor ∨ ∃ s ∈ p.pieces, s.stop = y)
  ink : p.reader.rest = [] ∨ p.reader.AtInk

theorem tracked_start (text : String) :
    Tracked t source layer (Reader.ofString text) (.start (Reader.ofString text).skipBlank) where
  guarded := guarded_start _
  laid := ⟨[], laid_start _⟩
  settled := ⟨0, settled_start text, Or.inl ⟨rfl, rfl, rfl, rfl, rfl⟩⟩
  ink := Reader.skipBlank_cases _

theorem Tracked.step (hf : Filed t layer) (hL : L.ReadsForward)
    (h : Tracked t source layer line p) (hrest : p.reader.rest ≠ []) {i : Nat}
    (hs : Step t source p i q) (ht : Takes t source p n c q) :
    Tracked t source layer line q := by
  have hink : p.reader.AtInk := h.ink.resolve_left hrest
  obtain ⟨spans, hlaid⟩ := h.laid
  obtain ⟨y, hsettled, -⟩ := h.settled
  have hnext := hlaid.takes ht hink
  refine ⟨h.guarded.step hf hs, ⟨_, hnext⟩, ⟨_, ht.settled hsettled, Or.inr ?_⟩,
    hs.cases_reader hL hink⟩
  refine ⟨p.taken n, ?_, rfl⟩
  rw [Position.pieces, Position.toList_chain]
  exact hnext.pieces.mem_iff.1 (List.mem_append_right _ (List.mem_singleton_self _))

theorem Tracked.text (h : Tracked t source layer line p) : p.reader.text = line.text := by
  obtain ⟨spans, hlaid⟩ := h.laid
  exact hlaid.text

theorem Tracked.cursor_le (h : Tracked t source layer line p) :
    p.reader.cursor ≤ line.totalLength := by
  have hsum := Reader.cursor_add_remainingLength p.reader
  rw [Reader.totalLength, h.text] at hsum
  exact Nat.le.intro hsum

theorem Tracked.cursor_end (h : Tracked t source layer line p) (hrest : p.reader.rest = []) :
    p.reader.cursor = line.totalLength := by
  rw [Reader.cursor_of_rest_nil hrest, Reader.totalLength, h.text]
  rfl

theorem Tracked.cursor_over (h : Tracked t source layer line p)
    (hover : (p.reader.pass n).rest = []) : (p.reader.pass n).cursor = line.totalLength := by
  rw [Reader.cursor_of_rest_nil hover, Reader.totalLength, Reader.text_pass, h.text]
  rfl

theorem Tracked.piece (h : Tracked t source layer line p) {s : Span} (hs : s ∈ p.pieces) :
    s.start < s.stop ∧ s.stop ≤ p.reader.cursor ∧
      (p.reader.rest ≠ [] → s.stop < p.reader.cursor) := by
  obtain ⟨spans, hlaid⟩ := h.laid
  rw [Position.pieces, Position.toList_chain] at hs
  have hmem : s ∈ spans := hlaid.pieces.mem_iff.2 hs
  have hbehind := fun hrest => hlaid.behind hrest s hmem
  refine ⟨(hlaid.starts s hmem).1, ?_, hbehind⟩
  by_cases hrest : p.reader.rest = []
  · obtain ⟨r, hseek, -⟩ := hlaid.ends s hmem
    obtain ⟨htext, hcursor⟩ := Reader.text_seek? hseek
    have hsum := Reader.cursor_add_remainingLength r
    rw [hcursor, Reader.totalLength, htext] at hsum
    rw [h.cursor_end hrest]
    exact Nat.le.intro hsum
  · exact Nat.le_of_lt (hbehind hrest)

theorem Tracked.start_lt (h : Tracked t source layer line p) {x : Nat}
    (hx : p.reader.cursor ≤ x) : ∀ s ∈ p.pieces, s.start < x := by
  intro s hs
  obtain ⟨hlt, hle, -⟩ := h.piece hs
  exact Nat.lt_of_lt_of_le hlt (Nat.le_trans hle hx)

theorem Tracked.not_mem_nodes (h : Tracked t source layer line p) {m : MatchedNode}
    (hlt : p.reader.cursor < m.span.stop) : m ∉ p.context.nodes := by
  intro hm
  have hpiece : m.span ∈ p.pieces := by
    rw [Position.pieces, Position.toList_chain]
    refine List.mem_flatMap.2 ⟨p.context, List.mem_append_right _ (List.mem_singleton_self _), ?_⟩
    exact List.mem_append_left _ (List.mem_map_of_mem hm)
  exact Nat.not_le.2 hlt (h.piece hpiece).2.1

theorem Tracked.stop_le (h : Tracked t source layer line p) :
    ∀ d ∈ p.chain.toList, d.span.stop ≤ p.reader.cursor := by
  obtain ⟨y, hsettled, -⟩ := h.settled
  intro d hd
  rw [Position.toList_chain] at hd
  rcases List.mem_append.1 hd with hd | hd
  · have hstop := (hsettled.closed d hd).stop
    exact Nat.le_trans (Nat.le_of_lt_succ hstop) hsettled.le_cursor
  · rw [List.mem_singleton.1 hd]
    exact Nat.le_of_lt_succ hsettled.before.stop

theorem Tracked.clearOf (h : Tracked t source layer line p) {x : Nat}
    (hx : ∀ s ∈ p.pieces, s.stop < x) : ClearOf p x := by
  obtain ⟨y, hsettled, ⟨-, hclosed, hfresh⟩ | ⟨s, hs, rfl⟩⟩ := h.settled
  · exact ⟨by simp [hclosed], Or.inl hfresh⟩
  · exact hsettled.clearOf (hx s hs)

theorem Tracked.rest_eq (h : Tracked t source layer line p) (htext : line.text = front ++ word)
    (hcursor : p.reader.cursor = byteLength front) :
    p.reader.passed.reverse = front ∧ p.reader.rest = word := by
  have hsplit : p.reader.passed.reverse ++ p.reader.rest = front ++ word := h.text.trans htext
  rw [Reader.cursor_eq] at hcursor
  obtain ⟨m, hfront, hrest⟩ := append_of_byteLength_le hsplit (Nat.le_of_eq hcursor)
  rw [hfront, byteLength_append] at hcursor
  obtain rfl := eq_nil_of_byteLength (show byteLength m = 0 by omega)
  exact ⟨by rw [hfront, List.append_nil], hrest⟩

theorem Tracked.same_node {line' : Reader} (hp : Tracked t source layer line p)
    (hq : Tracked t source layer line' q) (hsame : p.stretches = q.stretches) :
    p.node = q.node ∧ p.context.console = q.context.console := by
  have hnodes : ∀ p : Position L, p.stretches.flatMap (·.nodes) =
      (p.closed ++ [p.context]).flatMap (·.nodes) := by
    intro p
    rw [Position.stretches, Position.toList_chain, List.flatMap_map]
    rfl
  have hlast : p.context.stretch = q.context.stretch := by
    rw [Position.stretches, Position.stretches, Position.toList_chain, Position.toList_chain,
      List.map_append, List.map_append] at hsame
    exact List.singleton_inj.1 (List.append_inj' hsame rfl).2
  have hroot : p.context.root = q.context.root := congrArg Stretch.root hlast
  have hmine : p.context.nodes = q.context.nodes := congrArg Stretch.nodes hlast
  constructor
  · rw [← hp.guarded.descends.stands, ← hq.guarded.descends.stands, Context.standsAt,
      Context.standsAt, hroot, hmine]
  · rw [hp.guarded.policy, hq.guarded.policy, ← hnodes, ← hnodes, hsame]

/-! ### The position in front of the last word -/

/-- Whether parsing ends at a position, or behind one more step to the end of the line. -/
def LastStep (t : CommandTree L) (source : L.Source) (p r : Position L) : Prop :=
  r = p ∨ ∃ i n c, Step t source p i r ∧ Takes t source p n c r ∧ (p.reader.pass n).rest = []

theorem Takes.rest_over (h : Takes t source p n c q) (hover : (p.reader.pass n).rest = []) :
    q.reader.rest = [] := by
  rw [h.reader]
  exact skipBlank_of_rest_nil hover

theorem lastStep_of_over {i : Nat} (hs : Step t source p i q) (ht : Takes t source p n c q)
    (hover : (p.reader.pass n).rest = []) (h : Ends t source q r) : t.LastStep source p r := by
  obtain rfl := h.eq_of_rest_nil (ht.rest_over hover)
  exact Or.inr ⟨i, n, c, hs, ht, hover⟩

theorem Ends.lastStep (hf : Filed t layer) (hL : L.ReadsForward) (h : Ends t source p r)
    (hp : Tracked t source layer line p) (htext : line.text = front ++ word)
    (hword : ∀ d ∈ word, isBlank d = false) (hle : p.reader.cursor ≤ byteLength front) :
    ∃ p', Tracked t source layer line p' ∧ p'.reader.cursor ≤ byteLength front ∧
      t.LastStep source p' r := by
  induction h with
  | finished _ => exact ⟨_, hp, hle, Or.inl rfl⟩
  | stuck _ _ => exact ⟨_, hp, hle, Or.inl rfl⟩
  | @step p q r i hrest hs hends ih =>
    obtain ⟨n, c, ht⟩ := hs.takes hL
    rcases Nat.lt_or_ge (byteLength front) q.reader.cursor with hlt | hge
    · have hpass : (p.reader.pass n).text = front ++ word := by
        rw [Reader.text_pass, hp.text, htext]
      have hover : (p.reader.pass n).rest = [] := by
        refine rest_nil_in_word hpass hword ht.ends (Nat.lt_of_not_le fun hle => ?_)
        rw [ht.reader] at hlt
        exact Nat.not_le.2 hlt (skipBlank_le_word hpass hword hle)
      exact ⟨p, hp, hle, lastStep_of_over hs ht hover hends⟩
    · exact ih (hp.step hf hL hrest hs ht) hge

/-- Parsing stands at a position in front of the last word before it takes the word, if it takes
it. -/
theorem Filed.parse_lastStep (hf : Filed t layer) (hL : L.ReadsForward) (source : L.Source)
    (text : String) (htext : text.toList = front ++ word)
    (hword : ∀ d ∈ word, isBlank d = false) :
    ∃ p r, (t.parse text source).chain = r.chain ∧ (t.parse text source).reader = r.reader ∧
      Tracked t source layer (Reader.ofString text) p ∧ p.reader.cursor ≤ byteLength front ∧
      t.LastStep source p r := by
  obtain ⟨r, hchain, hreader, hleaves, hends⟩ := hf.parse_leaves hL text source
  have hstart : Tracked t source layer (Reader.ofString text)
      (.start (Reader.ofString text).skipBlank) := tracked_start text
  have hle : (Reader.ofString text).skipBlank.cursor ≤ byteLength front :=
    skipBlank_le_word htext hword (Nat.zero_le _)
  rcases hstart.ink with hnil | hink
  · refine ⟨_, r, hchain, hreader, hstart, hle, ?_⟩
    rcases hleaves with rfl | ⟨i, q, hs, hq⟩
    · exact Or.inl rfl
    · obtain ⟨n, c, ht⟩ := hs.takes hL
      have hover : ((Reader.ofString text).skipBlank.pass n).rest = [] := by
        rw [Reader.rest_pass, show (Reader.ofString text).skipBlank.rest = [] from hnil,
          List.drop_nil]
      exact lastStep_of_over hs ht hover hq
  · obtain ⟨p, hp, hcursor, hlast⟩ := (hends hink).lastStep hf hL hstart htext hword hle
    exact ⟨p, r, hchain, hreader, hp, hcursor, hlast⟩

theorem Takes.contexts_over (h : Takes t source p n c q) (hover : (p.reader.pass n).rest = []) :
    q.chain.toList = p.closed ++ [c] := by
  rw [Position.toList_chain]
  rcases h.goesOn with ⟨hclosed, hcontext⟩ | ⟨hrest, -⟩
  · rw [hclosed, hcontext]
  · exact absurd hover hrest

theorem Takes.pieces_over (h : Takes t source p n c q) (hover : (p.reader.pass n).rest = []) :
    q.pieces.Perm (p.taken n :: p.pieces) := by
  have hp : p.pieces = p.closed.flatMap Context.pieces ++ p.context.pieces := by
    simp [Position.pieces, Position.toList_chain]
  have hq : q.pieces = p.closed.flatMap Context.pieces ++ c.pieces := by
    simp [Position.pieces, h.contexts_over hover]
  rw [hp, hq]
  exact (h.piece.pieces_perm.append_left _).trans List.perm_middle

theorem Takes.inFrontOf_over (h : Takes t source p n c q) (hover : (p.reader.pass n).rest = [])
    {x : Nat} (hx : x ≤ p.reader.cursor) : q.chain.inFrontOf x = p.chain.inFrontOf x := by
  have hlast : c.inFrontOf x = p.context.inFrontOf x := by
    have hno : ¬p.reader.cursor < x := Nat.not_lt.2 hx
    cases h.piece with
    | node => simp [Context.inFrontOf, Context.enter, hno]
    | option _ _ _ _ _ _ => simp [Context.inFrontOf, Context.takeOption, Context.capture, hno]
  rw [Chain.inFrontOf, Chain.inFrontOf, h.contexts_over hover, Position.toList_chain,
    List.map_append, List.map_append, List.map_singleton, List.map_singleton, hlast]

theorem LastStep.inFrontOf (hp : Tracked t source layer line p) (h : t.LastStep source p r)
    (hcursor : p.reader.cursor = byteLength front) :
    r.chain.inFrontOf (byteLength front) = p.stretches := by
  rw [← Position.inFrontOf_eq (hp.start_lt (Nat.le_of_eq hcursor))]
  rcases h with rfl | ⟨i, n, c, -, ht, hover⟩
  · rfl
  · exact ht.inFrontOf_over hover (Nat.le_of_eq hcursor.symm)

/-! ### Literals at the end of a line -/

theorem LastStep.enters (hp : Tracked t source layer line p) (h : t.LastStep source p r)
    {m : MatchedNode} (hm : r.context.nodes.getLast? = some m)
    (hlt : p.reader.cursor < m.span.stop) :
    ∃ taken behind, Reads t p m.node taken behind ∧ m.span.stop = behind.cursor ∧
      (t.NamesLiteral p m.node ∨ m.node ∈ (t.node p.node).arguments) ∧
      t.Admits source m.node p.context.console := by
  have hnew := hp.not_mem_nodes hlt
  rcases h with rfl | ⟨i, n, c, hs, -, -⟩
  · exact absurd (List.mem_of_getLast? hm) hnew
  · rcases hs.gives_or_enters with ⟨name, option, -, hg⟩ | ⟨child, hchild, hent⟩
    · have hnodes : r.context.nodes = p.context.nodes := by
        cases hg
        rfl
      exact absurd (List.mem_of_getLast? (hnodes ▸ hm)) hnew
    · obtain ⟨taken, behind, hr, ha, rfl⟩ := hent
      rcases beyond_cases (t := t) p child taken behind with heq | ⟨forward, -, -, heq⟩
      · rw [heq] at hm
        obtain rfl := Option.some.inj (List.getLast?_concat.symm.trans hm)
        exact ⟨taken, behind, hr, rfl, hchild, ha⟩
      · rw [heq] at hm
        cases hm

/-- A line that ends in a literal was matched from the node above the literal on. -/
theorem LastStep.literal (hf : Filed t layer) (hp : Tracked t source layer line p)
    (h : t.LastStep source p r) (htext : line.text = front ++ word) (hsome : word ≠ [])
    (hle : p.reader.cursor ≤ byteLength front) {m : MatchedNode}
    (hm : r.context.nodes.getLast? = some m)
    (hkind : (t.node m.node).kind = .literal (String.ofList word))
    (hstop : m.span.stop = line.totalLength) :
    p.reader.rest = word ∧ p.reader.cursor = byteLength front ∧
      (t.node p.node).literals.find? (String.ofList word) = some m.node ∧
      t.Admits source m.node p.context.console := by
  have hlength : line.totalLength = byteLength front + byteLength word := by
    rw [Reader.totalLength, htext, byteLength_append]
  have hpos := Reader.byteLength_pos hsome
  obtain ⟨taken, behind, hr, hbehind, hchild, ha⟩ := h.enters hp hm (by omega)
  cases hr with
  | argument hk _ _ =>
    rw [hkind] at hk
    cases hk
  | @literal name hk htoken =>
    obtain rfl : String.ofList word = name := NodeKind.literal.inj (hkind.symm.trans hk)
    rw [String.toList_ofList] at htoken
    have hover : (p.reader.pass (String.ofList word).length).rest = [] := by
      refine Reader.rest_nil_of_cursor ?_
      rw [← hbehind, hstop, Reader.totalLength, Reader.totalLength, Reader.text_pass, hp.text]
    have hrest : p.reader.rest = word := by
      have hsplit := token_append_dropWhile p.reader.rest
      rw [htoken] at hsplit
      rw [Reader.rest_pass, ← hsplit, ← String.length_toList, String.toList_ofList,
        List.drop_left] at hover
      rw [← hsplit, hover, List.append_nil]
    have hpassed : p.reader.passed.reverse = front := by
      have hmine := hp.text
      rw [htext, Reader.text, hrest] at hmine
      exact List.append_cancel_right hmine
    refine ⟨hrest, by rw [Reader.cursor_eq, hpassed], ?_, ha⟩
    rcases hchild with hn | hmem
    · unfold NamesLiteral at hn
      rwa [htoken] at hn
    · obtain ⟨name, type, hargument⟩ := ((hf p.node).argument m.node hmem).2.2
      rw [hkind] at hargument
      cases hargument

/-! ### Two lines with the same front -/

variable {typed : List Char} {line' : Reader}

theorem Settled.le_of_ink {y : Nat} (h : Settled q y) (hpassed : q.reader.passed.reverse = front)
    {s : Reader} (htext : s.text = front ++ typed) (hink : s.AtInk) (hy : y ≤ s.cursor) :
    byteLength front ≤ s.cursor := by
  obtain ⟨d, ds, hd, hink⟩ := hink
  obtain ⟨before, blanks, hgap, hblank, rfl⟩ := h.gap
  obtain rfl : front = before ++ blanks := hpassed.symm.trans hgap
  rw [Reader.cursor_eq] at hy ⊢
  have hsplit : before ++ (blanks ++ typed) = s.passed.reverse ++ d :: ds := by
    rw [← List.append_assoc, ← htext, Reader.text, hd]
  obtain ⟨u, hu, hsame⟩ := append_of_byteLength_le hsplit hy
  rw [hu, byteLength_append, byteLength_append]
  refine Nat.add_le_add_left (Nat.le_of_not_lt fun hlt => ?_) _
  obtain ⟨m, rfl, hm⟩ := append_of_byteLength_le hsame.symm (Nat.le_of_lt hlt)
  cases m with
  | nil =>
    rw [List.append_nil] at hlt
    exact Nat.lt_irrefl _ hlt
  | cons e m =>
    -- d stands among the blanks
    have hblanked := hblank e (by simp)
    rw [← (List.cons.inj hm).1, hink] at hblanked
    cases hblanked

/-- Two lines with the same tokens in their front are both read up to the end of the front. -/
theorem LastStep.cursor_eq (hp : Tracked t source layer line p) (h : t.LastStep source p r)
    (htext : line.text = front ++ typed) (hle : p.reader.cursor ≤ byteLength front)
    (hq : Tracked t source layer line' q) (hqtext : line'.text = front ++ word)
    (hqcursor : q.reader.cursor = byteLength front) (hqrest : q.reader.rest ≠ [])
    (hkept : r.chain.inFrontOf (byteLength front) = q.stretches) :
    p.reader.cursor = byteLength front := by
  have hpieces : r.pieces.filter (·.start < byteLength front) = q.pieces := by
    rw [Position.pieces, ← Chain.pieces_inFrontOf, hkept, Position.pieces_stretches]
  have hlength : line.totalLength = byteLength front + byteLength typed := by
    rw [Reader.totalLength, htext, byteLength_append]
  refine Nat.le_antisymm hle ?_
  rcases h with rfl | ⟨i, n, c, hs, ht, hover⟩
  · -- ink left in the front would stand where the other line has nothing but blanks
    rcases hp.ink with hnil | hink
    · have hend := hp.cursor_end hnil
      omega
    · obtain ⟨y, hsettled, hy⟩ := hq.settled
      have hyle : y ≤ r.reader.cursor := by
        rcases hy with ⟨rfl, -⟩ | ⟨s, hs, rfl⟩
        · exact Nat.zero_le _
        · rw [← hpieces] at hs
          exact (hp.piece (List.mem_filter.1 hs).1).2.1
      exact hsettled.le_of_ink (hq.rest_eq hqtext hqcursor).1 (hp.text.trans htext) hink hyle
  · -- the last step would take a token out of the front that the other line does not have
    refine Nat.le_of_not_lt fun hlt => ?_
    have hmem : p.taken n ∈ r.pieces.filter (·.start < byteLength front) :=
      List.mem_filter.2 ⟨(ht.pieces_over hover).mem_iff.2 (List.mem_cons_self ..),
        decide_eq_true hlt⟩
    rw [hpieces] at hmem
    have hstop : (p.reader.pass n).cursor < q.reader.cursor := (hq.piece hmem).2.2 hqrest
    have hend := hp.cursor_over hover
    omega

/-! ### Where the last word is completed -/

theorem openAt_of_stop_le {ch : Chain L} {x : Nat} (h : ∀ c ∈ ch.toList, c.span.stop ≤ x)
    (htail : ch.last.nodes = [] → ch.last.options = []) : ch.OpenAt x where
  covers c hc _ hstop := absurd (h c hc) (Nat.not_le.2 hstop)
  tail _ := htail

theorem NamesOption.cursor_eq {name : String} {option : NodeId} (h : t.NamesOption p name option)
    (hink : ∀ d ∈ p.reader.rest, isBlank d = false) :
    (p.reader.pass (2 + name.length)).skipBlank.cursor =
      (p.reader.pass (2 + name.length)).cursor := by
  have hlength : ('-' :: '-' :: name.toList).length = 2 + name.length := by
    rw [List.length_cons, List.length_cons, String.length_toList]
    omega
  have hnil : (p.reader.pass (2 + name.length)).rest = [] := by
    rw [Reader.rest_pass, ← token_eq_self hink, h.1, ← hlength, List.drop_length]
  rw [Reader.skipBlank_eq_pass, Reader.cursor_pass, hnil]
  rfl

theorem Tracked.target (hp : Tracked t source layer line p) (hclear : ClearOf p line.totalLength)
    (htail : p.chain.last.nodes = [] → p.chain.last.options = []) :
    p.chain.target line.line line.totalLength =
      .branch p.node p.context.console p.reader.cursor := by
  obtain ⟨y, hsettled, -⟩ := hp.settled
  have hy : y ≤ line.totalLength := Nat.le_trans hsettled.le_cursor hp.cursor_le
  have hopen : p.chain.OpenAt line.totalLength :=
    openAt_of_stop_le (fun d hd => Nat.le_trans (hp.stop_le d hd) hp.cursor_le) htail
  have hend : p.reader.text = line.text ++ [] := by rw [hp.text, List.append_nil]
  have hink : p.reader.cursor < line.totalLength → p.reader.AtInk := fun hlt =>
    hp.ink.resolve_left fun hnil => Nat.ne_of_lt hlt (hp.cursor_end hnil)
  have hline : line.line = p.reader.line := by
    rw [Reader.line, Reader.line, hp.text]
  rw [hline, hsettled.target hy hp.guarded hclear hopen hend rfl hink]
  exact congrArg _ (Nat.min_eq_left hp.cursor_le)

theorem Tracked.typed_over (hf : Filed t layer) (hL : L.ReadsForward)
    (hp : Tracked t source layer line p) {i : Nat} (hs : Step t source p i r)
    (ht : Takes t source p n c r) (hover : (p.reader.pass n).rest = [])
    (hclear : ClearOf p line.totalLength) :
    Typed t source p line.totalLength (r.chain.target line.line line.totalLength) := by
  obtain ⟨y, hsettled, -⟩ := hp.settled
  have hstop := hp.cursor_over hover
  have hcontexts := ht.contexts_over hover
  have hopen : r.chain.OpenAt line.totalLength := by
    refine ⟨fun d hd _ hlt => absurd hlt (Nat.not_lt.2 ?_), fun hlt => absurd hlt (Nat.not_lt.2 ?_)⟩
    · rw [hcontexts] at hd
      rcases List.mem_append.1 hd with hd | hd
      · refine Nat.le_trans (hp.stop_le d ?_) hp.cursor_le
        rw [Position.toList_chain]
        exact List.mem_append_left _ hd
      · rw [List.mem_singleton.1 hd, ← hstop]
        exact Nat.le_of_lt_succ (ht.piece.before hsettled).stop
    · have hlast : r.chain.last = c := by
        rw [← Chain.getLast_toList]
        simp [hcontexts]
      rw [hlast, ← hstop]
      exact ht.piece.stop_le
  exact ht.target hL (.finished (ht.rest_over hover)) hp.guarded (hp.guarded.step hf hs)
    hsettled.start_le hclear hp.cursor_le (Nat.le_of_eq hstop.symm) hopen line.line

theorem Tracked.target_over (hf : Filed t layer) (hL : L.ReadsForward)
    (hp : Tracked t source layer line p) {i : Nat} (hs : Step t source p i r)
    (ht : Takes t source p n c r) (hover : (p.reader.pass n).rest = [])
    (hclear : ClearOf p line.totalLength) (hword : ∀ d ∈ p.reader.rest, isBlank d = false) :
    r.chain.target line.line line.totalLength =
      .branch p.node p.context.console p.reader.cursor := by
  have hfound := hp.typed_over hf hL hs ht hover hclear
  generalize r.chain.target line.line line.totalLength = found at hfound
  cases hfound with
  | branch => rfl
  | value hn _ hnamed hstart hlt _ =>
    rw [hstart, hnamed, hn.cursor_eq hword] at hlt
    exact absurd hlt (Nat.lt_irrefl _)

/-- What is typed at the end of a line is a branch of the node where the last word stands. -/
theorem LastStep.target (hf : Filed t layer) (hL : L.ReadsForward)
    (hp : Tracked t source layer line p) (h : t.LastStep source p r)
    (htext : line.text = front ++ typed) (htyped : ∀ d ∈ typed, isBlank d = false)
    (hcursor : p.reader.cursor = byteLength front)
    (hbehind : ∀ s ∈ p.pieces, s.stop < byteLength front)
    (htail : r.chain.last.nodes = [] → r.chain.last.options = []) :
    r.chain.target line.line line.totalLength =
      .branch p.node p.context.console (byteLength front) := by
  have hclear : ClearOf p line.totalLength := by
    refine hp.clearOf fun s hs => Nat.lt_of_lt_of_le (hbehind s hs) ?_
    rw [← hcursor]
    exact hp.cursor_le
  rw [← hcursor]
  rcases h with rfl | ⟨i, n, c, hs, ht, hover⟩
  · exact hp.target hclear htail
  · have hword : ∀ d ∈ p.reader.rest, isBlank d = false := (hp.rest_eq htext hcursor).2 ▸ htyped
    exact hp.target_over hf hL hs ht hover hclear hword

end CommandTree

end CommandConsole
