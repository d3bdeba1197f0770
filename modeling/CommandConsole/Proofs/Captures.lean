import CommandConsole.Proofs.Cursor

/-!
# Captured values

The values of a context are those of its own arguments and options and no others: under each name,
the value is the one that the last argument or option of that name has read. Since types read one
token, the text that a value was read from stands for the value by itself.
-/

namespace CommandConsole

open Text

variable {L : Language}

/-- A value to be captured: its name, the type that reads it, and where it stands. -/
structure Capture (L : Language) where
  name : String
  type : L.Argument
  span : Span

def NodeKind.capture? (kind : NodeKind L) (span : Span) : Option (Capture L) :=
  match kind with
  | .argument name type | .option name type => some ⟨name, type, span⟩
  | .root | .literal _ => none

theorem NodeKind.span_of_capture? {kind : NodeKind L} {span : Span} {k : Capture L}
    (h : kind.capture? span = some k) : k.span = span := by
  cases kind with
  | root | literal => cases h
  | argument | option =>
    obtain rfl := Option.some.inj h
    rfl

theorem Language.IsBuiltin.isSelfContained (h : L.IsBuiltin) (type : L.Argument) :
    (L.scan type).IsSelfContained := by
  obtain ⟨b, hscan, -⟩ := h type
  rw [hscan]
  exact b.isSelfContained_scan

namespace CommandTree

variable {t : CommandTree L} {source : L.Source} {p q : Position L} {r : Reader} {c c' : Context L}
  {k : Capture L} {value : Value} {behind : Reader}

/-- What a context captures: the arguments among its nodes, and its options. -/
def captures (t : CommandTree L) (c : Context L) : List (Capture L) :=
  c.nodes.filterMap (fun m => (t.node m.node).kind.capture? m.span) ++
    c.options.filterMap fun o => (t.node o.option).kind.capture? o.valueSpan

theorem mem_captures_enter (child : NodeId) (n : Node L) (span : Span) (policy : ConsolePolicy) :
    k ∈ t.captures (c.enter child n span policy) ↔
      k ∈ t.captures c ∨ (t.node child).kind.capture? span = some k := by
  simp only [captures, Context.enter, List.filterMap_append, List.mem_append, List.mem_filterMap,
    List.mem_singleton, exists_eq_left]
  exact or_right_comm

theorem mem_captures_takeOption (o : MatchedOption) (value : Value) :
    k ∈ t.captures (c.takeOption o value) ↔
      k ∈ t.captures c ∨ (t.node o.option).kind.capture? o.valueSpan = some k := by
  simp only [captures, Context.takeOption, Context.capture, List.filterMap_append, List.mem_append,
    List.mem_filterMap, List.mem_singleton, exists_eq_left]
  exact or_assoc.symm

/-- The last capture of its name: all others of the name end in front of it. -/
structure LastCapture (t : CommandTree L) (c : Context L) (k : Capture L) : Prop where
  mem : k ∈ t.captures c
  last : ∀ k' ∈ t.captures c, k'.name = k.name → k' = k ∨ k'.span.stop < k.span.start

/-- Whether the type of a capture reads a value where the capture stands, up to the end of a
token. -/
def ReadsAt (r : Reader) (k : Capture L) (value : Value) : Prop :=
  ∃ s behind : Reader, s.text = r.text ∧ s.cursor = k.span.start ∧ behind.cursor = k.span.stop ∧
    Scan.start (L.scan k.type) s = (.ok value, behind) ∧ endsToken behind.rest = true

/-- Whether the values of a context are those of its last captures. -/
structure Faithful (t : CommandTree L) (r : Reader) (c : Context L) : Prop where
  options : ∀ o ∈ c.options, ∃ type, (t.node o.option).kind = .option o.name type
  contains : ∀ k ∈ t.captures c, c.captured.contains k.name = true
  last : ∀ name captured, c.captured.find? name = some captured →
    ∃ k, t.LastCapture c k ∧ k.name = name ∧ k.span = captured.span ∧
      ReadsAt r k captured.value

theorem faithful_startAt (r : Reader) (id : NodeId) (x : Nat) (policy : ConsolePolicy) :
    t.Faithful r (Context.startAt id x policy) where
  options o ho := by cases ho
  contains k hk := by cases hk
  last name captured h := by cases h

theorem Faithful.congr (h : t.Faithful r c) (hoptions : c'.options = c.options)
    (hcaptured : c'.captured = c.captured) (hmem : ∀ k, k ∈ t.captures c' ↔ k ∈ t.captures c) :
    t.Faithful r c' where
  options := by
    rw [hoptions]
    exact h.options
  contains k hk := by
    rw [hcaptured]
    exact h.contains k ((hmem k).1 hk)
  last name captured hfind := by
    rw [hcaptured] at hfind
    obtain ⟨k, hk, hrest⟩ := h.last name captured hfind
    exact ⟨k, ⟨(hmem k).2 hk.mem, fun k' hk' => hk.last k' ((hmem k').1 hk')⟩, hrest⟩

theorem Faithful.capture (h : t.Faithful r c)
    (hoptions : ∀ o ∈ c'.options, ∃ type, (t.node o.option).kind = .option o.name type)
    (hcaptured : c'.captured = c.captured.insert k.name ⟨k.span, value⟩)
    (hmem : ∀ k', k' ∈ t.captures c' ↔ k' ∈ t.captures c ∨ k' = k)
    (hbehind : ∀ k' ∈ t.captures c, k'.span.stop < k.span.start) (hreads : ReadsAt r k value) :
    t.Faithful r c' where
  options := hoptions
  contains k' hk' := by
    rw [hcaptured, Keyed.contains, Keyed.find?_insert]
    split
    · rfl
    · next hne =>
      rcases (hmem k').1 hk' with hk' | rfl
      · exact h.contains k' hk'
      · exact absurd rfl hne
  last name captured hfind := by
    rw [hcaptured, Keyed.find?_insert] at hfind
    split at hfind
    · next hname =>
      obtain rfl := Option.some.inj hfind
      refine ⟨k, ⟨(hmem k).2 (Or.inr rfl), fun k' hk' _ => ?_⟩, hname, rfl, hreads⟩
      rcases (hmem k').1 hk' with hk' | rfl
      · exact Or.inr (hbehind k' hk')
      · exact Or.inl rfl
    · next hname =>
      obtain ⟨k₀, hk₀, hname₀, hrest⟩ := h.last name captured hfind
      refine ⟨k₀, ⟨(hmem k₀).2 (Or.inl hk₀.mem), fun k' hk' hsame => ?_⟩, hname₀, hrest⟩
      rcases (hmem k').1 hk' with hk' | rfl
      · exact hk₀.last k' hk' hsame
      · exact absurd (hsame.trans hname₀) hname

/-! ### Steps -/

/-- Whether all captures of a context end in front of an offset. -/
def CapturedBefore (t : CommandTree L) (c : Context L) (x : Nat) : Prop :=
  ∀ k ∈ t.captures c, k.span.stop < x

/-- Whether all contexts matched so far are faithful, with what is left to read behind all that the
last one captures. -/
structure Recorded (t : CommandTree L) (r : Reader) (p : Position L) : Prop where
  text : p.reader.text = r.text
  closed : ∀ c ∈ p.closed, t.Faithful r c
  context : t.Faithful r p.context
  before : p.reader.rest ≠ [] → t.CapturedBefore p.context p.reader.cursor

theorem recorded_start (r : Reader) : t.Recorded r (.start r.skipBlank) where
  text := Reader.text_skipBlank r
  closed c hc := by cases hc
  context := faithful_startAt _ _ _ _
  before _ k hk := by cases hk

theorem Reads.faithful {child : NodeId} {taken : Context L} (h : Reads t p child taken behind)
    (hp : t.Recorded r p) (hbefore : t.CapturedBefore p.context p.reader.cursor)
    (policy : ConsolePolicy) :
    t.Faithful r
      (taken.enter child (t.node child) ⟨p.reader.cursor, behind.cursor⟩ policy) := by
  cases h with
  | literal hkind _ =>
    refine hp.context.congr rfl rfl fun k => ?_
    rw [mem_captures_enter, hkind]
    simp [NodeKind.capture?]
  | @argument name type value behind hkind hscan hends =>
    refine hp.context.capture (k := ⟨name, type, ⟨p.reader.cursor, behind.cursor⟩⟩)
      hp.context.options rfl (fun k' => ?_) hbefore
      ⟨p.reader, behind, hp.text, rfl, rfl, hscan, hends⟩
    rw [mem_captures_enter, hkind]
    simp only [NodeKind.capture?, Option.some.injEq]
    exact or_congr Iff.rfl eq_comm

theorem Reads.capturedBefore {child : NodeId} {taken : Context L}
    (h : Reads t p child taken behind) (hle : p.reader.cursor ≤ behind.cursor)
    (hbefore : t.CapturedBefore p.context p.reader.cursor) (policy : ConsolePolicy) :
    t.CapturedBefore
      (taken.enter child (t.node child) ⟨p.reader.cursor, behind.cursor⟩ policy)
      (behind.cursor + 1) := by
  intro k hk
  obtain ⟨captured, rfl⟩ := h.capture_eq
  rcases (mem_captures_enter ..).1 hk with hk | hk
  · have hlt : k.span.stop < p.reader.cursor := hbefore k hk
    omega
  · rw [NodeKind.span_of_capture? hk]
    exact Nat.lt_succ_self _

theorem recorded_behind {closed : List (Context L)} {node : NodeId}
    (htext : behind.text = r.text) (hclosed : ∀ c ∈ closed, t.Faithful r c)
    (hc : t.Faithful r c) (hbefore : t.CapturedBefore c (behind.cursor + 1))
    (hends : endsToken behind.rest = true) : t.Recorded r ⟨closed, node, c, behind.skipBlank⟩ where
  text := (Reader.text_skipBlank behind).trans htext
  closed := hclosed
  context := hc
  before hrest k hk :=
    Nat.lt_of_lt_of_le (hbefore k hk) (Reader.cursor_lt_skipBlank hends hrest)

theorem Recorded.enters (hL : L.ReadsForward) (h : t.Recorded r p)
    (hbefore : t.CapturedBefore p.context p.reader.cursor) {child : NodeId}
    (he : t.Enters source p child q) : t.Recorded r q := by
  obtain ⟨taken, behind, hr, -, rfl⟩ := he
  have hends : endsToken behind.rest = true := (reads_iff_takeToken.1 hr).2
  obtain ⟨n, hn⟩ := hr.behind hL
  have htext : behind.text = r.text := by rw [hn, Reader.text_pass, h.text]
  have hle : p.reader.cursor ≤ behind.cursor := by
    rw [hn]
    exact Reader.cursor_le_pass _ _
  have hfaithful := hr.faithful h hbefore ((t.node child).gates.console.resolve p.context.console)
  have hcaptured := hr.capturedBefore hle hbefore
    ((t.node child).gates.console.resolve p.context.console)
  rcases beyond_cases (t := t) p child taken behind with hq | ⟨forward, -, -, hq⟩
  · rw [hq]
    exact recorded_behind htext h.closed hfaithful hcaptured hends
  · rw [hq]
    refine recorded_behind htext (fun c hc => ?_) (faithful_startAt _ _ _ _) nofun hends
    rcases List.mem_append.1 hc with hc | hc
    · exact h.closed c hc
    · rw [List.mem_singleton.1 hc]
      exact hfaithful

theorem Recorded.gives (hL : L.ReadsForward) (h : t.Recorded r p)
    (hbefore : t.CapturedBefore p.context p.reader.cursor) {name : String} {option : NodeId}
    (hg : Gives t source p name option q) : t.Recorded r q := by
  cases hg with
  | @intro type named start behind value hkind ha hnew hnamed hstart hrest hscan hends =>
    obtain ⟨m, hm⟩ := hL _ _ _ _ hscan
    have hle : p.reader.cursor ≤ start.cursor := by
      rw [hstart, hnamed]
      exact Nat.le_trans (Reader.cursor_le_pass _ _) (Reader.cursor_le_skipBlank _)
    have hle' : start.cursor ≤ behind.cursor := by
      rw [hm]
      exact Reader.cursor_le_pass _ _
    have htext : start.text = r.text := by
      rw [hstart, hnamed, Reader.text_skipBlank, Reader.text_pass, h.text]
    have hmem (k : Capture L) : k ∈ t.captures (p.context.takeOption ⟨name, option, p.node,
        ⟨p.reader.cursor, named.cursor⟩, ⟨start.cursor, behind.cursor⟩⟩ value) ↔
        k ∈ t.captures p.context ∨ k = ⟨name, type, ⟨start.cursor, behind.cursor⟩⟩ := by
      rw [mem_captures_takeOption, hkind]
      simp only [NodeKind.capture?, Option.some.injEq]
      exact or_congr Iff.rfl eq_comm
    refine recorded_behind (by rw [hm, Reader.text_pass, htext]) h.closed ?_ ?_ hends
    · refine h.context.capture (fun o ho => ?_) rfl hmem (fun k hk => ?_)
        ⟨start, behind, htext, rfl, rfl, hscan, hends⟩
      · rcases List.mem_append.1 ho with ho | ho
        · exact h.context.options o ho
        · rw [List.mem_singleton.1 ho]
          exact ⟨type, hkind⟩
      · exact Nat.lt_of_lt_of_le (hbefore k hk) hle
    · intro k hk
      rcases (hmem k).1 hk with hk | rfl
      · have hlt : k.span.stop < p.reader.cursor := hbefore k hk
        omega
      · exact Nat.lt_succ_self _

theorem Recorded.step (hL : L.ReadsForward) (h : t.Recorded r p)
    (hbefore : t.CapturedBefore p.context p.reader.cursor) {i : Nat} (hs : Step t source p i q) :
    t.Recorded r q := by
  rcases hs.gives_or_enters with ⟨name, option, -, hg⟩ | ⟨child, -, he⟩
  · exact h.gives hL hbefore hg
  · exact h.enters hL hbefore he

theorem Ends.recorded (hL : L.ReadsForward) (h : Ends t source p q) (hp : t.Recorded r p) :
    t.Recorded r q := by
  induction h with
  | finished _ => exact hp
  | stuck _ _ => exact hp
  | step hrest hs _ ih => exact ih (hp.step hL (hp.before hrest) hs)

theorem Leaves.recorded (hL : L.ReadsForward) (h : t.Leaves source (.start r.skipBlank) q) :
    t.Recorded r q := by
  rcases h with rfl | ⟨i, q₁, hs, hq⟩
  · exact recorded_start r
  · exact hq.recorded hL ((recorded_start r).step hL nofun hs)

/-! ### Reading again -/

theorem between?_of_passes {r s : Reader} (htext : s.text = r.text) (n : Nat) :
    between? s.cursor (s.pass n).cursor r.line = some (String.ofList (s.rest.take n)) := by
  have hline : r.line.toList = s.passed.reverse ++ s.rest.take n ++ s.rest.drop n := by
    rw [List.append_assoc, List.take_append_drop, Reader.line, String.toList_ofList, ← htext]
    rfl
  have hstop : (s.pass n).cursor = byteLength (s.passed.reverse ++ s.rest.take n) := by
    rw [Reader.cursor_eq, Reader.passed_pass]
  unfold between?
  rw [hline, hstop, Reader.cursor_eq, slice?_append]
  rfl

/-- A type that read a value somewhere in a line reads it again from that text alone. -/
theorem ReadsAt.alone (h : ReadsAt r k value) (hk : (L.scan k.type).IsSelfContained) :
    ∃ raw after, between? k.span.start k.span.stop r.line = some raw ∧
      Scan.start (L.scan k.type) (.ofString raw) = (.ok value, after) ∧ after.rest = [] := by
  obtain ⟨s, behind, htext, hstart, hstop, hscan, hends⟩ := h
  obtain ⟨n, after, rfl, halone, hrest⟩ := hk.alone hscan hends
  rw [← hstart, ← hstop, between?_of_passes htext]
  refine ⟨_, after, rfl, ?_, hrest⟩
  rw [Reader.ofString, String.toList_ofList]
  exact halone

/-- In every context of a parsed line, the captured names are those of its arguments and options;
each value is the one that the last of its name has read, and reading the raw text again, alone,
gives the same value and leaves nothing. -/
theorem parseFrom_captures (hL : L.IsBuiltin) (ht : t.Reachable) (r : Reader)
    (source : L.Source) :
    ∀ c ∈ (t.parseFrom r source).chain.toList,
      (∀ o ∈ c.options, ∃ type, (t.node o.option).kind = .option o.name type) ∧
      (∀ name, c.captured.contains name = true ↔ ∃ k ∈ t.captures c, k.name = name) ∧
      ∀ name captured, c.captured.find? name = some captured →
        ∃ k raw after, t.LastCapture c k ∧ k.name = name ∧ k.span = captured.span ∧
          ReadsAt r k captured.value ∧ c.raw? r.line name = some raw ∧
          Scan.start (L.scan k.type) (.ofString raw) = (.ok captured.value, after) ∧
          after.rest = [] := by
  intro c hc
  obtain ⟨layer, hg⟩ := ht.grown
  have hforward := hL.readsLocally.readsForward
  obtain ⟨q, hchain, -, hleaves, -⟩ := hg.filed.parseFrom_leaves hforward r source
  have hq : t.Recorded r q := Leaves.recorded hforward hleaves
  have hfaithful : t.Faithful r c := by
    rw [hchain, Position.toList_chain] at hc
    rcases List.mem_append.1 hc with hc | hc
    · exact hq.closed c hc
    · rw [List.mem_singleton.1 hc]
      exact hq.context
  refine ⟨hfaithful.options, fun name => ⟨fun h => ?_, ?_⟩, fun name captured h => ?_⟩
  · obtain ⟨captured, hcaptured⟩ := Option.isSome_iff_exists.1 h
    obtain ⟨k, hk, hname, -⟩ := hfaithful.last name captured hcaptured
    exact ⟨k, hk.mem, hname⟩
  · rintro ⟨k, hk, rfl⟩
    exact hfaithful.contains k hk
  · obtain ⟨k, hk, hname, hspan, hreads⟩ := hfaithful.last name captured h
    obtain ⟨raw, after, hraw, halone⟩ := hreads.alone (hL.isSelfContained k.type)
    refine ⟨k, raw, after, hk, hname, hspan, hreads, ?_, halone⟩
    rw [Context.raw?, h, Option.bind_some, ← hspan]
    exact hraw

/-- A command whose option and argument have one name. -/
def pause : CommandTree .builtins := built [
    { Blueprint.literal "pause" with
      options := [.option "for" Builtin.word]
      children := [.argument "for" Builtin.bool] }]

theorem reachable_pause : pause.Reachable := reachable_built _

theorem parseFrom_captures_pause :
    ∃ c ∈ (pause.parseFrom (.ofString "pause --for ever true") ()).chain.toList,
      (pause.captures c).map (fun k => (k.name, k.span)) =
          [("for", ⟨17, 21⟩), ("for", ⟨12, 16⟩)] ∧
        c.raw? "pause --for ever true" "for" = some "true" ∧
        ∃ captured k after, c.captured.find? "for" = some captured ∧ pause.LastCapture c k ∧
          k.name = "for" ∧ k.span = captured.span ∧
          Scan.start (Language.builtins.scan k.type) (.ofString "true") =
            (.ok captured.value, after) ∧
          after.rest = [] := by
  have hmem : (pause.parseFrom (.ofString "pause --for ever true") ()).chain.outer ∈
      (pause.parseFrom (.ofString "pause --for ever true") ()).chain.toList :=
    List.mem_cons_self
  have hraw : (pause.parseFrom (.ofString "pause --for ever true") ()).chain.outer.raw?
      "pause --for ever true" "for" = some "true" := by decide +kernel
  have hcaptures : (pause.captures (pause.parseFrom (.ofString "pause --for ever true")
      ()).chain.outer).map (fun k => (k.name, k.span)) =
        [("for", ⟨17, 21⟩), ("for", ⟨12, 16⟩)] := by decide +kernel
  obtain ⟨captured, hcaptured, -⟩ := Option.bind_eq_some_iff.1 hraw
  obtain ⟨-, -, hvalues⟩ := parseFrom_captures Language.isBuiltin_builtins reachable_pause
    (.ofString "pause --for ever true") () _ hmem
  obtain ⟨k, raw, after, hlast, hname, hspan, -, hread, halone⟩ := hvalues "for" captured hcaptured
  rw [Reader.line_ofString, hraw] at hread
  obtain rfl := Option.some.inj hread
  exact ⟨_, hmem, hcaptures, hraw, captured, k, after, hcaptured, hlast, hname, hspan, halone⟩

end CommandTree

end CommandConsole
