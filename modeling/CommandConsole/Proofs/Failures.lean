import CommandConsole.Proofs.Gathering
import CommandConsole.Proofs.Progress
import CommandConsole.Proofs.Tokens

/-!
# Where a line fails

Matching a line that is not consumed stops in front of the first token that no step takes. All that
is said about the failure points there or further on: a type of arguments that does not accept what
is left fails at a character of it, and whatever else goes wrong with an attempt goes wrong at the
token or behind it. That the line is unknown as a whole is said only if nothing of it was matched.
-/

namespace CommandConsole

open Text

variable {L : Language}

/-! ### Errors ahead -/

/-- Whether an error is pinned ahead of a reader, for a reason other than that the line is
unknown. -/
def LineError.IsAhead (b : Reader) (e : LineError) : Prop :=
  ∃ f n, f ≠ .unknownCommand ∧ e = Fault.pinned f (b.pass n)

theorem Fault.isAhead_pinned {f : Fault} (hf : f ≠ .unknownCommand) (b : Reader) (n : Nat) :
    (f.pinned (b.pass n)).IsAhead b :=
  ⟨f, n, hf, rfl⟩

theorem Fault.isAhead_here {f : Fault} (hf : f ≠ .unknownCommand) (b : Reader) :
    (f.pinned b).IsAhead b :=
  ⟨f, 0, hf, rfl⟩

theorem LineError.IsAhead.of_pass {b : Reader} {n : Nat} {e : LineError}
    (h : e.IsAhead (b.pass n)) : e.IsAhead b := by
  obtain ⟨f, m, hf, rfl⟩ := h
  exact ⟨f, n + m, hf, by rw [Reader.pass_pass]⟩

/-! ### Scans that fail ahead -/

namespace Scan

variable {α : Type}

/-- Whether a scan that starts ahead of a reader stays ahead of it, and fails there if it does. -/
def StaysAhead (b : Reader) (x : Scan α) : Prop :=
  ∀ n, (∃ m, (start x (b.pass n)).2 = b.pass m) ∧
    ∀ e, (start x (b.pass n)).1 = .error e → e.IsAhead b

end Scan

open Scan

/-- What scans keep that start ahead of a reader. -/
def stayingAhead (b : Reader) : ScanRelation where
  At r r' := r' = r ∧ ∃ n, r = b.pass n
  Rel r _ x _ := (∃ m, (start x r).2 = b.pass m) ∧
    ∀ e, (start x r).1 = .error e → e.IsAhead b
  peek?_filter h _ := by rw [h.1]
  atPoints h := by rw [h.1]
  congr hy _ h := by rwa [hy]
  pure h _ := ⟨h.2, fun _ he => nomatch he⟩
  bind {α β r r' x x' f f'} hx hf := by
    obtain ⟨⟨m, hm⟩, herror⟩ := hx
    rw [start_bind]
    cases hstart : start x r with
    | mk result behind =>
      rw [hstart] at hm herror
      cases result with
      | ok v => exact hf v behind behind ⟨rfl, m, hm⟩
      | error e => exact ⟨⟨m, hm⟩, fun e' he => herror e' (by rw [← Except.error.inj he])⟩
  failBack {α r r' back back' f} hf hback _ := by
    obtain ⟨-, n, rfl⟩ := hback
    exact ⟨⟨n, rfl⟩, fun _ he => Except.error.inj he ▸ f.isAhead_pinned hf b n⟩
  pass {r r' n} h _ := by
    obtain ⟨-, k, rfl⟩ := h
    exact ⟨⟨k + n, Reader.pass_pass ..⟩, fun _ he => nomatch he⟩
  take {r r' find} _ h := by
    obtain ⟨-, k, rfl⟩ := h
    exact ⟨⟨_, Reader.pass_pass ..⟩, fun _ he => nomatch he⟩
  stringUntil {r r'} h quote := by
    obtain ⟨-, k, rfl⟩ := h
    rw [start_stringUntil]
    cases unquote quote (b.pass k).rest with
    | closed value n => exact ⟨⟨k + n, Reader.pass_pass ..⟩, fun _ he => nomatch he⟩
    | badEscape found n =>
      refine ⟨⟨k + n, Reader.pass_pass ..⟩, fun _ he => Except.error.inj he ▸ ?_⟩
      exact (Fault.isAhead_pinned (by nofun) (b.pass k) n).of_pass
    | unclosed =>
      refine ⟨⟨_, Reader.pass_pass ..⟩, fun _ he => Except.error.inj he ▸ ?_⟩
      exact (Fault.isAhead_pinned (by nofun) (b.pass k) (b.pass k).rest.length).of_pass

theorem Builtin.staysAhead_scan (type : Builtin) (b : Reader) : StaysAhead b type.scan := by
  intro n
  have hat : (stayingAhead b).At (b.pass n) (b.pass n) := ⟨rfl, n, rfl⟩
  refine (stayingAhead b).builtin hat type fun _ => ?_
  exact ⟨⟨_, Reader.pass_pass ..⟩, fun _ he => nomatch he⟩

/-- Whether every type of arguments stays ahead of where it starts, also where it fails. -/
def Language.FailsAhead (L : Language) : Prop :=
  ∀ (type : L.Argument) (b : Reader), StaysAhead b (L.scan type)

theorem Language.IsBuiltin.failsAhead (h : L.IsBuiltin) : L.FailsAhead := by
  intro type b
  obtain ⟨builtin, hscan, -⟩ := h type
  rw [hscan]
  exact builtin.staysAhead_scan b

theorem Language.FailsAhead.scan (h : L.FailsAhead) (type : L.Argument) (b : Reader) :
    (∃ m, (start (L.scan type) b).2 = b.pass m) ∧
      ∀ e, (start (L.scan type) b).1 = .error e → e.IsAhead b :=
  h type b 0

/-! ### Attempts that fail ahead -/

namespace CommandTree

variable {t : CommandTree L} {source : L.Source} {p q : Position L} {layer : NodeId → Nat}
  {context : Context L} {r : Reader} {e : LineError}

theorem takeToken_ahead (hL : L.FailsAhead) (context : Context L) (r : Reader) (n : Node L) :
    (∀ e, takeToken n context r = .error e → e.IsAhead r) ∧
      ∀ taken behind, takeToken n context r = .ok (taken, behind) → ∃ m, behind = r.pass m := by
  unfold takeToken
  cases n.kind with
  | root | option =>
    refine ⟨fun e he => ?_, fun _ _ h => nomatch h⟩
    rw [← Except.error.inj he]
    exact Fault.isAhead_here (by nofun) r
  | literal name =>
    dsimp only
    split
    · refine ⟨fun _ h => (nomatch h), fun taken behind h => ?_⟩
      exact ⟨name.length, (Prod.mk.inj (Except.ok.inj h)).2.symm⟩
    · refine ⟨fun e he => ?_, fun _ _ h => nomatch h⟩
      rw [← Except.error.inj he]
      exact Fault.isAhead_here (by nofun) r
  | argument name type =>
    obtain ⟨⟨m, hm⟩, herror⟩ := hL.scan type r
    dsimp only
    split
    · next hs =>
      rw [hs] at hm
      refine ⟨fun _ h => (nomatch h), fun taken behind h => ?_⟩
      exact ⟨m, (Prod.mk.inj (Except.ok.inj h)).2 ▸ hm⟩
    · next hs =>
      rw [hs] at herror
      refine ⟨fun e he => ?_, fun _ _ h => nomatch h⟩
      exact herror e (by rw [Except.error.inj he])

theorem tryChild_ahead (hL : L.FailsAhead) {child : NodeId}
    (h : t.tryChild source context r child = .failed (.refused e)) : e.IsAhead r := by
  obtain ⟨herror, htaken⟩ := takeToken_ahead hL context r (t.node child)
  unfold tryChild at h
  dsimp only at h
  split at h
  · next e' htake =>
    obtain rfl : e' = e := by simpa using h
    exact herror _ htake
  · next taken behind htake =>
    obtain ⟨m, rfl⟩ := htaken taken behind htake
    split at h
    · obtain rfl : Fault.expectedArgumentSeparator.pinned (r.pass m) = e := by
        simpa [Attempt.refuse] using h
      exact Fault.isAhead_pinned (by simp) r m
    · split at h
      · simp at h
      · unfold continueAt at h
        dsimp only at h
        split at h <;> (repeat' split at h) <;> cases h

theorem takeOptionValue_ahead (hL : L.FailsAhead) {name : String} {type : L.Argument}
    {option owner : NodeId}
    (h : takeOptionValue name type option owner context r = .failed (.refused e)) :
    e.IsAhead r := by
  obtain ⟨n, hn⟩ : ∃ n, (r.pass (2 + name.length)).skipBlank = r.pass n := by
    rw [Reader.skipBlank_eq_pass, Reader.pass_pass]
    exact ⟨_, rfl⟩
  unfold takeOptionValue at h
  dsimp only at h
  rw [hn] at h
  obtain ⟨⟨m, hm⟩, herror⟩ := hL.scan type (r.pass n)
  split at h
  · obtain rfl : (Fault.optionExpectedValue name).pinned (r.pass n) = e := by
      simpa [Attempt.refuse] using h
    exact Fault.isAhead_pinned (by simp) r n
  · split at h
    · next e' behind hs =>
      obtain rfl : e' = e := by simpa using h
      rw [hs] at herror
      exact (herror e' rfl).of_pass
    · next value behind hs =>
      obtain rfl : behind = (r.pass n).pass m := by
        rw [hs] at hm
        exact hm
      split at h
      · obtain rfl : Fault.expectedArgumentSeparator.pinned ((r.pass n).pass m) = e := by
          simpa [Attempt.refuse] using h
        exact (Fault.isAhead_pinned (by simp) (r.pass n) m).of_pass
      · split at h <;> cases h

theorem tryOption_ahead (hL : L.FailsAhead) {owner option : NodeId}
    (h : t.tryOption source context r owner option = .failed (.refused e)) : e.IsAhead r := by
  unfold tryOption at h
  dsimp only at h
  split at h
  · next name type hkind =>
    split at h
    · simp at h
    · split at h
      · obtain rfl : (Fault.optionDuplicate name).pinned r = e := by
          simpa [Attempt.refuse] using h
        exact Fault.isAhead_here (by simp) r
      · exact takeOptionValue_ahead hL h
  · obtain rfl : Fault.unknownArgument.pinned r = e := by simpa [Attempt.refuse] using h
    exact Fault.isAhead_here (by simp) r

theorem mem_failuresOf {tried : List (NodeId × Attempt L)} :
    ∀ f ∈ (failuresOf tried).entries, (f.1, Attempt.failed f.2) ∈ tried := by
  refine List.foldlRecOn (motive := fun fs : Keyed NodeId BranchFailure =>
      ∀ f ∈ fs.entries, (f.1, Attempt.failed f.2) ∈ tried)
    tried _ (List.forall_mem_nil _) fun fs hfs a ha f hf => ?_
  obtain ⟨id, attempt⟩ := a
  cases attempt with
  | failed g =>
    rcases Keyed.mem_entries_insert hf with rfl | hold
    · exact ha
    · exact hfs f hold
  | finished | goOn | redirect => exact hfs f hf

/-- Whatever is refused at a position is refused there or further on. -/
theorem refused_ahead (hL : L.FailsAhead) {id : NodeId}
    (h : (id, .refused e) ∈ (failuresOf (t.attempts source p.node p.context p.reader)).entries) :
    e.IsAhead p.reader := by
  rcases mem_attempts (mem_failuresOf _ h) with hoption | hchild
  · exact tryOption_ahead hL hoption.symm
  · exact tryChild_ahead hL hchild.symm

end CommandTree

/-! ### Tokens -/

def Reader.AtToken (r : Reader) : Prop := r.AtInk ∧ ∀ d ∈ r.passed.head?, isBlank d = true

theorem Reader.skipBlank_atToken {r : Reader} (hends : endsToken r.rest = true ∨ r.passed = [])
    (hink : r.skipBlank.AtInk) : r.skipBlank.AtToken := by
  refine ⟨hink, fun d hd => ?_⟩
  obtain ⟨blanks, hpassed, hall⟩ := passed_skipBlank r
  have htext : r.skipBlank.text = r.text := text_skipBlank r
  rcases List.eq_nil_or_concat blanks with rfl | ⟨blanks, b, rfl⟩
  · -- nothing was passed, so the reader is at the start of the line
    rw [List.append_nil] at hpassed
    have hrest : r.skipBlank.rest = r.rest := by
      unfold text at htext
      rwa [hpassed, List.append_cancel_left_eq] at htext
    have hnil : r.passed = [] := hends.resolve_left (hrest ▸ hink.not_endsToken)
    rw [List.reverse_inj.1 hpassed, hnil] at hd
    cases hd
  · have hlast : r.skipBlank.passed.head? = some b := by
      rw [← List.reverse_reverse r.skipBlank.passed, hpassed]
      simp
    rw [hlast] at hd
    obtain rfl := Option.some.inj hd
    exact hall b (by simp)

/-- Whether an error is pinned to a character boundary of a line, from an offset on. -/
def LineError.PinnedFrom (e : LineError) (line : String) (x : Nat) : Prop :=
  ∃ y, e.place = some ⟨line, y⟩ ∧ x ≤ y ∧ y ≤ bytes line ∧ CutsAt line y

theorem Fault.pinnedFrom (f : Fault) {r : Reader} {line : String} (hr : r.text = line.toList)
    (n : Nat) : (f.pinned (r.pass n)).PinnedFrom line r.cursor := by
  have htext : (r.pass n).text = line.toList := (Reader.text_pass r n).trans hr
  have hline : (r.pass n).line = line := by rw [Reader.line, htext, String.ofList_toList]
  have hcuts := cutsAt_cursor htext
  exact ⟨_, by rw [← hline]; rfl, Reader.cursor_le_pass r n, hcuts.le, hcuts⟩

/-! ### Spans that are not empty -/

theorem Span.start_lt_of_hull? {spans : List Span} {v : Span} (h : hull? spans = some v)
    (hspans : ∀ s ∈ spans, s.start < s.stop) : v.start < v.stop := by
  cases spans with
  | nil => cases h
  | cons s spans =>
    have hs := hspans s List.mem_cons_self
    obtain rfl := Option.some.inj h
    cases hull? spans with
    | none => exact hs
    | some u =>
      show min s.start u.start < max s.stop u.stop
      omega

namespace CommandTree

variable {t : CommandTree L} {source : L.Source} {p q : Position L} {layer : NodeId → Nat}

theorem Laid.nothing_of_isEmpty {r : Reader} {spans : List Span} (h : Laid r p spans)
    {c : Context L} (hc : c ∈ p.chain.toList) (hempty : c.span.isEmpty = true) :
    c.nodes = [] ∧ c.options = [] := by
  have hpieces : ∀ s ∈ c.pieces, s.start < s.stop := by
    intro s hs
    refine (h.starts s (h.pieces.mem_iff.2 (List.mem_flatMap.2 ⟨c, ?_, hs⟩))).1
    rwa [← Position.toList_chain]
  have hspan : c.span = (Span.hull? c.pieces).getD (.atOffset c.span.start) := h.hulled c hc
  have hnone : Span.hull? c.pieces = none := by
    refine Option.eq_none_iff_forall_ne_some.2 fun v hv => ?_
    have hlt := Span.start_lt_of_hull? hv hpieces
    rw [hv, Option.getD_some] at hspan
    rw [hspan] at hempty
    exact Nat.ne_of_lt hlt (eq_of_beq hempty)
  have hnil : c.pieces = [] := by
    cases hlist : c.pieces with
    | nil => rfl
    | cons s more =>
      rw [hlist] at hnone
      cases hnone
  simpa [Context.pieces] using hnil

/-! ### Lines that are not consumed -/

theorem Step.atToken (hL : L.ReadsForward) {i : Nat} (hs : Step t source p i q)
    (hrest : q.reader.rest ≠ []) : q.reader.AtToken := by
  obtain ⟨n, c, htakes⟩ := hs.takes hL
  have hink := (Reader.skipBlank_cases (p.reader.pass n)).resolve_left (htakes.reader ▸ hrest)
  rw [htakes.reader]
  exact Reader.skipBlank_atToken (Or.inl htakes.ends) hink

/-- Steps that end in front of something left to read stop at a token that no step takes. -/
theorem Ends.stuck_at (hL : L.ReadsForward) (h : Ends t source p q) (hq : q.reader.rest ≠ [])
    (hp : p.reader.AtToken) : (∃ choices, Run t source p choices q) ∧ q.reader.AtToken ∧
      ∀ i r, ¬Step t source q i r := by
  induction h with
  | finished hnil => exact absurd hnil hq
  | stuck _ hno => exact ⟨⟨[], .done _⟩, hp, hno⟩
  | @step p q r i hrest hs hends ih =>
    have hqrest : q.reader.rest ≠ [] := by
      intro hnil
      obtain rfl := hends.eq_of_rest_nil hnil
      exact hq hnil
    obtain ⟨⟨choices, hrun⟩, htoken, hno⟩ := ih hq (hs.atToken hL hqrest)
    exact ⟨⟨i :: choices, .step hrest hs hrun⟩, htoken, hno⟩

theorem Filed.ink_of_incomplete (hf : Filed t layer) (hL : L.ReadsForward) {r : Reader}
    (h : (t.parseFrom r source).isComplete = false) : r.skipBlank.AtInk := by
  refine (Reader.skipBlank_cases r).resolve_left fun hnil => ?_
  obtain ⟨q, hq, -, hreader⟩ := hf.parseFrom_invariant (P := fun p => p.reader.rest = []) source r
    hnil fun p i q hp hs => by
      obtain ⟨n, c, htakes⟩ := hs.takes hL
      rw [htakes.reader]
      refine skipBlank_of_rest_nil ?_
      rw [Reader.rest_pass, hp, List.drop_nil]
  rw [Parsed.isComplete_iff.2 (hreader ▸ hq)] at h
  cases h

/-- A line that is not consumed stops where its steps end, with what fails there. -/
theorem Filed.parseFrom_stops (hf : Filed t layer) (hL : L.ReadsForward) {r : Reader}
    (hincomplete : (t.parseFrom r source).isComplete = false) :
    ∃ q, Ends t source (Position.start r.skipBlank) q ∧ q.reader.rest ≠ [] ∧
      (t.parseFrom r source).outcome =
        ⟨q.chain, q.reader, failuresOf (t.attempts source q.node q.context q.reader)⟩ := by
  obtain ⟨q, failures, houtcome, hends, hfailures⟩ := hf.follow_end hL source
    (Position.start r.skipBlank) (hf.ink_of_incomplete hL hincomplete)
  have hp : (t.parseFrom r source).outcome = ⟨q.chain, q.reader, failures⟩ := houtcome
  have hrest : q.reader.rest ≠ [] := by
    intro hnil
    have hreader : (t.parseFrom r source).reader = q.reader := congrArg Outcome.reader hp
    rw [Parsed.isComplete_iff.2 (hreader ▸ hnil)] at hincomplete
    cases hincomplete
  exact ⟨q, hends, hrest, hfailures hrest ▸ hp⟩

theorem refusals_ahead (hL : L.FailsAhead) {p : Parsed L} (hp : p.outcome =
    ⟨q.chain, q.reader, failuresOf (t.attempts source q.node q.context q.reader)⟩) :
    ∀ e ∈ p.refusals, e.IsAhead q.reader := by
  intro e he
  obtain ⟨f, hf, hrefused⟩ := List.mem_filterMap.1 he
  obtain ⟨⟨id, f⟩, hentry, rfl⟩ := List.mem_map.1 hf
  rw [hp] at hentry
  cases f with
  | denied d => cases hrefused
  | refused e' =>
    obtain rfl := Option.some.inj hrefused
    exact refused_ahead hL hentry

/-- What is reported for a line that is not consumed is one of its refusals, or is pinned where
matching stopped; it is never that the line is unknown as a whole if something was matched. -/
theorem failure_ahead {p : Parsed L} (hrefusals : ∀ e ∈ p.refusals, e.IsAhead p.reader) :
    (∃ n f, p.failure = Fault.pinned f (p.reader.pass n)) ∧
      (p.failure.fault = .unknownCommand → p.chain.outer.span.isEmpty = true) := by
  unfold Parsed.failure
  split
  · next e hone =>
    obtain ⟨f, n, hf, he⟩ := hrefusals e (by rw [hone]; exact List.mem_singleton.2 rfl)
    exact ⟨⟨n, f, he⟩, fun h => absurd (by rw [he] at h; exact h) hf⟩
  · next d _ _ _ =>
    refine ⟨⟨0, d.fault, rfl⟩, fun h => ?_⟩
    cases d <;> cases h
  · split
    · next hempty => exact ⟨⟨0, _, rfl⟩, fun _ => hempty⟩
    · exact ⟨⟨0, _, rfl⟩, fun h => nomatch h⟩

/-- Matching a line that is not consumed stops at the first token that no step takes, and all that
is reported points there or further on in the line. That the line is unknown as a whole is reported
only if nothing of it was matched. -/
theorem parse_fails_ahead (hL : L.IsBuiltin) (ht : t.Reachable) (line : String)
    (source : L.Source) (hincomplete : (t.parse line source).isComplete = false) :
    let p := t.parse line source
    (∃ choices q, Run t source (.start (Reader.ofString line).skipBlank) choices q ∧
      p.chain = q.chain ∧ p.reader = q.reader ∧ q.reader.AtToken ∧
      ∀ i r, ¬Step t source q i r) ∧
    (∀ e ∈ p.failure :: p.refusals, e.PinnedFrom line p.reader.cursor) ∧
    (p.failure.fault = .unknownCommand →
      p.chain.outer.nodes = [] ∧ p.chain.outer.options = []) := by
  intro p
  obtain ⟨layer, hg⟩ := ht.grown
  have hforward := hL.readsLocally.readsForward
  have hink : (Reader.ofString line).skipBlank.AtInk :=
    hg.filed.ink_of_incomplete hforward hincomplete
  obtain ⟨q, hends, hrest, hp⟩ := hg.filed.parseFrom_stops hforward hincomplete
  have hchain : p.chain = q.chain := congrArg Outcome.chain hp
  have hreader : p.reader = q.reader := congrArg Outcome.reader hp
  obtain ⟨⟨choices, hrun⟩, htoken, hno⟩ :=
    hends.stuck_at hforward hrest (Reader.skipBlank_atToken (Or.inr rfl) hink)
  have hrefusals : ∀ e ∈ p.refusals, e.IsAhead p.reader :=
    hreader ▸ refusals_ahead hL.failsAhead hp
  obtain ⟨⟨n, f, hfailure⟩, hunknown⟩ := failure_ahead hrefusals
  have htext : p.reader.text = line.toList := by
    rw [hreader, hends.text hforward]
    exact Reader.text_skipBlank _
  refine ⟨⟨choices, q, hrun, hchain, hreader, htoken, hno⟩, fun e he => ?_, fun h => ?_⟩
  · rcases List.mem_cons.1 he with rfl | he
    · rw [hfailure]
      exact f.pinnedFrom htext n
    · obtain ⟨g, m, -, rfl⟩ := hrefusals e he
      exact g.pinnedFrom htext m
  · obtain ⟨spans, hlaid⟩ := hends.laid hforward (laid_start _) (Or.inr hink)
    refine hlaid.nothing_of_isEmpty ?_ (hunknown h)
    rw [← hchain]
    exact List.mem_cons_self

/-- A command that says a string. -/
def herald : CommandTree .builtins := built [
    { Blueprint.literal "say" with children := [.argument "what" Builtin.string] }]

theorem reachable_herald : herald.Reachable := reachable_built _

theorem parse_fails_ahead_herald :
    let line := "say \"a\\q\""
    let p := herald.parse line ()
    p.isComplete = false ∧ p.reader.cursor = 4 ∧
      p.failure = ⟨.invalidEscape 'q', some ⟨line, 7⟩⟩ ∧ p.refusals = [p.failure] ∧
      (∃ choices q, Run herald () (.start (Reader.ofString line).skipBlank) choices q ∧
        p.chain = q.chain ∧ p.reader = q.reader ∧ q.reader.AtToken ∧
        ∀ i r, ¬Step herald () q i r) ∧
      (∀ e ∈ p.failure :: p.refusals, e.PinnedFrom line p.reader.cursor) ∧
      (p.failure.fault = .unknownCommand →
        p.chain.outer.nodes = [] ∧ p.chain.outer.options = []) := by
  intro line p
  have hincomplete : p.isComplete = false := by decide +kernel
  exact ⟨hincomplete, by decide +kernel, by decide +kernel, by decide +kernel,
    parse_fails_ahead Language.isBuiltin_builtins reachable_herald line () hincomplete⟩

end CommandTree

end CommandConsole
