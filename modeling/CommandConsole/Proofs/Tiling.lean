import CommandConsole.Proofs.GateSafety

/-!
# Pieces of a line

Every step adds one piece to the context where it starts: a node with its span, or an option with
the spans of its name and its value. The pieces of a line follow each other from left to right, with
blanks in between, so what a context has matched up to some place says nothing about the rest of the
line.
-/

namespace CommandConsole

open Text

variable {L : Language}

namespace Reader

theorem cursor_le_pass (r : Reader) (n : Nat) : r.cursor ≤ (r.pass n).cursor := by
  rw [cursor_pass]
  omega

theorem cursor_pass_mono (r : Reader) {m n : Nat} (h : m ≤ n) :
    (r.pass m).cursor ≤ (r.pass n).cursor := by
  rw [← Nat.add_sub_cancel' h, ← pass_pass]
  exact cursor_le_pass _ _

theorem cursor_le_skipBlank (r : Reader) : r.cursor ≤ r.skipBlank.cursor := by
  rw [skipBlank_eq_pass]
  exact cursor_le_pass _ _

theorem passed_pass (r : Reader) (n : Nat) :
    (r.pass n).passed.reverse = r.passed.reverse ++ r.rest.take n := by
  simp [pass]

theorem passed_skipBlank (r : Reader) : ∃ blanks, r.skipBlank.passed.reverse =
    r.passed.reverse ++ blanks ∧ ∀ d ∈ blanks, isBlank d = true := by
  refine ⟨r.rest.takeWhile isBlank, ?_, List.all_eq_true.1 List.all_takeWhile⟩
  rw [skipBlank_eq_pass, passed_pass,
    ← List.prefix_iff_eq_take.1 (List.takeWhile_prefix isBlank)]

theorem byteLength_pos {cs : List Char} (h : cs ≠ []) : 0 < byteLength cs := by
  cases cs with
  | nil => exact absurd rfl h
  | cons c cs =>
    have hc := c.utf8Size_pos
    simp only [byteLength]
    omega

theorem cursor_lt_pass (r : Reader) {n : Nat} (hn : 0 < n) (hr : r.rest ≠ []) :
    r.cursor < (r.pass n).cursor := by
  rw [cursor_pass]
  have htake : r.rest.take n ≠ [] := by
    simp only [ne_eq, List.take_eq_nil_iff, not_or]
    exact ⟨by omega, hr⟩
  have hpos := byteLength_pos htake
  omega

theorem cursor_lt_skipBlank {r : Reader} (hends : endsToken r.rest = true)
    (hrest : r.skipBlank.rest ≠ []) : r.cursor < r.skipBlank.cursor := by
  rw [rest_skipBlank] at hrest
  cases hr : r.rest with
  | nil =>
    rw [hr] at hrest
    exact absurd rfl hrest
  | cons d ds =>
    rw [hr] at hends
    have hblank : isBlank d = true := hends
    rw [skipBlank_eq_pass]
    refine cursor_lt_pass _ ?_ (by rw [hr]; exact List.cons_ne_nil _ _)
    rw [hr, List.takeWhile_cons, if_pos hblank]
    exact Nat.succ_pos _

end Reader

/-! ### Contexts in front of an offset -/

structure Context.Before (c : Context L) (x : Nat) : Prop where
  start : c.span.start < x
  stop : c.span.stop < x
  node : ∀ m ∈ c.nodes, m.span.stop < x
  option : ∀ o ∈ c.options, o.nameSpan.stop < x ∧ o.valueSpan.stop < x

theorem Context.Before.mono {c : Context L} {x y : Nat} (h : c.Before x) (hxy : x ≤ y) :
    c.Before y where
  start := Nat.lt_of_lt_of_le h.start hxy
  stop := Nat.lt_of_lt_of_le h.stop hxy
  node m hm := Nat.lt_of_lt_of_le (h.node m hm) hxy
  option o ho :=
    ⟨Nat.lt_of_lt_of_le (h.option o ho).1 hxy, Nat.lt_of_lt_of_le (h.option o ho).2 hxy⟩

/-- Whether a context has matched nothing yet and starts at an offset. -/
structure Context.FreshAt (c : Context L) (x : Nat) : Prop where
  nodes : c.nodes = []
  options : c.options = []
  span : c.span = .atOffset x

/-- Where the last piece of a context ends, as long as a node comes first. -/
def Context.tailStop (c : Context L) : Nat :=
  match c.nodes.getLast? with
  | some entered => c.options.foldl (fun stop o => max stop o.valueSpan.stop) entered.span.stop
  | none => c.span.start

theorem foldl_max_of_le {options : List MatchedOption} {x : Nat}
    (h : ∀ o ∈ options, o.valueSpan.stop ≤ x) :
    options.foldl (fun stop o => max stop o.valueSpan.stop) x = x := by
  induction options with
  | nil => rfl
  | cons o options ih =>
    rw [List.foldl_cons, Nat.max_eq_left (h o (by simp))]
    exact ih fun o' ho' => h o' (by simp [ho'])

theorem Context.tailStop_enter {c : Context L} {x : Nat}
    (h : ∀ o ∈ c.options, o.valueSpan.stop ≤ x) (id : NodeId) (n : Node L) (start : Nat)
    (policy : ConsolePolicy) : (c.enter id n ⟨start, x⟩ policy).tailStop = x := by
  unfold tailStop enter
  simp only [List.getLast?_append, List.getLast?_singleton, Option.some_or]
  exact foldl_max_of_le h

theorem Context.tailStop_takeOption {c : Context L} {o : MatchedOption} (hnodes : c.nodes ≠ [])
    (h : c.tailStop ≤ o.valueSpan.stop) (value : Value) :
    (c.takeOption o value).tailStop = o.valueSpan.stop := by
  have hsame : (c.takeOption o value).nodes = c.nodes := rfl
  have hmore : (c.takeOption o value).options = c.options ++ [o] := rfl
  unfold tailStop at h ⊢
  rw [hsame, hmore]
  cases hlast : c.nodes.getLast? with
  | none => exact absurd (List.getLast?_eq_none_iff.1 hlast) hnodes
  | some entered =>
    rw [hlast] at h
    simp only at h ⊢
    rw [List.foldl_append]
    exact Nat.max_eq_right h

/-- A context grows by pieces from an offset on. -/
structure Context.GrowsTo (c c' : Context L) (x : Nat) : Prop where
  root : c'.root = c.root
  startConsole : c'.startConsole = c.startConsole
  start : c'.span.start = c.span.start
  stop : c.span.stop ≤ c'.span.stop
  nodes : ∃ ms, c'.nodes = c.nodes ++ ms ∧ ∀ m ∈ ms, x ≤ m.span.start
  options : ∃ os, c'.options = c.options ++ os ∧
    ∀ o ∈ os, x ≤ o.nameSpan.start ∧ x ≤ o.valueSpan.start

theorem Context.GrowsTo.refl (c : Context L) (x : Nat) : c.GrowsTo c x where
  root := rfl
  startConsole := rfl
  start := rfl
  stop := Nat.le_refl _
  nodes := ⟨[], (List.append_nil _).symm, by simp⟩
  options := ⟨[], (List.append_nil _).symm, by simp⟩

theorem Context.GrowsTo.trans {c c' c'' : Context L} {x y : Nat} (h : c.GrowsTo c' x)
    (h' : c'.GrowsTo c'' y) (hxy : x ≤ y) : c.GrowsTo c'' x where
  root := h'.root.trans h.root
  startConsole := h'.startConsole.trans h.startConsole
  start := h'.start.trans h.start
  stop := Nat.le_trans h.stop h'.stop
  nodes := by
    obtain ⟨ms, hms, hx⟩ := h.nodes
    obtain ⟨ms', hms', hy⟩ := h'.nodes
    refine ⟨ms ++ ms', by rw [hms', hms, List.append_assoc], fun m hm => ?_⟩
    rcases List.mem_append.1 hm with hm | hm
    · exact hx m hm
    · exact Nat.le_trans hxy (hy m hm)
  options := by
    obtain ⟨os, hos, hx⟩ := h.options
    obtain ⟨os', hos', hy⟩ := h'.options
    refine ⟨os ++ os', by rw [hos', hos, List.append_assoc], fun o ho => ?_⟩
    rcases List.mem_append.1 ho with ho | ho
    · exact hx o ho
    · exact ⟨Nat.le_trans hxy (hy o ho).1, Nat.le_trans hxy (hy o ho).2⟩

namespace CommandTree

variable {t : CommandTree L} {source : L.Source} {p q r : Position L} {layer : NodeId → Nat}
  {n : Nat} {c : Context L}

/-! ### The piece of a step -/

/-- A piece of a number of characters: the context that has it. -/
inductive Piece (t : CommandTree L) (source : L.Source) (p : Position L) (n : Nat) :
    Context L → Prop
  | node {child : NodeId} {captured : Keyed String Captured} {policy : ConsolePolicy} :
      Piece t source p n (({ p.context with captured } : Context L).enter child (t.node child)
        ⟨p.reader.cursor, (p.reader.pass n).cursor⟩ policy)
  | option {name : String} {option : NodeId} {named start : Reader} {value : Value} {m : Nat} :
      t.NamesOption p name option → t.Admits source option p.context.console →
      named = p.reader.pass (2 + name.length) → start = named.skipBlank → start.rest ≠ [] →
      p.reader.pass n = start.pass m →
      Piece t source p n (p.context.takeOption ⟨name, option, p.node,
        ⟨p.reader.cursor, named.cursor⟩, ⟨start.cursor, (p.reader.pass n).cursor⟩⟩ value)

/-- Where a step goes: behind a piece, in the same context, or in a fresh one at the target of a
redirect. -/
structure Takes (t : CommandTree L) (source : L.Source) (p : Position L) (n : Nat)
    (c : Context L) (q : Position L) : Prop where
  piece : Piece t source p n c
  ends : endsToken (p.reader.pass n).rest = true
  reader : q.reader = (p.reader.pass n).skipBlank
  goesOn : q.closed = p.closed ∧ q.context = c ∨
    (p.reader.pass n).rest ≠ [] ∧ q.closed = p.closed ++ [c] ∧
      q.context = Context.startAt q.node q.reader.cursor c.console

theorem Takes.isBlank_head (h : Takes t source p n c q) {d : Char} {b : List Char}
    (hrest : (p.reader.pass n).rest = d :: b) : isBlank d = true := by
  have hends := h.ends
  rw [hrest] at hends
  exact hends

theorem takes_beyond (child : NodeId) (captured : Keyed String Captured)
    (hends : endsToken (p.reader.pass n).rest = true) :
    Takes t source p n (({ p.context with captured } : Context L).enter child (t.node child)
        ⟨p.reader.cursor, (p.reader.pass n).cursor⟩
        ((t.node child).gates.console.resolve p.context.console))
      (t.beyond p child { p.context with captured } (p.reader.pass n)) := by
  refine ⟨.node, hends, reader_beyond .., ?_⟩
  rcases beyond_cases (t := t) p child { p.context with captured } (p.reader.pass n) with
    h | ⟨forward, -, hread, h⟩
  · rw [h]
    exact Or.inl ⟨rfl, rfl⟩
  · rw [h]
    exact Or.inr ⟨Reader.canRead_iff.1 hread, rfl, rfl⟩

theorem takes_give {name : String} {option : NodeId} {named start : Reader} {m : Nat}
    (hn : t.NamesOption p name option) (ha : t.Admits source option p.context.console)
    (hnamed : named = p.reader.pass (2 + name.length)) (hstart : start = named.skipBlank)
    (hrest : start.rest ≠ []) (hpass : p.reader.pass n = start.pass m)
    (hends : endsToken (start.pass m).rest = true) (value : Value) :
    let context := p.context.takeOption ⟨name, option, p.node, ⟨p.reader.cursor, named.cursor⟩,
      ⟨start.cursor, (start.pass m).cursor⟩⟩ value
    Takes t source p n context ⟨p.closed, p.node, context, (start.pass m).skipBlank⟩ := by
  intro context
  refine ⟨?_, by rw [hpass]; exact hends, by rw [hpass], Or.inl ⟨rfl, rfl⟩⟩
  show Piece t source p n (p.context.takeOption _ _)
  rw [← hpass]
  exact .option hn ha hnamed hstart hrest hpass

theorem Gives.takes (hL : L.ReadsForward) {name : String} {option : NodeId}
    (hn : t.NamesOption p name option) (h : Gives t source p name option q) :
    ∃ n c, Takes t source p n c q := by
  cases h with
  | @intro type named start behind value hk ha hnew hnamed hstart hrest hs he =>
    obtain ⟨m, rfl⟩ := hL _ _ _ _ hs
    obtain ⟨n, hpass⟩ : ∃ n, p.reader.pass n = start.pass m := by
      rw [hstart, hnamed, Reader.skipBlank_eq_pass, Reader.pass_pass, Reader.pass_pass]
      exact ⟨_, rfl⟩
    exact ⟨n, _, takes_give hn ha hnamed hstart hrest hpass he value⟩

theorem Step.takes (hL : L.ReadsForward) {i : Nat} (h : Step t source p i q) :
    ∃ n c, Takes t source p n c q := by
  rcases h.gives_or_enters with ⟨name, option, hn, hg⟩ | ⟨child, -, taken, behind, hr, -, rfl⟩
  · exact hg.takes hL hn
  · have hends : endsToken behind.rest = true := (reads_iff_takeToken.1 hr).2
    obtain ⟨n, rfl⟩ := hr.behind hL
    obtain ⟨captured, rfl⟩ := hr.capture_eq
    exact ⟨n, _, takes_beyond child captured hends⟩

theorem Takes.cursor_lt (h : Takes t source p n c q) (hq : q.reader.rest ≠ []) :
    (p.reader.pass n).cursor < q.reader.cursor := by
  rw [h.reader] at hq ⊢
  exact Reader.cursor_lt_skipBlank h.ends hq

theorem NamesOption.cursor_lt {name : String} {option : NodeId} (h : t.NamesOption p name option)
    (hrest : (p.reader.pass (2 + name.length)).skipBlank.rest ≠ []) :
    (p.reader.pass (2 + name.length)).cursor <
      (p.reader.pass (2 + name.length)).skipBlank.cursor := by
  refine Reader.cursor_lt_skipBlank ?_ hrest
  have hlen : 2 + name.length = ('-' :: '-' :: name.toList).length := by
    rw [List.length_cons, List.length_cons, String.length_toList]
    omega
  rw [Reader.rest_pass, hlen]
  exact endsToken_of_token_eq h.1

theorem Piece.growsTo (h : Piece t source p n c) (hstart : p.context.span.start ≤ p.reader.cursor) :
    p.context.GrowsTo c p.reader.cursor := by
  cases h with
  | node =>
    refine ⟨rfl, rfl, Nat.min_eq_left hstart, Nat.le_max_left _ _, ⟨[_], rfl, fun m hm => ?_⟩,
      ⟨[], (List.append_nil _).symm, by simp⟩⟩
    obtain rfl := List.mem_singleton.1 hm
    exact Nat.le_refl _
  | option _ _ hnamed hvalue _ _ =>
    refine ⟨rfl, rfl, Nat.min_eq_left hstart, Nat.le_max_left _ _,
      ⟨[], (List.append_nil _).symm, by simp⟩, ⟨[_], rfl, fun o ho => ?_⟩⟩
    rw [List.mem_singleton.1 ho]
    refine ⟨Nat.le_refl _, ?_⟩
    rw [hvalue, hnamed]
    exact Nat.le_trans (Reader.cursor_le_pass _ _) (Reader.cursor_le_skipBlank _)

theorem Piece.stop_le (h : Piece t source p n c) : (p.reader.pass n).cursor ≤ c.span.stop := by
  cases h with
  | node => exact Nat.le_max_right _ _
  | option _ _ _ _ _ _ => exact Nat.le_max_right _ _

/-! ### Where parsing ends -/

/-- Steps as long as something is left to read and a step reads it. -/
inductive Ends (t : CommandTree L) (source : L.Source) : Position L → Position L → Prop
  | finished {p : Position L} : p.reader.rest = [] → Ends t source p p
  | stuck {p : Position L} :
      p.reader.rest ≠ [] → (∀ i q, ¬Step t source p i q) → Ends t source p p
  | step {p q r : Position L} {i : Nat} :
      p.reader.rest ≠ [] → Step t source p i q → Ends t source q r → Ends t source p r

theorem Ends.eq_of_rest_nil (h : Ends t source p q) (hp : p.reader.rest = []) : q = p := by
  cases h with
  | finished _ => rfl
  | stuck hr _ => exact absurd hp hr
  | step hr _ _ => exact absurd hp hr

theorem Takes.text (h : Takes t source p n c q) : q.reader.text = p.reader.text := by
  rw [h.reader, Reader.text_skipBlank, Reader.text_pass]

theorem Ends.text (hL : L.ReadsForward) (h : Ends t source p q) :
    q.reader.text = p.reader.text := by
  induction h with
  | finished _ => rfl
  | stuck _ _ => rfl
  | step _ hs _ ih =>
    obtain ⟨n, c, ht⟩ := hs.takes hL
    rw [ih, ht.text]

/-- Parsing from a position in front of ink takes steps as long as it can. The failures are those of
the attempts at the token where it cannot. -/
theorem Filed.follow_end (hf : Filed t layer) (hL : L.ReadsForward) (source : L.Source)
    (p : Position L) (hink : p.reader.AtInk) :
    ∃ q failures, (t.follow source p.node p.context p.reader).under p.closed =
      ⟨q.chain, q.reader, failures⟩ ∧ Ends t source p q ∧
        (q.reader.rest ≠ [] →
          failures = failuresOf (t.attempts source q.node q.context q.reader)) := by
  obtain ⟨steps, -, hmem, heq⟩ := hf.follow_steps source p
  rw [heq]
  cases hbest : Outcome.best? (steps.map fun s => t.arrive source p s.2) with
  | none =>
    have hnil : steps = [] := List.map_eq_nil_iff.1 (Outcome.best?_eq_none_iff.1 hbest)
    refine ⟨p, _, rfl, .stuck hink.rest_ne_nil fun i q hs => ?_, fun _ => rfl⟩
    have hin := (hmem i q).1 hs
    rw [hnil] at hin
    cases hin
  | some b =>
    obtain ⟨before, behind, hsplit, -⟩ := Outcome.best?_eq_some hbest
    have hb : b ∈ steps.map fun s => t.arrive source p s.2 := by rw [hsplit]; simp
    obtain ⟨⟨i, q₁⟩, hs, rfl⟩ := List.mem_map.1 hb
    have hstep : Step t source p i q₁ := (hmem i q₁).2 hs
    have hlt := hstep.rest_lt hL hink
    simp only [Option.getD_some]
    unfold arrive
    rcases hstep.cases_reader hL hink with hnil | hink₁
    · rw [if_neg (fun h => h.1 hnil)]
      exact ⟨q₁, .empty, rfl, .step hink.rest_ne_nil hstep (.finished hnil), (absurd hnil ·)⟩
    · rw [if_pos ⟨hink₁.rest_ne_nil, hlt⟩]
      obtain ⟨q, failures, hq, hends, hfailures⟩ := hf.follow_end hL source q₁ hink₁
      exact ⟨q, failures, hq, .step hink.rest_ne_nil hstep hends, hfailures⟩
termination_by p.reader.rest.length

theorem Ends.contexts (hL : L.ReadsForward) (h : Ends t source p q)
    (hstart : p.context.span.start ≤ p.reader.cursor) :
    ∃ c more, q.closed ++ [q.context] = p.closed ++ c :: more ∧
      p.context.GrowsTo c p.reader.cursor := by
  induction h with
  | finished _ => exact ⟨_, [], rfl, .refl _ _⟩
  | stuck _ _ => exact ⟨_, [], rfl, .refl _ _⟩
  | @step p q r i _ hs _ ih =>
    obtain ⟨n, c, ht⟩ := hs.takes hL
    have hgrows := ht.piece.growsTo hstart
    have hle : p.reader.cursor ≤ q.reader.cursor := by
      rw [ht.reader]
      exact Nat.le_trans (Reader.cursor_le_pass _ _) (Reader.cursor_le_skipBlank _)
    rcases ht.goesOn with ⟨hclosed, hcontext⟩ | ⟨-, hclosed, hcontext⟩
    · obtain ⟨c', more, hr, hgrows'⟩ := ih (by
        rw [hcontext, hgrows.start]
        exact Nat.le_trans hstart hle)
      rw [hclosed] at hr
      rw [hcontext] at hgrows'
      exact ⟨c', more, hr, hgrows.trans hgrows' hle⟩
    · obtain ⟨c', more, hr, -⟩ := ih (by
        rw [hcontext]
        exact Nat.le_refl _)
      rw [hclosed, List.append_assoc] at hr
      exact ⟨c, c' :: more, hr, hgrows⟩

theorem Takes.contexts (hL : L.ReadsForward) (ht : Takes t source p n c q)
    (hq : Ends t source q r) (hstart : p.context.span.start ≤ p.reader.cursor) :
    ∃ c' more x, r.closed ++ [r.context] = p.closed ++ c' :: more ∧ c.GrowsTo c' x ∧
      (p.reader.pass n).cursor < x := by
  have hself : c.GrowsTo c ((p.reader.pass n).cursor + 1) := .refl _ _
  rcases ht.goesOn with ⟨hclosed, hcontext⟩ | ⟨-, hclosed, hcontext⟩
  · by_cases hrest : q.reader.rest = []
    · obtain rfl := hq.eq_of_rest_nil hrest
      rw [hclosed, hcontext]
      exact ⟨c, [], _, rfl, hself, Nat.lt_succ_self _⟩
    · have hlt := ht.cursor_lt hrest
      obtain ⟨c', more, hr, hgrows⟩ := hq.contexts hL (by
        rw [hcontext, (ht.piece.growsTo hstart).start]
        exact Nat.le_trans hstart (Nat.le_trans (Reader.cursor_le_pass _ _) (Nat.le_of_lt hlt)))
      rw [hclosed] at hr
      rw [hcontext] at hgrows
      exact ⟨c', more, _, hr, hgrows, hlt⟩
  · obtain ⟨c', more, hr, -⟩ := hq.contexts hL (by
      rw [hcontext]
      exact Nat.le_refl _)
    rw [hclosed, List.append_assoc] at hr
    exact ⟨c, c' :: more, _, hr, hself, Nat.lt_succ_self _⟩

/-! ### Blanks behind the last piece -/

/-- Whether all pieces end by an offset, and blanks are all that is behind it up to the cursor. -/
structure Settled (p : Position L) (x : Nat) : Prop where
  closed : ∀ c ∈ p.closed, c.Before (x + 1)
  gap : ∃ front blanks, p.reader.passed.reverse = front ++ blanks ∧
    (∀ d ∈ blanks, isBlank d = true) ∧ byteLength front = x
  context : p.context.FreshAt p.reader.cursor ∨
    p.context.Before (x + 1) ∧ (p.context.nodes ≠ [] ∨ p.context.options ≠ []) ∧
      (p.context.nodes ≠ [] → p.context.tailStop = x)

theorem Settled.le_cursor {x : Nat} (h : Settled p x) : x ≤ p.reader.cursor := by
  obtain ⟨front, blanks, hpassed, -, hx⟩ := h.gap
  unfold Reader.cursor
  rw [← byteLength_reverse p.reader.passed, hpassed, byteLength_append, hx]
  exact Nat.le_add_right _ _

theorem Settled.start_le {x : Nat} (h : Settled p x) :
    p.context.span.start ≤ p.reader.cursor := by
  rcases h.context with hfresh | ⟨hbefore, -⟩
  · rw [hfresh.span]
    exact Nat.le_refl _
  · have hstart := hbefore.start
    have hle := h.le_cursor
    omega

theorem settled_start (line : String) :
    Settled (Position.start (L := L) (Reader.ofString line).skipBlank) 0 where
  closed c hc := by cases hc
  gap := by
    obtain ⟨blanks, hpassed, hblank⟩ := Reader.passed_skipBlank (Reader.ofString line)
    exact ⟨[], blanks, hpassed, hblank, rfl⟩
  context := Or.inl ⟨rfl, rfl, rfl⟩

theorem Settled.before {x : Nat} (h : Settled p x) : p.context.Before (p.reader.cursor + 1) := by
  rcases h.context with hf | ⟨hbefore, -⟩
  · have hlt := Nat.lt_succ_self p.reader.cursor
    constructor
    · rw [hf.span]
      exact hlt
    · rw [hf.span]
      exact hlt
    · rw [hf.nodes]
      simp
    · rw [hf.options]
      simp
  · exact hbefore.mono (Nat.succ_le_succ h.le_cursor)

theorem Piece.before {x : Nat} (h : Piece t source p n c) (hp : Settled p x) :
    c.Before ((p.reader.pass n).cursor + 1) := by
  have hold := hp.before.mono (Nat.succ_le_succ (Reader.cursor_le_pass p.reader n))
  cases h with
  | node =>
    refine ⟨?_, ?_, fun m hm => ?_, hold.option⟩
    · exact Nat.lt_of_le_of_lt (Nat.min_le_left _ _) hold.start
    · exact Nat.max_lt.2 ⟨hold.stop, Nat.lt_succ_self _⟩
    · rcases List.mem_append.1 hm with hm | hm
      · exact hold.node m hm
      · rw [List.mem_singleton.1 hm]
        exact Nat.lt_succ_self _
  | @option name option named start value m hn ha hnamed hvalue hrest hpass =>
    have hname : named.cursor ≤ (p.reader.pass n).cursor := by
      rw [hpass, hvalue]
      exact Nat.le_trans (Reader.cursor_le_skipBlank _) (Reader.cursor_le_pass _ _)
    refine ⟨?_, ?_, hold.node, fun o ho => ?_⟩
    · exact Nat.lt_of_le_of_lt (Nat.min_le_left _ _) hold.start
    · exact Nat.max_lt.2 ⟨hold.stop, Nat.lt_succ_self _⟩
    · rcases List.mem_append.1 ho with ho | ho
      · exact hold.option o ho
      · rw [List.mem_singleton.1 ho]
        exact ⟨Nat.lt_succ_of_le hname, Nat.lt_succ_self _⟩

theorem Piece.tailStop_eq {x : Nat} (h : Piece t source p n c) (hp : Settled p x) :
    (c.nodes ≠ [] ∨ c.options ≠ []) ∧
      (c.nodes ≠ [] → c.tailStop = (p.reader.pass n).cursor) := by
  have hle : p.reader.cursor ≤ (p.reader.pass n).cursor := Reader.cursor_le_pass _ _
  cases h with
  | node =>
    refine ⟨Or.inl (by simp [Context.enter]), fun _ => Context.tailStop_enter (fun o ho => ?_) ..⟩
    exact Nat.le_trans (Nat.le_of_lt_succ (hp.before.option o ho).2) hle
  | option _ _ _ _ _ _ =>
    refine ⟨Or.inr (by simp [Context.takeOption]), fun hnodes => ?_⟩
    refine Context.tailStop_takeOption (c := p.context) hnodes ?_ _
    rcases hp.context with hf | ⟨-, -, htail⟩
    · exact absurd hf.nodes hnodes
    · rw [htail hnodes]
      exact Nat.le_trans hp.le_cursor hle

theorem Takes.settled {x : Nat} (h : Takes t source p n c q) (hp : Settled p x) :
    Settled q (p.reader.pass n).cursor := by
  have hbefore := h.piece.before hp
  have hle : p.reader.cursor ≤ (p.reader.pass n).cursor := Reader.cursor_le_pass _ _
  have hclosed : ∀ d ∈ p.closed, d.Before ((p.reader.pass n).cursor + 1) := fun d hd =>
    (hp.closed d hd).mono (Nat.succ_le_succ (Nat.le_trans hp.le_cursor hle))
  have hgap : ∃ front blanks, q.reader.passed.reverse = front ++ blanks ∧
      (∀ d ∈ blanks, isBlank d = true) ∧ byteLength front = (p.reader.pass n).cursor := by
    obtain ⟨blanks, hpassed, hblank⟩ := Reader.passed_skipBlank (p.reader.pass n)
    rw [h.reader]
    exact ⟨_, blanks, hpassed, hblank, byteLength_reverse _⟩
  rcases h.goesOn with ⟨hc, hcontext⟩ | ⟨-, hc, hcontext⟩
  · refine ⟨hc ▸ hclosed, hgap, Or.inr ?_⟩
    rw [hcontext]
    exact ⟨hbefore, h.piece.tailStop_eq hp⟩
  · refine ⟨fun d hd => ?_, hgap, Or.inl ?_⟩
    · rw [hc] at hd
      rcases List.mem_append.1 hd with hd | hd
      · exact hclosed d hd
      · rw [List.mem_singleton.1 hd]
        exact hbefore
    · rw [hcontext]
      exact ⟨rfl, rfl, rfl⟩

end CommandTree

end CommandConsole
