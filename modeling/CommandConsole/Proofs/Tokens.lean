import CommandConsole.Proofs.Cut
import Mathlib.Data.List.Nodup
import Mathlib.Data.List.TakeWhile

/-!
# Tokens of a line

What a line was matched with, nodes and options alike, are tokens of the line: each starts at ink
and ends at a blank or the end of the line, and blanks are all that stands between them. The tokens
are found in the order of the steps, which is also their order on the line.
-/

namespace CommandConsole

open Text
open scoped List

variable {L : Language}

/-! ### Hulls -/

namespace Span

/-- The least span that holds all spans of a list, if there are any. -/
def hull? : List Span → Option Span
  | [] => none
  | s :: spans => some ((hull? spans).elim s s.hull)

theorem hull?_perm {a b : List Span} (h : a.Perm b) : hull? a = hull? b := by
  induction h with
  | nil => rfl
  | cons s _ ih => rw [hull?, hull?, ih]
  | swap s u spans =>
    simp only [hull?, Option.elim_some, Option.some.injEq]
    cases hull? spans with
    | none => exact hull_comm u s
    | some v =>
      have hcomm : (u.hull s).hull v = (s.hull u).hull v := by rw [hull_comm u s]
      rwa [hull_assoc, hull_assoc] at hcomm
  | trans _ _ ih₁ ih₂ => exact ih₁.trans ih₂

theorem hull_atOffset {x y : Nat} (h : x ≤ y) : (Span.atOffset x).hull ⟨x, y⟩ = ⟨x, y⟩ := by
  simp only [hull, atOffset, Span.mk.injEq]
  omega

end Span

/-! ### Marks on a line -/

namespace Reader

def InkAt (r : Reader) (x : Nat) : Prop := ∃ s, r.seek? x = some s ∧ s.AtInk

/-- Whether an offset is in front of a blank or at the end of the line. -/
def TokenEndAt (r : Reader) (x : Nat) : Prop := ∃ s, r.seek? x = some s ∧ endsToken s.rest = true

def BlankBetween (r : Reader) (x y : Nat) : Prop :=
  ∃ blanks, slice? x y r.text = some blanks ∧ ∀ d ∈ blanks, isBlank d = true

/-- Whether blanks are all that stands from one offset to another, in front of, between and behind
spans of the line. -/
def Gaps (r : Reader) : Nat → List Span → Nat → Prop
  | x, [], y => r.BlankBetween x y
  | x, s :: spans, y => r.BlankBetween x s.start ∧ r.Gaps s.stop spans y

theorem Gaps.snoc {r : Reader} {x y z z' : Nat} {spans : List Span} (h : r.Gaps x spans y)
    (hz : r.BlankBetween z z') : r.Gaps x (spans ++ [⟨y, z⟩]) z' := by
  induction spans generalizing x with
  | nil => exact ⟨h, hz⟩
  | cons s spans ih =>
    obtain ⟨hs, hrest⟩ := h
    exact ⟨hs, ih hrest⟩

theorem seek?_cursor {r s : Reader} (h : s.text = r.text) : r.seek? s.cursor = some s := by
  have hback : (⟨s.passed.reverse.reverse, s.rest⟩ : Reader) = s := by rw [List.reverse_reverse]
  unfold seek?
  rw [← h, cursor_eq, text, splitAt?_append]
  exact congrArg some hback

theorem blankBetween_skipBlank {r s : Reader} (h : s.text = r.text) :
    r.BlankBetween s.cursor s.skipBlank.cursor := by
  obtain ⟨blanks, hpassed, hblank⟩ := passed_skipBlank s
  have htext : r.text = s.passed.reverse ++ blanks ++ s.skipBlank.rest := by
    rw [← h, ← text_skipBlank s, text, hpassed]
  refine ⟨blanks, ?_, hblank⟩
  rw [htext, s.cursor_eq, s.skipBlank.cursor_eq, hpassed]
  exact slice?_append _ _ _

theorem blankBetween_cursor {r s : Reader} (h : s.text = r.text) :
    r.BlankBetween s.cursor s.cursor := by
  have hslice := slice?_append s.passed.reverse [] s.rest
  rw [List.append_nil, ← cursor_eq] at hslice
  exact ⟨[], h ▸ hslice, by simp⟩

theorem cursor_of_rest_nil {r : Reader} (h : r.rest = []) : r.cursor = r.totalLength := by
  have hlength := cursor_add_remainingLength r
  rw [remainingLength, h] at hlength
  exact hlength

theorem rest_nil_of_cursor {r : Reader} (h : r.cursor = r.totalLength) : r.rest = [] := by
  have hlength := cursor_add_remainingLength r
  refine Decidable.byContradiction fun hne => ?_
  have hpos : 0 < r.remainingLength := byteLength_pos hne
  omega

end Reader

/-! ### Tokens -/

/-- The spans of what a context has matched. -/
def Context.pieces (c : Context L) : List Span :=
  c.nodes.map (·.span) ++ c.options.map fun o => ⟨o.nameSpan.start, o.valueSpan.stop⟩

/-- The spans of what a line was matched with, from left to right. -/
def Chain.tokens (ch : Chain L) : List Span :=
  (ch.toList.flatMap Context.pieces).mergeSort fun a b => a.start ≤ b.start

/-- Whether tokens make up a line from a reader up to an offset. A token may be empty only at the
end of a line that is blank from the reader on. -/
structure Tiling (r : Reader) (stop : Nat) (tokens : List Span) : Prop where
  gaps : r.Gaps r.cursor tokens stop
  apart : tokens.Pairwise fun a b => a.stop < b.start
  ends : ∀ s ∈ tokens, r.TokenEndAt s.stop
  starts : (∀ s ∈ tokens, s.start < s.stop ∧ r.InkAt s.start) ∨
    (∀ d ∈ r.rest, isBlank d = true) ∧ tokens = [.atOffset r.totalLength]

def Position.taken (p : Position L) (n : Nat) : Span :=
  ⟨p.reader.cursor, (p.reader.pass n).cursor⟩

namespace CommandTree

variable {t : CommandTree L} {source : L.Source} {p q : Position L} {n : Nat} {c : Context L}
  {r : Reader} {spans : List Span}

theorem Piece.pieces_perm (h : Piece t source p n c) :
    c.pieces.Perm (p.taken n :: p.context.pieces) := by
  cases h with
  | @node child captured policy =>
    let options := p.context.options.map fun o => Span.mk o.nameSpan.start o.valueSpan.stop
    have hnodes : (({ p.context with captured } : Context L).enter child (t.node child) (p.taken n)
        policy).pieces = p.context.nodes.map (·.span) ++ [p.taken n] ++ options := by
      simp [Context.pieces, Context.enter, options]
    have hmiddle : (p.context.nodes.map (·.span) ++ ([p.taken n] ++ options)).Perm
        (p.taken n :: p.context.pieces) := List.perm_middle
    rw [← List.append_assoc, ← hnodes] at hmiddle
    exact hmiddle
  | @option name option named start value m =>
    have hoptions : (p.context.takeOption ⟨name, option, p.node, ⟨p.reader.cursor, named.cursor⟩,
        ⟨start.cursor, (p.reader.pass n).cursor⟩⟩ value).pieces =
          p.context.pieces ++ [p.taken n] := by
      simp [Context.pieces, Context.takeOption, Context.capture, Position.taken]
    rw [hoptions]
    exact List.perm_append_singleton _ _

theorem Piece.span_eq (h : Piece t source p n c) :
    c.span = p.context.span.hull (p.taken n) := by
  cases h with
  | node => rfl
  | option _ _ _ _ _ _ => rfl

/-- Whether the span of a context is the hull of its pieces, or none was matched so far. -/
def Hulled (c : Context L) : Prop :=
  c.span = (Span.hull? c.pieces).getD (.atOffset c.span.start)

theorem hulled_startAt (id : NodeId) (x : Nat) (policy : ConsolePolicy) :
    Hulled (Context.startAt (L := L) id x policy) := rfl

/-! ### Tokens of a position -/

/-- Whether spans are the pieces matched on the way to a position, in order, and fit the line of a
reader up to there. -/
structure Laid (r : Reader) (p : Position L) (spans : List Span) : Prop where
  pieces : spans.Perm ((p.closed ++ [p.context]).flatMap Context.pieces)
  text : p.reader.text = r.text
  gaps : r.Gaps r.cursor spans p.reader.cursor
  apart : spans.Pairwise fun a b => a.stop < b.start
  ends : ∀ s ∈ spans, r.TokenEndAt s.stop
  starts : ∀ s ∈ spans, s.start < s.stop ∧ r.InkAt s.start
  behind : p.reader.rest ≠ [] → ∀ s ∈ spans, s.stop < p.reader.cursor
  closed : ∀ c ∈ p.closed, Hulled c
  context : Hulled p.context
  fresh : p.context.pieces = [] → p.context.span = .atOffset p.reader.cursor

theorem laid_start (r : Reader) : Laid r (Position.start (L := L) r.skipBlank) [] where
  pieces := .refl _
  text := Reader.text_skipBlank r
  gaps := Reader.blankBetween_skipBlank rfl
  apart := .nil
  ends := by simp
  starts := by simp
  behind := by simp
  closed := by simp [Position.start]
  context := hulled_startAt _ _ _
  fresh _ := rfl

theorem Laid.hulled_piece (h : Laid r p spans) (hpiece : Piece t source p n c) : Hulled c := by
  have hle : p.reader.cursor ≤ (p.reader.pass n).cursor := Reader.cursor_le_pass _ _
  have hspan : c.span = p.context.span.hull (p.taken n) := hpiece.span_eq
  have hhull : Span.hull? c.pieces =
      some ((Span.hull? p.context.pieces).elim (p.taken n) (p.taken n).hull) :=
    Span.hull?_perm hpiece.pieces_perm
  have hcontext := h.context
  unfold Hulled at hcontext ⊢
  rw [hhull, Option.getD_some, hspan]
  cases hold : Span.hull? p.context.pieces with
  | none =>
    have hnone : p.context.pieces = [] := by
      cases hpieces : p.context.pieces with
      | nil => rfl
      | cons s more =>
        rw [hpieces] at hold
        cases hold
    rw [h.fresh hnone]
    exact Span.hull_atOffset hle
  | some v =>
    rw [hold, Option.getD_some] at hcontext
    rw [hcontext]
    exact Span.hull_comm v (p.taken n)

theorem Takes.pieces_perm (h : Takes t source p n c q)
    (hspans : spans.Perm ((p.closed ++ [p.context]).flatMap Context.pieces)) :
    (spans ++ [p.taken n]).Perm ((q.closed ++ [q.context]).flatMap Context.pieces) := by
  have hq : (q.closed ++ [q.context]).flatMap Context.pieces =
      p.closed.flatMap Context.pieces ++ c.pieces := by
    rcases h.goesOn with ⟨hclosed, hcontext⟩ | ⟨-, hclosed, hcontext⟩
    · simp [hclosed, hcontext]
    · simp [hclosed, hcontext, Context.startAt, Context.pieces]
  have hp : (p.closed ++ [p.context]).flatMap Context.pieces =
      p.closed.flatMap Context.pieces ++ p.context.pieces := by
    simp
  have hlast : (p.context.pieces ++ [p.taken n]).Perm c.pieces :=
    (List.perm_append_singleton _ _).trans h.piece.pieces_perm.symm
  rw [hp] at hspans
  rw [hq]
  calc spans ++ [p.taken n]
    _ ~ p.closed.flatMap Context.pieces ++ p.context.pieces ++ [p.taken n] :=
      hspans.append_right _
    _ = p.closed.flatMap Context.pieces ++ (p.context.pieces ++ [p.taken n]) :=
      List.append_assoc _ _ _
    _ ~ p.closed.flatMap Context.pieces ++ c.pieces := hlast.append_left _

theorem Takes.pos (h : Takes t source p n c q) (hink : p.reader.AtInk) : 0 < n := by
  refine Nat.pos_of_ne_zero fun hzero => ?_
  have hends := h.ends
  rw [hzero] at hends
  exact hink.not_endsToken hends

theorem Laid.takes (h : Laid r p spans) (ht : Takes t source p n c q) (hink : p.reader.AtInk) :
    Laid r q (spans ++ [p.taken n]) := by
  have htext : (p.reader.pass n).text = r.text := (Reader.text_pass _ _).trans h.text
  have hlt : (p.taken n).start < (p.taken n).stop :=
    Reader.cursor_lt_pass _ (ht.pos hink) hink.rest_ne_nil
  have hbefore := h.behind hink.rest_ne_nil
  have hcontext : Hulled c := h.hulled_piece ht.piece
  have hmem : ∀ s ∈ spans ++ [p.taken n], s ∈ spans ∨ s = p.taken n := by simp
  have hpieces : c.pieces ≠ [] := fun hnil => by
    have hperm := ht.piece.pieces_perm
    rw [hnil] at hperm
    exact List.cons_ne_nil _ _ hperm.nil_eq.symm
  refine ⟨ht.pieces_perm h.pieces, ht.text.trans h.text, ?_, ?_, ?_, ?_, ?_, ?_, ?_, ?_⟩
  · rw [ht.reader]
    exact h.gaps.snoc (Reader.blankBetween_skipBlank htext)
  · refine List.pairwise_append.2 ⟨h.apart, List.pairwise_singleton _ _, fun a ha b hb => ?_⟩
    rw [List.mem_singleton.1 hb]
    exact hbefore a ha
  · intro s hs
    rcases hmem s hs with hs | hs
    · exact h.ends s hs
    · rw [hs]
      exact ⟨_, Reader.seek?_cursor htext, ht.ends⟩
  · intro s hs
    rcases hmem s hs with hs | hs
    · exact h.starts s hs
    · rw [hs]
      exact ⟨hlt, _, Reader.seek?_cursor h.text, hink⟩
  · intro hrest s hs
    have hstop : (p.taken n).stop < q.reader.cursor := ht.cursor_lt hrest
    rcases hmem s hs with hs | hs
    · have hold := hbefore s hs
      exact Nat.lt_trans hold (Nat.lt_trans hlt hstop)
    · rw [hs]
      exact hstop
  · intro d hd
    rcases ht.goesOn with ⟨hclosed, -⟩ | ⟨-, hclosed, -⟩
    · exact h.closed d (hclosed ▸ hd)
    · rw [hclosed] at hd
      rcases List.mem_append.1 hd with hd | hd
      · exact h.closed d hd
      · exact List.mem_singleton.1 hd ▸ hcontext
  · rcases ht.goesOn with ⟨-, hq⟩ | ⟨-, -, hq⟩
    · exact hq ▸ hcontext
    · exact hq ▸ hulled_startAt _ _ _
  · intro hnil
    rcases ht.goesOn with ⟨-, hq⟩ | ⟨-, -, hq⟩
    · exact absurd (hq ▸ hnil) hpieces
    · rw [hq]
      rfl

theorem Ends.laid (hL : L.ReadsForward) (h : Ends t source p q) (hp : Laid r p spans)
    (hink : p.reader.rest = [] ∨ p.reader.AtInk) : ∃ spans', Laid r q spans' := by
  induction h generalizing spans with
  | finished _ => exact ⟨spans, hp⟩
  | stuck _ _ => exact ⟨spans, hp⟩
  | @step p q r i hrest hs _ ih =>
    have hink : p.reader.AtInk := hink.resolve_left hrest
    obtain ⟨n, c, ht⟩ := hs.takes hL
    exact ih (hp.takes ht hink) (hs.cases_reader hL hink)

/-! ### Tokens of a line -/

theorem tokens_eq (h : spans.Perm (p.chain.toList.flatMap Context.pieces))
    (hsorted : spans.Pairwise fun a b => a.start < b.start) : p.chain.tokens = spans := by
  have hle : spans.Pairwise fun a b => a.start ≤ b.start := hsorted.imp Nat.le_of_lt
  have hperm : p.chain.tokens.Perm spans := (List.mergeSort_perm _ _).trans h.symm
  have hmine : p.chain.tokens.Pairwise fun a b => a.start ≤ b.start := by
    unfold Chain.tokens
    have htrans : ∀ a b c : Span, decide (a.start ≤ b.start) = true →
        decide (b.start ≤ c.start) = true → decide (a.start ≤ c.start) = true := by
      simp only [decide_eq_true_eq]
      exact fun _ _ _ => Nat.le_trans
    have htotal : ∀ a b : Span,
        (decide (a.start ≤ b.start) || decide (b.start ≤ a.start)) = true := by
      simp only [Bool.or_eq_true, decide_eq_true_eq]
      exact fun _ _ => Nat.le_total _ _
    exact (List.pairwise_mergeSort htrans htotal _).imp fun h => of_decide_eq_true h
  have hstarts : (spans.map Span.start).Nodup := List.pairwise_map.2 (hsorted.imp Nat.ne_of_lt)
  refine hperm.eq_of_pairwise (fun a b ha hb hab hba => ?_) hmine hle
  have hstart : a.start = b.start := Nat.le_antisymm hab hba
  exact List.inj_on_of_nodup_map hstarts (hperm.mem_iff.1 ha) hb hstart

theorem Laid.sorted (h : Laid r p spans) : spans.Pairwise fun a b => a.start < b.start :=
  h.apart.imp_of_mem fun {a _} ha _ hab => Nat.lt_trans (h.starts a ha).1 hab

theorem Laid.tiling (h : Laid r p spans) : Tiling r p.reader.cursor p.chain.tokens := by
  have htokens : p.chain.tokens = spans := by
    refine tokens_eq ?_ h.sorted
    rw [Position.toList_chain]
    exact h.pieces
  rw [htokens]
  exact ⟨h.gaps, h.apart, h.ends, Or.inl h.starts⟩

theorem Laid.hulled (h : Laid r p spans) : ∀ c ∈ p.chain.toList, Hulled c := by
  intro c hc
  rw [Position.toList_chain] at hc
  rcases List.mem_append.1 hc with hc | hc
  · exact h.closed c hc
  · exact List.mem_singleton.1 hc ▸ h.context

/-- At the end of the line, a step takes nothing but one empty token. -/
theorem Takes.empty {s : Reader} (h : Takes t source (.start s) n c q) (hs : s.rest = []) :
    q.closed = [] ∧ q.context = c ∧ c.pieces = [.atOffset s.cursor] ∧
      q.reader.cursor = s.cursor ∧ q.reader.rest = [] := by
  have hpass : (s.pass n).rest = [] := by rw [Reader.rest_pass, hs, List.drop_nil]
  have hcursor : (s.pass n).cursor = s.cursor := by
    rw [Reader.cursor_pass, hs, List.take_nil]
    rfl
  have hskip : q.reader.rest = [] := by
    rw [h.reader]
    exact skipBlank_of_rest_nil hpass
  have hpieces : c.pieces.Perm [Position.taken (L := L) (.start s) n] := h.piece.pieces_perm
  have htaken : Position.taken (L := L) (.start s) n = .atOffset s.cursor := by
    rw [Position.taken, Span.atOffset]
    exact congrArg (Span.mk s.cursor) hcursor
  have hend : q.reader.cursor = s.cursor := by
    rw [Reader.cursor_of_rest_nil hskip, Reader.cursor_of_rest_nil hs, Reader.totalLength, h.text]
    rfl
  rcases h.goesOn with ⟨hclosed, hcontext⟩ | ⟨hrest, -⟩
  · exact ⟨hclosed, hcontext, htaken ▸ hpieces.eq_singleton, hend, hskip⟩
  · exact absurd hpass hrest

theorem Takes.tiling_blank (h : Takes t source (.start r.skipBlank) n c q)
    (hnil : r.skipBlank.rest = []) :
    Tiling r q.reader.cursor q.chain.tokens ∧ ∀ c ∈ q.chain.toList, Hulled c := by
  obtain ⟨hclosed, hcontext, hpieces, hend, hrest⟩ := h.empty hnil
  have hlist : q.chain.toList = [c] := by
    rw [Position.toList_chain, hclosed, hcontext]
    rfl
  have htokens : q.chain.tokens = [.atOffset r.skipBlank.cursor] :=
    tokens_eq (by simp [hlist, hpieces]) (List.pairwise_singleton _ _)
  have hlength : r.skipBlank.cursor = r.totalLength := by
    rw [Reader.cursor_of_rest_nil hnil, Reader.totalLength, Reader.text_skipBlank]
    rfl
  have hblank : ∀ d ∈ r.rest, isBlank d = true := by
    rw [Reader.rest_skipBlank, trimFront, List.dropWhile_eq_nil_iff] at hnil
    exact hnil
  have htext : r.skipBlank.text = r.text := Reader.text_skipBlank r
  have hends : r.TokenEndAt r.skipBlank.cursor :=
    ⟨_, Reader.seek?_cursor htext, by rw [hnil]; rfl⟩
  have hulled : Hulled c := (laid_start r).hulled_piece h.piece
  rw [htokens, hend, hlist]
  refine ⟨⟨⟨Reader.blankBetween_skipBlank rfl, Reader.blankBetween_cursor htext⟩,
    List.pairwise_singleton _ _, ?_, Or.inr ⟨hblank, by rw [hlength]⟩⟩, by simpa using hulled⟩
  intro s hs
  rw [List.mem_singleton.1 hs]
  exact hends

/-- The tokens that a line was matched with tile it, and the span of every context is the hull of
its own. -/
theorem parseFrom_tiling (hL : L.ReadsForward) (ht : t.Reachable) (r : Reader)
    (source : L.Source) :
    let p := t.parseFrom r source
    p.reader.text = r.text ∧ Tiling r p.reader.cursor p.chain.tokens ∧
      ∀ c ∈ p.chain.toList, c.span = (Span.hull? c.pieces).getD (.atOffset c.span.start) := by
  intro p
  obtain ⟨layer, hg⟩ := ht.grown
  obtain ⟨q, hchain, hreader, hleaves, hends⟩ := hg.filed.parseFrom_leaves hL r source
  have hstart : Laid r (Position.start (L := L) r.skipBlank) [] := laid_start r
  have htext : q.reader.text = r.text := (hleaves.text hL).trans (Reader.text_skipBlank r)
  have htiling : Tiling r q.reader.cursor q.chain.tokens ∧ ∀ c ∈ q.chain.toList, Hulled c := by
    rcases Reader.skipBlank_cases r with hnil | hink
    · rcases hleaves with rfl | ⟨i, q₁, hs, hq⟩
      · exact ⟨hstart.tiling, hstart.hulled⟩
      · obtain ⟨n, c, htakes⟩ := hs.takes hL
        obtain rfl := hq.eq_of_rest_nil (htakes.empty hnil).2.2.2.2
        exact htakes.tiling_blank hnil
    · obtain ⟨spans, hlaid⟩ := (hends hink).laid hL hstart (Or.inr hink)
      exact ⟨hlaid.tiling, hlaid.hulled⟩
  rw [show p.reader = q.reader from hreader, show p.chain = q.chain from hchain]
  exact ⟨htext, htiling⟩

theorem parseFrom_tiling_console :
    let r := Reader.ofString "ban Steve 3..7"
    let p := commandTree.parseFrom r (.console "Server")
    p.reader.text = r.text ∧ Tiling r p.reader.cursor p.chain.tokens ∧
      ∀ c ∈ p.chain.toList, c.span = (Span.hull? c.pieces).getD (.atOffset c.span.start) :=
  parseFrom_tiling console_readsForward reachable_commandTree _ _

end CommandTree

end CommandConsole
