import CommandConsole.Proofs.Candidates
import CommandConsole.Proofs.Once
import CommandConsole.Proofs.Relocation

/-!
# What completion replaces

Whatever is completed at a cursor starts between two characters in front of it, because pieces and
contexts start where a reader has been. What is suggested there replaces the line from that place up
to the cursor and nothing else, so suggestions are neither widened nor cut inside of a character.
-/

namespace CommandConsole

open Text

variable {L : Language} {line : String}

/-! ### Starts between characters -/

theorem CutsAt.min {x y : Nat} (hx : CutsAt line x) (hy : CutsAt line y) :
    CutsAt line (min x y) := by
  rcases Nat.le_total x y with hle | hle
  · rwa [Nat.min_eq_left hle]
  · rwa [Nat.min_eq_right hle]

theorem cutsAt_of_suffix {cs : List Char} (h : cs <:+ line.toList) :
    CutsAt line (bytes line - byteLength cs) := by
  obtain ⟨a, ha⟩ := h
  refine ⟨a, cs, ha.symm, ?_⟩
  rw [bytes, ← ha, byteLength_append]
  omega

theorem suffix_of_back? {x : Nat} {behind : String} (h : back? x line = some behind) :
    behind.toList <:+ line.toList := by
  obtain ⟨⟨a, b⟩, hsplit, rfl⟩ := Option.map_eq_some_iff.1 h
  rw [String.toList_ofList]
  exact ⟨a, (append_of_splitAt? hsplit).1⟩

/-- What is behind a word that is being typed, without the blanks in front, ends the line, too. -/
theorem trimFront_suffix_of_back? {x : Nat} {behind : String} (h : back? x line = some behind)
    (n : Nat) : trimFront (behind.toList.drop n) <:+ line.toList :=
  (List.dropWhile_suffix _).trans ((List.drop_suffix _ _).trans (suffix_of_back? h))

/-- Whether a context and all its pieces start between characters of a line. -/
structure Context.StartsIn (c : Context L) (line : String) : Prop where
  start : CutsAt line c.span.start
  node : ∀ m ∈ c.nodes, CutsAt line m.span.start
  option : ∀ o ∈ c.options, CutsAt line o.nameSpan.start ∧ CutsAt line o.valueSpan.start

theorem Context.startsIn_startAt {x : Nat} (h : CutsAt line x) (id : NodeId)
    (policy : ConsolePolicy) : (startAt (L := L) id x policy).StartsIn line :=
  ⟨h, by simp [startAt], by simp [startAt]⟩

namespace CommandTree

variable {t : CommandTree L} {source : L.Source} {p q : Position L} {n : Nat} {c : Context L}

theorem Piece.startsIn (h : Piece t source p n c) (hp : p.context.StartsIn line)
    (htext : p.reader.text = line.toList) : c.StartsIn line := by
  have hcursor := cutsAt_cursor htext
  cases h with
  | node => exact ⟨hp.start.min hcursor, forall_mem_snoc.2 ⟨hp.node, hcursor⟩, hp.option⟩
  | option _ _ hnamed hvalue _ _ =>
    refine ⟨hp.start.min hcursor, hp.node, forall_mem_snoc.2 ⟨hp.option, hcursor, ?_⟩⟩
    -- the name starts where the reader is, the value behind the blanks that follow the name
    apply cutsAt_cursor
    rw [hvalue, hnamed, Reader.text_skipBlank, Reader.text_pass]
    exact htext

/-- Whether all contexts of a position start between characters of its line, as do their pieces. -/
structure Charted (line : String) (p : Position L) : Prop where
  text : p.reader.text = line.toList
  contexts : ∀ c ∈ p.closed ++ [p.context], c.StartsIn line

theorem charted_start {r : Reader} (h : r.text = line.toList) :
    Charted line (Position.start (L := L) r) where
  text := h
  contexts c hc := by
    obtain rfl := List.mem_singleton.1 hc
    exact Context.startsIn_startAt (cutsAt_cursor h) _ _

theorem Takes.charted (h : Takes t source p n c q) (hp : Charted line p) : Charted line q := by
  have htext := h.text.trans hp.text
  obtain ⟨hbefore, hhere⟩ := forall_mem_snoc.1 hp.contexts
  have hmine : c.StartsIn line := h.piece.startsIn hhere hp.text
  refine ⟨htext, ?_⟩
  rcases h.goesOn with ⟨hclosed, hcontext⟩ | ⟨-, hclosed, hcontext⟩
  · rw [hclosed, hcontext]
    exact forall_mem_snoc.2 ⟨hbefore, hmine⟩
  · -- behind a redirect a fresh context starts where the reader is
    rw [hclosed, hcontext]
    exact forall_mem_snoc.2 ⟨forall_mem_snoc.2 ⟨hbefore, hmine⟩,
      Context.startsIn_startAt (cutsAt_cursor htext) _ _⟩

end CommandTree

/-! ### Where completion starts -/

def CursorTarget.start : CursorTarget → Nat
  | branch _ _ start | optionValue _ start => start

/-- Whether an offset lies between characters of a line and not behind a cursor. -/
structure StartsBy (line : String) (cursor x : Nat) : Prop where
  cuts : CutsAt line x
  le : x ≤ cursor

theorem split_of_slice? {start stop : Nat} {part : List Char}
    (h : slice? start stop line.toList = some part) :
    ∃ a b, line.toList = a ++ part ++ b ∧ byteLength a = start ∧
      byteLength (a ++ part) = stop := by
  unfold slice? at h
  split at h
  · obtain ⟨⟨upTo, b⟩, hstop, h⟩ := Option.bind_eq_some_iff.1 h
    obtain ⟨⟨a, part'⟩, hstart, h⟩ := Option.bind_eq_some_iff.1 h
    obtain rfl : part' = part := Option.some.inj h
    obtain ⟨hline, hlength⟩ := append_of_splitAt? hstop
    obtain ⟨hfront, hbefore⟩ := append_of_splitAt? hstart
    subst hfront
    exact ⟨a, b, hline.symm, hbefore, hlength⟩
  · cases h

theorem firstInk?_startsBy {start stop x : Nat} (h : firstInk? line start stop = some x) :
    StartsBy line stop x := by
  obtain ⟨gap, hgap, hink⟩ := Option.bind_eq_some_iff.1 h
  obtain ⟨a, b, hline, rfl, rfl⟩ := split_of_slice? hgap
  dsimp only at hink
  split at hink
  · obtain rfl := Option.some.inj hink
    have hsplit : gap = gap.takeWhile isBlank ++ gap.dropWhile isBlank :=
      List.takeWhile_append_dropWhile.symm
    constructor
    · refine ⟨a ++ gap.takeWhile isBlank, gap.dropWhile isBlank ++ b, ?_, byteLength_append _ _⟩
      rw [hline, List.append_assoc, List.append_assoc, ← List.append_assoc (gap.takeWhile _),
        ← hsplit]
    · have hlength := congrArg byteLength hsplit
      rw [byteLength_append] at hlength ⊢
      omega
  · cases hink

namespace Context

variable {c : Context L} {x : Nat}

theorem nodeTarget_startsBy {parent : NodeId} {policy : ConsolePolicy} {start : Nat}
    {ms : List MatchedNode} (hstart : StartsBy line x start)
    (hms : ∀ m ∈ ms, CutsAt line m.span.start) :
    StartsBy line x (nodeTarget x start parent policy ms).start := by
  induction ms generalizing parent policy with
  | nil => exact hstart
  | cons m ms ih =>
    obtain ⟨hm, hmore⟩ := List.forall_mem_cons.1 hms
    unfold nodeTarget
    split
    · next htouches =>
      simp only [Span.touches, Bool.and_eq_true, decide_eq_true_eq] at htouches
      exact ⟨hm, htouches.1⟩
    · exact ih hmore

theorem StartsIn.target?_startsBy (h : c.StartsIn line) (hx : CutsAt line x)
    {found : CursorTarget} (hfound : c.target? x = some found) : StartsBy line x found.start := by
  unfold target? at hfound
  split at hfound
  · obtain rfl := Option.some.inj hfound
    exact ⟨hx, Nat.le_refl x⟩
  · next hstart =>
    split at hfound
    · next hoption =>
      obtain rfl := Option.some.inj hfound
      obtain ⟨o, ho, hfound⟩ := List.exists_of_findSome?_eq_some hoption
      obtain ⟨hname, hvalue⟩ := h.option o ho
      simp only [Span.touches, Bool.and_eq_true, decide_eq_true_eq] at hfound
      split at hfound
      · next htouches =>
        obtain rfl := Option.some.inj hfound
        exact ⟨hvalue, htouches.1⟩
      · split at hfound
        · next htouches =>
          obtain rfl := Option.some.inj hfound
          exact ⟨hname, htouches.1⟩
        · cases hfound
    · split at hfound
      · cases hfound
      · obtain rfl := Option.some.inj hfound
        exact nodeTarget_startsBy ⟨h.start, Nat.le_of_not_lt hstart⟩ h.node

theorem tailTarget_startsBy (c : Context L) (hx : CutsAt line x) :
    StartsBy line x (c.tailTarget line x).start := by
  rw [tailTarget_eq]
  show StartsBy line x ((firstInk? line c.tailStop x).getD x)
  cases hink : firstInk? line c.tailStop x with
  | none => exact ⟨hx, Nat.le_refl x⟩
  | some y => exact firstInk?_startsBy hink

/-- What is typed at a cursor starts between characters, not behind the cursor. -/
theorem target_startsBy (hx : CutsAt line x) (more : List (Context L))
    (h : ∀ d ∈ c :: more, d.StartsIn line) : StartsBy line x (c.target line x more).start := by
  induction more generalizing c with
  | nil =>
    unfold target
    cases htarget : c.target? x with
    | none => exact c.tailTarget_startsBy hx
    | some found => exact (h c (by simp)).target?_startsBy hx htarget
  | cons next more ih =>
    unfold target
    cases htarget : c.target? x with
    | none => exact ih fun d hd => h d (List.mem_cons_of_mem _ hd)
    | some found => exact (h c (by simp)).target?_startsBy hx htarget

end Context

/-! ### Groups for one span -/

namespace Suggestions

/-- Whether a group replaces one span of a line, if anything. -/
structure Replaces (g : Suggestions) (span : Span) : Prop where
  spans : ∀ s ∈ g.list, s.span = span
  span : g.list ≠ [] → g.span = span

theorem replaces_none (span : Span) : none.Replaces span :=
  ⟨by simp [none], by simp [none]⟩

variable {span : Span}

theorem create?_replaces (line : String) {list : List Suggestion}
    (h : ∀ s ∈ list, s.span = span) : ∃ g, create? line list = some g ∧ g.Replaces span := by
  obtain ⟨g, hg, -, hspan⟩ := create?_of_span line h
  refine ⟨g, hg, fun s hs => h s (mem_create?_of_span hg h hs), fun hne => hspan ?_⟩
  obtain ⟨s, hs⟩ := List.exists_mem_of_ne_nil _ hne
  exact List.ne_nil_of_mem (mem_create?_of_span hg h hs)

theorem merge?_replaces (line : String) {groups : List Suggestions}
    (h : ∀ g ∈ groups, g.Replaces span) :
    ∃ g, merge? line groups = some g ∧ g.Replaces span := by
  have hall : ∀ s ∈ groups.flatMap (·.list), s.span = span := by
    intro s hs
    obtain ⟨g, hg, hs⟩ := List.mem_flatMap.1 hs
    exact (h g hg).spans s hs
  cases groups with
  | nil => exact ⟨none, rfl, replaces_none span⟩
  | cons first rest =>
    cases rest with
    | nil => exact ⟨first, rfl, h first (List.mem_singleton_self _)⟩
    | cons second rest => exact create?_replaces line hall

end Suggestions

namespace Draft

theorem line_suggestMatching (d : Draft) (candidates : List String) :
    (d.suggestMatching candidates).line = d.line := by
  unfold suggestMatching
  induction candidates generalizing d with
  | nil => rfl
  | cons c candidates ih =>
    rw [List.foldl_cons, ih]
    unfold suggestIfMatching suggest
    split
    · split <;> rfl
    · rfl

variable {start : Nat}

theorem span_of_cutsAt (h : CutsAt line start) : (new line start).span = ⟨start, bytes line⟩ :=
  congrArg (Span.mk · _) (Nat.min_eq_left h.le)

theorem build?_suggestMatching_replaces (h : CutsAt line start) (candidates : List String) :
    ∃ g, ((new line start).suggestMatching candidates).build? = some g ∧
      g.Replaces ⟨start, bytes line⟩ := by
  unfold build?
  rw [line_suggestMatching, found_suggestMatching]
  refine Suggestions.create?_replaces line fun s hs => ?_
  obtain ⟨c, -, rfl⟩ := List.mem_map.1 ((List.mem_append.1 hs).resolve_left List.not_mem_nil)
  exact span_of_cutsAt h

end Draft

/-! ### What is suggested at the end of a line -/

section Ends

variable {start : Nat}

theorem Builtin.suggest?_replaces (h : CutsAt line start) (b : Builtin) :
    ∃ g, b.suggest? (Draft.new line start) = some g ∧ g.Replaces ⟨start, bytes line⟩ := by
  cases b with
  | bool => exact Draft.build?_suggestMatching_replaces h ["true", "false"]
  | _ => exact ⟨.none, rfl, Suggestions.replaces_none _⟩

theorem NodeKind.suggest?_replaces (hL : L.IsBuiltin) (h : CutsAt line start) (kind : NodeKind L)
    (around : L.Surroundings) (raw : String → Option String) :
    ∃ g, kind.suggest? around raw (Draft.new line start) = some g ∧
      g.Replaces ⟨start, bytes line⟩ := by
  have htype : ∀ type : L.Argument, ∃ g,
      L.suggest? type around raw (Draft.new line start) = some g ∧
        g.Replaces ⟨start, bytes line⟩ := by
    intro type
    obtain ⟨b, -, hsuggest⟩ := hL type
    rw [hsuggest]
    exact b.suggest?_replaces h
  cases kind with
  | root => exact ⟨.none, rfl, Suggestions.replaces_none _⟩
  | literal name => exact Draft.build?_suggestMatching_replaces h [name]
  | argument name type => exact htype type
  | option name type => exact htype type

namespace CommandTree

variable {t : CommandTree L}

theorem suggestAll?_replaces (hL : L.IsBuiltin) (h : CutsAt line start) (around : L.Surroundings)
    (raw : String → Option String) (ids : List NodeId) :
    ∃ groups, t.suggestAll? around raw (Draft.new line start) ids = some groups ∧
      ∀ g ∈ groups, g.Replaces ⟨start, bytes line⟩ := by
  induction ids with
  | nil => exact ⟨[], rfl, by simp⟩
  | cons id ids ih =>
    obtain ⟨g, hg, hmine⟩ := (t.node id).kind.suggest?_replaces hL h around raw
    obtain ⟨groups, hgroups, hall⟩ := ih
    refine ⟨g :: groups, ?_, List.forall_mem_cons.2 ⟨hmine, hall⟩⟩
    rw [suggestAll?, hg, hgroups]
    rfl

theorem optionNames_eq (source : L.Source) (parent : NodeId) (policy : ConsolePolicy)
    (given : List MatchedOption) (d : Draft) :
    t.optionNames source parent policy given d =
      if d.remaining.toList.head? = some '-' then
        d.suggestMatching (((t.node parent).options.entries.filter fun e =>
          !given.any (·.name == e.1) && (t.node e.2).canUse source policy).map ("--" ++ ·.1))
      else d := by
  unfold optionNames Draft.suggestMatching
  rw [List.foldl_map, List.foldl_filter]
  by_cases hminus : d.remaining.toList.head? = some '-'
  · rw [if_neg (by simp [hminus]), if_pos hminus]
    congr 1
    funext d e
    obtain ⟨name, option⟩ := e
    dsimp only
    cases given.any (·.name == name) <;> cases (t.node option).canUse source policy <;> rfl
  · rw [if_pos (by simpa using hminus), if_neg hminus]

theorem build?_optionNames_replaces (t : CommandTree L) (source : L.Source) (parent : NodeId)
    (policy : ConsolePolicy) (given : List MatchedOption) (h : CutsAt line start) :
    ∃ g, (t.optionNames source parent policy given (Draft.new line start)).build? = some g ∧
      g.Replaces ⟨start, bytes line⟩ := by
  rw [optionNames_eq]
  split
  · exact Draft.build?_suggestMatching_replaces h _
  · exact Draft.build?_suggestMatching_replaces h []

theorem find?_of_namedOption? {n : Node L} {typed : List Char} {option : NodeId}
    (h : namedOption? n typed = some option) : ∃ name, n.options.find? name = some option := by
  unfold namedOption? at h
  split at h
  · next name => exact ⟨_, h⟩
  · cases h

/-- An option waits for its value only if its gates let the source through. -/
theorem pendingOption?_eq (t : CommandTree L) (source : L.Source) (parent : NodeId)
    (policy : ConsolePolicy) (line : String) (start : Nat) :
    t.pendingOption? source parent policy line start = (back? start line).bind fun typed =>
      if (typed.toList.drop (token typed.toList).length).isEmpty then none
      else ((namedOption? (t.node parent) (token typed.toList)).filter fun id =>
          (t.node id).canUse source policy).bind fun option =>
        if (trimFront (typed.toList.drop (token typed.toList).length)).any isBlank then none
        else some ⟨option, bytes line -
          byteLength (trimFront (typed.toList.drop (token typed.toList).length))⟩ := by
  unfold pendingOption?
  simp only [Option.bind_eq_bind]
  congr 1
  funext typed
  split
  · rfl
  · cases namedOption? (t.node parent) (token typed.toList) with
    | none => rfl
    | some option =>
      rw [Option.bind_some, Option.filter_some]
      cases huse : (t.node option).canUse source policy with
      | false => rfl
      | true =>
        rw [if_pos rfl, Option.bind_some]
        rfl

/-- An option that waits for its value is one of the parent that the source may use, and its value
starts between two characters of the line. -/
theorem pendingOption?_eq_some {source : L.Source} {parent option : NodeId} {policy : ConsolePolicy}
    {valueStart : Nat}
    (h : t.pendingOption? source parent policy line start = some ⟨option, valueStart⟩) :
    (∃ name, (t.node parent).options.find? name = some option) ∧
      t.Admits source option policy ∧ CutsAt line valueStart := by
  rw [pendingOption?_eq] at h
  obtain ⟨typed, hback, hbehind⟩ := Option.bind_eq_some_iff.1 h
  split at hbehind
  · cases hbehind
  · obtain ⟨found, hfound, hvalue⟩ := Option.bind_eq_some_iff.1 hbehind
    obtain ⟨hnamed, huse⟩ := Option.filter_eq_some_iff.1 hfound
    split at hvalue
    · cases hvalue
    · obtain ⟨rfl, rfl⟩ := PendingOption.mk.inj (Option.some.inj hvalue)
      refine ⟨find?_of_namedOption? hnamed, (canUse_iff_admits ..).1 huse, ?_⟩
      exact cutsAt_of_suffix (trimFront_suffix_of_back? hback _)

/-- What is suggested for a target at the end of a line replaces the end of the line. -/
theorem completeTarget?_replaces (hL : L.IsBuiltin) (around : L.Surroundings)
    (raw : String → Option String) (source : L.Source) (given : List MatchedOption)
    {found : CursorTarget} (h : CutsAt line found.start) :
    ∃ x g, CutsAt line x ∧ t.completeTarget? around raw source given line found = some g ∧
      g.Replaces ⟨x, bytes line⟩ := by
  cases found with
  | optionValue option start =>
    obtain ⟨g, hg, hreplaces⟩ := (t.node option).kind.suggest?_replaces hL h around raw
    exact ⟨start, g, h, hg, hreplaces⟩
  | branch parent policy start =>
    replace h : CutsAt line start := h
    cases hpending : t.pendingOption? source parent policy line start with
    | some pending =>
      obtain ⟨option, valueStart⟩ := pending
      obtain ⟨-, -, hvalue⟩ := pendingOption?_eq_some hpending
      obtain ⟨g, hg, hreplaces⟩ := (t.node option).kind.suggest?_replaces hL hvalue around raw
      refine ⟨valueStart, g, hvalue, ?_, hreplaces⟩
      rw [completeTarget?_pending hpending]
      exact hg
    | none =>
      let usable := (t.node parent).children.values.filter fun c => (t.node c).canUse source policy
      obtain ⟨groups, hgroups, hall⟩ :=
        suggestAll?_replaces (t := t) hL h around raw usable
      obtain ⟨names, hnames, hmine⟩ := t.build?_optionNames_replaces source parent policy given h
      have hevery : ∀ g ∈ groups ++ [names], g.Replaces ⟨start, bytes line⟩ := by
        intro g hg
        rcases List.mem_append.1 hg with hg | hg
        · exact hall g hg
        · rw [List.mem_singleton.1 hg]
          exact hmine
      obtain ⟨g, hg, hreplaces⟩ := Suggestions.merge?_replaces line hevery
      refine ⟨start, g, h, ?_, hreplaces⟩
      simp only [completeTarget?, hpending]
      show (t.suggestAll? around raw (Draft.new line start) usable).bind _ = _
      rw [hgroups, Option.bind_some, hnames]
      exact hg

end CommandTree

end Ends

/-! ### The line that is cut at the cursor -/

theorem boundaryBefore_max {a b : List Char} {n : Nat} (h : byteLength a ≤ n) :
    byteLength a ≤ boundaryBefore n (a ++ b) := by
  induction a generalizing n with
  | nil => exact Nat.zero_le _
  | cons c a ih =>
    simp only [byteLength] at h
    have hmore := ih (n := n - c.utf8Size) (by omega)
    rw [List.cons_append, boundaryBefore, if_pos (by omega), byteLength]
    omega

/-- Whether a text is what a line is cut to at a cursor: its longest start that ends between two
characters, not behind the cursor. -/
structure CutFor (line : String) (cursor : Nat) (front : List Char) : Prop where
  starts : front <+: line.toList
  le : byteLength front ≤ cursor
  last : ∀ x, CutsAt line x → x ≤ cursor → x ≤ byteLength front

theorem cutFor_cutAt (line : String) (cursor : Nat) : CutFor line cursor (cutAt line cursor) := by
  obtain ⟨a, b, hsplit⟩ := splitAt?_boundaryBefore cursor line.toList
  obtain ⟨hline, hlength⟩ := append_of_splitAt? hsplit
  have hcut : cutAt line cursor = a := by
    unfold cutAt
    rw [hsplit]
  rw [hcut]
  refine ⟨⟨b, hline⟩, hlength ▸ boundaryBefore_le _ _, ?_⟩
  rintro x ⟨c, d, hx, rfl⟩ hle
  rw [hlength, hx]
  exact boundaryBefore_max hle

theorem CutFor.cutsAt {cursor : Nat} {front : List Char} (h : CutFor line cursor front) :
    CutsAt line (byteLength front) := by
  obtain ⟨back, hline⟩ := h.starts
  exact ⟨front, back, hline.symm, rfl⟩

/-- Up to the cursor, the line that is cut has the same places between characters. -/
theorem StartsBy.cutsAt_front {front : List Char} {x : Nat}
    (h : StartsBy line (byteLength front) x) (hfront : front <+: line.toList) :
    CutsAt (.ofList front) x := by
  obtain ⟨back, hback⟩ := hfront
  obtain ⟨a, b, hline, rfl⟩ := h.cuts
  obtain ⟨m, hm, -⟩ := append_of_byteLength_le (hline.symm.trans hback.symm) h.le
  exact ⟨a, m, String.toList_ofList.trans hm, rfl⟩

namespace Suggestion

/-- Taking a suggestion for the end of a line keeps the text in front of it. -/
theorem applyTo?_end {s : Suggestion} {kept typed : List Char}
    (h : s.span = ⟨byteLength kept, byteLength (kept ++ typed)⟩) :
    s.applyTo? (.ofList (kept ++ typed)) = some (.ofList kept ++ s.text) := by
  have hline : (String.ofList (kept ++ typed)).toList = kept ++ typed ++ [] := by
    rw [String.toList_ofList, List.append_nil]
  rw [applyTo?_of_split hline (by rw [h]) (by rw [h])]
  simp

end Suggestion

namespace CommandTree

variable {t : CommandTree L}

theorem Filed.parseFrom_startsIn {layer : NodeId → Nat} (hf : Filed t layer)
    (hL : L.ReadsForward) (r : Reader) (source : L.Source) :
    (t.parseFrom r source).reader.line = r.line ∧
      ∀ c ∈ (t.parseFrom r source).chain.toList, c.StartsIn r.line := by
  have htext : r.skipBlank.text = r.line.toList := by
    rw [Reader.text_skipBlank, Reader.line, String.toList_ofList]
  have hstep : ∀ p i q, Charted r.line p → Step t source p i q → Charted r.line q := by
    intro p i q hp hs
    obtain ⟨n, c, htakes⟩ := hs.takes hL
    exact htakes.charted hp
  obtain ⟨q, hq, hchain, hreader⟩ := hf.parseFrom_invariant source r (charted_start htext) hstep
  constructor
  · rw [hreader, Reader.line, hq.text, String.ofList_toList]
  · rw [hchain, Position.toList_chain]
    exact hq.contexts

/-- The built-in types always complete a line, wherever the cursor is. All that is suggested
replaces one end of the line that is cut at the cursor, and keeps the text in front of it. -/
theorem completeAt?_replaces_end (hL : L.IsBuiltin) (ht : t.Reachable) (r : Reader)
    (source : L.Source) (around : L.Surroundings) (cursor : Nat) :
    ∃ front, CutFor r.line cursor front ∧
      ∃ g, t.completeAt? around (t.parseFrom r source) cursor = some g ∧
        (g.list ≠ [] → ∃ kept typed, front = kept ++ typed ∧
          g.span = ⟨byteLength kept, byteLength front⟩ ∧
          ∀ s ∈ g.list, s.span = g.span ∧
            s.applyTo? (.ofList front) = some (.ofList kept ++ s.text)) := by
  obtain ⟨layer, hg⟩ := ht.grown
  obtain ⟨hline, hstarts⟩ :=
    hg.filed.parseFrom_startsIn hL.readsLocally.readsForward r source
  rw [← hline] at hstarts ⊢
  generalize t.parseFrom r source = p at hstarts
  have hcut := cutFor_cutAt p.reader.line cursor
  -- the target starts at a place of the line in front of the cursor, thus of the line that is cut
  have htarget : CutsAt (.ofList (cutAt p.reader.line cursor))
      (p.chain.target p.reader.line (byteLength (cutAt p.reader.line cursor))).start :=
    (Context.target_startsBy hcut.cutsAt _ hstarts).cutsAt_front hcut.starts
  obtain ⟨x, g, ⟨kept, typed, hsplit, rfl⟩, hcomplete, hreplaces⟩ :=
    completeTarget?_replaces (t := t) hL around
      (p.chain.outer.raw? (.ofList (cutAt p.reader.line cursor))) p.source p.chain.last.options
      htarget
  rw [String.toList_ofList] at hsplit
  rw [bytes, String.toList_ofList] at hreplaces
  refine ⟨_, hcut, g, hcomplete, fun hne => ⟨kept, typed, hsplit, hreplaces.span hne, ?_⟩⟩
  intro s hs
  have hspan := hreplaces.spans s hs
  refine ⟨hspan.trans (hreplaces.span hne).symm, ?_⟩
  rw [hsplit] at hspan ⊢
  exact Suggestion.applyTo?_end hspan

/-- The cursor is inside of a letter of two bytes. -/
theorem completeAt?_replaces_end_switch :
    switch.completeAt? () (switch.parseFrom (.ofString "toggle tİ") ()) 9 =
        some ⟨⟨7, 8⟩, [.plain ⟨7, 8⟩ "true"]⟩ ∧
      ∃ front, CutFor (Reader.ofString "toggle tİ").line 9 front ∧
        ∃ g, switch.completeAt? () (switch.parseFrom (.ofString "toggle tİ") ()) 9 = some g ∧
          (g.list ≠ [] → ∃ kept typed, front = kept ++ typed ∧
            g.span = ⟨byteLength kept, byteLength front⟩ ∧
            ∀ s ∈ g.list, s.span = g.span ∧
              s.applyTo? (.ofList front) = some (.ofList kept ++ s.text)) :=
  ⟨by decide +kernel,
    completeAt?_replaces_end Language.isBuiltin_builtins reachable_switch _ () () 9⟩

end CommandTree

end CommandConsole
