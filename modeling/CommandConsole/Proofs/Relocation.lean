import CommandConsole.Proofs.Cursor
import CommandConsole.Proofs.Gathering

/-!
# Suggestions at another place

What is suggested for a token depends on what is typed of it, but not on where it stands. Two
drafts for the same token in two lines find the same suggestions, each for its own span, and
deduplicating and sorting treats them alike. The lowercase of what is typed is found where it
stands as long as the text in front of it is as long in lowercase.
-/

namespace CommandConsole

open Text

variable {L : Language} {line line' : String} {span span' : Span}

def Suggestion.relocate (span : Span) (s : Suggestion) : Suggestion := { s with span }

namespace Suggestions

/-- Whether a group has one span, and another group is the same for another span. -/
structure Moves (span span' : Span) (g g' : Suggestions) : Prop where
  spans : ∀ s ∈ g.list, s.span = span
  list : g'.list = g.list.map (·.relocate span')

variable {g g' : Suggestions} {list : List Suggestion}

theorem Moves.texts (h : Moves span span' g g') :
    g'.list.map (·.text) = g.list.map (·.text) := by
  rw [h.list, List.map_map]
  rfl

theorem moves_none (span span' : Span) : Moves span span' .none .none where
  spans := by simp [none]
  list := rfl

/-! ### Steps of building a group -/

theorem same_relocate {a b : Suggestion} (h : a.span = b.span) (span : Span) :
    (a.relocate span).same (b.relocate span) = a.same b := by
  simp [Suggestion.same, Suggestion.relocate, h]

theorem dedupe_relocate (h : ∀ s ∈ list, s.span = span) :
    dedupe (list.map (·.relocate span')) = (dedupe list).map (·.relocate span') := by
  -- what is kept so far corresponds, too
  have hfold : ∀ (list kept : List Suggestion), (∀ s ∈ list, s.span = span) →
      (∀ s ∈ kept, s.span = span) →
      (list.map (·.relocate span')).foldl
          (fun kept s => if kept.any (·.same s) then kept else s :: kept)
          (kept.map (·.relocate span')) =
        (list.foldl (fun kept s => if kept.any (·.same s) then kept else s :: kept) kept).map
          (·.relocate span') := by
    intro list
    induction list with
    | nil => intro kept _ _; rfl
    | cons s list ih =>
      intro kept hlist hkept
      obtain ⟨hs, hlist⟩ := List.forall_mem_cons.1 hlist
      have hany : (kept.map (·.relocate span')).any (·.same (s.relocate span')) =
          kept.any (·.same s) := by
        rw [List.any_map, Bool.eq_iff_iff, List.any_eq_true, List.any_eq_true]
        refine exists_congr fun a => and_congr_right fun ha => ?_
        rw [Function.comp_apply, same_relocate ((hkept a ha).trans hs.symm)]
      rw [List.map_cons, List.foldl_cons, List.foldl_cons, hany]
      split
      · exact ih kept hlist hkept
      · exact ih (s :: kept) hlist (List.forall_mem_cons.2 ⟨hs, hkept⟩)
  rw [dedupe, dedupe, List.map_reverse]
  exact congrArg List.reverse (hfold list [] h (by simp))

theorem insertLast_relocate (s : Suggestion) (list : List Suggestion) :
    insertLast (s.relocate span') (list.map (·.relocate span')) =
      (insertLast s list).map (·.relocate span') := by
  induction list with
  | nil => rfl
  | cons a list ih =>
    rw [List.map_cons, insertLast, insertLast]
    show (if s.compareIgnoreCase a == .lt then _ else _) = _
    split
    · rw [ih, List.map_cons]
    · rfl

theorem sort_relocate (list : List Suggestion) :
    sort (list.map (·.relocate span')) = (sort list).map (·.relocate span') := by
  have hfold : ∀ list sorted : List Suggestion,
      (list.map (·.relocate span')).foldl (fun sorted s => insertLast s sorted)
          (sorted.map (·.relocate span')) =
        (list.foldl (fun sorted s => insertLast s sorted) sorted).map (·.relocate span') := by
    intro list
    induction list with
    | nil => intro sorted; rfl
    | cons s list ih =>
      intro sorted
      rw [List.map_cons, List.foldl_cons, List.foldl_cons, insertLast_relocate, ih]
  rw [sort, sort, List.map_reverse]
  exact congrArg List.reverse (hfold list [])

theorem expandAll_of_span (h : ∀ s ∈ list, s.span = span) :
    expandAll line span list = some list := by
  induction list with
  | nil => rfl
  | cons s list ih =>
    obtain ⟨hs, hlist⟩ := List.forall_mem_cons.1 h
    rw [expandAll, ih hlist, Suggestion.expand?, if_pos hs.symm]
    rfl

theorem create?_of_span (line : String) (h : ∀ s ∈ list, s.span = span) :
    ∃ g, create? line list = some g ∧ g.list = sort (dedupe list) ∧
      (list ≠ [] → g.span = span) := by
  cases list with
  | nil => exact ⟨.none, rfl, rfl, fun hne => absurd rfl hne⟩
  | cons first rest =>
    have hhull : hullOf first rest = span := by
      obtain ⟨hfirst, hrest⟩ := List.forall_mem_cons.1 h
      rw [hullOf, hfirst]
      clear h hfirst
      induction rest with
      | nil => rfl
      | cons s rest ih =>
        obtain ⟨hs, hrest⟩ := List.forall_mem_cons.1 hrest
        rw [List.foldl_cons, hs, Span.hull_self]
        exact ih hrest
    refine ⟨⟨span, sort (dedupe (first :: rest))⟩, ?_, rfl, fun _ => rfl⟩
    rw [create?, hhull, expandAll_of_span h]
    rfl

theorem mem_create?_of_span {line : String} {g : Suggestions} (hg : create? line list = some g)
    (h : ∀ s ∈ list, s.span = span) {s : Suggestion} (hs : s ∈ g.list) : s ∈ list := by
  obtain ⟨g', hg', hlist, -⟩ := create?_of_span line h
  obtain rfl : g' = g := Option.some.inj (hg'.symm.trans hg)
  rw [hlist] at hs
  exact (mem_dedupe list).1 s ((perm_sort _).mem_iff.1 hs)

theorem create?_moves (line line' : String) (span' : Span) (h : ∀ s ∈ list, s.span = span) :
    ∃ g g', create? line list = some g ∧
      create? line' (list.map (·.relocate span')) = some g' ∧ Moves span span' g g' := by
  have hmoved : ∀ s ∈ list.map (·.relocate span'), s.span = span' := by
    intro s hs
    obtain ⟨a, -, rfl⟩ := List.mem_map.1 hs
    rfl
  obtain ⟨g, hg, hlist, -⟩ := create?_of_span line h
  obtain ⟨g', hg', hlist', -⟩ := create?_of_span line' hmoved
  refine ⟨g, g', hg, hg', fun s hs => h s (mem_create?_of_span hg h hs), ?_⟩
  rw [hlist', hlist, dedupe_relocate h, sort_relocate]

theorem merge?_moves (line line' : String) {groups groups' : List Suggestions}
    (h : List.Forall₂ (Moves span span') groups groups') :
    ∃ g g', merge? line groups = some g ∧ merge? line' groups' = some g' ∧
      Moves span span' g g' := by
  have hspans : ∀ s ∈ groups.flatMap (·.list), s.span = span := by
    intro s hs
    obtain ⟨g, hg, hs⟩ := List.mem_flatMap.1 hs
    obtain ⟨g', -, hmoves⟩ := forall₂_mem_left h hg
    exact hmoves.spans s hs
  have hlists : groups'.flatMap (·.list) = (groups.flatMap (·.list)).map (·.relocate span') := by
    clear hspans
    induction h with
    | nil => rfl
    | cons hmoves _ ih =>
      rw [List.flatMap_cons, List.flatMap_cons, List.map_append, ih, hmoves.list]
  cases h with
  | nil => exact ⟨.none, .none, rfl, rfl, moves_none ..⟩
  | cons hmoves hmore =>
    cases hmore with
    | nil => exact ⟨_, _, rfl, rfl, hmoves⟩
    | cons =>
      obtain ⟨g, g', hg, hg', hmoved⟩ := create?_moves line line' span' hspans
      rw [← hlists] at hg'
      exact ⟨g, g', hg, hg', hmoved⟩

end Suggestions

/-! ### Lowercase behind a blank -/

section Lowercase

variable {d : Char}

def blankCodes : List Nat :=
  [9, 10, 11, 12, 13, 0x20, 0x85, 0xA0, 0x1680, 0x2000, 0x2001, 0x2002, 0x2003, 0x2004, 0x2005,
    0x2006, 0x2007, 0x2008, 0x2009, 0x200A, 0x2028, 0x2029, 0x202F, 0x205F, 0x3000]

theorem of_isBlank {p : Char → Prop} (hall : ∀ n ∈ blankCodes, p (Char.ofNat n))
    (h : isBlank d = true) : p d := by
  rw [← Char.ofNat_toNat d]
  refine hall d.toNat ?_
  simp only [isBlank, Bool.or_eq_true, Bool.and_eq_true, decide_eq_true_eq, beq_iff_eq] at h
  simp only [blankCodes, List.mem_cons, List.not_mem_nil, or_false]
  omega

theorem not_isCaseIgnorable_of_isBlank (h : isBlank d = true) : isCaseIgnorable d = false :=
  of_isBlank (p := (isCaseIgnorable · = false)) (by decide +kernel) h

theorem meetsCased_append_blank (h : isBlank d = true) (a b : List Char) :
    meetsCased (a ++ d :: b) = meetsCased (a ++ [d]) := by
  have hd := not_isCaseIgnorable_of_isBlank h
  unfold meetsCased
  induction a with
  | nil => simp [hd]
  | cons c a ih =>
    rw [List.cons_append, List.cons_append, List.dropWhile_cons, List.dropWhile_cons]
    by_cases hc : isCaseIgnorable c = true
    · rw [if_pos hc, if_pos hc]
      exact ih
    · rw [if_neg hc, if_neg hc]

/-- No letter case depends on what is on the other side of a blank. -/
theorem lowercaseFrom_append_blank (h : isBlank d = true) (before a b : List Char) :
    lowercaseFrom before (a ++ d :: b) =
      lowercaseFrom before (a ++ [d]) ++ lowercaseFrom (d :: (a.reverse ++ before)) b := by
  induction a generalizing before with
  | nil =>
    have hsigma : (d.toNat == 0x3A3) = false := by
      simp only [isBlank, Bool.or_eq_true, Bool.and_eq_true, decide_eq_true_eq, beq_iff_eq] at h
      rw [beq_eq_false_iff_ne]
      omega
    simp [lowercaseFrom, hsigma]
  | cons c a ih =>
    simp only [List.cons_append, lowercaseFrom, meetsCased_append_blank h a b, ih,
      List.append_assoc, List.reverse_cons, List.nil_append]

theorem lowercase_append {front typed : String}
    (hfront : ∀ c ∈ front.toList.getLast?, isBlank c = true)
    (htyped : ∀ c ∈ typed.toList, c.toNat < 0x80) :
    lowercase (front ++ typed) = lowercase front ++ lowercase typed := by
  have hlow : ∀ before, lowercaseFrom before typed.toList = typed.toList.map Char.toLower :=
    fun before => lowercaseFrom_of_ascii before _ htyped
  rw [lowercase, lowercase, lowercase, ← String.ofList_append, String.toList_append, hlow]
  rcases List.eq_nil_or_concat front.toList with hnil | ⟨a, d, hcons⟩
  · rw [hnil, List.nil_append, hlow]
    rfl
  · have hd : isBlank d = true := hfront d (by simp [hcons])
    rw [hcons, List.concat_eq_append, List.append_assoc, List.singleton_append,
      lowercaseFrom_append_blank hd, hlow]

/-- The lowercase of what is typed, found at the offset where it stands. -/
theorem back?_lowercase_append {front typed : String}
    (hfront : ∀ c ∈ front.toList.getLast?, isBlank c = true)
    (htyped : ∀ c ∈ typed.toList, c.toNat < 0x80)
    (hlength : bytes (lowercase front) = bytes front) :
    back? (bytes front) (lowercase (front ++ typed)) = some (lowercase typed) := by
  rw [lowercase_append hfront htyped, ← hlength, back?, String.toList_append]
  show (splitAt? (byteLength (lowercase front).toList) _).map _ = _
  rw [splitAt?_append]
  simp

end Lowercase

/-! ### Drafts for the same token -/

namespace Draft

/-- Whether two drafts are for the same token and have found the same so far. -/
structure Moves (d d' : Draft) : Prop where
  remaining : d'.remaining = d.remaining
  lowercase : d'.remainingLowercase = d.remainingLowercase
  spans : ∀ s ∈ d.found, s.span = d.span
  found : d'.found = d.found.map (·.relocate d'.span)

variable {d d' : Draft}

theorem Moves.suggestIfMatching (h : d.Moves d') (candidate : String) :
    (d.suggestIfMatching candidate).Moves (d'.suggestIfMatching candidate) ∧
      (d.suggestIfMatching candidate).span = d.span ∧
      (d'.suggestIfMatching candidate).span = d'.span := by
  unfold Draft.suggestIfMatching matchesTyped
  rw [h.lowercase]
  split
  · unfold suggest
    rw [h.remaining]
    split
    · exact ⟨h, rfl, rfl⟩
    · refine ⟨⟨h.remaining, h.lowercase, fun s hs => ?_, ?_⟩, rfl, rfl⟩
      · rcases List.mem_append.1 hs with hs | hs
        · exact h.spans s hs
        · rw [List.mem_singleton.1 hs]
          rfl
      · show d'.found ++ _ = (d.found ++ _).map _
        rw [List.map_append, h.found]
        rfl
  · exact ⟨h, rfl, rfl⟩

theorem Moves.suggestMatching (h : d.Moves d') (candidates : List String) :
    (d.suggestMatching candidates).Moves (d'.suggestMatching candidates) ∧
      (d.suggestMatching candidates).span = d.span ∧
      (d'.suggestMatching candidates).span = d'.span := by
  unfold Draft.suggestMatching
  induction candidates generalizing d d' with
  | nil => exact ⟨h, rfl, rfl⟩
  | cons candidate candidates ih =>
    obtain ⟨hnext, hspan, hspan'⟩ := h.suggestIfMatching candidate
    obtain ⟨hall, hlast, hlast'⟩ := ih hnext
    exact ⟨hall, hlast.trans hspan, hlast'.trans hspan'⟩

theorem Moves.build? (h : d.Moves d') : ∃ g g', d.build? = some g ∧ d'.build? = some g' ∧
    Suggestions.Moves d.span d'.span g g' := by
  unfold Draft.build?
  rw [h.found]
  exact Suggestions.create?_moves d.line d'.line _ h.spans

theorem new_moves {start start' : Nat} {typed low : String}
    (htyped : back? start line = some typed) (htyped' : back? start' line' = some typed)
    (hlow : back? start (Text.lowercase line) = some low)
    (hlow' : back? start' (Text.lowercase line') = some low) :
    (new line start).Moves (new line' start') where
  remaining := by
    show (back? start' line').getD "" = (back? start line).getD ""
    rw [htyped, htyped']
  lowercase := by
    show (back? start' (Text.lowercase line')).getD "" = (back? start (Text.lowercase line)).getD ""
    rw [hlow, hlow']
  spans _ hs := nomatch hs
  found := rfl

end Draft

theorem Builtin.suggest?_moves (b : Builtin) {d d' : Draft} (h : d.Moves d') :
    ∃ g g', b.suggest? d = some g ∧ b.suggest? d' = some g' ∧
      Suggestions.Moves d.span d'.span g g' := by
  cases b with
  | bool =>
    obtain ⟨hmoves, hspan, hspan'⟩ := h.suggestMatching ["true", "false"]
    rw [← hspan, ← hspan']
    exact hmoves.build?
  | _ => exact ⟨.none, .none, rfl, rfl, Suggestions.moves_none ..⟩

/-- Whether types of arguments suggest the same for the same token wherever it stands, whatever was
captured before. -/
def Language.SuggestsAnywhere (L : Language) : Prop :=
  ∀ (type : L.Argument) (around : L.Surroundings) (raw raw' : String → Option String)
    {d d' : Draft}, d.Moves d' →
    ∃ g g', L.suggest? type around raw d = some g ∧ L.suggest? type around raw' d' = some g' ∧
      Suggestions.Moves d.span d'.span g g'

theorem Language.IsBuiltin.suggestsAnywhere (h : L.IsBuiltin) : L.SuggestsAnywhere := by
  intro type around raw raw' d d' hmoves
  obtain ⟨b, -, hsuggest⟩ := h type
  rw [hsuggest, hsuggest]
  exact b.suggest?_moves hmoves

theorem NodeKind.suggest?_moves (hL : L.SuggestsAnywhere) (kind : NodeKind L)
    (around : L.Surroundings) (raw raw' : String → Option String) {d d' : Draft}
    (h : d.Moves d') :
    ∃ g g', kind.suggest? around raw d = some g ∧ kind.suggest? around raw' d' = some g' ∧
      Suggestions.Moves d.span d'.span g g' := by
  cases kind with
  | root => exact ⟨.none, .none, rfl, rfl, Suggestions.moves_none ..⟩
  | literal name =>
    obtain ⟨hmoves, hspan, hspan'⟩ := h.suggestIfMatching name
    rw [← hspan, ← hspan']
    exact hmoves.build?
  | argument name type => exact hL type around raw raw' h
  | option name type => exact hL type around raw raw' h

namespace CommandTree

variable {t : CommandTree L} {source : L.Source}

theorem suggestAll?_moves (hL : L.SuggestsAnywhere) (around : L.Surroundings)
    (raw raw' : String → Option String) {d d' : Draft} (h : d.Moves d') (ids : List NodeId) :
    ∃ groups groups', t.suggestAll? around raw d ids = some groups ∧
      t.suggestAll? around raw' d' ids = some groups' ∧
      List.Forall₂ (Suggestions.Moves d.span d'.span) groups groups' := by
  induction ids with
  | nil => exact ⟨[], [], rfl, rfl, .nil⟩
  | cons id ids ih =>
    obtain ⟨groups, groups', hgroups, hgroups', hall⟩ := ih
    obtain ⟨g, g', hg, hg', hmoves⟩ := (t.node id).kind.suggest?_moves hL around raw raw' h
    exact ⟨g :: groups, g' :: groups', by rw [suggestAll?, hg, hgroups]; rfl,
      by rw [suggestAll?, hg', hgroups']; rfl, .cons hmoves hall⟩

/-- A branch is completed alike in two lines in which the same is typed, if the names of options
are, and what is typed is not the value of an option. -/
theorem completeBranch?_moves (hL : L.SuggestsAnywhere) (around : L.Surroundings)
    (raw raw' : String → Option String) (given given' : List MatchedOption) {parent : NodeId}
    {policy : ConsolePolicy} {start start' : Nat} {names names' : Suggestions}
    (h : (Draft.new line start).Moves (Draft.new line' start'))
    (hnames : (t.optionNames source parent policy given (Draft.new line start)).build? =
      some names)
    (hnames' : (t.optionNames source parent policy given' (Draft.new line' start')).build? =
      some names')
    (hmoves : Suggestions.Moves (Draft.new line start).span (Draft.new line' start').span
      names names')
    (hpending : t.pendingOption? source parent policy line start = none)
    (hpending' : t.pendingOption? source parent policy line' start' = none) :
    ∃ g g',
      t.completeTarget? around raw source given line (.branch parent policy start) = some g ∧
      t.completeTarget? around raw' source given' line' (.branch parent policy start') = some g' ∧
      g'.list.map (·.text) = g.list.map (·.text) := by
  let usable := (t.node parent).children.values.filter fun c => (t.node c).canUse source policy
  obtain ⟨groups, groups', hgroups, hgroups', hall⟩ :=
    suggestAll?_moves (t := t) hL around raw raw' h usable
  have hboth := List.rel_append (R := Suggestions.Moves _ _) hall (.cons hmoves .nil)
  obtain ⟨g, g', hg, hg', hmoved⟩ := Suggestions.merge?_moves line line' hboth
  refine ⟨g, g', ?_, ?_, hmoved.texts⟩
  · simp only [completeTarget?, hpending]
    show (t.suggestAll? around raw (Draft.new line start) usable).bind _ = _
    rw [hgroups, Option.bind_some, hnames]
    exact hg
  · simp only [completeTarget?, hpending']
    show (t.suggestAll? around raw' (Draft.new line' start') usable).bind _ = _
    rw [hgroups', Option.bind_some, hnames']
    exact hg'

/-- A branch is completed alike in two lines in which the same is typed, if that is neither an
option nor the value of one. -/
theorem completeTarget?_moves (hL : L.IsBuiltin) (around : L.Surroundings)
    (raw raw' : String → Option String) (given given' : List MatchedOption) {parent : NodeId}
    {policy : ConsolePolicy} {start start' : Nat}
    (h : (Draft.new line start).Moves (Draft.new line' start'))
    (hminus : (Draft.new line start).remaining.toList.head? ≠ some '-')
    (hpending : t.pendingOption? source parent policy line start = none)
    (hpending' : t.pendingOption? source parent policy line' start' = none) :
    ∃ g g',
      t.completeTarget? around raw source given line (.branch parent policy start) = some g ∧
      t.completeTarget? around raw' source given' line' (.branch parent policy start') = some g' ∧
      g'.list.map (·.text) = g.list.map (·.text) := by
  have hminus' := hminus
  rw [← h.remaining] at hminus'
  obtain ⟨names, names', hnames, hnames', hmoves⟩ := h.build?
  have hnone : t.optionNames source parent policy given (Draft.new line start) =
      Draft.new line start := by simp [optionNames, hminus]
  have hnone' : t.optionNames source parent policy given' (Draft.new line' start') =
      Draft.new line' start' := by simp [optionNames, hminus']
  exact completeBranch?_moves hL.suggestsAnywhere around raw raw' given given' h
    (by rw [hnone, hnames]) (by rw [hnone', hnames']) hmoves hpending hpending'

end CommandTree

end CommandConsole
