import CommandConsole.Proofs.Gathering

/-!
# Suggestions of a branch

What the child of a node suggests for a token is among what completion suggests there: grouping
loses no line that a suggestion results in, whatever else is suggested with it.
-/

namespace CommandConsole

open Text

variable {L : Language} {line : String}

/-! ### Groups -/

namespace Suggestions

/-- Whether a group results in every line that some suggestions result in, at one span. -/
structure Collects (line : String) (g : Suggestions) (list : List Suggestion) : Prop where
  cuts : ∀ s ∈ g.list, s.span.Cuts line
  kept : ∀ s ∈ list, ∃ s' ∈ g.list, s'.applyTo? line = s.applyTo? line

theorem create?_collects {list : List Suggestion} (h : ∀ s ∈ list, s.span.Cuts line) :
    ∃ g, create? line list = some g ∧ Collects line g list := by
  obtain ⟨g, hg, hall⟩ := create?_gathers h
  refine ⟨g, hg, fun s hs => ?_, fun s hs => ?_⟩
  · rw [hall.at_span s hs]
    exact hall.cuts
  · obtain ⟨s', hs', heq⟩ := hall.effects_eq.symm.subset ⟨s, hs, rfl⟩
    exact ⟨s', hs', congrArg Prod.fst heq⟩

theorem merge?_collects {groups : List Suggestions}
    (h : ∀ g ∈ groups, ∀ s ∈ g.list, s.span.Cuts line) :
    ∃ g, merge? line groups = some g ∧ Collects line g (groups.flatMap (·.list)) := by
  have hall : ∀ s ∈ groups.flatMap (·.list), s.span.Cuts line := by
    intro s hs
    obtain ⟨g, hg, hs⟩ := List.mem_flatMap.1 hs
    exact h g hg s hs
  cases groups with
  | nil => exact ⟨none, rfl, by simp [none], by simp⟩
  | cons first rest =>
    cases rest with
    | nil =>
      refine ⟨first, rfl, h first (List.mem_singleton_self _), fun s hs => ⟨s, ?_, rfl⟩⟩
      simpa using hs
    | cons second rest => exact create?_collects hall

end Suggestions

/-! ### Drafts -/

/-- Whether a draft is for a line, from an offset on at which the line can be cut. -/
structure Draft.For (d : Draft) (line : String) : Prop where
  same : d.line = line
  start : CutsAt line d.start
  found : ∀ s ∈ d.found, s.span.Cuts line

namespace Draft

variable {d : Draft}

theorem for_new {start : Nat} (h : CutsAt line start) : (new line start).For line :=
  ⟨rfl, h, by simp [new, withLowercase]⟩

theorem For.cuts_span (h : d.For line) : d.span.Cuts line := by
  have hle := h.start.le
  unfold span
  rw [h.same, Nat.min_eq_left hle]
  exact ⟨h.start, cutsAt_bytes line, hle⟩

theorem For.suggestIfMatching (h : d.For line) (candidate : String) :
    (d.suggestIfMatching candidate).For line := by
  unfold Draft.suggestIfMatching suggest
  split
  · split
    · exact h
    · refine ⟨h.same, h.start, fun s hs => ?_⟩
      rcases List.mem_append.1 hs with hs | hs
      · exact h.found s hs
      · rw [List.mem_singleton.1 hs]
        exact h.cuts_span
  · exact h

theorem For.suggestMatching (h : d.For line) (candidates : List String) :
    (d.suggestMatching candidates).For line := by
  unfold Draft.suggestMatching
  induction candidates generalizing d with
  | nil => exact h
  | cons candidate candidates ih => exact ih (h.suggestIfMatching candidate)

theorem For.build? (h : d.For line) :
    ∃ g, d.build? = some g ∧ Suggestions.Collects line g d.found := by
  unfold Draft.build?
  rw [h.same]
  exact Suggestions.create?_collects h.found

end Draft

/-! ### Suggestions of a branch -/

/-- Whether every type of arguments suggests something for every token, in spans that cut the line
at characters. -/
def Language.SuggestsInside (L : Language) : Prop :=
  ∀ (type : L.Argument) (around : L.Surroundings) (raw : String → Option String) (line : String)
    (start : Nat), CutsAt line start →
    ∃ g, L.suggest? type around raw (Draft.new line start) = some g ∧
      ∀ s ∈ g.list, s.span.Cuts line

theorem Builtin.suggest?_inside (b : Builtin) {d : Draft} (h : d.For line) :
    ∃ g, b.suggest? d = some g ∧ ∀ s ∈ g.list, s.span.Cuts line := by
  cases b with
  | bool =>
    obtain ⟨g, hg, hcollects⟩ := (h.suggestMatching ["true", "false"]).build?
    exact ⟨g, hg, hcollects.cuts⟩
  | _ => exact ⟨.none, rfl, by simp [Suggestions.none]⟩

theorem Language.IsBuiltin.suggestsInside (h : L.IsBuiltin) : L.SuggestsInside := by
  intro type around raw line start hstart
  obtain ⟨b, -, hsuggest⟩ := h type
  rw [hsuggest]
  exact b.suggest?_inside (Draft.for_new hstart)

theorem NodeKind.suggest?_inside (hL : L.SuggestsInside) (kind : NodeKind L)
    (around : L.Surroundings) (raw : String → Option String) {start : Nat}
    (hstart : CutsAt line start) : ∃ g, kind.suggest? around raw (Draft.new line start) = some g ∧
      ∀ s ∈ g.list, s.span.Cuts line := by
  cases kind with
  | root => exact ⟨.none, rfl, by simp [Suggestions.none]⟩
  | literal name =>
    obtain ⟨g, hg, hcollects⟩ := ((Draft.for_new hstart).suggestIfMatching name).build?
    exact ⟨g, hg, hcollects.cuts⟩
  | argument name type => exact hL type around raw line start hstart
  | option name type => exact hL type around raw line start hstart

namespace CommandTree

variable {t : CommandTree L}

theorem suggestAll?_inside (hL : L.SuggestsInside) (around : L.Surroundings)
    (raw : String → Option String) {start : Nat} (hstart : CutsAt line start)
    (ids : List NodeId) :
    ∃ groups, t.suggestAll? around raw (Draft.new line start) ids = some groups ∧
      (∀ g ∈ groups, ∀ s ∈ g.list, s.span.Cuts line) ∧
      ∀ id ∈ ids, ∃ g ∈ groups,
        (t.node id).kind.suggest? around raw (Draft.new line start) = some g := by
  induction ids with
  | nil => exact ⟨[], rfl, by simp, by simp⟩
  | cons id ids ih =>
    obtain ⟨groups, hgroups, hcuts, hall⟩ := ih
    obtain ⟨g, hg, hmine⟩ := (t.node id).kind.suggest?_inside hL around raw hstart
    refine ⟨g :: groups, by rw [suggestAll?, hg, hgroups]; rfl,
      List.forall_mem_cons.2 ⟨hmine, hcuts⟩,
      List.forall_mem_cons.2 ⟨⟨g, List.mem_cons_self .., hg⟩, fun id hid => ?_⟩⟩
    obtain ⟨g', hmem, hg'⟩ := hall id hid
    exact ⟨g', List.mem_cons_of_mem _ hmem, hg'⟩

theorem optionNames_for (source : L.Source) (parent : NodeId) (policy : ConsolePolicy)
    (given : List MatchedOption) {d : Draft} (h : d.For line) :
    (t.optionNames source parent policy given d).For line := by
  unfold optionNames
  split
  · exact h
  · next hminus =>
    clear hminus
    generalize (t.node parent).options.entries = entries
    induction entries generalizing d with
    | nil => exact h
    | cons e entries ih =>
      rw [List.foldl_cons]
      refine ih ?_
      show (if _ then d else d.suggestMatching ["--" ++ e.1]).For line
      split
      · exact h
      · exact h.suggestMatching _

/-- Where no option waits for its value, what a child suggests is among what is suggested. -/
theorem completeTarget?_child (hL : L.SuggestsInside) {source : L.Source}
    (around : L.Surroundings) (raw : String → Option String) (given : List MatchedOption)
    {parent child : NodeId} {policy : ConsolePolicy} {start : Nat} (hstart : CutsAt line start)
    (hpending : t.pendingOption? source parent policy line start = none)
    (hchild : child ∈ (t.node parent).children.values)
    (huse : (t.node child).canUse source policy = true) :
    ∃ g own, t.completeTarget? around raw source given line (.branch parent policy start) = some g ∧
      (t.node child).kind.suggest? around raw (Draft.new line start) = some own ∧
      ∀ s ∈ own.list, ∃ s' ∈ g.list, s'.applyTo? line = s.applyTo? line := by
  let usable := (t.node parent).children.values.filter fun c => (t.node c).canUse source policy
  obtain ⟨groups, hgroups, hcuts, hall⟩ :=
    suggestAll?_inside (t := t) hL around raw hstart usable
  obtain ⟨own, hown, hsuggest⟩ := hall child (List.mem_filter.2 ⟨hchild, huse⟩)
  obtain ⟨names, hnames, hcollects⟩ :=
    (optionNames_for (t := t) source parent policy given (Draft.for_new hstart)).build?
  have hmerged : ∀ g ∈ groups ++ [names], ∀ s ∈ g.list, s.span.Cuts line := by
    intro g hg
    rcases List.mem_append.1 hg with hg | hg
    · exact hcuts g hg
    · rw [List.mem_singleton.1 hg]
      exact hcollects.cuts
  obtain ⟨g, hg, hkept⟩ := Suggestions.merge?_collects hmerged
  refine ⟨g, own, ?_, hsuggest, fun s hs => hkept.kept s ?_⟩
  · simp only [completeTarget?, hpending]
    show (t.suggestAll? around raw (Draft.new line start) usable).bind _ = _
    rw [hgroups, Option.bind_some, hnames]
    exact hg
  · exact List.mem_flatMap.2 ⟨own, List.mem_append_left _ hown, hs⟩

end CommandTree

end CommandConsole
