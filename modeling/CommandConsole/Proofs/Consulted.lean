import CommandConsole.Proofs.Console
import CommandConsole.Proofs.Replacements

/-!
# What completion consults

Completion works at a place where a context stands, under the policy that is recorded there, so that
the gates of whatever is consulted decide as they do for the parser. What is behind a closed gate
takes no part: it offers nothing, and what it would offer makes no difference.
-/

namespace CommandConsole

open Text

variable {L : Language}

/-! ### Places of a context -/

/-- Whether a node stands in a context under a policy: the root under the policy that the context
started with, or a node that was entered under the policy recorded for it. -/
inductive Context.Stands (c : Context L) : NodeId → ConsolePolicy → Prop
  | root : c.Stands c.root c.startConsole
  | entered {m : MatchedNode} : m ∈ c.nodes → c.Stands m.node m.console

namespace Context

variable {c : Context L}

theorem stands_behind {before after : List MatchedNode} (h : c.nodes = before ++ after) :
    c.Stands (c.standsAt before) ((before.getLast?.map (·.console)).getD c.startConsole) := by
  unfold standsAt
  cases hlast : before.getLast? with
  | none => exact .root
  | some m =>
    refine .entered ?_
    rw [h]
    exact List.mem_append_left _ (List.mem_of_getLast? hlast)

theorem stands_here (c : Context L) : c.Stands (c.standsAt c.nodes) c.policyHere :=
  stands_behind (List.append_nil _).symm

theorem nodeTarget_stands (x start : Nat) {parent : NodeId} {policy : ConsolePolicy}
    {ms : List MatchedNode} (h : c.Stands parent policy) (hms : ∀ m ∈ ms, m ∈ c.nodes) :
    ∃ parent' policy' start', nodeTarget x start parent policy ms =
      .branch parent' policy' start' ∧ c.Stands parent' policy' := by
  induction ms generalizing parent policy with
  | nil => exact ⟨parent, policy, start, rfl, h⟩
  | cons m ms ih =>
    obtain ⟨hm, hmore⟩ := List.forall_mem_cons.1 hms
    unfold nodeTarget
    split
    · exact ⟨parent, policy, m.span.start, rfl, h⟩
    · exact ih (.entered hm) hmore

end Context

namespace CommandTree

variable {t t' : CommandTree L} {source : L.Source} {p q : Position L} {layer : NodeId → Nat}
  {parent : NodeId} {policy : ConsolePolicy} {c : Context L}

/-! ### Options of their owners -/

/-- Whether every option given in a context is one of its owner, under its name. -/
def Owned (t : CommandTree L) (c : Context L) : Prop :=
  ∀ o ∈ c.options, (t.node o.owner).options.find? o.name = some o.option

/-- Whether all options that a position has been given are ones of their owners. -/
def AllOwned (t : CommandTree L) (p : Position L) : Prop :=
  ∀ c ∈ p.closed ++ [p.context], t.Owned c

theorem owned_startAt (id : NodeId) (x : Nat) (policy : ConsolePolicy) :
    t.Owned (Context.startAt id x policy) := fun o ho => by cases ho

theorem AllOwned.step (h : t.AllOwned p) {i : Nat} (hs : Step t source p i q) : t.AllOwned q := by
  obtain ⟨hclosed, hmine⟩ := forall_mem_snoc.1 h
  rcases hs.gives_or_enters with ⟨name, option, hn, hg⟩ | ⟨child, -, taken, behind, hr, -, rfl⟩
  · cases hg with
    | intro _ _ _ _ _ _ _ _ =>
      exact forall_mem_snoc.2 ⟨hclosed, forall_mem_snoc.2 ⟨hmine, hn.2⟩⟩
  · -- no option is given where a child is entered
    obtain ⟨captured, rfl⟩ := hr.capture_eq
    rcases beyond_cases (t := t) p child { p.context with captured } behind with
      heq | ⟨forward, -, -, heq⟩
    · rw [heq]
      exact forall_mem_snoc.2 ⟨hclosed, hmine⟩
    · rw [heq]
      exact forall_mem_snoc.2 ⟨forall_mem_snoc.2 ⟨hclosed, hmine⟩, owned_startAt _ _ _⟩

/-! ### Targets -/

/-- Whether a target is at a node under a policy: what is typed is a child or an option of the node,
or the value of one of its options, and that option admits the source. -/
inductive TargetAt (t : CommandTree L) (source : L.Source) (parent : NodeId)
    (policy : ConsolePolicy) : CursorTarget → Prop
  | branch (start : Nat) : TargetAt t source parent policy (.branch parent policy start)
  | value {name : String} {option : NodeId} (start : Nat) :
      (t.node parent).options.find? name = some option → t.Admits source option policy →
      TargetAt t source parent policy (.optionValue option start)

theorem Cleared.option_admits {above : ConsolePolicy} (h : t.Cleared source above c)
    {o : MatchedOption} (ho : o ∈ c.options) :
    c.Stands o.owner (c.policyAt o.owner) ∧ t.Admits source o.option (c.policyAt o.owner) := by
  obtain ⟨before, after, hnodes, hstands, hadmits⟩ := h.option o ho
  have hplace := c.stands_behind hnodes
  have hpolicy := Context.policyAt_standsAt hnodes h.once
  rw [hstands] at hplace hpolicy
  rw [hpolicy]
  refine ⟨hplace, ?_⟩
  rw [h.policy_eq hnodes]
  exact hadmits

/-- Whether all that a context was matched with admits the source, from some policy on, and its
options are ones of their owners. -/
structure Vetted (t : CommandTree L) (source : L.Source) (c : Context L) : Prop where
  cleared : ∃ above, t.Cleared source above c
  owned : t.Owned c

theorem Vetted.target?_at (h : t.Vetted source c) {x : Nat} {found : CursorTarget}
    (hfound : c.target? x = some found) :
    ∃ parent policy, c.Stands parent policy ∧ t.TargetAt source parent policy found := by
  obtain ⟨above, hcleared⟩ := h.cleared
  unfold Context.target? at hfound
  split at hfound
  · obtain rfl := Option.some.inj hfound
    exact ⟨_, _, .root, .branch _⟩
  · split at hfound
    · next hoption =>
      obtain rfl := Option.some.inj hfound
      obtain ⟨o, ho, hfound⟩ := List.exists_of_findSome?_eq_some hoption
      obtain ⟨hstands, hadmits⟩ := hcleared.option_admits ho
      refine ⟨_, _, hstands, ?_⟩
      split at hfound
      · obtain rfl := Option.some.inj hfound
        exact .value _ (h.owned o ho) hadmits
      · split at hfound
        · obtain rfl := Option.some.inj hfound
          exact .branch _
        · cases hfound
    · split at hfound
      · cases hfound
      · obtain rfl := Option.some.inj hfound
        obtain ⟨parent, policy, start, heq, hstands⟩ :=
          Context.nodeTarget_stands x c.span.start .root fun m hm => hm
        rw [heq]
        exact ⟨parent, policy, hstands, .branch start⟩

/-- What is typed at a cursor is at a place of one of the contexts. -/
theorem target_at (line : String) (x : Nat) (more : List (Context L))
    (h : ∀ d ∈ c :: more, t.Vetted source d) :
    ∃ d ∈ c :: more, ∃ parent policy, d.Stands parent policy ∧
      t.TargetAt source parent policy (c.target line x more) := by
  induction more generalizing c with
  | nil =>
    refine ⟨c, List.mem_cons_self .., ?_⟩
    unfold Context.target
    cases htarget : c.target? x with
    | none =>
      rw [Option.getD_none, Context.tailTarget_eq]
      exact ⟨_, _, c.stands_here, .branch _⟩
    | some found => exact (h c (List.mem_cons_self ..)).target?_at htarget
  | cons next more ih =>
    unfold Context.target
    cases htarget : c.target? x with
    | none =>
      obtain ⟨d, hd, hat⟩ := ih fun d hd => h d (List.mem_cons_of_mem _ hd)
      exact ⟨d, List.mem_cons_of_mem _ hd, hat⟩
    | some found =>
      exact ⟨c, List.mem_cons_self .., (h c (List.mem_cons_self ..)).target?_at htarget⟩

end CommandTree

/-! ### Where suggestions come from -/

namespace Suggestions

variable {line : String} {list : List Suggestion} {g : Suggestions}

theorem mem_expandAll {span : Span} {wide : List Suggestion}
    (h : expandAll line span list = some wide) {s : Suggestion} (hs : s ∈ wide) :
    ∃ s₀ ∈ list, s₀.expand? line span = some s := by
  induction list generalizing wide with
  | nil =>
    obtain rfl := Option.some.inj h
    cases hs
  | cons s₁ list ih =>
    obtain ⟨first, hfirst, hrest⟩ := Option.bind_eq_some_iff.1 h
    obtain ⟨others, hothers, hwide⟩ := Option.bind_eq_some_iff.1 hrest
    obtain rfl := Option.some.inj hwide
    rcases List.mem_cons.1 hs with rfl | hs
    · exact ⟨s₁, List.mem_cons_self .., hfirst⟩
    · obtain ⟨s₀, hs₀, hexpand⟩ := ih hothers hs
      exact ⟨s₀, List.mem_cons_of_mem _ hs₀, hexpand⟩

theorem mem_create? (h : create? line list = some g) {s : Suggestion} (hs : s ∈ g.list) :
    ∃ s₀ ∈ list, s₀.expand? line g.span = some s := by
  cases list with
  | nil =>
    obtain rfl := Option.some.inj h
    cases hs
  | cons first rest =>
    obtain ⟨wide, hwide, hg⟩ := Option.bind_eq_some_iff.1 h
    obtain rfl := Option.some.inj hg
    exact mem_expandAll hwide ((mem_dedupe wide).1 s ((perm_sort _).mem_iff.1 hs))

/-- What is in a merged group is in one of the groups, or comes from there by being brought to the
span of the merged one. -/
theorem mem_merge? {groups : List Suggestions} (h : merge? line groups = some g) {s : Suggestion}
    (hs : s ∈ g.list) :
    ∃ g' ∈ groups, ∃ s₀ ∈ g'.list, s = s₀ ∨ s₀.expand? line g.span = some s := by
  have hmany : create? line (groups.flatMap (·.list)) = some g →
      ∃ g' ∈ groups, ∃ s₀ ∈ g'.list, s = s₀ ∨ s₀.expand? line g.span = some s := by
    intro hcreate
    obtain ⟨s₀, hs₀, hexpand⟩ := mem_create? hcreate hs
    obtain ⟨g', hg', hmem⟩ := List.mem_flatMap.1 hs₀
    exact ⟨g', hg', s₀, hmem, Or.inr hexpand⟩
  cases groups with
  | nil =>
    obtain rfl := Option.some.inj h
    cases hs
  | cons first rest =>
    cases rest with
    | nil =>
      obtain rfl := Option.some.inj h
      exact ⟨first, List.mem_singleton_self _, s, hs, Or.inl rfl⟩
    | cons second rest => exact hmany h

end Suggestions

theorem Draft.mem_build?_suggestMatching {line : String} {start : Nat} {candidates : List String}
    {g : Suggestions} (h : ((new line start).suggestMatching candidates).build? = some g)
    {s : Suggestion} (hs : s ∈ g.list) :
    ∃ c ∈ candidates, s = .plain (new line start).span c := by
  unfold build? at h
  rw [line_suggestMatching, found_suggestMatching] at h
  have hspan : ∀ s' ∈ (new line start).found ++ (candidates.filter fun c =>
      (new line start).matchesTyped c && c != (new line start).remaining).map
        (Suggestion.plain (new line start).span), s'.span = (new line start).span := by
    intro s' hs'
    obtain ⟨c, -, rfl⟩ := List.mem_map.1 ((List.mem_append.1 hs').resolve_left List.not_mem_nil)
    rfl
  have hmine := Suggestions.mem_create?_of_span h hspan hs
  obtain ⟨c, hc, rfl⟩ :=
    List.mem_map.1 ((List.mem_append.1 hmine).resolve_left List.not_mem_nil)
  exact ⟨c, (List.mem_filter.1 hc).1, rfl⟩

namespace CommandTree

variable {t t' : CommandTree L} {source : L.Source} {parent : NodeId} {policy : ConsolePolicy}
  {line : String} {around : L.Surroundings} {raw : String → Option String}
  {given : List MatchedOption} {found : CursorTarget}

/-- Whether a child or an option of a node offers a suggestion for a line: a child what it suggests,
an option its name, or what it suggests for its value. -/
inductive Offers (t : CommandTree L) (around : L.Surroundings) (raw : String → Option String)
    (line : String) (parent : NodeId) : NodeId → Suggestion → Prop
  | child {id : NodeId} {start : Nat} {g : Suggestions} {s : Suggestion} :
      id ∈ (t.node parent).children.values →
      (t.node id).kind.suggest? around raw (Draft.new line start) = some g → s ∈ g.list →
      Offers t around raw line parent id s
  | name {name : String} {id : NodeId} {start : Nat} :
      (name, id) ∈ (t.node parent).options.entries →
      Offers t around raw line parent id (.plain (Draft.new line start).span ("--" ++ name))
  | value {name : String} {id : NodeId} {start : Nat} {g : Suggestions} {s : Suggestion} :
      (t.node parent).options.find? name = some id →
      (t.node id).kind.suggest? around raw (Draft.new line start) = some g → s ∈ g.list →
      Offers t around raw line parent id s

theorem mem_suggestAll? {draft : Draft} {ids : List NodeId} {groups : List Suggestions}
    (h : t.suggestAll? around raw draft ids = some groups) {g : Suggestions} (hg : g ∈ groups) :
    ∃ id ∈ ids, (t.node id).kind.suggest? around raw draft = some g := by
  induction ids generalizing groups with
  | nil =>
    obtain rfl := Option.some.inj h
    cases hg
  | cons id ids ih =>
    obtain ⟨first, hfirst, hrest⟩ := Option.bind_eq_some_iff.1 h
    obtain ⟨others, hothers, hgroups⟩ := Option.bind_eq_some_iff.1 hrest
    obtain rfl := Option.some.inj hgroups
    rcases List.mem_cons.1 hg with rfl | hg
    · exact ⟨id, List.mem_cons_self .., hfirst⟩
    · obtain ⟨id', hid', hsuggest⟩ := ih hothers hg
      exact ⟨id', List.mem_cons_of_mem _ hid', hsuggest⟩

theorem mem_build?_optionNames {start : Nat} {g : Suggestions}
    (h : (t.optionNames source parent policy given (Draft.new line start)).build? = some g)
    {s : Suggestion} (hs : s ∈ g.list) :
    ∃ id, t.Admits source id policy ∧ t.Offers around raw line parent id s := by
  rw [optionNames_eq] at h
  split at h
  · obtain ⟨_, hc, rfl⟩ := Draft.mem_build?_suggestMatching h hs
    obtain ⟨⟨name, id⟩, he, rfl⟩ := List.mem_map.1 hc
    obtain ⟨he, husable⟩ := List.mem_filter.1 he
    exact ⟨id, (canUse_iff_admits ..).1 (Bool.and_eq_true_iff.1 husable).2, .name he⟩
  · have hempty : ((Draft.new line start).suggestMatching []).build? = some g := h
    obtain ⟨_, hc, -⟩ := Draft.mem_build?_suggestMatching hempty hs
    cases hc

/-- Everything suggested for a target comes from a child or an option, of the node that the target
is at, that admits the source under the policy there. -/
theorem TargetAt.offered (hat : t.TargetAt source parent policy found) {g : Suggestions}
    (hg : t.completeTarget? around raw source given line found = some g) {s : Suggestion}
    (hs : s ∈ g.list) :
    ∃ id, t.Admits source id policy ∧ ∃ s₀, t.Offers around raw line parent id s₀ ∧
      (s = s₀ ∨ s₀.expand? line g.span = some s) := by
  cases hat with
  | @value name option start hfind hadmits =>
    exact ⟨option, hadmits, s, .value hfind hg hs, Or.inl rfl⟩
  | branch start =>
    cases hpending : t.pendingOption? source parent policy line start with
    | some pending =>
      obtain ⟨option, valueStart⟩ := pending
      obtain ⟨⟨name, hfind⟩, hadmits, -⟩ := pendingOption?_eq_some hpending
      rw [completeTarget?_pending hpending] at hg
      exact ⟨option, hadmits, s, .value hfind hg hs, Or.inl rfl⟩
    | none =>
      simp only [completeTarget?, hpending] at hg
      obtain ⟨groups, hgroups, hrest⟩ := Option.bind_eq_some_iff.1 hg
      obtain ⟨names, hnames, hmerge⟩ := Option.bind_eq_some_iff.1 hrest
      obtain ⟨g', hg', s₀, hs₀, hcomes⟩ := Suggestions.mem_merge? hmerge hs
      rcases List.mem_append.1 hg' with hg' | hg'
      · obtain ⟨id, hid, hsuggest⟩ := mem_suggestAll? hgroups hg'
        obtain ⟨hchild, huse⟩ := List.mem_filter.1 hid
        exact ⟨id, (canUse_iff_admits ..).1 huse, s₀, .child hchild hsuggest hs₀, hcomes⟩
      · obtain rfl := List.mem_singleton.1 hg'
        obtain ⟨id, hadmits, hoffers⟩ := mem_build?_optionNames hnames hs₀
        exact ⟨id, hadmits, s₀, hoffers, hcomes⟩

/-! ### What makes no difference -/

def usableChildren (t : CommandTree L) (source : L.Source) (parent : NodeId)
    (policy : ConsolePolicy) : List NodeId :=
  (t.node parent).children.values.filter fun id => (t.node id).canUse source policy

def usableOptions (t : CommandTree L) (source : L.Source) (parent : NodeId)
    (policy : ConsolePolicy) : List (String × NodeId) :=
  (t.node parent).options.entries.filter fun e => (t.node e.2).canUse source policy

def usableOption? (t : CommandTree L) (source : L.Source) (parent : NodeId)
    (policy : ConsolePolicy) (name : String) : Option NodeId :=
  ((t.node parent).options.find? name).filter fun id => (t.node id).canUse source policy

/-- Whether two trees have the same at a node for a source under a policy, up to what the source may
not use there. -/
structure AlikeFor (t t' : CommandTree L) (source : L.Source) (parent : NodeId)
    (policy : ConsolePolicy) : Prop where
  children : t'.usableChildren source parent policy = t.usableChildren source parent policy
  options : t'.usableOptions source parent policy = t.usableOptions source parent policy
  option? : ∀ name,
    t'.usableOption? source parent policy name = t.usableOption? source parent policy name
  child : ∀ id ∈ t.usableChildren source parent policy, (t'.node id).kind = (t.node id).kind
  option : ∀ name option, t.usableOption? source parent policy name = some option →
    (t'.node option).kind = (t.node option).kind

theorem suggestAll?_congr (draft : Draft) {ids : List NodeId}
    (h : ∀ id ∈ ids, (t'.node id).kind = (t.node id).kind) :
    t'.suggestAll? around raw draft ids = t.suggestAll? around raw draft ids := by
  induction ids with
  | nil => rfl
  | cons id ids ih =>
    obtain ⟨hid, hmore⟩ := List.forall_mem_cons.1 h
    rw [suggestAll?, suggestAll?, hid, ih hmore]

theorem AlikeFor.optionNames (h : AlikeFor t t' source parent policy) (draft : Draft) :
    t'.optionNames source parent policy given draft =
      t.optionNames source parent policy given draft := by
  rw [optionNames_eq, optionNames_eq, ← List.filter_filter, ← List.filter_filter]
  have hsame := h.options
  unfold usableOptions at hsame
  rw [hsame]

theorem AlikeFor.filter_namedOption? (h : AlikeFor t t' source parent policy) (word : List Char) :
    ((namedOption? (t'.node parent) word).filter fun id =>
      (t'.node id).canUse source policy) =
    (namedOption? (t.node parent) word).filter fun id =>
      (t.node id).canUse source policy := by
  unfold namedOption?
  split
  · exact h.option? _
  · rfl

theorem AlikeFor.pendingOption? (h : AlikeFor t t' source parent policy) (line : String)
    (start : Nat) :
    t'.pendingOption? source parent policy line start =
      t.pendingOption? source parent policy line start := by
  simp only [pendingOption?_eq, h.filter_namedOption?]

theorem usableOption?_eq_some_iff {name : String} {option : NodeId} :
    t.usableOption? source parent policy name = some option ↔
      (t.node parent).options.find? name = some option ∧ t.Admits source option policy := by
  rw [usableOption?, Option.filter_eq_some_iff, canUse_iff_admits]

/-- What the source may not use at the node of a target makes no difference to what is suggested. -/
theorem TargetAt.complete_alike (hat : t.TargetAt source parent policy found)
    (h : AlikeFor t t' source parent policy) :
    t'.completeTarget? around raw source given line found =
      t.completeTarget? around raw source given line found := by
  have hvalue : ∀ name option start, (t.node parent).options.find? name = some option →
      t.Admits source option policy →
      t'.completeTarget? around raw source given line (.optionValue option start) =
        t.completeTarget? around raw source given line (.optionValue option start) := by
    intro name option start hfind hadmits
    have hkind := h.option name option (usableOption?_eq_some_iff.2 ⟨hfind, hadmits⟩)
    simp only [completeTarget?, hkind]
  cases hat with
  | value start hfind hadmits => exact hvalue _ _ start hfind hadmits
  | branch start =>
    cases hpending : t.pendingOption? source parent policy line start with
    | some pending =>
      obtain ⟨option, valueStart⟩ := pending
      obtain ⟨⟨name, hfind⟩, hadmits, -⟩ := pendingOption?_eq_some hpending
      rw [completeTarget?_pending hpending,
        completeTarget?_pending ((h.pendingOption? line start).trans hpending)]
      exact hvalue name option valueStart hfind hadmits
    | none =>
      have hpending' := (h.pendingOption? line start).trans hpending
      have hgroups : t'.suggestAll? around raw (Draft.new line start)
            (t'.usableChildren source parent policy) =
          t.suggestAll? around raw (Draft.new line start)
            (t.usableChildren source parent policy) := by
        rw [h.children, suggestAll?_congr _ h.child]
      unfold usableChildren at hgroups
      simp only [completeTarget?, hpending, hpending', hgroups, h.optionNames]

/-! ### Completion at a cursor -/

/-- Whether completion of a parsed line at a cursor works at a node under a policy, and consults
nothing there that the source may not use. -/
structure ConsultsAt (t : CommandTree L) (around : L.Surroundings) (parsed : Parsed L)
    (cursor : Nat) (parent : NodeId) (policy : ConsolePolicy) : Prop where
  target : t.TargetAt parsed.source parent policy (parsed.chain.target parsed.reader.line
    (byteLength (cutAt parsed.reader.line cursor)))
  /-- All that is suggested comes from a child or an option of the node, and that admits the
  source. -/
  offered : ∀ g, t.completeAt? around parsed cursor = some g → ∀ s ∈ g.list,
    ∃ id, t.Admits parsed.source id policy ∧ ∃ s₀,
      let front := String.ofList (cutAt parsed.reader.line cursor)
      t.Offers around (parsed.chain.outer.raw? front) front parent id s₀ ∧
        (s = s₀ ∨ s₀.expand? front g.span = some s)
  /-- What the source may not use at the node makes no difference. -/
  alike : ∀ t', AlikeFor t t' parsed.source parent policy →
    t'.completeAt? around parsed cursor = t.completeAt? around parsed cursor

theorem parseFrom_vetted (ht : t.Reachable) (r : Reader) (source : L.Source) :
    ∀ c ∈ (t.parseFrom r source).chain.toList, t.Vetted source c := by
  obtain ⟨layer, hg⟩ := ht.grown
  have hstart : t.AllOwned (Position.start r.skipBlank) := by
    intro c hc
    rw [List.mem_singleton.1 hc]
    exact owned_startAt _ _ _
  obtain ⟨q, ⟨hguarded, howned⟩, hchain, -⟩ := hg.filed.parseFrom_invariant
    (P := fun p => t.Guarded source layer p ∧ t.AllOwned p) source r ⟨guarded_start _, hstart⟩
    fun _ _ _ h hs => ⟨h.1.step hg.filed hs, h.2.step hs⟩
  intro c hc
  rw [hchain, Position.toList_chain] at hc
  obtain ⟨before, after, hsplit⟩ := List.append_of_mem hc
  exact ⟨⟨_, hguarded.cleared before c after hsplit⟩, howned c hc⟩

/-- Completion works at a node that the parser has been at, under the policy recorded there, and
consults just what the parser would let through. -/
theorem completion_consults_admitted (ht : t.Reachable) (r : Reader) (source : L.Source)
    (around : L.Surroundings) (cursor : Nat) :
    let parsed := t.parseFrom r source
    ∃ c ∈ parsed.chain.toList, ∃ parent policy, c.Stands parent policy ∧
      t.ConsultsAt around parsed cursor parent policy := by
  intro parsed
  obtain ⟨c, hc, parent, policy, hstands, hat⟩ := target_at parsed.reader.line
    (byteLength (cutAt parsed.reader.line cursor)) parsed.chain.redirected
    (parseFrom_vetted ht r source)
  exact ⟨c, hc, parent, policy, hstands, hat, fun g hg s hs => hat.offered hg hs,
    fun t' h => hat.complete_alike h⟩

/-- Behind a redirect the console is not offered what is denied to it. -/
theorem completion_consults_admitted_console :
    let state : ServerState := ⟨.empty, .empty, true⟩
    let parsed := commandTree.parseFrom (.ofString "execute run ") (.console "Server")
    (commandTree.completeAt? state parsed 12).map (fun g => g.list.map (·.text)) =
        some ["ban", "banlist", "execute", "gamemode", "gm", "help", "kick", "pardon", "perms",
          "stop"] ∧
      ∃ c ∈ parsed.chain.toList, ∃ parent policy, c.Stands parent policy ∧
        commandTree.ConsultsAt state parsed 12 parent policy :=
  ⟨by decide +kernel, completion_consults_admitted reachable_commandTree _ _ _ 12⟩

end CommandTree

end CommandConsole
