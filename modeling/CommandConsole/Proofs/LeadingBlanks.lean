import CommandConsole.Console.Session
import CommandConsole.Proofs.Candidates
import CommandConsole.Proofs.Relocation
import CommandConsole.Proofs.Replacements
import CommandConsole.Proofs.Shifting

/-!
# Completing behind blanks

What is being typed at the end of a line does not depend on blanks in front of the line: parsing
skips them, every offset is greater by their length, and their lowercase is as long as they are. So
lines that are expanded to the same, up to blanks in front, are completed alike. An alias is looked
for at the very start of a line, though, and is not found behind blanks.
-/

namespace CommandConsole

open Text

variable {L : Language}

/-! ### Offsets behind a front -/

namespace Text

theorem splitAt?_behind (a : List Char) (n : Nat) (cs : List Char) :
    splitAt? (byteLength a + n) (a ++ cs) = (splitAt? n cs).map fun p => (a ++ p.1, p.2) := by
  induction a with
  | nil => simp [byteLength]
  | cons c a ih =>
    obtain ⟨k, hk⟩ : ∃ k, byteLength (c :: a) + n = k + 1 :=
      ⟨byteLength (c :: a) + n - 1, by have := c.utf8Size_pos; simp only [byteLength]; omega⟩
    have hsize : k + 1 = c.utf8Size + (byteLength a + n) := by
      rw [← hk, byteLength, Nat.add_assoc]
    rw [hk, List.cons_append, splitAt?, if_pos (by omega), hsize, Nat.add_sub_cancel_left, ih,
      Option.map_map]
    rfl

theorem slice?_behind (a : List Char) (start stop : Nat) (cs : List Char) :
    slice? (byteLength a + start) (byteLength a + stop) (a ++ cs) = slice? start stop cs := by
  unfold slice?
  simp only [Nat.add_le_add_iff_left]
  split
  · rw [splitAt?_behind]
    cases splitAt? stop cs with
    | none => rfl
    | some parts =>
      show (splitAt? (byteLength a + start) (a ++ parts.1)).bind _ =
        (splitAt? start parts.1).bind _
      rw [splitAt?_behind]
      cases splitAt? start parts.1 <;> rfl
  · rfl

theorem bytes_append (a b : String) : bytes (a ++ b) = bytes a + bytes b := by
  rw [bytes, bytes, bytes, String.toList_append, byteLength_append]

theorem back?_behind (front : String) (n : Nat) (line : String) :
    back? (bytes front + n) (front ++ line) = back? n line := by
  unfold back?
  rw [String.toList_append, bytes, splitAt?_behind, Option.map_map]
  rfl

end Text

theorem firstInk?_behind (front line : String) (start stop : Nat) :
    firstInk? (front ++ line) (bytes front + start) (bytes front + stop) =
      (firstInk? line start stop).map (bytes front + ·) := by
  unfold firstInk?
  rw [String.toList_append, bytes, slice?_behind]
  cases slice? start stop line.toList with
  | none => rfl
  | some gap =>
    rw [Option.bind_some, Option.bind_some]
    dsimp only
    split
    · rw [Option.map_some, Nat.add_assoc]
    · rfl

/-! ### Targets behind a front -/

variable {front : String}

/-- What is being typed, with every offset greater by the length of a front. -/
def CursorTarget.behind (front : String) : CursorTarget → CursorTarget
  | branch parent policy start => branch parent policy (bytes front + start)
  | optionValue option start => optionValue option (bytes front + start)

/-- An option that waits for its value behind a front. -/
def PendingOption.behind (front : String) (pending : PendingOption) : PendingOption :=
  ⟨pending.option, bytes front + pending.valueStart⟩

theorem Span.touches_behind (s : Span) (n : Nat) :
    (s.carry (.behind front)).touches (bytes front + n) = s.touches n := by
  simp [touches, carry, Transport.behind]

namespace Context

theorem policyAt_behind (c : Context L) (id : NodeId) :
    (c.carry (.behind front)).policyAt id = c.policyAt id := by
  have hfind : (c.carry (.behind front)).nodes.reverse.find? (·.node == id) =
      (c.nodes.reverse.find? (·.node == id)).map (·.carry (.behind front)) := by
    show (c.nodes.map (·.carry (.behind front))).reverse.find? _ = _
    rw [← List.map_reverse, List.find?_map]
    rfl
  unfold policyAt
  rw [hfind]
  cases c.nodes.reverse.find? (·.node == id) <;> rfl

theorem optionTarget?_behind (c : Context L) (cursor : Nat) :
    (c.carry (.behind front)).optionTarget? (bytes front + cursor) =
      (c.optionTarget? cursor).map (.behind front) := by
  unfold optionTarget?
  show (c.options.map (·.carry (.behind front))).findSome? _ = _
  rw [List.findSome?_map, List.map_findSome?]
  congr 1
  funext o
  simp only [Function.comp_apply, policyAt_behind]
  show (if (o.valueSpan.carry (.behind front)).touches _ then _
    else if (o.nameSpan.carry (.behind front)).touches _ then _ else _) = _
  rw [Span.touches_behind, Span.touches_behind]
  split
  · rfl
  · split <;> rfl

theorem tailTarget_behind (c : Context L) (line : String) (cursor : Nat) :
    (c.carry (.behind front)).tailTarget (front ++ line) (bytes front + cursor) =
      (c.tailTarget line cursor).behind front := by
  have hstop : ∀ (options : List MatchedOption) (stop : Nat),
      (options.map (·.carry (.behind front))).foldl (fun stop o => max stop o.valueSpan.stop)
          (bytes front + stop) =
        bytes front + options.foldl (fun stop o => max stop o.valueSpan.stop) stop := by
    intro options
    induction options with
    | nil => intro stop; rfl
    | cons o options ih =>
      intro stop
      rw [List.map_cons, List.foldl_cons, List.foldl_cons, ← ih]
      congr 1
      show max (bytes front + stop) (bytes front + o.valueSpan.stop) = _
      exact Nat.add_max_add_left ..
  have hink : ∀ stop, (firstInk? (front ++ line) (bytes front + stop) (bytes front + cursor)).getD
      (bytes front + cursor) = bytes front + (firstInk? line stop cursor).getD cursor := by
    intro stop
    rw [firstInk?_behind]
    cases firstInk? line stop cursor <;> rfl
  have hlast : (c.carry (.behind front)).nodes.getLast? =
      c.nodes.getLast?.map (·.carry (.behind front)) := List.getLast?_map ..
  unfold tailTarget
  rw [hlast]
  cases c.nodes.getLast? with
  | none => exact congrArg (CursorTarget.branch c.root c.startConsole) (hink _)
  | some entered =>
    refine congrArg (CursorTarget.branch entered.node entered.console) ?_
    rw [← hink, ← hstop]
    rfl

theorem nodeTarget_behind (nodes : List MatchedNode) (cursor start : Nat) (parent : NodeId)
    (policy : ConsolePolicy) :
    nodeTarget (bytes front + cursor) (bytes front + start) parent policy
        (nodes.map (·.carry (.behind front))) =
      (nodeTarget cursor start parent policy nodes).behind front := by
  induction nodes generalizing parent policy with
  | nil => rfl
  | cons entered nodes ih =>
    rw [List.map_cons, nodeTarget, nodeTarget]
    show (if (entered.span.carry (.behind front)).touches _ then _ else _) = _
    rw [Span.touches_behind]
    split
    · rfl
    · exact ih _ _

theorem target?_behind (c : Context L) (cursor : Nat) :
    (c.carry (.behind front)).target? (bytes front + cursor) =
      (c.target? cursor).map (.behind front) := by
  have hstart : (c.carry (.behind front)).span.start = bytes front + c.span.start := rfl
  have hstop : (c.carry (.behind front)).span.stop = bytes front + c.span.stop := rfl
  unfold target?
  simp only [optionTarget?_behind, hstart, hstop, Nat.add_lt_add_iff_left]
  split
  · rfl
  · cases c.optionTarget? cursor with
    | some found => rfl
    | none =>
      dsimp only [Option.map_none]
      split
      · rfl
      · exact congrArg some (nodeTarget_behind ..)

theorem target_behind (c : Context L) (line : String) (cursor : Nat) (more : List (Context L)) :
    (c.carry (.behind front)).target (front ++ line) (bytes front + cursor)
        (more.map (·.carry (.behind front))) =
      (c.target line cursor more).behind front := by
  induction more generalizing c with
  | nil =>
    rw [List.map_nil, target, target, target?_behind, tailTarget_behind]
    cases c.target? cursor <;> rfl
  | cons next more ih =>
    rw [List.map_cons, target, target, target?_behind, ih]
    cases c.target? cursor <;> rfl

end Context

namespace Chain

theorem target_behind (c : Chain L) (line : String) (cursor : Nat) :
    (c.carry (.behind front)).target (front ++ line) (bytes front + cursor) =
      (c.target line cursor).behind front :=
  c.outer.target_behind line cursor c.redirected

theorem last_carry (c : Chain L) (T : Transport) : (c.carry T).last = c.last.carry T := by
  unfold last
  show ((c.redirected.map (·.carry T)).getLast?).getD (c.outer.carry T) = _
  rw [List.getLast?_map]
  cases c.redirected.getLast? <;> rfl

end Chain

/-! ### Drafts behind blanks -/

theorem lowercaseFrom_blanks (before : List Char) {cs : List Char}
    (h : ∀ c ∈ cs, isBlank c = true) (behind : List Char) :
    lowercaseFrom before (cs ++ behind) = cs ++ lowercaseFrom (cs.reverse ++ before) behind := by
  induction cs generalizing before with
  | nil => rfl
  | cons c cs ih =>
    obtain ⟨hc, hcs⟩ := List.forall_mem_cons.1 h
    have hsigma : c ≠ 'Σ' := Scan.ne_of_isBlank hc (by decide)
    have hself : lowercaseChar c = [c] :=
      of_isBlank (p := fun c => lowercaseChar c = [c]) (by decide +kernel) hc
    rw [List.cons_append, lowercaseFrom_cons, lowercaseAt_of_ne hsigma, hself, ih _ hcs]
    simp

theorem meetsCased_blanks {cs : List Char} (h : ∀ c ∈ cs, isBlank c = true) :
    meetsCased cs = false := by
  cases cs with
  | nil => rfl
  | cons c cs =>
    have hc : isBlank c = true := h c (List.mem_cons_self ..)
    rw [meetsCased_cons, if_neg (by rw [not_isCaseIgnorable_of_isBlank hc]; simp)]
    exact of_isBlank (p := (isCased · = false)) (by decide +kernel) hc

section Blanks

variable {blanks : String} (hblanks : ∀ c ∈ blanks.toList, isBlank c = true)

include hblanks

theorem lowercase_behind_blanks (line : String) :
    lowercase (blanks ++ line) = blanks ++ lowercase line := by
  -- no letter in front of the line makes a sigma the end of a word
  have hcased : meetsCased (blanks.toList.reverse ++ []) = meetsCased [] :=
    meetsCased_blanks fun c hc => hblanks c (by simpa using hc)
  rw [lowercase, lowercase, String.toList_append, lowercaseFrom_blanks [] hblanks,
    lowercaseFrom_congr hcased, String.ofList_append, String.ofList_toList]

theorem Draft.new_behind_blanks (line : String) (start : Nat) :
    (new line start).Moves (new (blanks ++ line) (bytes blanks + start)) where
  remaining := by
    show (back? (bytes blanks + start) (blanks ++ line)).getD "" = (back? start line).getD ""
    rw [back?_behind]
  lowercase := by
    show (back? (bytes blanks + start) (Text.lowercase (blanks ++ line))).getD "" =
      (back? start (Text.lowercase line)).getD ""
    rw [lowercase_behind_blanks hblanks, back?_behind]
  spans _ hs := nomatch hs
  found := rfl

omit hblanks

namespace CommandTree

variable {t : CommandTree L} (source : L.Source)

theorem pendingOption?_behind (parent : NodeId) (policy : ConsolePolicy) (front line : String)
    (start : Nat) :
    t.pendingOption? source parent policy (front ++ line) (bytes front + start) =
      (t.pendingOption? source parent policy line start).map (PendingOption.behind front) := by
  rw [pendingOption?_eq, pendingOption?_eq, back?_behind]
  cases hback : back? start line with
  | none => rfl
  | some typed =>
    have hfits : byteLength (trimFront (typed.toList.drop (token typed.toList).length)) ≤
        bytes line := by
      obtain ⟨kept, hkept⟩ := trimFront_suffix_of_back? hback (token typed.toList).length
      rw [bytes, ← hkept, byteLength_append]
      exact Nat.le_add_left ..
    rw [Option.bind_some, Option.bind_some, bytes_append, Nat.add_sub_assoc hfits]
    split
    · rfl
    · cases (namedOption? (t.node parent) (token typed.toList)).filter fun id =>
        (t.node id).canUse source policy with
      | none => rfl
      | some option =>
        rw [Option.bind_some, Option.bind_some]
        split <;> rfl

theorem optionNames_moves (parent : NodeId) (policy : ConsolePolicy) (given : List MatchedOption)
    (T : Transport) {d d' : Draft} (h : d.Moves d') :
    ∃ names names', (t.optionNames source parent policy given d).build? = some names ∧
      (t.optionNames source parent policy (given.map (·.carry T)) d').build? = some names' ∧
      Suggestions.Moves d.span d'.span names names' := by
  have hgiven : ∀ name, (given.map (·.carry T)).any (·.name == name) =
      given.any (·.name == name) := by
    intro name
    rw [List.any_map]
    rfl
  rw [optionNames_eq, optionNames_eq, h.remaining]
  split
  · simp only [hgiven]
    obtain ⟨hmoves, hspan, hspan'⟩ := h.suggestMatching _
    rw [← hspan, ← hspan']
    exact hmoves.build?
  · exact h.build?

include hblanks

theorem completeTarget?_behind_blanks (hL : L.SuggestsAnywhere) (around : L.Surroundings)
    (raw raw' : String → Option String) (given : List MatchedOption) (T : Transport)
    (line : String) (found : CursorTarget) :
    ∃ g g', t.completeTarget? around raw source given line found = some g ∧
      t.completeTarget? around raw' source (given.map (·.carry T)) (blanks ++ line)
        (found.behind blanks) = some g' ∧
      g'.list.map (·.text) = g.list.map (·.text) := by
  have hdraft := Draft.new_behind_blanks hblanks line
  cases found with
  | optionValue option start =>
    obtain ⟨g, g', hg, hg', hmoves⟩ :=
      (t.node option).kind.suggest?_moves hL around raw raw' (hdraft start)
    exact ⟨g, g', hg, hg', hmoves.texts⟩
  | branch parent policy start =>
    have hbehind := pendingOption?_behind (t := t) source parent policy blanks line start
    cases hpending : t.pendingOption? source parent policy line start with
    | none =>
      rw [hpending, Option.map_none] at hbehind
      obtain ⟨names, names', hnames, hnames', hmoves⟩ :=
        optionNames_moves (t := t) source parent policy given T (hdraft start)
      exact completeBranch?_moves hL around raw raw' given _ (hdraft start) hnames hnames' hmoves
        hpending hbehind
    | some pending =>
      rw [hpending, Option.map_some] at hbehind
      obtain ⟨g, g', hg, hg', hmoves⟩ :=
        (t.node pending.option).kind.suggest?_moves hL around raw raw' (hdraft pending.valueStart)
      refine ⟨g, g', ?_, ?_, hmoves.texts⟩
      · simpa only [completeTarget?, hpending] using hg
      · simpa only [CursorTarget.behind, completeTarget?, hbehind, PendingOption.behind] using hg'

/-! ### Trees behind blanks -/

theorem parse_behind_blanks (hL : L.LooksAhead) (line : String) :
    t.parse (blanks ++ line) source = (t.parse line source).carry (.behind blanks) := by
  rw [parse, t.parseFrom_of_skipBlank (skipBlank_front hblanks line) source]
  exact congrArg (Parsed.mk source)
    ((outcomes_behind hL t source blanks line).eq_carry (Alignment.carriedBy_behind hL blanks))

/-- A line is completed with the same texts behind blanks, in every tree whose types of arguments
look at nothing but what is typed. -/
theorem Filed.complete?_behind_blanks {layer : NodeId → Nat} (hf : Filed t layer)
    (hL : L.ReadsForward) (hA : L.LooksAhead) (hS : L.SuggestsAnywhere)
    (around : L.Surroundings) (line : String) :
    ∃ g g', t.complete? around (t.parse line source) = some g ∧
      t.complete? around (t.parse (blanks ++ line) source) = some g' ∧
      g'.list.map (·.text) = g.list.map (·.text) := by
  rw [hf.complete?_parse hL, hf.complete?_parse hL, parse_behind_blanks hblanks source hA]
  show ∃ g g', _ ∧ t.completeTarget? around _ source
    (((t.parse line source).chain.carry (.behind blanks)).last.options) (blanks ++ line)
    (((t.parse line source).chain.carry (.behind blanks)).target (blanks ++ line)
      (bytes (blanks ++ line))) = some g' ∧ _
  rw [bytes_append, Chain.target_behind, Chain.last_carry]
  exact completeTarget?_behind_blanks hblanks source hS around _ _ _ _ line _

end CommandTree

end Blanks

/-! ### Aliases behind blanks -/

theorem Text.head?_trimBoth {c : Char} {cs : List Char} (h : c ∈ (trimBoth cs).head?) :
    isBlank c = false := by
  have hfront : trimBoth cs <+: trimFront cs := by
    rw [trimBoth, trimBack, ← List.reverse_suffix, List.reverse_reverse]
    exact List.dropWhile_suffix _
  obtain ⟨rest, hrest⟩ := hfront
  have hhead : (cs.dropWhile isBlank).head? = some c := by
    rw [← trimFront, ← hrest, List.head?_append, h, Option.some_or]
  have hnot := List.head?_dropWhile_not isBlank cs
  rwa [hhead] at hnot

namespace Alias

/-- Whether an alias has a name, which is not the first word of a line. -/
def Misses (a : Alias) (line : String) : Prop := a.name ≠ "" ∧ a.restOf? line.toList = none

instance (a : Alias) (line : String) : Decidable (a.Misses line) :=
  inferInstanceAs (Decidable (_ ∧ _))

theorem restOf?_trim_blank {name replacement : String} (hname : Text.trim name ≠ "") {c : Char}
    (hc : isBlank c = true) (cs : List Char) :
    restOf? ⟨Text.trim name, replacement⟩ (c :: cs) = none := by
  obtain ⟨d, ds, hd⟩ := List.exists_cons_of_ne_nil (l := trimBoth name.toList)
    fun hnil => hname (by rw [Text.trim, hnil])
  have hfirst : d ∈ (trimBoth name.toList).head? := by
    rw [hd]
    rfl
  have hne : d ≠ c := by
    rintro rfl
    rw [head?_trimBoth hfirst] at hc
    cases hc
  simp [restOf?, Text.trim, hd, strip?, hne]

end Alias

theorem expandAliases_of_misses {aliases : List Alias} {line : String}
    (h : ∀ a ∈ aliases, a.restOf? line.toList = none) : expandAliases aliases line = line := by
  have hnone : aliases.findSome? (fun a => (a.restOf? line.toList).map a.fill) = none :=
    List.findSome?_eq_none_iff.2 fun a ha => by rw [h a ha]; rfl
  rw [expandAliases, hnone]

/-- Whether two lines are expanded to the same, up to blanks in front. -/
def Dispatcher.ExpandsAlike (d : Dispatcher L) (line line' : String) : Prop :=
  trimFront (d.expand line).toList = trimFront (d.expand line').toList

theorem expandsAlike_consoleDispatcher {aliases : Keyed String String} {blanks line : String}
    (hblanks : ∀ c ∈ blanks.toList, isBlank c = true)
    (hmisses : ∀ a ∈ (consoleDispatcher aliases).aliases, a.Misses line) :
    (consoleDispatcher aliases).ExpandsAlike line (blanks ++ line) := by
  have hbehind : (consoleDispatcher aliases).expand (blanks ++ line) = blanks ++ line := by
    refine expandAliases_of_misses fun a ha => ?_
    have hmiss := hmisses a ha
    obtain ⟨⟨name, replacement⟩, -, rfl⟩ := List.mem_map.1 ha
    rw [String.toList_append]
    cases hcs : blanks.toList with
    | nil => exact hmiss.2
    | cons c cs => exact Alias.restOf?_trim_blank hmiss.1 (hblanks c (by simp [hcs])) _
  rw [Dispatcher.ExpandsAlike, hbehind, Dispatcher.expand,
    expandAliases_of_misses fun a ha => (hmisses a ha).2, String.toList_append, trimFront,
    trimFront, List.dropWhile_append_of_pos hblanks]

/-! ### The console -/

theorem console_suggestsAnywhere : console.SuggestsAnywhere := by
  intro type around raw raw' d d' h
  cases type with
  | builtin b => exact b.suggest?_moves h
  | player =>
    obtain ⟨hmoves, hspan, hspan'⟩ := h.suggestMatching around.online
    rw [← hspan, ← hspan']
    exact hmoves.build?

/-- Lines that are the same behind their blanks are completed alike. -/
theorem CommandTree.complete?_of_trimFront (actor : Actor) (state : ServerState)
    {line line' : String} (h : trimFront line.toList = trimFront line'.toList) :
    ∃ g g', commandTree.complete? state (commandTree.parse line actor) = some g ∧
      commandTree.complete? state (commandTree.parse line' actor) = some g' ∧
      g'.list.map (·.text) = g.list.map (·.text) := by
  obtain ⟨layer, hg⟩ := reachable_commandTree.grown
  let ink := String.ofList (trimFront line.toList)
  have hsplit : ∀ s : String, trimFront s.toList = trimFront line.toList →
      ∃ g g', commandTree.complete? state (commandTree.parse ink actor) = some g ∧
        commandTree.complete? state (commandTree.parse s actor) = some g' ∧
        g'.list.map (·.text) = g.list.map (·.text) := by
    intro s hs
    have hblanks : ∀ c ∈ (String.ofList (s.toList.takeWhile isBlank)).toList,
        isBlank c = true := by
      rw [String.toList_ofList]
      exact fun c hc => List.mem_takeWhile_imp hc
    have hline : String.ofList (s.toList.takeWhile isBlank) ++ ink = s := by
      rw [← String.ofList_append, ← hs, trimFront, List.takeWhile_append_dropWhile,
        String.ofList_toList]
    have hcomplete := hg.filed.complete?_behind_blanks hblanks actor console_readsForward
      console_looksAhead console_suggestsAnywhere state ink
    rwa [hline] at hcomplete
  obtain ⟨g₀, g, hg₀, hg, htexts⟩ := hsplit line rfl
  obtain ⟨g₁, g', hg₁, hg', htexts'⟩ := hsplit line' h.symm
  obtain rfl : g₀ = g₁ := Option.some.inj (hg₀.symm.trans hg₁)
  exact ⟨g, g', hg, hg', htexts'.trans htexts.symm⟩

/-- A line is completed with the same texts behind any blanks, as long as it is expanded to the same
up to blanks in front. It is if no alias is its first word. -/
theorem completeConsoleLine?_behind_blanks (aliases : Keyed String String) (actor : Actor)
    (state : ServerState) {blanks : String} (hblanks : ∀ c ∈ blanks.toList, isBlank c = true)
    (line : String) :
    let d := consoleDispatcher aliases
    (∃ g g', completeConsoleLine? d actor line state = some g ∧
      completeConsoleLine? d actor (blanks ++ line) state = some g' ∧
      (d.ExpandsAlike line (blanks ++ line) →
        g'.list.map (·.text) = g.list.map (·.text))) ∧
    ((∀ a ∈ d.aliases, a.Misses line) → d.ExpandsAlike line (blanks ++ line)) := by
  intro d
  have hcomplete : ∀ line, completeConsoleLine? d actor line state =
      commandTree.complete? state (commandTree.parse (d.expand line) actor) := by
    intro line
    rw [completeConsoleLine?, tree_consoleDispatcher]
  rw [hcomplete, hcomplete]
  refine ⟨?_, expandsAlike_consoleDispatcher hblanks⟩
  have hsome : ∀ line, ∃ g,
      commandTree.complete? state (commandTree.parse (d.expand line) actor) = some g := by
    intro line
    obtain ⟨g, -, hg, -, -⟩ := CommandTree.complete?_of_trimFront actor state
      (Eq.refl (trimFront (d.expand line).toList))
    exact ⟨g, hg⟩
  obtain ⟨g, hg⟩ := hsome line
  obtain ⟨g', hg'⟩ := hsome (blanks ++ line)
  refine ⟨g, g', hg, hg', fun halike => ?_⟩
  obtain ⟨h, h', hh, hh', htexts⟩ := CommandTree.complete?_of_trimFront actor state halike
  obtain rfl : h = g := Option.some.inj (hh.symm.trans hg)
  obtain rfl : h' = g' := Option.some.inj (hh'.symm.trans hg')
  exact htexts

/-- A server with one player. -/
def hosting : ServerState := .start ⟨[("Steve", [])]⟩

/-- The dispatcher with a shorthand for a game mode. -/
def shorthand : Dispatcher console :=
  consoleDispatcher ⟨[("gmc", "gamemode creative \x7b\x7d")]⟩

theorem completeConsoleLine?_behind_blanks_kick :
    (∀ c ∈ " \t".toList, isBlank c = true) ∧
      (∀ a ∈ shorthand.aliases, a.Misses "kick S") ∧
      ∃ g g', completeConsoleLine? shorthand (.console "Server") "kick S" hosting = some g ∧
        completeConsoleLine? shorthand (.console "Server") (" \t" ++ "kick S") hosting = some g' ∧
        g'.list.map (·.text) = g.list.map (·.text) := by
  have hblank : ∀ c ∈ " \t".toList, isBlank c = true := List.all_eq_true.1 (by decide)
  have hmisses : ∀ a ∈ shorthand.aliases, a.Misses "kick S" := by decide +kernel
  obtain ⟨⟨g, g', hg, hg', htexts⟩, halike⟩ := completeConsoleLine?_behind_blanks
    ⟨[("gmc", "gamemode creative \x7b\x7d")]⟩ (.console "Server") hosting hblank "kick S"
  exact ⟨hblank, hmisses, g, g', hg, hg', htexts (halike hmisses)⟩

/-- An alias is found in front of what is completed, but not behind a blank. -/
theorem completeConsoleLine?_misses_alias_behind_blank :
    ¬∀ (aliases : Keyed String String) (actor : Actor) (state : ServerState)
      (blanks line : String), (∀ c ∈ blanks.toList, isBlank c = true) →
      (∃ c ∈ line.toList, isBlank c = false) →
      (completeConsoleLine? (consoleDispatcher aliases) actor (blanks ++ line) state).map
          (·.list.map (·.text)) =
        (completeConsoleLine? (consoleDispatcher aliases) actor line state).map
          (·.list.map (·.text)) := by
  intro h
  have hbehind := h ⟨[("gmc", "gamemode creative \x7b\x7d")]⟩ (.console "Server") hosting " "
    "gmc " (List.all_eq_true.1 (by decide)) ⟨'g', by decide, by decide⟩
  revert hbehind
  decide +kernel

end CommandConsole
