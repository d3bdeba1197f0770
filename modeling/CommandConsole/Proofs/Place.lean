import CommandConsole.Matching.Place
import CommandConsole.Proofs.Tiling

/-!
# What stands at the cursor

The search for the cursor is followed through contexts whose pieces lie in front of it, at it or
behind it: contexts that end in front of it are passed over, a piece at it is found, and where no
piece is at it the first ink behind the last piece is.
-/

namespace CommandConsole

open Text

variable {L : Language}

/-! ### Cutting at a character -/

theorem splitAt?_append (a b : List Char) : splitAt? (byteLength a) (a ++ b) = some (a, b) := by
  induction a with
  | nil => simp [byteLength, splitAt?]
  | cons c a ih =>
    have hpos := c.utf8Size_pos
    obtain ⟨k, hk⟩ : ∃ k, byteLength (c :: a) = k + 1 :=
      ⟨byteLength (c :: a) - 1, by simp only [byteLength]; omega⟩
    have hsub : k + 1 - c.utf8Size = byteLength a := by
      simp only [byteLength] at hk
      omega
    rw [hk, List.cons_append, splitAt?, if_pos (by simp only [byteLength] at hk; omega), hsub, ih]
    rfl

theorem slice?_append (a b d : List Char) :
    slice? (byteLength a) (byteLength (a ++ b)) (a ++ b ++ d) = some b := by
  unfold slice?
  rw [if_pos (by simp), splitAt?_append]
  show (splitAt? (byteLength a) (a ++ b)).bind _ = _
  rw [splitAt?_append]
  rfl

theorem append_of_byteLength_le {a b c d : List Char} (h : a ++ b = c ++ d)
    (hle : byteLength a ≤ byteLength c) : ∃ m, c = a ++ m ∧ b = m ++ d := by
  rcases List.append_eq_append_iff.1 h with ⟨m, hc, hb⟩ | ⟨m, ha, hd⟩
  · exact ⟨m, hc, hb⟩
  · have hm : m = [] := by
      refine Decidable.byContradiction fun hne => ?_
      have hpos := Reader.byteLength_pos hne
      rw [ha, byteLength_append] at hle
      omega
    refine ⟨[], ?_, ?_⟩
    · rw [ha, hm]
      simp
    · rw [hd, hm]
      rfl

theorem firstInk?_append {line : String} {front blanks typed back : List Char}
    (hline : line.toList = front ++ (blanks ++ typed) ++ back)
    (hblank : ∀ d ∈ blanks, isBlank d = true)
    (htyped : ∀ d ∈ typed.head?, isBlank d = false) :
    firstInk? line (byteLength front) (byteLength (front ++ (blanks ++ typed))) =
      if typed = [] then none else some (byteLength (front ++ blanks)) := by
  unfold firstInk?
  rw [hline, slice?_append]
  have htake : (blanks ++ typed).takeWhile isBlank = blanks := by
    rw [List.takeWhile_append_of_pos hblank]
    cases typed with
    | nil => simp
    | cons d typed => simp [htyped d (by simp)]
  simp only [Option.bind_some, htake]
  by_cases h : typed = []
  · simp [h]
  · have hlen : blanks.length < (blanks ++ typed).length := by
      have hpos := List.length_pos_iff.2 h
      rw [List.length_append]
      omega
    rw [if_pos hlen, if_neg h, byteLength_append]

/-! ### Contexts in front of the cursor -/

theorem Span.not_touches_of_lt {s : Span} {x : Nat} (h : s.stop < x) : s.touches x = false := by
  simp [touches, h]

theorem Span.not_touches_of_gt {s : Span} {x : Nat} (h : x < s.start) : s.touches x = false := by
  simp only [touches, Bool.and_eq_false_iff, decide_eq_false_iff_not]
  exact Or.inl (Nat.not_le.2 h)

theorem Span.touches_of_le {s : Span} {x : Nat} (h : s.start ≤ x) (h' : x ≤ s.stop) :
    s.touches x = true := by
  simp [touches, h, h']

namespace Context

/-- Whether a context starts no later than an offset, and its pieces end in front of it. -/
structure QuietAt (c : Context L) (x : Nat) : Prop where
  start : c.span.start ≤ x
  node : ∀ m ∈ c.nodes, m.span.stop < x
  option : ∀ o ∈ c.options, o.nameSpan.stop < x ∧ o.valueSpan.stop < x

theorem Before.quietAt {c : Context L} {x : Nat} (h : c.Before x) : c.QuietAt x :=
  ⟨Nat.le_of_lt h.start, h.node, h.option⟩

theorem FreshAt.quietAt {c : Context L} {x y : Nat} (h : c.FreshAt y) (hxy : y ≤ x) :
    c.QuietAt x := by
  refine ⟨?_, ?_, ?_⟩
  · rw [h.span]
    exact hxy
  · rw [h.nodes]
    simp
  · rw [h.options]
    simp

theorem findSome?_quiet {β : Type} {options : List MatchedOption} {x : Nat}
    (h : ∀ o ∈ options, o.nameSpan.touches x = false ∧ o.valueSpan.touches x = false)
    (f g : MatchedOption → β) :
    options.findSome? (fun o => if o.valueSpan.touches x then some (f o)
      else if o.nameSpan.touches x then some (g o) else none) = none := by
  rw [List.findSome?_eq_none_iff]
  intro o ho
  obtain ⟨hn, hv⟩ := h o ho
  simp [hn, hv]

theorem Before.target? {c : Context L} {x : Nat} (h : c.Before x) : c.target? x = none := by
  have hoption : c.optionTarget? x = none := findSome?_quiet (fun o ho =>
    ⟨Span.not_touches_of_lt (h.option o ho).1, Span.not_touches_of_lt (h.option o ho).2⟩) _ _
  unfold Context.target?
  rw [if_neg (Nat.not_lt.2 (Nat.le_of_lt h.start)), hoption]
  simp only
  rw [if_pos h.stop]

theorem FreshAt.target? {c : Context L} {x y : Nat} (h : c.FreshAt y) :
    c.target? x = if x ≤ y then some (.branch c.root c.startConsole x) else none := by
  have hoption : c.optionTarget? x = none := by
    rw [optionTarget?, h.options]
    rfl
  unfold Context.target?
  rw [hoption, h.nodes, h.span]
  show (if x < y then _ else if y < x then _ else some (CursorTarget.branch _ _ y)) = _
  rcases Nat.lt_trichotomy x y with hlt | rfl | hlt
  · rw [if_pos hlt, if_pos (Nat.le_of_lt hlt)]
  · rw [if_neg (Nat.lt_irrefl x), if_neg (Nat.lt_irrefl x), if_pos (Nat.le_refl x)]
  · rw [if_neg (Nat.lt_asymm hlt), if_pos hlt, if_neg (Nat.not_le.2 hlt)]

theorem target_append (line : String) {x : Nat} {closed : List (Context L)}
    (hclosed : ∀ d ∈ closed, d.Before x) (c : Context L) (more : List (Context L))
    (ch : Chain L) (h : ch.toList = closed ++ c :: more) :
    ch.target line x = c.target line x more := by
  induction closed generalizing ch with
  | nil =>
    obtain ⟨outer, redirected⟩ := ch
    obtain ⟨rfl, rfl⟩ := List.cons.inj h
    rfl
  | cons d closed ih =>
    obtain ⟨outer, redirected⟩ := ch
    obtain ⟨rfl, rfl⟩ := List.cons.inj h
    have hnone := (hclosed outer (by simp)).target?
    have hnext : ∃ next rest, closed ++ c :: more = next :: rest := by
      cases closed with
      | nil => exact ⟨_, _, rfl⟩
      | cons e closed => exact ⟨_, _, rfl⟩
    obtain ⟨next, rest, hnext⟩ := hnext
    have htail := ih (fun d hd => hclosed d (by simp [hd])) ⟨next, rest⟩ hnext.symm
    rw [← htail]
    show Context.target line x outer (closed ++ c :: more) = _
    rw [hnext, Context.target, hnone]
    rfl

/-! ### Pieces at the cursor -/

def policyHere (c : Context L) : ConsolePolicy :=
  (c.nodes.getLast?.map (·.console)).getD c.startConsole

theorem nodeTarget_append {x start : Nat} {ms : List MatchedNode}
    (h : ∀ m ∈ ms, m.span.stop < x) (rest : List MatchedNode) (parent : NodeId)
    (policy : ConsolePolicy) :
    nodeTarget x start parent policy (ms ++ rest) =
      nodeTarget x start ((ms.getLast?.map (·.node)).getD parent)
        ((ms.getLast?.map (·.console)).getD policy) rest := by
  induction ms generalizing parent policy with
  | nil => rfl
  | cons m ms ih =>
    rw [List.cons_append, nodeTarget, Span.not_touches_of_lt (h m (by simp)),
      if_neg (by simp), ih fun m' hm' => h m' (by simp [hm'])]
    cases ms with
    | nil => rfl
    | cons m' ms =>
      obtain ⟨last, hlast⟩ : ∃ last, (m' :: ms).getLast? = some last :=
        ⟨_, List.getLast?_eq_some_getLast (List.cons_ne_nil _ _)⟩
      simp only [List.getLast?_cons_cons, hlast, Option.map_some, Option.getD_some]

theorem optionTarget?_append {c : Context L} {x : Nat} {front back : List MatchedOption}
    (hc : c.options = front ++ back)
    (hfront : ∀ o ∈ front, o.nameSpan.stop < x ∧ o.valueSpan.stop < x) :
    c.optionTarget? x = back.findSome? fun o =>
      if o.valueSpan.touches x then some (.optionValue o.option o.valueSpan.start)
      else if o.nameSpan.touches x then
        some (.branch o.owner (c.policyAt o.owner) o.nameSpan.start)
      else none := by
  unfold optionTarget?
  rw [hc, List.findSome?_append, findSome?_quiet fun o ho =>
    ⟨Span.not_touches_of_lt (hfront o ho).1, Span.not_touches_of_lt (hfront o ho).2⟩]
  rfl

theorem target?_node {c c' : Context L} {child : NodeId} {n : Node L} {policy : ConsolePolicy}
    {start stop x y : Nat} (hquiet : c.QuietAt x) (hstart : start ≤ x) (hstop : x ≤ stop)
    (hgrows : (c.enter child n ⟨start, stop⟩ policy).GrowsTo c' y) (hy : stop < y) :
    c'.target? x = some (.branch (c.standsAt c.nodes) c.policyHere start) := by
  obtain ⟨ms, hnodes, -⟩ := hgrows.nodes
  obtain ⟨os, hoptions, hos⟩ := hgrows.options
  have hspan : c'.span.start ≤ x := by
    rw [hgrows.start]
    exact Nat.le_trans (Nat.min_le_left _ _) hquiet.start
  have hend : x ≤ c'.span.stop :=
    Nat.le_trans hstop (Nat.le_trans (Nat.le_max_right _ _) hgrows.stop)
  have hoption : c'.optionTarget? x = none := by
    rw [optionTarget?_append hoptions hquiet.option]
    exact findSome?_quiet (fun o ho => ⟨Span.not_touches_of_gt
      (Nat.lt_of_le_of_lt hstop (Nat.lt_of_lt_of_le hy (hos o ho).1)),
      Span.not_touches_of_gt (Nat.lt_of_le_of_lt hstop (Nat.lt_of_lt_of_le hy (hos o ho).2))⟩) _ _
  have hmine : c'.nodes = c.nodes ++ ⟨child, ⟨start, stop⟩, policy⟩ :: ms := by
    rw [hnodes]
    simp [enter]
  unfold target?
  rw [if_neg (Nat.not_lt.2 hspan), hoption]
  simp only
  rw [if_neg (Nat.not_lt.2 hend), hmine, nodeTarget_append hquiet.node, nodeTarget,
    Span.touches_of_le hstart hstop, hgrows.root, hgrows.startConsole]
  rfl

theorem policyAt_standsAt {c : Context L} {before after : List MatchedNode}
    (hnodes : c.nodes = before ++ after) (honce : c.places.Nodup) :
    c.policyAt (c.standsAt before) = (before.getLast?.map (·.console)).getD c.startConsole := by
  obtain ⟨hroot, hdistinct⟩ := List.nodup_cons.1 honce
  unfold policyAt standsAt
  rcases List.eq_nil_or_concat before with rfl | ⟨before, m, rfl⟩
  · have hnone : c.nodes.reverse.find? (·.node == c.root) = none := by
      rw [List.find?_eq_none]
      intro m hm heq
      refine hroot (List.mem_map.2 ⟨m, List.mem_reverse.1 hm, eq_of_beq heq⟩)
    simp only [List.getLast?_nil, Option.map_none, Option.getD_none]
    rw [hnone]
  · have hsome : c.nodes.reverse.find? (·.node == m.node) = some m := by
      rw [hnodes, List.map_append] at hdistinct
      have hafter : after.reverse.find? (·.node == m.node) = none := by
        rw [List.find?_eq_none]
        intro m' hm' heq
        refine (List.nodup_append.1 hdistinct).2.2 m.node ?_ m'.node ?_ (eq_of_beq heq).symm
        · simp
        · exact List.mem_map_of_mem (List.mem_reverse.1 hm')
      rw [hnodes, List.reverse_append, List.find?_append, hafter]
      simp
    simp only [List.concat_eq_append, List.getLast?_append, List.getLast?_singleton,
      Option.some_or, Option.map_some, Option.getD_some]
    rw [hsome]

theorem target?_option {c c' : Context L} {o : MatchedOption} {value : Value}
    {x y : Nat} (hquiet : c.QuietAt x) (hstart : o.nameSpan.start ≤ x)
    (howner : o.owner = c.standsAt c.nodes) (honce : c'.places.Nodup)
    (hgrows : (c.takeOption o value).GrowsTo c' y) (hname : o.nameSpan.stop < o.valueSpan.start) :
    (o.valueSpan.touches x = true →
      c'.target? x = some (.optionValue o.option o.valueSpan.start)) ∧
    (x ≤ o.nameSpan.stop →
      c'.target? x = some (.branch (c.standsAt c.nodes) c.policyHere o.nameSpan.start)) := by
  obtain ⟨ms, hms, -⟩ := hgrows.nodes
  obtain ⟨os, hoptions, -⟩ := hgrows.options
  have hnodes : c'.nodes = c.nodes ++ ms := hms
  have hspan : ¬x < c'.span.start := by
    rw [hgrows.start]
    exact Nat.not_lt.2 (Nat.le_trans (Nat.min_le_left _ _) hquiet.start)
  have hmine : c'.options = c.options ++ o :: os := by
    rw [hoptions]
    simp [takeOption]
  constructor
  · intro hvalue
    unfold target?
    rw [if_neg hspan, optionTarget?_append hmine hquiet.option, List.findSome?_cons, if_pos hvalue]
  · intro hle
    have hvalue : o.valueSpan.touches x = false :=
      Span.not_touches_of_gt (Nat.lt_of_le_of_lt hle hname)
    have hpolicy : c'.policyAt o.owner = c.policyHere := by
      have hplace : c'.standsAt c.nodes = o.owner := by
        rw [howner]
        unfold standsAt
        rw [hgrows.root]
        rfl
      rw [← hplace, policyAt_standsAt hnodes honce, hgrows.startConsole]
      rfl
    unfold target?
    rw [if_neg hspan, optionTarget?_append hmine hquiet.option, List.findSome?_cons,
      if_neg (by simp [hvalue]), if_pos (Span.touches_of_le hstart hle), hpolicy, howner]

/-! ### No piece at the cursor -/

theorem tailTarget_eq (c : Context L) (line : String) (x : Nat) :
    c.tailTarget line x =
      .branch (c.standsAt c.nodes) c.policyHere ((firstInk? line c.tailStop x).getD x) := by
  unfold tailTarget standsAt policyHere tailStop
  cases c.nodes.getLast? <;> rfl

/-- Whether an offset lies in a piece of a context or at one of its ends. -/
def Touched (c : Context L) (x : Nat) : Prop :=
  (∃ m ∈ c.nodes, m.span.touches x = true) ∨
    ∃ o ∈ c.options, o.nameSpan.touches x = true ∨ o.valueSpan.touches x = true

instance (c : Context L) (x : Nat) : Decidable (c.Touched x) :=
  inferInstanceAs (Decidable (_ ∨ _))

theorem QuietAt.not_touched {c : Context L} {x : Nat} (h : c.QuietAt x) : ¬c.Touched x := by
  rintro (⟨m, hm, ht⟩ | ⟨o, ho, ht | ht⟩)
  · rw [Span.not_touches_of_lt (h.node m hm)] at ht
    cases ht
  · rw [Span.not_touches_of_lt (h.option o ho).1] at ht
    cases ht
  · rw [Span.not_touches_of_lt (h.option o ho).2] at ht
    cases ht

theorem GrowsTo.not_touched {c c' : Context L} {x y : Nat} (hgrows : c.GrowsTo c' y)
    (hy : x < y) (h : ¬c.Touched x) : ¬c'.Touched x := by
  obtain ⟨ms, hms, hmore⟩ := hgrows.nodes
  obtain ⟨os, hos, hoptions⟩ := hgrows.options
  rintro (⟨m, hm, ht⟩ | ⟨o, ho, ht⟩)
  · rw [hms] at hm
    rcases List.mem_append.1 hm with hm | hm
    · exact h (Or.inl ⟨m, hm, ht⟩)
    · rw [Span.not_touches_of_gt (Nat.lt_of_lt_of_le hy (hmore m hm))] at ht
      cases ht
  · rw [hos] at ho
    rcases List.mem_append.1 ho with ho | ho
    · exact h (Or.inr ⟨o, ho, ht⟩)
    · rw [Span.not_touches_of_gt (Nat.lt_of_lt_of_le hy (hoptions o ho).1),
        Span.not_touches_of_gt (Nat.lt_of_lt_of_le hy (hoptions o ho).2)] at ht
      rcases ht with ht | ht <;> cases ht

theorem not_touched_takeOption {c : Context L} {o : MatchedOption} {x : Nat} (h : ¬c.Touched x)
    (hname : o.nameSpan.stop < x) (hvalue : x < o.valueSpan.start) (value : Value) :
    ¬(c.takeOption o value).Touched x := by
  rintro (⟨m, hm, ht⟩ | ⟨o', ho', ht⟩)
  · exact h (Or.inl ⟨m, hm, ht⟩)
  · rcases List.mem_append.1 ho' with ho' | ho'
    · exact h (Or.inr ⟨o', ho', ht⟩)
    · rw [List.mem_singleton.1 ho', Span.not_touches_of_lt hname,
        Span.not_touches_of_gt hvalue] at ht
      rcases ht with ht | ht <;> cases ht

end Context

/-- Whether the search for an offset finds what is typed there: an offset strictly inside of a
context lies at a piece of it, and behind the last context no option stands without a node. -/
structure Chain.OpenAt (ch : Chain L) (x : Nat) : Prop where
  covers : ∀ c ∈ ch.toList, c.span.start < x → x < c.span.stop → c.Touched x
  tail : ch.last.span.stop < x → ch.last.nodes = [] → ch.last.options = []

instance (ch : Chain L) (x : Nat) : Decidable (ch.OpenAt x) :=
  decidable_of_iff ((∀ c ∈ ch.toList, c.span.start < x → x < c.span.stop → c.Touched x) ∧
      (ch.last.span.stop < x → ch.last.nodes = [] → ch.last.options = []))
    ⟨fun h => ⟨h.1, h.2⟩, fun h => ⟨h.covers, h.tail⟩⟩

namespace CommandTree

variable {t : CommandTree L} {source : L.Source} {p q r : Position L} {layer : NodeId → Nat}
  {n : Nat} {c : Context L} {x y : Nat}

/-- What may be typed at an offset, in the token at a position: a child or an option of the node
there, or the value of the option that the token names. -/
inductive Typed (t : CommandTree L) (source : L.Source) (p : Position L) (x : Nat) :
    CursorTarget → Prop
  | branch : Typed t source p x (.branch p.node p.context.console p.reader.cursor)
  | value {name : String} {option : NodeId} {named start : Reader} :
      t.NamesOption p name option → t.Admits source option p.context.console →
      named = p.reader.pass (2 + name.length) → start = named.skipBlank →
      named.cursor < start.cursor → start.cursor ≤ x →
      Typed t source p x (.optionValue option start.cursor)

/-- Whether all pieces up to a position end in front of an offset. -/
def ClearOf (p : Position L) (x : Nat) : Prop :=
  (∀ d ∈ p.closed, d.Before x) ∧ (p.context.FreshAt p.reader.cursor ∨ p.context.Before x)

theorem ClearOf.quietAt (h : ClearOf p x) (hx : p.reader.cursor ≤ x) : p.context.QuietAt x := by
  rcases h.2 with hfresh | hbefore
  · exact hfresh.quietAt hx
  · exact hbefore.quietAt

theorem Settled.clearOf (h : Settled p y) (hy : y < x) : ClearOf p x := by
  refine ⟨fun d hd => (h.closed d hd).mono hy, ?_⟩
  rcases h.context with hfresh | ⟨hbefore, -⟩
  · exact Or.inl hfresh
  · exact Or.inr (hbefore.mono hy)

theorem Cleared.policy_eq {above : ConsolePolicy} {c : Context L} (h : t.Cleared source above c)
    {before after : List MatchedNode} (hnodes : c.nodes = before ++ after) :
    (before.getLast?.map (·.console)).getD c.startConsole = t.policyBehind above before := by
  rcases List.eq_nil_or_concat before with rfl | ⟨before, m, rfl⟩
  · exact h.start
  · rw [List.concat_eq_append] at hnodes ⊢
    rw [List.getLast?_concat]
    exact (h.node before m after (by rw [hnodes, List.append_assoc]; rfl)).2

theorem Guarded.policyHere_eq (h : t.Guarded source layer p) :
    p.context.policyHere = p.context.console := by
  obtain ⟨-, hlast⟩ := allCleared_snoc.1 h.cleared
  rw [h.policy_eq]
  exact hlast.policy_eq (List.append_nil _).symm

/-- The first context behind those in front of the offset decides, if anything is at the offset in
it. -/
theorem ClearOf.target_eq (h : ClearOf p x) (line : String) {c' : Context L}
    {more : List (Context L)} (hchain : r.closed ++ [r.context] = p.closed ++ c' :: more)
    {found : CursorTarget} (hfound : c'.target? x = some found) :
    r.chain.target line x = found := by
  rw [Context.target_append line h.1 c' more _ (by rw [Position.toList_chain, hchain])]
  cases more with
  | nil => simp [Context.target, hfound]
  | cons next more => simp [Context.target, hfound]

theorem Takes.target (hL : L.ReadsForward) (ht : Takes t source p n c q) (hq : Ends t source q r)
    (hp : t.Guarded source layer p) (hr : t.Guarded source layer r)
    (hspan : p.context.span.start ≤ p.reader.cursor) (hclear : ClearOf p x)
    (hstart : p.reader.cursor ≤ x) (hstop : x ≤ (p.reader.pass n).cursor)
    (hopen : r.chain.OpenAt x) (line : String) :
    Typed t source p x (r.chain.target line x) := by
  have hquiet := hclear.quietAt hstart
  have hstands := hp.descends.stands
  have hpolicy := hp.policyHere_eq
  obtain ⟨c', more, y, hchain, hgrows, hy⟩ := ht.contexts hL hq hspan
  have hmem : c' ∈ r.chain.toList := by
    rw [Position.toList_chain, hchain]
    simp
  have hstop' : (p.reader.pass n).cursor ≤ c'.span.stop :=
    Nat.le_trans ht.piece.stop_le hgrows.stop
  have hstart' : c'.span.start ≤ p.reader.cursor := by
    rw [hgrows.start, (ht.piece.growsTo hspan).start]
    exact hspan
  cases ht.piece with
  | @node child captured policy =>
    have hfound := Context.target?_node (c := { p.context with captured })
      ⟨hquiet.start, hquiet.node, hquiet.option⟩ hstart hstop hgrows hy
    have hhere : c'.target? x =
        some (.branch (p.context.standsAt p.context.nodes) p.context.policyHere p.reader.cursor) :=
      hfound
    rw [hclear.target_eq line hchain hhere, hstands, hpolicy]
    exact .branch
  | @option name option named start value m hn ha hnamed hvalue hrest hpass =>
    have hlt : named.cursor < start.cursor := by
      rw [hvalue, hnamed] at hrest ⊢
      exact hn.cursor_lt hrest
    have honce : c'.places.Nodup := (hr.cleared p.closed c' more hchain).once
    obtain ⟨hatValue, hatName⟩ := Context.target?_option hquiet hstart hstands.symm honce hgrows hlt
    rcases Nat.lt_or_ge named.cursor x with hname | hname
    · rcases Nat.lt_or_ge x start.cursor with hgap | hgap
      · -- between the name and its value the offset would be at no piece
        have hle : p.reader.cursor ≤ named.cursor := by
          rw [hnamed]
          exact Reader.cursor_le_pass _ _
        have hbehind : start.cursor ≤ (p.reader.pass n).cursor := by
          rw [hpass]
          exact Reader.cursor_le_pass _ _
        have htouched := hopen.covers c' hmem
          (Nat.lt_of_le_of_lt (Nat.le_trans hstart' hle) hname)
          (Nat.lt_of_lt_of_le hgap (Nat.le_trans hbehind hstop'))
        refine absurd htouched (hgrows.not_touched (Nat.lt_of_le_of_lt hstop hy) ?_)
        exact Context.not_touched_takeOption hquiet.not_touched hname hgap _
      · rw [hclear.target_eq line hchain (hatValue (Span.touches_of_le hgap hstop))]
        exact .value hn ha hnamed hvalue hlt hgap
    · rw [hclear.target_eq line hchain (hatName hname), hstands, hpolicy]
      exact .branch

/-! ### Ends of a line -/

theorem target_last (hclear : ∀ d ∈ p.closed, d.Before x) (line : String) :
    p.chain.target line x = (p.context.target? x).getD (p.context.tailTarget line x) := by
  rw [Context.target_append line hclear p.context [] _ (Position.toList_chain p)]
  rfl

/-- The text behind the last piece, up to an offset: blanks, and what is typed behind them. -/
theorem Settled.firstInk?_eq (h : Settled p y) (hy : y ≤ x) {front back : List Char}
    (htext : p.reader.text = front ++ back) (hx : byteLength front = x)
    (hink : p.reader.cursor < x → p.reader.AtInk) :
    (firstInk? p.reader.line y x).getD x = min p.reader.cursor x := by
  obtain ⟨before, blanks, hpassed, hblank, rfl⟩ := h.gap
  have hcursor : p.reader.cursor = byteLength (before ++ blanks) := by
    rw [← hpassed, byteLength_reverse]
    rfl
  have hsplit : before ++ (blanks ++ p.reader.rest) = front ++ back := by
    rw [← htext, Reader.text, hpassed, List.append_assoc]
  rw [← hx] at hy
  obtain ⟨m, rfl, hm⟩ := append_of_byteLength_le hsplit hy
  have hline : ∀ a b, m = a ++ b → p.reader.line.toList = before ++ (a ++ b) ++ back := by
    rintro a b rfl
    rw [Reader.line, String.toList_ofList, htext]
  rcases Nat.lt_or_ge p.reader.cursor x with hlt | hge
  · have hle : byteLength blanks ≤ byteLength m := by
      rw [hcursor, ← hx, byteLength_append, byteLength_append] at hlt
      omega
    obtain ⟨typed, rfl, hrest⟩ := append_of_byteLength_le hm hle
    obtain ⟨d, ds, hd, hdb⟩ := hink hlt
    have htyped : typed ≠ [] := by
      rintro rfl
      rw [hcursor, ← hx, List.append_nil] at hlt
      exact Nat.lt_irrefl _ hlt
    have hhead : ∀ e ∈ typed.head?, isBlank e = false := by
      intro e he
      cases typed with
      | nil => cases he
      | cons e' typed =>
        rw [hd, List.cons_append] at hrest
        have heq : e' = e := by simpa using he
        rw [← heq, ← (List.cons.inj hrest).1]
        exact hdb
    rw [← hx, firstInk?_append (hline _ _ rfl) hblank hhead, if_neg htyped, hcursor, hx]
    rw [hcursor] at hlt
    exact (Nat.min_eq_left (Nat.le_of_lt hlt)).symm
  · have hle : byteLength m ≤ byteLength blanks := by
      rw [hcursor, ← hx, byteLength_append, byteLength_append] at hge
      omega
    obtain ⟨m', hm', -⟩ := append_of_byteLength_le hm.symm hle
    have hmblank : ∀ d ∈ m, isBlank d = true := fun d hd => hblank d (by rw [hm']; simp [hd])
    have hnone := firstInk?_append (hline m [] (List.append_nil m).symm) hmblank (by simp)
    rw [List.append_nil, if_pos rfl] at hnone
    rw [← hx, hnone, hx]
    exact (Nat.min_eq_right hge).symm

theorem Settled.ofFresh (h : Settled p y) (hfresh : p.context.FreshAt p.reader.cursor) :
    Settled p p.reader.cursor where
  closed d hd := (h.closed d hd).mono (Nat.succ_le_succ h.le_cursor)
  gap := ⟨p.reader.passed.reverse, [], (List.append_nil _).symm, by simp, byteLength_reverse _⟩
  context := Or.inl hfresh

/-- Where no step is taken, what is typed at an offset is typed at the node there: from the first
ink on, or nothing yet. -/
theorem Settled.target (h : Settled p y) (hy : y ≤ x) (hp : t.Guarded source layer p)
    (hclear : ClearOf p x) (hopen : p.chain.OpenAt x) {front back : List Char}
    (htext : p.reader.text = front ++ back) (hx : byteLength front = x)
    (hink : p.reader.cursor < x → p.reader.AtInk) :
    p.chain.target p.reader.line x =
      .branch p.node p.context.console (min p.reader.cursor x) := by
  have hstands := hp.descends.stands
  have hpolicy := hp.policyHere_eq
  rw [target_last hclear.1]
  rcases h.context with hfresh | ⟨-, hsome, hstop⟩
  · have hroot : p.context.root = p.node := by
      rw [← hstands, hfresh.nodes]
      rfl
    have hstart : p.context.startConsole = p.context.console := by
      rw [← hpolicy, Context.policyHere, hfresh.nodes]
      rfl
    rcases Nat.lt_or_ge p.reader.cursor x with hlt | hge
    · have htail : p.context.tailStop = p.reader.cursor := by
        rw [Context.tailStop, hfresh.nodes, hfresh.span]
        rfl
      rw [hfresh.target?, if_neg (Nat.not_le.2 hlt), Option.getD_none, Context.tailTarget_eq, htail,
        (h.ofFresh hfresh).firstInk?_eq (Nat.le_of_lt hlt) htext hx hink, hstands, hpolicy]
    · rw [hfresh.target?, if_pos hge, Option.getD_some, hroot, hstart, Nat.min_eq_right hge]
  · have hbefore : p.context.Before x := by
      rcases hclear.2 with hfresh | hbefore
      · rcases hsome with hnodes | hoptions
        · exact absurd hfresh.nodes hnodes
        · exact absurd hfresh.options hoptions
      · exact hbefore
    have hnodes : p.context.nodes ≠ [] := by
      intro hnil
      have hnone := hopen.tail (by rw [Position.last_chain]; exact hbefore.stop)
      rw [Position.last_chain] at hnone
      rcases hsome with hnodes | hoptions
      · exact hnodes hnil
      · exact hoptions (hnone hnil)
    rw [hbefore.target?, Option.getD_none, Context.tailTarget_eq, hstop hnodes,
      h.firstInk?_eq hy htext hx hink, hstands, hpolicy]

/-- Whether parsing from a position ends at another: there itself, or behind a first step. -/
def Leaves (t : CommandTree L) (source : L.Source) (p r : Position L) : Prop :=
  r = p ∨ ∃ i q, Step t source p i q ∧ Ends t source q r

theorem Ends.leaves (h : Ends t source p r) : t.Leaves source p r := by
  cases h with
  | finished _ => exact Or.inl rfl
  | stuck _ _ => exact Or.inl rfl
  | step _ hs hends => exact Or.inr ⟨_, _, hs, hends⟩

theorem Settled.target_gap (hL : L.ReadsForward) (h : Settled p y) (hy : y ≤ x)
    (hp : t.Guarded source layer p) (hr : t.Guarded source layer r)
    (hclear : ClearOf p x) (hopen : r.chain.OpenAt x) (hleaves : t.Leaves source p r)
    {front back : List Char} (htext : p.reader.text = front ++ back) (hx : byteLength front = x)
    (hge : x ≤ p.reader.cursor) :
    r.chain.target p.reader.line x = .branch p.node p.context.console x := by
  have hstands := hp.descends.stands
  have hpolicy := hp.policyHere_eq
  rcases hleaves with rfl | ⟨i, q, hs, hq⟩
  · rw [h.target hy hp hclear hopen htext hx fun hlt => absurd hge (Nat.not_le.2 hlt),
      Nat.min_eq_right hge]
  · obtain ⟨n, c, ht⟩ := hs.takes hL
    rcases Nat.eq_or_lt_of_le hge with heq | hlt
    · have htyped := ht.target hL hq hp hr h.start_le hclear (Nat.le_of_eq heq.symm)
        (Nat.le_trans hge (Reader.cursor_le_pass _ _)) hopen p.reader.line
      generalize r.chain.target p.reader.line x = found at htyped
      cases htyped with
      | branch => rw [heq]
      | @value name option named start _ _ hnamed _ hlt hle =>
        -- a value starts behind the name of its option
        have hname : p.reader.cursor ≤ named.cursor := by
          rw [hnamed]
          exact Reader.cursor_le_pass _ _
        omega
    · obtain ⟨c', more, z, hchain, hgrows, hz⟩ := ht.contexts hL hq h.start_le
      have hgrows' := (ht.piece.growsTo h.start_le).trans hgrows
        (Nat.le_trans (Reader.cursor_le_pass _ n) (Nat.le_of_lt hz))
      rcases hclear.2 with hfresh | hbefore
      · have hfound : c'.target? x = some (.branch p.node p.context.console x) := by
          have hbefore : x < c'.span.start := by
            rw [hgrows'.start, hfresh.span]
            exact hlt
          rw [Context.target?, if_pos hbefore, hgrows'.root, hgrows'.startConsole, ← hstands,
            ← hpolicy, hfresh.nodes, Context.policyHere, hfresh.nodes]
          rfl
        exact hclear.target_eq _ hchain hfound
      · -- the offset would be inside of a context that goes on behind it
        have hmem : c' ∈ r.chain.toList := by
          rw [Position.toList_chain, hchain]
          simp
        have htouched := hopen.covers c' hmem (by rw [hgrows'.start]; exact hbefore.start)
          (Nat.lt_of_lt_of_le hlt (Nat.le_trans (Reader.cursor_le_pass _ n)
            (Nat.le_trans ht.piece.stop_le hgrows.stop)))
        exact absurd htouched (hgrows'.not_touched hlt hbefore.quietAt.not_touched)

end CommandTree

end CommandConsole
