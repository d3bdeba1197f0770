import CommandConsole.Proofs.Ahead
import CommandConsole.Proofs.NewNames
import CommandConsole.Proofs.Walks

/-!
# Names that stand for each other

The names of one literal are interchangeable at the start of a line. Whichever of them stands there,
the rest of the line is matched alike: with the same nodes, values and command, or with the same
failure, but at offsets that are apart by as much as the names are.
-/

namespace CommandConsole

open Text

variable {L : Language}

theorem Language.IsBuiltin.looksAhead (h : L.IsBuiltin) : L.LooksAhead := by
  intro type
  obtain ⟨b, hscan, -⟩ := h type
  rw [hscan]
  exact b.looksAhead_scan

/-- The built-in types, but of values that start at an even offset only. -/
def Language.evenly : Language :=
  { Language.builtins with
    scan := fun b => do
      if (← get).cursor % 2 = 0 then b.scan else Scan.fail .unknownArgument }

theorem evenly_readsForward : Language.evenly.ReadsForward := by
  intro b r value behind hs
  have hstart : Scan.start (Language.evenly.scan b) r =
      Scan.start (if r.cursor % 2 = 0 then b.scan else Scan.fail .unknownArgument) r := rfl
  rw [hstart] at hs
  split at hs
  · exact Language.isBuiltin_builtins.readsLocally.readsForward b r value behind hs
  · cases hs

theorem IsWord.toList_ne_nil {word : String} (h : IsWord word) : word.toList ≠ [] :=
  fun hnil => h.some (String.toList_eq_nil_iff.1 hnil)

/-! ### Lines that differ in front -/

/-- Whether two readers stand at the same place behind different fronts of their lines. -/
structure Reader.Beyond (front front' : List Char) (r r' : Reader) : Prop where
  passed : ∃ between, r.passed = between ++ front.reverse ∧ r'.passed = between ++ front'.reverse
  rest : r'.rest = r.rest

/-- Whether two errors are the same, and pinned to the same place behind the fronts if at all. -/
inductive LineError.Beyond (front front' : List Char) : LineError → LineError → Prop
  | unplaced (f : Fault) : Beyond front front' f.unplaced f.unplaced
  | pinned (f : Fault) {r r' : Reader} : Reader.Beyond front front' r r' →
      Beyond front front' (f.pinned r) (f.pinned r')

/-- Whether two offsets are equally far behind fronts of some lengths. -/
def Shifted (length length' i i' : Nat) : Prop := ∃ k, i = length + k ∧ i' = length' + k

variable {front front' : List Char}

theorem Shifted.le_iff {m m' i i' j j' : Nat} (hi : Shifted m m' i i') (hj : Shifted m m' j j') :
    i ≤ j ↔ i' ≤ j' := by
  obtain ⟨k, rfl, rfl⟩ := hi
  obtain ⟨k', rfl, rfl⟩ := hj
  omega

theorem Reader.Beyond.pass {r r' : Reader} (h : Beyond front front' r r') (n : Nat) :
    Beyond front front' (r.pass n) (r'.pass n) := by
  obtain ⟨⟨between, hr, hr'⟩, hrest⟩ := h
  refine ⟨⟨(r.rest.take n).reverse ++ between, ?_, ?_⟩, by rw [rest_pass, rest_pass, hrest]⟩
  · show (r.rest.take n).reverse ++ r.passed = _
    rw [hr, List.append_assoc]
  · show (r'.rest.take n).reverse ++ r'.passed = _
    rw [hr', hrest, List.append_assoc]

theorem Reader.Beyond.cursor {r r' : Reader} (h : Beyond front front' r r') :
    Shifted (byteLength front) (byteLength front') r.cursor r'.cursor := by
  obtain ⟨⟨between, hr, hr'⟩, -⟩ := h
  refine ⟨byteLength between, ?_, ?_⟩
  · rw [Reader.cursor, hr, byteLength_append, byteLength_reverse, Nat.add_comm]
  · rw [Reader.cursor, hr', byteLength_append, byteLength_reverse, Nat.add_comm]

theorem Reader.Beyond.of_ahead {b b' r r' : Reader} (h : Beyond front front' b b')
    (hr : Ahead b b' r r') : Beyond front front' r r' := by
  obtain ⟨n, rfl, rfl⟩ := hr
  exact h.pass n

theorem LineError.Beyond.of_ahead {b b' : Reader} (h : Reader.Beyond front front' b b')
    {e e' : LineError} (he : Ahead b b' e e') : Beyond front front' e e' := by
  cases he with
  | unplaced f => exact .unplaced f
  | pinned f hr => exact .pinned f (h.of_ahead hr)

namespace Alignment

/-- Runs behind different fronts in one tree: the same nodes, and offsets that are apart by as much
as the fronts are. -/
def beyond (hL : L.LooksAhead) (front front' : List Char) : Alignment L where
  reader := Reader.Beyond front front'
  offset := Shifted (byteLength front) (byteLength front')
  error := LineError.Beyond front front'
  node := Eq
  rest_eq h := h.rest
  pass h := h.pass
  cursor h := h.cursor
  le_iff := Shifted.le_iff
  pinned h f := .pinned f h
  scan := by
    intro r r' h type
    have hscan := hL type r r' h.rest
    unfold Scan.SameAhead at hscan
    revert hscan
    obtain ⟨x, s⟩ := Scan.start (L.scan type) r
    obtain ⟨x', s'⟩ := Scan.start (L.scan type) r'
    rintro (⟨rfl, hs⟩ | he)
    · exact .ok ⟨rfl, h.of_ahead hs⟩
    · exact .error (.of_ahead h he)
  node_iff := by
    rintro a _ b _ rfl rfl
    rfl

variable {hL : L.LooksAhead} {t : CommandTree L} {x x' : NodeId}

/-- The opening of two runs from the start of a line that have come past a front each, in a node for
it. -/
def past (hfront : front ≠ []) (hfront' : front' ≠ []) (x x' : NodeId) (policy : ConsolePolicy) :
    (beyond hL front front').Opening where
  stands n n' := n' = n ∨ n = x ∧ n' = x'
  starts i i' := i = 0 ∧ i' = 0 ∨ Shifted (byteLength front) (byteLength front') i i'
  lead := [⟨x, ⟨0, byteLength front⟩, policy⟩]
  lead' := [⟨x', ⟨0, byteLength front'⟩, policy⟩]
  of_node h := Or.inl h.symm
  of_offset h := Or.inr h
  le_iff := by
    have hpos := Reader.byteLength_pos hfront
    have hpos' := Reader.byteLength_pos hfront'
    intro i i' j j' hi hj
    obtain ⟨rfl, rfl⟩ | ⟨k, rfl, rfl⟩ := hi <;> obtain ⟨rfl, rfl⟩ | ⟨k', rfl, rfl⟩ := hj <;> omega

theorem twins_of_branchesAs {n n' : Node L} (h : n.BranchesAs n') :
    (beyond hL front front').Twins n n' where
  options name := by
    rw [h.options]
    exact optionRel_eq (fun _ => rfl) _
  literals name := by
    rw [h.literals]
    exact optionRel_eq (fun _ => rfl) _
  arguments := by
    rw [h.arguments]
    exact List.forall₂_same.2 fun _ _ => rfl

theorem trees_beyond (t : CommandTree L) : (beyond hL front front').Trees t t where
  kind h := by rw [show _ = _ from h]
  gates h := by rw [show _ = _ from h]
  command h := by rw [show _ = _ from h]
  forward := by
    rintro n _ rfl
    exact optionRel_eq (fun f => ⟨rfl, rfl, rfl⟩) _
  twins := by
    rintro n _ rfl
    exact twins_of_branchesAs (.refl _)

end Alignment

namespace CommandTree

variable {t : CommandTree L} {source : L.Source} {id c : NodeId} {context : Context L}
  {r s : Reader} {word : String} {tail : List Char}

/-! ### The first word -/

/-- What comes of a line behind a token does not depend on where the token began. -/
theorem outcomeOf_continueAt {n : Node L} {behind : Reader}
    (hr : behind.rest.length < r.rest.length) (hs : behind.rest.length < s.rest.length) :
    t.outcomeOf source r (continueAt id n context behind) =
      t.outcomeOf source s (continueAt id n context behind) := by
  have hskip : behind.skipBlank.rest.length ≤ behind.rest.length := by
    rw [Reader.skipBlank_eq_pass, Reader.rest_pass, List.length_drop]
    omega
  have hr' := Nat.lt_of_le_of_lt hskip hr
  have hs' := Nat.lt_of_le_of_lt hskip hs
  unfold continueAt
  dsimp only
  split
  · split
    · rfl
    · split
      · simp only [outcomeOf, if_pos hr', if_pos hs']
      · rfl
  · split
    · simp only [outcomeOf, if_pos hr', if_pos hs']
    · rfl

theorem outcomeOf_of_isTaken {a : Attempt L} (h : a.isTaken = true) :
    ∃ o, t.outcomeOf source r a = some o := by
  cases a with
  | failed => cases h
  | finished => exact ⟨_, rfl⟩
  | goOn => exact ⟨_, rfl⟩
  | redirect => exact ⟨_, rfl⟩

def behindWord (t : CommandTree L) (context : Context L) (r : Reader) (c : NodeId)
    (word : String) : Attempt L :=
  let behind := r.pass word.length
  continueAt c (t.node c) (context.enter c (t.node c) ⟨r.cursor, behind.cursor⟩
    ((t.node c).gates.console.resolve context.console)) behind

/-- Where a literal that the source may use is the next word, the line goes on there. -/
theorem follow_word (hword : IsWord word) (hends : endsToken tail = true)
    (hr : r.rest = word.toList ++ tail) (hc : (t.node id).literals.find? word = some c)
    (hkind : (t.node c).kind = .literal word)
    (hgates : (t.node c).gates.letThrough source context.console = true) :
    some (t.follow source id context r) =
      t.outcomeOf source r (t.behindWord context r c word) := by
  have htoken : token r.rest = word.toList := by
    rw [hr]
    exact token_append hword.ink hends
  have hrest : (r.pass word.length).rest = tail := by
    rw [Reader.rest_pass, hr, ← String.length_toList, List.drop_left]
  have hno : namedOption? (t.node id) word.toList = none := by
    unfold namedOption?
    split
    · next name heq => exact absurd (heq ▸ List.prefix_append ['-', '-'] name) hword.plain
    · rfl
  have htry : t.tryChild source context r c = t.behindWord context r c word := by
    unfold tryChild takeToken Reader.peekToken
    dsimp only
    rw [hkind, htoken]
    simp only [String.ofList_toList, beq_self_eq_true, if_true, hrest, hends, Bool.not_true,
      Bool.false_eq_true, if_false]
    rw [Option.isNone_iff_eq_none.1 hgates]
    rfl
  have htaken : (t.behindWord context r c word).isTaken = true := isTaken_continueAt ..
  obtain ⟨o, ho⟩ : ∃ o, t.outcomeOf source r (t.behindWord context r c word) = some o :=
    outcomeOf_of_isTaken htaken
  rw [follow_eq]
  unfold attempts
  dsimp only
  rw [htoken, hno, String.ofList_toList, hc]
  dsimp only
  rw [htry, htaken, if_pos rfl, List.filterMap_cons, ho]
  rfl

theorem behindWord_ofString (t : CommandTree L) (context : Context L) (c : NodeId)
    (word w : String) :
    t.behindWord context (.ofString (word ++ w)) c word =
      continueAt c (t.node c) (context.enter c (t.node c) ⟨0, byteLength word.toList⟩
        ((t.node c).gates.console.resolve context.console)) ⟨word.toList.reverse, w.toList⟩ := by
  have hbehind : (Reader.ofString (word ++ w)).pass word.length =
      ⟨word.toList.reverse, w.toList⟩ := by
    unfold Reader.ofString Reader.pass
    simp only [String.toList_append]
    rw [← String.length_toList, List.take_left, List.drop_left, List.append_nil]
  have hcursor : (⟨word.toList.reverse, w.toList⟩ : Reader).cursor = byteLength word.toList :=
    byteLength_reverse _
  unfold behindWord
  dsimp only
  rw [hbehind, hcursor]
  rfl

theorem parse_word (hword : IsWord word) {w : String} (hends : endsToken w.toList = true)
    (hc : (t.node root).literals.find? word = some c) (hkind : (t.node c).kind = .literal word)
    (hgates : (t.node c).gates.letThrough source .inherited = true) :
    some (t.parse (word ++ w) source).outcome = t.outcomeOf source ⟨[], ' ' :: w.toList⟩
      (t.behindWord (.startAt root 0 .inherited) (.ofString (word ++ w)) c word) := by
  have hrest : (Reader.ofString (word ++ w)).rest = word.toList ++ w.toList :=
    String.toList_append
  obtain ⟨e, es, hcons⟩ : ∃ e es, word.toList = e :: es :=
    List.exists_cons_of_ne_nil hword.toList_ne_nil
  have hink : isBlank e = false := hword.ink e (hcons ▸ List.mem_cons_self)
  have hskip : (Reader.ofString (word ++ w)).skipBlank = Reader.ofString (word ++ w) := by
    rw [Reader.skipBlank_eq_pass, hrest, hcons, List.cons_append, List.takeWhile_cons, hink]
    rfl
  have hparse : (t.parse (word ++ w) source).outcome =
      t.follow source root (.startAt root 0 .inherited) (.ofString (word ++ w)) := by
    unfold parse parseFrom
    dsimp only
    rw [hskip]
    rfl
  have hfollow : some (t.follow source root (.startAt root 0 .inherited) (.ofString (word ++ w))) =
      t.outcomeOf source (.ofString (word ++ w))
        (t.behindWord (.startAt root 0 .inherited) (.ofString (word ++ w)) c word) :=
    follow_word hword hends hrest hc hkind hgates
  rw [hparse, hfollow, behindWord_ofString]
  refine outcomeOf_continueAt ?_ (Nat.lt_succ_self _)
  rw [hrest, hcons, List.length_append, List.length_cons]
  show w.toList.length < _
  omega

/-! ### All names of a literal -/

theorem contexts_past {hL : L.LooksAhead} {front front' : List Char} (hfront : front ≠ [])
    (hfront' : front' ≠ []) {first x x' : NodeId} {b : Blueprint L} {name name' : String}
    (hx : IsNameOf t root first b name x) (hx' : IsNameOf t root first b name' x')
    (policy : ConsolePolicy) :
    (Alignment.beyond hL front front').Contexts (Alignment.past hfront hfront' x x' policy)
      ((Context.startAt root 0 .inherited).enter x (t.node x) ⟨0, byteLength front⟩ policy)
      ((Context.startAt root 0 .inherited).enter x' (t.node x') ⟨0, byteLength front'⟩ policy) where
  root := rfl
  captured := .empty
  nodes := ⟨[], [], rfl, rfl, .nil⟩
  options := .nil
  command := hx'.command.trans hx.command.symm
  forward := by
    show Option.Rel _ (t.node x).forward (t.node x').forward
    rw [hx.forward, hx'.forward]
    exact optionRel_eq (fun f => ⟨rfl, rfl, rfl⟩) _
  start := Or.inl ⟨Nat.min_self 0, Nat.min_self 0⟩
  stop := ⟨0, Nat.zero_max .., Nat.zero_max ..⟩
  console := rfl
  startConsole := rfl

/-- The names of a literal stand for each other at the start of a line, if they are words, distinct
and new, and the source passes the gates of the literal. Types of arguments read what is ahead of
the cursor: one that looked back would see which of the names stands there. -/
theorem register?_names_interchange (hL : L.LooksAhead) {d d' : Dispatcher L} {b : Blueprint L}
    {name : String} {others : List String} {id : NodeId} (ht : d.tree.Reachable)
    (hkind : b.kind = .literal name others) (hnames : b.names.Nodup)
    (hwords : ∀ n ∈ b.names, IsWord n)
    (hnew : ∀ n ∈ b.names, (d.tree.node root).child? n = none)
    (hb : d.register? b = .ok (d', id)) {a a' : String} (ha : a ∈ b.names) (ha' : a' ∈ b.names)
    {w : String} (hw : endsToken w.toList = true)
    (hgates : b.gates.letThrough source .inherited = true) :
    ∃ x x', (d'.tree.node root).child? a = some x ∧ (d'.tree.node root).child? a' = some x' ∧
      let A := Alignment.beyond hL a.toList a'.toList
      let o := Alignment.past (hwords a ha).toList_ne_nil (hwords a' ha').toList_ne_nil x x'
        (b.gates.console.resolve .inherited)
      let p := d'.tree.parse (a ++ w) source
      let p' := d'.tree.parse (a' ++ w) source
      A.Outcomes o p.outcome p'.outcome ∧ p'.isComplete = p.isComplete ∧
        p'.chain.last.command = p.chain.last.command ∧ A.error p.failure p'.failure := by
  obtain ⟨layer, hg⟩ := ht.grown
  obtain ⟨⟨tree, first, rest⟩, hadd, hd⟩ := bind_eq_ok.1 hb
  obtain ⟨rfl, rfl⟩ := Prod.mk.inj (Except.ok.inj hd)
  have hwide := (widened_add? hg.tidied hkind hg.root_first.1 hnew hadd).2
  have hnamed := names_add? hg hkind hnames hnew hadd
  obtain ⟨x, -, hx⟩ := forall₂_mem_left hnamed ha
  obtain ⟨x', -, hx'⟩ := forall₂_mem_left hnamed ha'
  refine ⟨x, x', hx.child, hx'.child, ?_⟩
  intro A o p p'
  have hparse : ∀ {n m}, n ∈ b.names → IsNameOf tree root first b n m →
      some (tree.parse (n ++ w) source).outcome = tree.outcomeOf source ⟨[], ' ' :: w.toList⟩
        (tree.behindWord (.startAt root 0 .inherited) (.ofString (n ++ w)) m n) :=
    fun hn hm => parse_word (hwords _ hn) hw ((hwide.same _ hn).trans hm.child) hm.kind
      (hm.gates ▸ hgates)
  have hattempts : A.Attempts o
      (tree.behindWord (.startAt root 0 .inherited) (.ofString (a ++ w)) x a)
      (tree.behindWord (.startAt root 0 .inherited) (.ofString (a' ++ w)) x' a') := by
    rw [behindWord_ofString, behindWord_ofString, hx.gates, hx'.gates]
    have hcontexts : A.Contexts o _ _ := contexts_past _ _ hx hx' _
    exact Alignment.continueAt (Or.inr ⟨rfl, rfl⟩) hcontexts.forward hcontexts
      ⟨⟨[], rfl, rfl⟩, rfl⟩
  have htwins : ∀ {n n'}, o.stands n n' → A.Twins (tree.node n) (tree.node n') := by
    rintro n n' (rfl | ⟨rfl, rfl⟩)
    · exact Alignment.twins_of_branchesAs (.refl _)
    · exact Alignment.twins_of_branchesAs (hx.branches.trans hx'.branches.symm)
  have houtcome : Option.Rel (A.Outcomes o) (some (tree.parse (a ++ w) source).outcome)
      (some (tree.parse (a' ++ w) source).outcome) := by
    rw [hparse ha hx, hparse ha' hx']
    exact Alignment.outcomeOf (Alignment.trees_beyond tree) htwins rfl
      (Alignment.follow (Alignment.trees_beyond tree) _) hattempts
  cases houtcome with
  | some h => exact ⟨h, h.isComplete_eq, h.chain.last_command, h.failure⟩

/-- A literal with a second name, an option and an argument. -/
def saying : Blueprint .builtins :=
  { Blueprint.bare (.literal "say" ["tell"]) with
    children := [(Blueprint.argument "text" Builtin.greedy).executes ()]
    options := [.option "voice" Builtin.word] }

def spoken : Dispatcher .builtins :=
  match (⟨lamp, []⟩ : Dispatcher .builtins).register? saying with
  | .ok (d, _) => d
  | .error _ => .empty

theorem register?_names_interchange_saying :
    (⟨lamp, []⟩ : Dispatcher .builtins).register? saying = .ok (spoken, 3) ∧
      ∃ x x', (spoken.tree.node root).child? "say" = some x ∧
        (spoken.tree.node root).child? "tell" = some x' ∧
        let A := Alignment.beyond Language.isBuiltin_builtins.looksAhead "say".toList "tell".toList
        let o := Alignment.past (by decide) (by decide) x x'
          (saying.gates.console.resolve .inherited)
        let p := spoken.tree.parse ("say" ++ " --voice low hello") ()
        let p' := spoken.tree.parse ("tell" ++ " --voice low hello") ()
        A.Outcomes o p.outcome p'.outcome ∧ p'.isComplete = p.isComplete ∧
          p'.chain.last.command = p.chain.last.command ∧ A.error p.failure p'.failure := by
  have hb : (⟨lamp, []⟩ : Dispatcher .builtins).register? saying = .ok (spoken, 3) := rfl
  have ht : lamp.Reachable := reachable_built _
  exact ⟨hb, register?_names_interchange _ ht rfl (by decide) (by decide)
    (by decide +kernel) hb (by decide) (by decide) (by decide) (by decide)⟩

/-- A literal with a longer second name, and an argument. -/
def numbered : Blueprint .evenly :=
  { Blueprint.bare (.literal "a" ["bb"]) with
    children := [(Blueprint.argument "x" Builtin.word).executes ()] }

def evenDispatcher : Dispatcher .evenly :=
  match (Dispatcher.empty : Dispatcher .evenly).register? numbered with
  | .ok (d, _) => d
  | .error _ => .empty

/-- A type that looks back at the cursor tells names of different lengths apart, even if it only
reads forward. -/
theorem names_seen_from_behind :
    ¬∀ (L : Language) (d d' : Dispatcher L) (b : Blueprint L) (name : String)
      (others : List String) (id : NodeId) (source : L.Source) (a a' w : String),
      L.ReadsForward → d.tree.Reachable → b.kind = .literal name others → b.names.Nodup →
      (∀ n ∈ b.names, IsWord n) → (∀ n ∈ b.names, (d.tree.node root).child? n = none) →
      d.register? b = .ok (d', id) → a ∈ b.names → a' ∈ b.names → endsToken w.toList = true →
      b.gates.letThrough source .inherited = true →
      (d'.tree.parse (a' ++ w) source).isComplete = (d'.tree.parse (a ++ w) source).isComplete := by
  intro h
  have hregister : (Dispatcher.empty : Dispatcher .evenly).register? numbered =
      .ok (evenDispatcher, 1) := rfl
  have hsame := h .evenly .empty evenDispatcher numbered "a" ["bb"] 1 () "a" "bb" " x"
    evenly_readsForward .empty rfl (by decide) (by decide) (by decide +kernel) hregister
    (by decide) (by decide) (by decide) (by decide)
  revert hsame
  decide +kernel

end CommandTree

end CommandConsole
