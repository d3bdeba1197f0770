import CommandConsole.Proofs.LastWord
import CommandConsole.Proofs.Walks

/-!
# Literals are completed

Where the parser stands alike in front of the last word of two lines, a literal that completes one
of them is suggested for the other.
-/

namespace CommandConsole

open Text

variable {L : Language}

/-! ### Candidates for the last word -/

section Candidates

variable {pre typed word : String}

theorem back?_typed (pre typed : String) : back? (bytes pre) (pre ++ typed) = some typed := by
  rw [back?, String.toList_append]
  show (splitAt? (byteLength pre.toList) _).map _ = _
  rw [splitAt?_append]
  simp

theorem cutsAt_pre (pre typed : String) : CutsAt (pre ++ typed) (bytes pre) :=
  ⟨pre.toList, typed.toList, String.toList_append, rfl⟩

theorem byteLength_toLower {cs : List Char} (h : ∀ c ∈ cs, c.toNat < 0x80) :
    byteLength (cs.map Char.toLower) = byteLength cs := by
  have hall : ∀ n < 0x80, (Char.ofNat n).toLower.utf8Size = (Char.ofNat n).utf8Size := by decide
  induction cs with
  | nil => rfl
  | cons c cs ih =>
    obtain ⟨hc, hcs⟩ := List.forall_mem_cons.1 h
    have hsize := hall c.toNat hc
    rw [Char.ofNat_toNat] at hsize
    simp only [List.map_cons, byteLength, hsize, ih hcs]

theorem back?_lowercase (h : ∀ c ∈ (pre ++ typed).toList, c.toNat < 0x80) :
    back? (bytes pre) (lowercase (pre ++ typed)) = some (lowercase typed) := by
  rw [String.toList_append] at h
  have hpre : ∀ c ∈ pre.toList, c.toNat < 0x80 := fun c hc => h c (List.mem_append_left _ hc)
  have htyped : ∀ c ∈ typed.toList, c.toNat < 0x80 := fun c hc => h c (List.mem_append_right _ hc)
  rw [lowercase, String.toList_append, lowercaseFrom_of_ascii [] _ h, List.map_append, lowercase,
    lowercaseFrom_of_ascii [] _ htyped, bytes, ← byteLength_toLower hpre]
  exact CommandTree.back?_append _ _

theorem suggest?_literal (around : L.Surroundings) (raw : String → Option String)
    (hascii : ∀ c ∈ (pre ++ typed).toList, c.toNat < 0x80) (hne : word ≠ typed)
    (hmatch : (lowercase typed).toList <+: (lowercase word).toList) :
    ∃ own, (NodeKind.literal word : NodeKind L).suggest? around raw
        (Draft.new (pre ++ typed) (bytes pre)) = some own ∧
      ∃ s ∈ own.list, s.applyTo? (pre ++ typed) = some (pre ++ word) := by
  let draft := Draft.new (pre ++ typed) (bytes pre)
  have hfor : draft.For (pre ++ typed) := Draft.for_new (cutsAt_pre pre typed)
  have hmatches : draft.matchesTyped word = true := by
    have hlow : draft.remainingLowercase = lowercase typed := by
      show (back? (bytes pre) (lowercase (pre ++ typed))).getD "" = _
      rw [back?_lowercase hascii]
      rfl
    rw [Draft.matchesTyped, hlow]
    exact List.isPrefixOf_iff_prefix.2 hmatch
  have hremaining : draft.remaining = typed := by
    show (back? (bytes pre) (pre ++ typed)).getD "" = _
    rw [back?_typed]
    rfl
  have hdraft : draft.suggestIfMatching word = draft.push (.plain draft.span word) := by
    rw [Draft.suggestIfMatching, if_pos hmatches, Draft.suggest, hremaining,
      if_neg (by simpa using hne)]
  obtain ⟨own, hown, hcollects⟩ := (hfor.suggestIfMatching word).build?
  obtain ⟨s, hs, happly⟩ := hcollects.kept (.plain draft.span word) (by
    rw [hdraft]
    exact List.mem_append_right _ (List.mem_singleton_self _))
  refine ⟨own, hown, s, hs, happly.trans ?_⟩
  have hline : (pre ++ typed).toList = pre.toList ++ typed.toList ++ [] := by simp
  have hstart : byteLength pre.toList = draft.span.start :=
    (Nat.min_eq_left (cutsAt_pre pre typed).le).symm
  have hstop : byteLength (pre.toList ++ typed.toList) = draft.span.stop := by
    rw [← String.toList_append]
    rfl
  rw [Suggestion.applyTo?_of_split hline hstart hstop]
  simp [Suggestion.plain]

end Candidates

theorem NodeKind.eq_literal {kind : NodeKind L} {word : String} (hliteral : kind.isLiteral = true)
    (hname : kind.name = word) : kind = .literal word := by
  cases kind with
  | literal name => exact congrArg _ hname
  | _ => cases hliteral

/-! ### Completing the last word -/

/-- Whether a word completes what is typed at the end of a line. -/
structure Completes (pre typed word : String) : Prop where
  front : ∀ c ∈ pre.toList.getLast?, isBlank c = true
  ink : ∀ c ∈ typed.toList, isBlank c = false
  isWord : IsWord word
  ne : word ≠ typed
  ascii : ∀ c ∈ (pre ++ typed ++ word).toList, c.toNat < 0x80
  starts : (lowercase typed).toList <+: (lowercase word).toList

instance (pre typed word : String) : Decidable (Completes pre typed word) :=
  decidable_of_iff (pre.toList.getLast?.all isBlank = true ∧
      (typed.toList.all fun c => !isBlank c) = true ∧ IsWord word ∧ word ≠ typed ∧
      ((pre ++ typed ++ word).toList.all fun c => c.toNat < 0x80) = true ∧
      (lowercase typed).toList.isPrefixOf (lowercase word).toList = true)
    ⟨fun ⟨hfront, hink, hword, hne, hascii, hstarts⟩ =>
      ⟨by simpa [Option.all_eq_true] using hfront, by simpa using hink, hword, hne,
        fun c hc => of_decide_eq_true (List.all_eq_true.1 hascii c hc),
        List.isPrefixOf_iff_prefix.1 hstarts⟩,
      fun h => ⟨by simpa [Option.all_eq_true] using h.front, by simpa using h.ink, h.isWord, h.ne,
        List.all_eq_true.2 fun c hc => decide_eq_true (h.ascii c hc),
        List.isPrefixOf_iff_prefix.2 h.starts⟩⟩

namespace CommandTree

variable {t : CommandTree L} {source : L.Source} {pre typed word : String}

def EndsIn (t : CommandTree L) (parsed : Parsed L) (word : String) : Prop :=
  parsed.isComplete = true ∧ ∃ m, parsed.chain.last.nodes.getLast? = some m ∧
    (t.node m.node).kind = .literal word

def Suggests (t : CommandTree L) (around : L.Surroundings) (parsed : Parsed L)
    (line result : String) : Prop :=
  ∃ g, t.complete? around parsed = some g ∧ ∃ s ∈ g.list, s.applyTo? line = some result

/-- Whether the parser stands alike in front of what is typed and in front of the word that
completes it, and completion looks there. -/
structure StandsAlike (t : CommandTree L) (source : L.Source) (pre typed word : String) : Prop where
  /-- The literal is the last word, and not one that has options behind it. -/
  last : ∀ m ∈ (t.parse (pre ++ word) source).chain.last.nodes.getLast?,
    m.span.stop = bytes (pre ++ word)
  kept : (t.parse (pre ++ typed) source).chain.inFrontOf (bytes pre) =
    (t.parse (pre ++ word) source).chain.inFrontOf (bytes pre)
  tail : (t.parse (pre ++ typed) source).chain.last.nodes = [] →
    (t.parse (pre ++ typed) source).chain.last.options = []
  attached : t.Attached

theorem Filed.complete?_parse {layer : NodeId → Nat} (hf : Filed t layer) (hL : L.ReadsForward)
    (around : L.Surroundings) (line : String) :
    t.complete? around (t.parse line source) =
      t.completeTarget? around ((t.parse line source).chain.outer.raw? line) source
        (t.parse line source).chain.last.options line
        ((t.parse line source).chain.target line (bytes line)) := by
  have hparsed := hf.line_parse hL line source
  have hlength : (t.parse line source).reader.totalLength = byteLength line.toList := by
    have htext := congrArg String.toList hparsed
    rw [Reader.line, String.toList_ofList] at htext
    rw [Reader.totalLength, htext]
  have hwhole : (t.parse line source).reader.line.toList = line.toList ++ [] := by
    rw [hparsed, List.append_nil]
  rw [complete?, hlength, completeAt?_front around hwhole, hparsed, String.ofList_toList]
  rfl

theorem pendingOption?_word {parent : NodeId} {policy : ConsolePolicy}
    (htyped : ∀ c ∈ typed.toList, isBlank c = false) :
    t.pendingOption? source parent policy (pre ++ typed) (bytes pre) = none := by
  unfold pendingOption?
  simp only [back?_typed, Option.bind_eq_bind, Option.bind_some, token_eq_self htyped,
    List.drop_length, List.isEmpty_nil, if_true]
  rfl

/-! ### A tree with two ways on -/

/-- The tree of a command that takes a truth value or a name, with a different word behind each. -/
def crossroads : CommandTree .builtins := built [
    { Blueprint.literal "cmd" with
      children := [
        { Blueprint.argument "flag" Builtin.bool with children := [.literal "xa"] },
        { Blueprint.argument "name" Builtin.word with children := [.literal "xb"] }] }]

theorem reachable_crossroads : crossroads.Reachable := reachable_built _

theorem size_crossroads : crossroads.size ≤ 6 := by decide +kernel

theorem attached_crossroads : crossroads.Attached := by
  intro id name c hc
  have hall := forall_node (P := fun n => ∀ e ∈ n.literals.entries, n.children.find? e.1 = some e.2)
    size_crossroads (fun e he => by cases he) (by decide +kernel) id
  exact hall _ (Keyed.mem_entries_of_find? hc)

theorem endsIn_crossroads (word : String) (id : NodeId)
    (hline : (crossroads.parse ("cmd true " ++ word) ()).isComplete = true)
    (hlast : (crossroads.parse ("cmd true " ++ word) ()).chain.last.nodes.getLast?.map (·.node) =
      some id)
    (hkind : (crossroads.node id).kind.isLiteral = true ∧ (crossroads.node id).name = word) :
    crossroads.EndsIn (crossroads.parse ("cmd true " ++ word) ()) word := by
  obtain ⟨m, hm, rfl⟩ := Option.map_eq_some_iff.1 hlast
  exact ⟨hline, m, hm, NodeKind.eq_literal hkind.1 hkind.2⟩

/-! ### Literals that complete a line -/

theorem StandsAlike.target (hL : L.ReadsForward) {layer : NodeId → Nat} (hf : Filed t layer)
    (hword : Completes pre typed word) (hends : t.EndsIn (t.parse (pre ++ word) source) word)
    (h : t.StandsAlike source pre typed word) :
    ∃ parent policy literal,
      (t.parse (pre ++ typed) source).chain.target (pre ++ typed) (bytes (pre ++ typed)) =
        .branch parent policy (bytes pre) ∧
      literal ∈ (t.node parent).children.values ∧ (t.node literal).kind = .literal word ∧
      (t.node literal).canUse source policy = true := by
  have htext : ∀ w : String, (Reader.ofString (pre ++ w)).text = pre.toList ++ w.toList :=
    fun _ => String.toList_append
  -- the line with the word: the last step takes the literal
  obtain ⟨q, r', hchain', -, hq, hqle, hqlast⟩ :=
    hf.parse_lastStep hL source (pre ++ word) (htext word) hword.isWord.ink
  obtain ⟨-, m, hm, hkind⟩ := hends
  have hstop := h.last m hm
  rw [hchain', Position.last_chain] at hm
  have hsome : word.toList ≠ [] := by
    rw [Ne, String.toList_eq_nil_iff]
    exact hword.isWord.some
  obtain ⟨hqrest, hqcursor, hliteral, hadmits⟩ := hqlast.literal hf hq (htext word) hsome hqle hm
    (by rw [hkind, String.ofList_toList]) hstop
  have hqsome : q.reader.rest ≠ [] := hqrest ▸ hsome
  rw [String.ofList_toList] at hliteral
  -- the line that is typed: it is read up to the same offset
  obtain ⟨p, r, hchain, -, hp, hple, hlast⟩ :=
    hf.parse_lastStep hL source (pre ++ typed) (htext typed) hword.ink
  have hkept : r.chain.inFrontOf (byteLength pre.toList) = q.stretches := by
    have hkept := h.kept
    rw [hchain, hchain'] at hkept
    exact hkept.trans (hqlast.inFrontOf hq hqcursor)
  have hcursor : p.reader.cursor = byteLength pre.toList :=
    hlast.cursor_eq hp (htext typed) hple hq (htext word) hqcursor hqsome hkept
  have hsame : p.stretches = q.stretches := (hlast.inFrontOf hp hcursor).symm.trans hkept
  obtain ⟨hnode, hconsole⟩ := hp.same_node hq hsame
  have hbehind : ∀ s ∈ p.pieces, s.stop < byteLength pre.toList := by
    intro s hs
    rw [← Position.pieces_stretches, hsame, Position.pieces_stretches] at hs
    rw [← hqcursor]
    exact (hq.piece hs).2.2 hqsome
  have htail := h.tail
  rw [hchain] at htail
  have htarget := hlast.target hf hL hp (htext typed) hword.ink hcursor hbehind htail
  rw [hnode, hconsole, Reader.line_ofString] at htarget
  refine ⟨q.node, q.context.console, m.node, ?_, ?_, hkind, (canUse_iff_admits ..).2 hadmits⟩
  · rw [hchain]
    exact htarget
  · exact List.mem_map.2 ⟨_, Keyed.mem_entries_of_find? (h.attached _ _ _ hliteral), rfl⟩

/-- A literal that completes a line is suggested for it, if the parser stands alike in front of
it. -/
theorem suggests_completing_literal (hL : L.ReadsForward) (hS : L.SuggestsInside)
    (ht : t.Reachable) (hword : Completes pre typed word)
    (hends : t.EndsIn (t.parse (pre ++ word) source) word)
    (h : t.StandsAlike source pre typed word) (around : L.Surroundings) :
    t.Suggests around (t.parse (pre ++ typed) source) (pre ++ typed) (pre ++ word) := by
  obtain ⟨layer, hg⟩ := ht.grown
  have hf := hg.filed
  obtain ⟨parent, policy, literal, htarget, hchild, hkind, huse⟩ := h.target hL hf hword hends
  let chain := (t.parse (pre ++ typed) source).chain
  -- the branch suggests what the literal does, and the literal suggests the word
  obtain ⟨g, own, hg, hown, hkeep⟩ := completeTarget?_child hS around
    (chain.outer.raw? (pre ++ typed)) chain.last.options (cutsAt_pre pre typed)
    (pendingOption?_word hword.ink) hchild huse
  have hascii : ∀ c ∈ (pre ++ typed).toList, c.toNat < 0x80 := by
    intro c hc
    refine hword.ascii c ?_
    rw [String.toList_append]
    exact List.mem_append_left _ hc
  obtain ⟨own', hown', s, hs, happly⟩ := suggest?_literal around
    (chain.outer.raw? (pre ++ typed)) hascii hword.ne hword.starts
  rw [hkind] at hown
  obtain rfl : own' = own := Option.some.inj (hown'.symm.trans hown)
  obtain ⟨s', hs', hsame⟩ := hkeep s hs
  refine ⟨g, ?_, s', hs', hsame.trans happly⟩
  rw [hf.complete?_parse hL, htarget]
  exact hg

theorem suggests_completing_literal_crossroads :
    Completes "cmd true " "x" "xa" ∧
      crossroads.EndsIn (crossroads.parse ("cmd true " ++ "xa") ()) "xa" ∧
      crossroads.StandsAlike () "cmd true " "x" "xa" ∧
      crossroads.Suggests () (crossroads.parse ("cmd true " ++ "x") ()) ("cmd true " ++ "x")
        ("cmd true " ++ "xa") := by
  have hword : Completes "cmd true " "x" "xa" := by decide +kernel
  have hends := endsIn_crossroads "xa" 3 (by decide +kernel) (by decide +kernel) (by decide +kernel)
  have hstands : crossroads.StandsAlike () "cmd true " "x" "xa" :=
    ⟨by decide +kernel, by decide +kernel, by decide +kernel, attached_crossroads⟩
  exact ⟨hword, hends, hstands, suggests_completing_literal
    Language.isBuiltin_builtins.readsLocally.readsForward
    Language.isBuiltin_builtins.suggestsInside reachable_crossroads hword hends hstands ()⟩

/-- Behind a token that two arguments take, the words behind the second are not suggested. -/
theorem suggests_one_way_only :
    ¬∀ (t : CommandTree .builtins) (source : Unit) (pre typed word : String), t.Reachable →
      (∀ id name, (t.node id).kind = .literal name → IsWord name) → Completes pre typed word →
      t.EndsIn (t.parse (pre ++ word) source) word →
      t.Suggests () (t.parse (pre ++ typed) source) (pre ++ typed) (pre ++ word) := by
  intro h
  have hnames : ∀ id name, (crossroads.node id).kind = .literal name → IsWord name := by
    intro id name hkind
    have hall := forall_node (P := fun n => n.kind.isLiteral = true → IsWord n.kind.name)
      size_crossroads (fun h => by cases h) (by decide +kernel) id
    rw [hkind] at hall
    exact hall rfl
  have hword : Completes "cmd true " "x" "xb" := by decide +kernel
  have hends := endsIn_crossroads "xb" 5 (by decide +kernel) (by decide +kernel) (by decide +kernel)
  obtain ⟨g, hg, s, hs, happly⟩ := h crossroads () "cmd true " "x" "xb" reachable_crossroads hnames
    hword hends
  have hlines : (crossroads.complete? () (crossroads.parse "cmd true x" ())).map
      (fun g => g.list.filterMap (·.applyTo? "cmd true x")) = some ["cmd true xa"] := by
    decide +kernel
  rw [show crossroads.complete? () (crossroads.parse "cmd true x" ()) = some g from hg,
    Option.map_some] at hlines
  have hmem : "cmd true xb" ∈ g.list.filterMap (·.applyTo? "cmd true x") :=
    List.mem_filterMap.2 ⟨s, hs, happly⟩
  rw [Option.some.inj hlines] at hmem
  exact absurd hmem (by decide)

end CommandTree

end CommandConsole
