import CommandConsole.Proofs.Console
import CommandConsole.Proofs.Exactness
import CommandConsole.Proofs.Exported

/-!
# Walks in the exported tree

The words of a line that is matched by literals alone are the names on a walk through the exported
entries. Both follow the same way down the tree: from a node, or from the target of its redirect,
to a literal that the source may use.
-/

namespace CommandConsole

open Text

variable {L : Language}

/-- Whether a text is one token that names no option. -/
structure IsWord (w : String) : Prop where
  some : w ≠ ""
  ink : ∀ c ∈ w.toList, isBlank c = false
  plain : ¬['-', '-'] <+: w.toList

instance (w : String) : Decidable (IsWord w) :=
  decidable_of_iff (w ≠ "" ∧ (w.toList.all fun c => !isBlank c) = true ∧
      (['-', '-'].isPrefixOf w.toList) = false)
    ⟨fun ⟨hsome, hink, hplain⟩ => ⟨hsome, by simpa using hink, fun hprefix => by
        rw [List.isPrefixOf_iff_prefix.2 hprefix] at hplain
        cases hplain⟩,
      fun h => ⟨h.some, by simpa using h.ink, by
        rw [← Bool.not_eq_true, List.isPrefixOf_iff_prefix]
        exact h.plain⟩⟩

/-- Whether a text is one token. -/
structure IsToken (w : String) : Prop where
  some : w ≠ ""
  ink : ∀ c ∈ w.toList, isBlank c = false

instance (w : String) : Decidable (IsToken w) :=
  decidable_of_iff (w ≠ "" ∧ (w.toList.all fun c => !isBlank c) = true)
    ⟨fun ⟨hsome, hink⟩ => ⟨hsome, by simpa using hink⟩, fun h => ⟨h.some, by simpa using h.ink⟩⟩

theorem IsWord.isToken {w : String} (h : IsWord w) : IsToken w := ⟨h.some, h.ink⟩

/-! ### Walks -/

/-- The children of an entry that are literals of a name. -/
def namedChildren (es : List Entry) (i : Nat) (word : String) : List Nat :=
  match es[i]? with
  | some e => e.children.filter fun j =>
      es[j]?.any fun c => c.shape = .literal ∧ c.name = some word
  | none => []

/-- The literals of a name below an entry and below the target of its redirect. -/
def namedBehind (es : List Entry) (i : Nat) (word : String) : List Nat :=
  namedChildren es i word ++
    match es[i]?.bind (·.redirect) with
    | some target => namedChildren es target word
    | none => []

def Walks (es : List Entry) : Nat → List String → Prop
  | _, [] => True
  | i, word :: words => ∃ j ∈ namedBehind es i word, Walks es j words

instance decidableWalks (es : List Entry) : (i : Nat) → (words : List String) →
    Decidable (Walks es i words)
  | _, [] => .isTrue trivial
  | i, word :: words =>
    have (j : Nat) : Decidable (Walks es j words) := decidableWalks es j words
    inferInstanceAs (Decidable (∃ j ∈ namedBehind es i word, Walks es j words))

theorem mem_namedChildren {es : List Entry} {i j : Nat} {word : String} {e c : Entry}
    (hi : es[i]? = some e) (hj : es[j]? = some c) :
    j ∈ namedChildren es i word ↔
      j ∈ e.children ∧ c.shape = .literal ∧ c.name = some word := by
  simp [namedChildren, hi, hj]

theorem toList_intercalate_cons (word next : String) (words : List String) :
    (" ".intercalate (word :: next :: words)).toList =
      word.toList ++ ' ' :: (" ".intercalate (next :: words)).toList := by
  simp [String.toList_intercalate]

namespace CommandTree

variable {t : CommandTree L} {source : L.Source} {p q : Position L} {layer : NodeId → Nat}

/-- Where the rest of a line goes on behind a node. -/
def onward (t : CommandTree L) (id : NodeId) : NodeId :=
  match (t.node id).forward with
  | some forward => forward.target
  | none => id

/-- Whether words lead from a node down literals that a source may use. -/
def Treads (t : CommandTree L) (source : L.Source) : NodeId → List String → Prop
  | _, [] => True
  | id, word :: words => ∃ c, (t.node id).literals.find? word = some c ∧
      t.Admits source c .allowed ∧ Treads t source (t.onward c) words

/-- Words lead down such literals to the last of them. -/
inductive TreadsTo (t : CommandTree L) (source : L.Source) : NodeId → List String → NodeId → Prop
  | last {id c : NodeId} {word : String} : (t.node id).literals.find? word = some c →
      t.Admits source c .allowed → TreadsTo t source id [word] c
  | more {id m c : NodeId} {word : String} {words : List String} :
      (t.node id).literals.find? word = some m → t.Admits source m .allowed →
      TreadsTo t source (t.onward m) words c → TreadsTo t source id (word :: words) c

/-- Whether every branch that words may lead to is exported, and no other. -/
structure ExportsAll (t : CommandTree L) (source : L.Source) : Prop where
  attached : t.Attached
  /-- A node that redirects has no children of its own. -/
  childless : ∀ id f, (t.node id).forward = some f → (t.node id).children.entries = []
  targets : t.OpenTargets source

/-! ### Where words lead -/

section Words

variable {id c : NodeId} {words : List String}

theorem TreadsTo.ne_nil (h : t.TreadsTo source id words c) : words ≠ [] := by
  cases h <;> exact List.cons_ne_nil _ _

theorem Treads.treadsTo (h : t.Treads source id words) (hsome : words ≠ []) :
    ∃ c, t.TreadsTo source id words c := by
  induction words generalizing id with
  | nil => exact absurd rfl hsome
  | cons word words ih =>
    obtain ⟨m, hm, ha, htreads⟩ := h
    cases words with
    | nil => exact ⟨m, .last hm ha⟩
    | cons next words =>
      obtain ⟨c, hc⟩ := ih htreads (List.cons_ne_nil _ _)
      exact ⟨c, .more hm ha hc⟩

theorem TreadsTo.append_iff (h : t.TreadsTo source id words c) (more : List String) :
    t.Treads source id (words ++ more) ↔ t.Treads source (t.onward c) more := by
  have hstep : ∀ {id m : NodeId} {word : String} {words : List String},
      (t.node id).literals.find? word = some m → t.Admits source m .allowed →
      (t.Treads source id (word :: words) ↔ t.Treads source (t.onward m) words) := by
    intro id m word words hm ha
    constructor
    · rintro ⟨m', hm', -, htreads⟩
      obtain rfl : m' = m := Option.some.inj (hm'.symm.trans hm)
      exact htreads
    · exact fun htreads => ⟨m, hm, ha, htreads⟩
  induction h with
  | last hc ha => exact hstep hc ha
  | more hm ha _ ih => exact (hstep hm ha).trans ih

theorem TreadsTo.treads (h : t.TreadsTo source id words c) : t.Treads source id words := by
  have hnil := (h.append_iff []).2 trivial
  rwa [List.append_nil] at hnil

end Words

/-! ### Walks follow the tree -/

section Entries

variable {es : List Entry} {place? : NodeId → Option Nat} {id : NodeId} {i j : Nat}
  {word : String}

theorem Exports.mem_namedChildren_iff (h : Exports t source es place?) (hf : Filed t layer)
    (ht : Tidied t) (hall : t.ExportsAll source) (hi : place? id = some i) :
    j ∈ namedChildren es i word ↔ ∃ c, (t.node id).literals.find? word = some c ∧
      t.Admits source c .allowed ∧ place? c = some j := by
  obtain ⟨-, e, he, -, -, hchildren, -⟩ := h.entry id i hi
  constructor
  · intro hj
    have hmem : j ∈ e.children := by
      simp only [namedChildren, he] at hj
      exact (List.mem_filter.1 hj).1
    obtain ⟨c, hc, hplace⟩ := forall₂_mem_right hchildren hmem
    obtain ⟨-, e', he', hshape, hname, -⟩ := h.entry c j hplace
    obtain ⟨-, hliteral, hword⟩ := (mem_namedChildren he he').1 hj
    obtain ⟨hvalue, huse⟩ := List.mem_filter.1 hc
    obtain ⟨⟨key, c'⟩, hentry, heq⟩ := List.mem_map.1 hvalue
    obtain rfl : c' = c := heq
    have hkey : (t.node c').name = key := ((hf id).child _ hentry).2.2
    have hchild : (t.node id).children.find? key = some c' :=
      (Keyed.find?_eq_some_iff (ht id).children).2 hentry
    cases hkind : (t.node c').kind with
    | literal name =>
      have hsame : key = word := by
        rw [← hkey]
        simpa [hname, Node.entry, NodeKind.shape, hkind] using hword
      rw [hsame] at hchild
      have hkept := (ht id).literal word c' hchild (by rw [hkind]; rfl)
      exact ⟨c', hkept, (canUse_iff_admits ..).1 huse, hplace⟩
    | root | argument | option =>
      rw [hshape, hkind] at hliteral
      cases hliteral
  · rintro ⟨c, hc, hadmits, hplace⟩
    have hkind := ((hf id).literal _ (Keyed.mem_entries_of_find? hc)).2.2
    have hentry := Keyed.mem_entries_of_find? (hall.attached id word c hc)
    have husable : c ∈ t.usable source (t.node id).children.values :=
      List.mem_filter.2 ⟨List.mem_map.2 ⟨_, hentry, rfl⟩, (canUse_iff_admits ..).2 hadmits⟩
    obtain ⟨j', hj', hplace'⟩ := forall₂_mem_right hchildren.flip husable
    obtain rfl : j' = j := Option.some.inj (hplace'.symm.trans hplace)
    obtain ⟨-, e', he', hshape, hname, -⟩ := h.entry c j' hplace
    refine (mem_namedChildren he he').2 ⟨hj', ?_, ?_⟩
    · rw [hshape, hkind]
      rfl
    · simp [hname, Node.entry, Node.name, NodeKind.name, NodeKind.shape, hkind]

theorem Exports.place_of_literal (h : Exports t source es place?) (hall : t.ExportsAll source)
    (hi : place? id = some i) {c : NodeId} (hc : (t.node id).literals.find? word = some c)
    (hadmits : t.Admits source c .allowed) : ∃ j, place? c = some j := by
  obtain ⟨-, e, -, -, -, hchildren, -⟩ := h.entry id i hi
  have hentry := Keyed.mem_entries_of_find? (hall.attached id word c hc)
  have husable : c ∈ t.usable source (t.node id).children.values :=
    List.mem_filter.2 ⟨List.mem_map.2 ⟨_, hentry, rfl⟩, (canUse_iff_admits ..).2 hadmits⟩
  obtain ⟨j, -, hplace⟩ := forall₂_mem_right hchildren.flip husable
  exact ⟨j, hplace⟩

theorem Exports.namedBehind_eq (h : Exports t source es place?) (hall : t.ExportsAll source)
    (hi : place? id = some i) : ∃ target, place? (t.onward id) = some target ∧
      ∀ word, namedBehind es i word = namedChildren es target word := by
  obtain ⟨-, e, he, -, -, hchildren, hredirect⟩ := h.entry id i hi
  unfold onward namedBehind
  rw [he, Option.bind_some]
  cases hforward : (t.node id).forward with
  | none =>
    rw [hforward] at hredirect
    have hnone : e.redirect = none := by
      cases hr : e.redirect with
      | none => rfl
      | some target =>
        rw [hr] at hredirect
        cases hredirect
    rw [hnone]
    exact ⟨i, hi, fun word => List.append_nil _⟩
  | some f =>
    have hbare : e.children = [] := by
      have hvalues : (t.node id).children.values = [] := by
        rw [Keyed.values, hall.childless id f hforward]
        rfl
      rw [hvalues] at hchildren
      exact List.forall₂_nil_left_iff.1 hchildren
    rw [hforward] at hredirect
    cases hr : e.redirect with
    | none =>
      rw [hr] at hredirect
      cases hredirect
    | some target =>
      rw [hr] at hredirect
      cases hredirect with
      | cons hplace _ =>
        refine ⟨target, hplace, fun word => ?_⟩
        have hnil : namedChildren es i word = [] := by simp [namedChildren, he, hbare]
        rw [hnil]
        rfl

/-- Words trace a walk from the entry of a node exactly when they lead down the literals behind
it. -/
theorem Exports.walks_iff_treads (h : Exports t source es place?) (hf : Filed t layer)
    (ht : Tidied t) (hall : t.ExportsAll source) {words : List String} (hi : place? id = some i) :
    Walks es i words ↔ t.Treads source (t.onward id) words := by
  induction words generalizing id i with
  | nil => exact Iff.rfl
  | cons word words ih =>
    obtain ⟨target, htarget, hbehind⟩ := h.namedBehind_eq hall hi
    have hmem : ∀ j, j ∈ namedBehind es i word ↔
        ∃ c, (t.node (t.onward id)).literals.find? word = some c ∧
          t.Admits source c .allowed ∧ place? c = some j := by
      intro j
      rw [hbehind]
      exact h.mem_namedChildren_iff hf ht hall htarget
    constructor
    · rintro ⟨j, hj, hwalks⟩
      obtain ⟨c, hc, hadmits, hplace⟩ := (hmem j).1 hj
      exact ⟨c, hc, hadmits, (ih hplace).1 hwalks⟩
    · rintro ⟨c, hc, hadmits, htreads⟩
      obtain ⟨j, hplace⟩ := h.place_of_literal hall htarget hc hadmits
      exact ⟨j, (hmem j).2 ⟨c, hc, hadmits, hplace⟩, (ih hplace).2 htreads⟩

end Entries

/-! ### Kinds of the nodes matched -/

/-- The kinds of the nodes that contexts have entered, in order. -/
def kindsOf (t : CommandTree L) (contexts : List (Context L)) : List (NodeKind L) :=
  contexts.flatMap fun c => c.nodes.map fun m => (t.node m.node).kind

theorem kindsOf_append (a b : List (Context L)) :
    t.kindsOf (a ++ b) = t.kindsOf a ++ t.kindsOf b := List.flatMap_append

theorem Gives.kinds {name : String} {option : NodeId} (h : Gives t source p name option q) :
    t.kindsOf q.chain.toList = t.kindsOf p.chain.toList := by
  cases h
  rw [Position.toList_chain, Position.toList_chain, kindsOf_append, kindsOf_append]
  rfl

theorem Enters.kinds {child : NodeId} (h : t.Enters source p child q) :
    t.kindsOf q.chain.toList = t.kindsOf p.chain.toList ++ [(t.node child).kind] := by
  obtain ⟨taken, behind, hr, -, rfl⟩ := h
  obtain ⟨captured, rfl⟩ := hr.capture_eq
  rw [Position.toList_chain, Position.toList_chain, kindsOf_append]
  rcases beyond_cases (t := t) p child { p.context with captured } behind with
    heq | ⟨forward, -, -, heq⟩
  · rw [heq, kindsOf_append]
    simp [kindsOf, Context.enter]
  · rw [heq, kindsOf_append, kindsOf_append]
    simp [kindsOf, Context.enter, Context.startAt]

theorem Step.kinds {i : Nat} (h : Step t source p i q) :
    t.kindsOf p.chain.toList <+: t.kindsOf q.chain.toList := by
  rcases h.gives_or_enters with ⟨name, option, -, hg⟩ | ⟨child, -, he⟩
  · exact hg.kinds ▸ List.prefix_refl _
  · exact he.kinds ▸ List.prefix_append _ _

theorem Run.kinds {choices : List Nat} (h : Run t source p choices q) :
    t.kindsOf p.chain.toList <+: t.kindsOf q.chain.toList :=
  h.invariant (P := fun q => t.kindsOf p.chain.toList <+: t.kindsOf q.chain.toList)
    (fun _ _ _ hp hs => hp.trans hs.kinds) (List.prefix_refl _)

/-! ### Steps in front of a word -/

theorem not_namesOption_of_isWord {word : String} (h : IsWord word)
    (htoken : token p.reader.rest = word.toList) (name : String) (option : NodeId) :
    ¬t.NamesOption p name option := by
  intro hn
  refine h.plain ?_
  rw [← htoken, hn.1]
  exact List.prefix_append ['-', '-'] _

section Words

variable {word : String} {tail : List Char}

/-- In front of a word that names no option, a step goes to the literal that it is, or else takes an
argument. -/
theorem Step.word_cases (hf : Filed t layer)
    (hplain : ∀ name option, ¬t.NamesOption p name option) {i : Nat}
    (htoken : token p.reader.rest = word.toList) (h : Step t source p i q) :
    (∃ c, (t.node p.node).literals.find? word = some c ∧
      t.Admits source c p.context.console ∧ i = 0 ∧
      q = t.beyond p c p.context (p.reader.pass word.length)) ∨
    (∀ c, (t.node p.node).literals.find? word = some c →
      ¬t.Admits source c p.context.console) ∧
      ∃ name type, t.kindsOf q.chain.toList =
        t.kindsOf p.chain.toList ++ [.argument name type] := by
  have hsame : String.ofList (token p.reader.rest) = word := by
    rw [htoken, String.ofList_toList]
  cases h with
  | option hn _ => exact absurd hn (hplain _ _)
  | @literal c _ _ hn he =>
    unfold NamesLiteral at hn
    rw [hsame] at hn
    have hkind := ((hf p.node).literal _ (Keyed.mem_entries_of_find? hn)).2.2
    obtain ⟨taken, behind, hr, ha, rfl⟩ := he
    cases hr with
    | literal hk _ =>
      obtain rfl := NodeKind.literal.inj (hkind.symm.trans hk)
      exact Or.inl ⟨c, hn, ha, rfl, rfl⟩
    | argument hk _ _ =>
      rw [hkind] at hk
      cases hk
  | @argument _ c _ _ hno hc he =>
    obtain ⟨name, type, hkind⟩ := ((hf p.node).argument c (List.mem_of_getElem? hc)).2.2
    refine Or.inr ⟨fun literal hl => hno literal ?_, name, type, ?_⟩
    · unfold NamesLiteral
      rwa [hsame]
    · rw [he.kinds, hkind]

theorem enters_word (hf : Filed t layer) (htoken : token p.reader.rest = word.toList) {c : NodeId}
    (hc : (t.node p.node).literals.find? word = some c)
    (ha : t.Admits source c p.context.console) :
    t.Enters source p c (t.beyond p c p.context (p.reader.pass word.length)) := by
  have hkind := ((hf p.node).literal _ (Keyed.mem_entries_of_find? hc)).2.2
  exact ⟨_, _, .literal hkind htoken, ha, rfl⟩

theorem kinds_word (hf : Filed t layer) (htoken : token p.reader.rest = word.toList) {c : NodeId}
    (hc : (t.node p.node).literals.find? word = some c)
    (ha : t.Admits source c p.context.console) :
    t.kindsOf (t.beyond p c p.context (p.reader.pass word.length)).chain.toList =
      t.kindsOf p.chain.toList ++ [.literal word] := by
  rw [(enters_word hf htoken hc ha).kinds]
  have hkind := ((hf p.node).literal _ (Keyed.mem_entries_of_find? hc)).2.2
  rw [hkind]

theorem step_word_iff (hf : Filed t layer)
    (hplain : ∀ name option, ¬t.NamesOption p name option)
    (htoken : token p.reader.rest = word.toList) {c : NodeId}
    (hc : (t.node p.node).literals.find? word = some c)
    (ha : t.Admits source c p.context.console) (i : Nat) :
    Step t source p i q ↔
      i = 0 ∧ q = t.beyond p c p.context (p.reader.pass word.length) := by
  constructor
  · intro h
    rcases h.word_cases hf hplain htoken with ⟨c', hc', -, hi, hq⟩ | ⟨hno, -⟩
    · obtain rfl : c' = c := Option.some.inj (hc'.symm.trans hc)
      exact ⟨hi, hq⟩
    · exact absurd ha (hno c hc)
  · rintro ⟨rfl, rfl⟩
    refine .literal hplain ?_ (enters_word hf htoken hc ha)
    unfold NamesLiteral
    rw [htoken, String.ofList_toList]
    exact hc

theorem beyond_word {c : NodeId} (hrest : p.reader.rest = word.toList ++ tail)
    (ha : t.Admits source c p.context.console) :
    let q := t.beyond p c p.context (p.reader.pass word.length)
    q.reader.rest = trimFront tail ∧ q.context.console.Open source ∧
      (tail ≠ [] → q.node = t.onward c) := by
  intro q
  have hbehind : (p.reader.pass word.length).rest = tail := by
    rw [Reader.rest_pass, hrest, ← String.length_toList, List.drop_left]
  refine ⟨?_, ?_, fun htail => ?_⟩
  · show (t.beyond p c p.context (p.reader.pass word.length)).reader.rest = _
    rw [reader_beyond, Reader.rest_skipBlank, hbehind]
  · show (t.beyond p c p.context (p.reader.pass word.length)).context.console.Open source
    rcases beyond_cases (t := t) p c p.context (p.reader.pass word.length) with
      heq | ⟨forward, -, -, heq⟩
    · rw [heq]
      exact open_of_admits ha
    · rw [heq]
      exact open_of_admits ha
  · have hcan : (p.reader.pass word.length).canRead = true :=
      Reader.canRead_iff.2 (by rwa [hbehind])
    show (t.beyond p c p.context (p.reader.pass word.length)).node = _
    unfold beyond onward
    cases (t.node c).forward with
    | none => rfl
    | some forward =>
      simp only
      rw [if_pos hcan]

end Words

/-! ### Lines of words -/

theorem intercalate_ink {word : String} (words : List String) (hword : IsToken word) :
    ∃ d ds, (" ".intercalate (word :: words)).toList = d :: ds ∧ isBlank d = false := by
  obtain ⟨d, ds, hcons⟩ : ∃ d ds, word.toList = d :: ds := by
    refine List.exists_cons_of_ne_nil fun hnil => hword.some ?_
    rwa [String.toList_eq_nil_iff] at hnil
  have hink : isBlank d = false := hword.ink d (by simp [hcons])
  cases words with
  | nil => exact ⟨d, ds, by simp [hcons], hink⟩
  | cons next words =>
    refine ⟨d, ds ++ ' ' :: (" ".intercalate (next :: words)).toList, ?_, hink⟩
    rw [toList_intercalate_cons, hcons]
    rfl

theorem intercalate_split {word : String} {words : List String}
    (hwords : ∀ w ∈ word :: words, IsToken w) :
    let line := (" ".intercalate (word :: words)).toList
    line ≠ [] ∧ token line = word.toList ∧ ∃ tail, line = word.toList ++ tail ∧
      trimFront tail = (" ".intercalate words).toList ∧ (words ≠ [] → tail ≠ []) := by
  intro line
  obtain ⟨hword, hmore⟩ := List.forall_mem_cons.1 hwords
  have hsome : line ≠ [] := by
    obtain ⟨d, ds, hd, -⟩ := intercalate_ink words hword
    show (" ".intercalate (word :: words)).toList ≠ []
    rw [hd]
    exact List.cons_ne_nil d ds
  cases words with
  | nil =>
    have hline : line = word.toList ++ [] := by simp [line]
    have htoken : token line = word.toList := hline ▸ token_append hword.ink rfl
    exact ⟨hsome, htoken, [], hline, rfl, fun h => absurd rfl h⟩
  | cons next words =>
    have hline : line = word.toList ++ ' ' :: (" ".intercalate (next :: words)).toList :=
      toList_intercalate_cons ..
    have htoken : token line = word.toList := hline ▸ token_append hword.ink rfl
    refine ⟨hsome, htoken, _, hline, ?_, fun _ => List.cons_ne_nil _ _⟩
    obtain ⟨d, ds, hd, hink⟩ := intercalate_ink words (hmore next (List.mem_cons_self ..))
    have hspace : isBlank ' ' = true := by decide
    rw [hd]
    simp [trimFront, hspace, hink]

theorem open_start (r : Reader) :
    (Position.start (L := L) r).context.console.Open source := fun hno => by cases hno.1

theorem start_words {words : List String} (hsome : words ≠ []) (hwords : ∀ w ∈ words, IsToken w) :
    (∃ c ∈ (" ".intercalate words).toList, isBlank c = false) ∧
      (Position.start (L := L) (Reader.ofString (" ".intercalate words)).skipBlank).reader.rest =
        (" ".intercalate words).toList := by
  obtain ⟨word, words, rfl⟩ := List.exists_cons_of_ne_nil hsome
  obtain ⟨d, ds, hline, hink⟩ := intercalate_ink words (hwords word List.mem_cons_self)
  refine ⟨⟨d, by simp [hline], hink⟩, ?_⟩
  show (Reader.skipBlank _).rest = _
  rw [Reader.rest_skipBlank]
  show trimFront (" ".intercalate (word :: words)).toList = _
  rw [hline, trimFront, List.dropWhile_cons, if_neg (by simp [hink])]

/-! ### The step of a word -/

theorem entered_beyond {c : NodeId} {behind : Reader} (hover : behind.rest = []) :
    let context := (t.beyond p c p.context behind).context
    context.nodes.getLast?.map (·.node) = some c ∧ context.command = (t.node c).command := by
  intro context
  rcases beyond_cases (t := t) p c p.context behind with heq | ⟨forward, -, hcan, -⟩
  · rw [show context = _ from congrArg Position.context heq]
    simp [Context.enter]
  · exact absurd hover (Reader.canRead_iff.1 hcan)

/-- What the step in front of a word is, if the word is a literal that admits the source and others
are behind it: the only step, with the other words left to read. -/
structure StepsOver (t : CommandTree L) (source : L.Source) (p : Position L) (word : String)
    (words : List String) (c : NodeId) (q : Position L) : Prop where
  front : p.reader.rest ≠ []
  step_iff : ∀ i q', Step t source p i q' ↔ i = 0 ∧ q' = q
  rest : q.reader.rest = (" ".intercalate words).toList
  shorter : q.reader.rest.length < p.reader.rest.length
  opened : q.context.console.Open source
  kinds : t.kindsOf q.chain.toList = t.kindsOf p.chain.toList ++ [.literal word]
  node : words ≠ [] → q.node = t.onward c
  entered : words = [] → q.context.nodes.getLast?.map (·.node) = some c ∧
    q.context.command = (t.node c).command

theorem Filed.stepsOver (hf : Filed t layer) {word : String} {words : List String} {c : NodeId}
    (hwords : ∀ w ∈ word :: words, IsWord w)
    (hrest : p.reader.rest = (" ".intercalate (word :: words)).toList)
    (hopen : p.context.console.Open source) (hc : (t.node p.node).literals.find? word = some c)
    (hallowed : t.Admits source c .allowed) : ∃ q, t.StepsOver source p word words c q := by
  have hword := hwords word List.mem_cons_self
  obtain ⟨hsome, htoken, tail, hline, htrim, htail⟩ :=
    intercalate_split fun w hw => (hwords w hw).isToken
  rw [← hrest] at hsome htoken hline
  have ha := (admits_iff_of_open hopen c).2 hallowed
  have hplain := not_namesOption_of_isWord (t := t) hword htoken
  obtain ⟨hbehind, hopen', hnode⟩ := beyond_word hline ha
  refine ⟨_, hsome, fun i q => step_word_iff hf hplain htoken hc ha i, hbehind.trans htrim, ?_,
    hopen', kinds_word hf htoken hc ha, fun hnil => hnode (htail hnil), fun hnil => ?_⟩
  · have hlength : 0 < word.toList.length := List.length_pos_iff.2 fun hnil =>
      hword.some (String.toList_eq_nil_iff.1 hnil)
    have hle : (trimFront tail).length ≤ tail.length := (List.dropWhile_suffix _).length_le
    rw [hbehind, hline, List.length_append]
    omega
  · refine entered_beyond ?_
    rw [Reader.rest_pass, hrest, ← String.length_toList, hnil]
    simp

/-! ### Runs along words -/

theorem treads_of_run (hf : Filed t layer) {words : List String} {choices : List Nat}
    (hwords : ∀ w ∈ words, IsWord w)
    (hrest : p.reader.rest = (" ".intercalate words).toList)
    (hopen : p.context.console.Open source) (hrun : Run t source p choices q)
    (hq : q.reader.rest = [])
    (hkinds : ∀ name type, .argument name type ∉ t.kindsOf q.chain.toList) :
    t.Treads source p.node words := by
  induction words generalizing p choices with
  | nil => trivial
  | cons word words ih =>
    obtain ⟨hword, hmore⟩ := List.forall_mem_cons.1 hwords
    obtain ⟨hsome, htoken, tail, hline, htrim, htail⟩ :=
      intercalate_split fun w hw => (hwords w hw).isToken
    rw [← hrest] at hsome htoken hline
    cases hrun with
    | done => exact absurd hq hsome
    | step _ hs hr =>
      have hplain := not_namesOption_of_isWord (t := t) hword htoken
      rcases hs.word_cases hf hplain htoken with ⟨c, hc, ha, -, rfl⟩ | ⟨-, name, type, hfirst⟩
      · refine ⟨c, hc, (admits_iff_of_open hopen c).1 ha, ?_⟩
        cases words with
        | nil => trivial
        | cons next words =>
          obtain ⟨hbehind, hopen', hnode⟩ := beyond_word hline ha
          rw [← hnode (htail (List.cons_ne_nil _ _))]
          exact ih hmore (hbehind.trans htrim) hopen' hr
      · exact absurd (hr.kinds.subset (by simp [hfirst])) (hkinds name type)

/-- If words lead down literals that the source may use, the line of the words is matched by these
literals, and in no other way. -/
theorem Treads.runs (hf : Filed t layer) {words : List String} (h : t.Treads source p.node words)
    (hwords : ∀ w ∈ words, IsWord w)
    (hrest : p.reader.rest = (" ".intercalate words).toList)
    (hopen : p.context.console.Open source) :
    (∃ choices q, Run t source p choices q ∧ q.reader.rest = []) ∧
      ∀ choices q, Run t source p choices q → q.reader.rest = [] →
        t.kindsOf q.chain.toList = t.kindsOf p.chain.toList ++ words.map .literal := by
  induction words generalizing p with
  | nil =>
    refine ⟨⟨[], p, .done p, hrest⟩, fun choices q hrun _ => ?_⟩
    obtain ⟨-, rfl⟩ := run_of_rest_nil hrest hrun
    simp
  | cons word words ih =>
    obtain ⟨c, hc, hallowed, htreads⟩ := h
    obtain ⟨q₁, hq₁⟩ := hf.stepsOver hwords hrest hopen hc hallowed
    have hnext : t.Treads source q₁.node words := by
      cases words with
      | nil => trivial
      | cons next words => exact hq₁.node (List.cons_ne_nil _ _) ▸ htreads
    obtain ⟨⟨choices, q, hrun, hq⟩, hall⟩ :=
      ih hnext (List.forall_mem_cons.1 hwords).2 hq₁.rest hq₁.opened
    refine ⟨⟨0 :: choices, q, .step hq₁.front ((hq₁.step_iff 0 _).2 ⟨rfl, rfl⟩) hrun, hq⟩, ?_⟩
    intro choices' q' hrun' hq'
    cases hrun' with
    | done => exact absurd hq' hq₁.front
    | step _ hs hr =>
      obtain ⟨-, rfl⟩ := (hq₁.step_iff _ _).1 hs
      rw [hall _ q' hr hq', hq₁.kinds]
      simp

theorem TreadsTo.entered (hf : Filed t layer) {words : List String} {id c : NodeId}
    (h : t.TreadsTo source id words c) (hid : p.node = id) (hwords : ∀ w ∈ words, IsWord w)
    (hrest : p.reader.rest = (" ".intercalate words).toList)
    (hopen : p.context.console.Open source) {choices : List Nat} (hrun : Run t source p choices q)
    (hq : q.reader.rest = []) :
    q.context.nodes.getLast?.map (·.node) = some c ∧ q.context.command = (t.node c).command := by
  induction h generalizing p choices with
  | last hc hallowed =>
    subst hid
    obtain ⟨q₁, hq₁⟩ := hf.stepsOver hwords hrest hopen hc hallowed
    cases hrun with
    | done => exact absurd hq hq₁.front
    | step _ hs hr =>
      obtain ⟨-, rfl⟩ := (hq₁.step_iff _ _).1 hs
      obtain ⟨-, rfl⟩ := run_of_rest_nil (hq₁.rest.trans (by simp)) hr
      exact hq₁.entered rfl
  | more hm hallowed htreads ih =>
    subst hid
    obtain ⟨q₁, hq₁⟩ := hf.stepsOver hwords hrest hopen hm hallowed
    cases hrun with
    | done => exact absurd hq hq₁.front
    | step _ hs hr =>
      obtain ⟨-, rfl⟩ := (hq₁.step_iff _ _).1 hs
      exact ih (hq₁.node htreads.ne_nil) (List.forall_mem_cons.1 hwords).2 hq₁.rest hq₁.opened hr

/-- In front of a single step, parsing goes on behind this step. -/
theorem Filed.follow_only (hf : Filed t layer)
    (honly : ∀ i q', Step t source p i q' ↔ i = 0 ∧ q' = q) :
    (t.follow source p.node p.context p.reader).under p.closed = t.arrive source p q := by
  obtain ⟨steps, hsorted, hmem, heq⟩ := hf.follow_steps source p
  have hall : ∀ s ∈ steps, s = (0, q) := fun s hs =>
    Prod.ext_iff.2 ((honly s.1 s.2).1 ((hmem s.1 s.2).2 hs))
  have hsingle : steps = [(0, q)] := by
    cases steps with
    | nil => exact absurd ((hmem 0 q).1 ((honly 0 q).2 ⟨rfl, rfl⟩)) List.not_mem_nil
    | cons s steps =>
      obtain rfl := hall s List.mem_cons_self
      cases steps with
      | nil => rfl
      | cons s' steps =>
        have hlt := (List.pairwise_cons.1 hsorted).1 s' List.mem_cons_self
        rw [hall s' (by simp)] at hlt
        exact absurd hlt (Nat.lt_irrefl 0)
  rw [heq, hsingle]
  rfl

/-- A line of words that lead down literals is consumed, whatever arguments other words may be
read as. -/
theorem Treads.consumed (hf : Filed t layer) {words : List String}
    (h : t.Treads source p.node words) (hsome : words ≠ []) (hwords : ∀ w ∈ words, IsWord w)
    (hrest : p.reader.rest = (" ".intercalate words).toList)
    (hopen : p.context.console.Open source) :
    (t.follow source p.node p.context p.reader).reader.rest = [] := by
  induction words generalizing p with
  | nil => exact absurd rfl hsome
  | cons word words ih =>
    obtain ⟨c, hc, hallowed, htreads⟩ := h
    obtain ⟨q, hq⟩ := hf.stepsOver hwords hrest hopen hc hallowed
    refine (congrArg (·.reader.rest) (hf.follow_only hq.step_iff)).trans ?_
    unfold arrive
    split
    · next hgo =>
      have hmore : words ≠ [] := fun hnil => hgo.1 (by rw [hq.rest, hnil]; simp)
      exact ih (hq.node hmore ▸ htreads) hmore (List.forall_mem_cons.1 hwords).2 hq.rest hq.opened
    · next hstay => exact Classical.byContradiction fun hleft => hstay ⟨hleft, hq.shorter⟩

/-! ### Lines and walks -/

/-- Whether a parsed line is consumed, and every word of it is matched by a literal. -/
def Spells (t : CommandTree L) (parsed : Parsed L) (words : List String) : Prop :=
  parsed.isComplete = true ∧ t.kindsOf parsed.chain.toList = words.map .literal

theorem parse_spells_iff_treads (hL : L.ReadsForward) (ht : t.Reachable) {words : List String}
    (hsome : words ≠ []) (hwords : ∀ w ∈ words, IsWord w) :
    t.Spells (t.parse (" ".intercalate words) source) words ↔ t.Treads source root words := by
  obtain ⟨layer, hg⟩ := ht.grown
  obtain ⟨hblank, hrest⟩ := start_words (L := L) hsome fun w hw => (hwords w hw).isToken
  let start := Position.start (L := L) (Reader.ofString (" ".intercalate words)).skipBlank
  have hopen : start.context.console.Open source := open_start _
  have hstart : t.kindsOf start.chain.toList = [] := rfl
  obtain ⟨hcomplete, hfirst⟩ :=
    parse_complete_iff_run hL ht (" ".intercalate words) source hblank
  constructor
  · rintro ⟨hover, hkinds⟩
    obtain ⟨choices, q, hq, hchain⟩ := hfirst hover
    rw [hchain] at hkinds
    exact treads_of_run hg.filed hwords hrest hopen hq.run hq.consumed (by simp [hkinds])
  · intro htreads
    obtain ⟨hruns, hall⟩ := Treads.runs (p := start) hg.filed htreads hwords hrest hopen
    have hover := hcomplete.2 hruns
    obtain ⟨choices, q, hq, hchain⟩ := hfirst hover
    refine ⟨hover, ?_⟩
    rw [hchain, hall choices q hq.run hq.consumed, hstart]
    rfl

theorem Filed.run_of_complete (hf : Filed t layer) {words : List String} (hsome : words ≠ [])
    (hwords : ∀ w ∈ words, IsToken w)
    (h : (t.parse (" ".intercalate words) source).isComplete = true) :
    ∃ choices q,
      Run t source (.start (Reader.ofString (" ".intercalate words)).skipBlank) choices q ∧
      q.reader.rest = [] ∧ (t.parse (" ".intercalate words) source).chain = q.chain := by
  obtain ⟨⟨c, hc, -⟩, hrest⟩ := start_words (L := L) hsome hwords
  obtain ⟨q, failures, heq, hrun⟩ :=
    hf.follow_ends source (.start (Reader.ofString (" ".intercalate words)).skipBlank)
  have hout : (t.parse (" ".intercalate words) source).outcome =
      ⟨q.chain, q.reader, failures⟩ := heq
  have hover : q.reader.rest = [] := by
    rw [Parsed.isComplete_iff, Parsed.reader, hout] at h
    exact h
  have hstart : (Position.start (L := L)
      (Reader.ofString (" ".intercalate words)).skipBlank).reader.rest ≠ [] := by
    rw [hrest]
    exact List.ne_nil_of_mem hc
  rcases hrun with rfl | ⟨i, q₁, choices, hs, hr⟩
  · exact absurd hover hstart
  · exact ⟨i :: choices, q, .step hstart hs hr, hover, congrArg Outcome.chain hout⟩

theorem TreadsTo.parse (hf : Filed t layer) {words : List String} {c : NodeId}
    (h : t.TreadsTo source root words c) (hwords : ∀ w ∈ words, IsWord w) :
    let parsed := t.parse (" ".intercalate words) source
    parsed.isComplete = true ∧ parsed.chain.last.nodes.getLast?.map (·.node) = some c ∧
      parsed.chain.last.command = (t.node c).command := by
  intro parsed
  have htokens : ∀ w ∈ words, IsToken w := fun w hw => (hwords w hw).isToken
  obtain ⟨-, hrest⟩ := start_words (L := L) h.ne_nil htokens
  have hover : parsed.isComplete = true :=
    Parsed.isComplete_iff.2 (Treads.consumed (p := .start _) hf h.treads h.ne_nil hwords hrest
      (open_start _))
  obtain ⟨choices, q, hrun, hq, hchain⟩ := hf.run_of_complete h.ne_nil htokens hover
  have hentered := h.entered hf rfl hwords hrest (open_start _) hrun hq
  rw [hchain, Position.last_chain]
  exact ⟨hover, hentered⟩

/-! ### A tree with a redirect -/

/-- A menu with an entry, which the console may be excluded from, and a short way to the menu. -/
def relay (policy : ConsolePolicy) : Dispatcher console where
  tree := built [
    ({ Blueprint.literal "menu" with
      children := [(Blueprint.literal "stop").executes ConsoleAction.stop] }).console policy,
    { Blueprint.literal "m" with forward := some ⟨1, none, false⟩ }]
  aliases := []

theorem reachable_relay (policy : ConsolePolicy) : (relay policy).tree.Reachable := by
  dsimp only [relay]
  exact reachable_built _

theorem exportsAll_relay (source : Actor) : (relay .allowed).tree.ExportsAll source := by
  have hsize : (relay .allowed).tree.size ≤ 4 := by decide +kernel
  refine ⟨fun id name c hc => ?_, fun id f hf => ?_, fun _ id f _ => ?_⟩
  · have hsame := forall_node (P := fun n => n.literals.entries = n.children.entries) hsize rfl
      (by decide +kernel) id
    rwa [Keyed.find?, ← hsame]
  · have hnone := forall_node (P := fun n => n.forward.isSome = true → n.children.entries = [])
      hsize (fun h => by cases h) (by decide +kernel) id
    exact hnone (by rw [hf]; rfl)
  · exact forall_node (P := fun n => n.gates.console ≠ .denied) hsize (fun h => by cases h)
      (by decide +kernel) f.target

/-! ### The exported tree and the parser -/

/-- The words of a line that is matched by literals trace a walk in the exported tree, and the other
way round, if every branch is exported that words may lead to. -/
theorem parse_spells_iff_walks (hL : L.ReadsForward) {d : Dispatcher L} (ht : d.tree.Reachable)
    (haliases : d.aliases = []) (hall : d.tree.ExportsAll source) {words : List String}
    (hsome : words ≠ []) (hwords : ∀ w ∈ words, IsWord w) :
    d.tree.Spells (d.tree.parse (" ".intercalate words) source) words ↔
      Walks (d.declare source) 0 words := by
  obtain ⟨layer, hg⟩ := ht.grown
  obtain ⟨place?, hexports⟩ := hg.exports hall.targets rfl haliases
  have hroot : d.tree.onward root = root := by
    rw [onward, hg.root_plain.2.1]
  rw [parse_spells_iff_treads hL ht hsome hwords,
    hexports.walks_iff_treads hg.filed hg.tidied hall hexports.root, hroot]

theorem parse_spells_iff_walks_relay :
    let d := relay .allowed
    let source := Actor.console "Server"
    Walks (d.declare source) 0 ["m", "stop"] ∧
      (d.tree.Spells (d.tree.parse (" ".intercalate ["m", "stop"]) source) ["m", "stop"] ↔
        Walks (d.declare source) 0 ["m", "stop"]) := by
  intro d source
  exact ⟨by decide +kernel, parse_spells_iff_walks console_readsForward (reachable_relay .allowed)
    (by decide +kernel) (exportsAll_relay source) (List.cons_ne_nil _ _) (by decide)⟩

/-- The parser follows a redirect to a node that excludes the console; the exported tree has no
branches there. -/
theorem parse_spells_without_walk :
    ¬∀ (d : Dispatcher console) (source : Actor) (words : List String), d.tree.Reachable →
      d.aliases = [] → words ≠ [] → (∀ w ∈ words, IsWord w) →
      (d.tree.Spells (d.tree.parse (" ".intercalate words) source) words ↔
        Walks (d.declare source) 0 words) := by
  intro h
  let source := Actor.console "Server"
  let t := (relay .denied).tree
  have htreads : t.Treads source root ["m", "stop"] := by
    have hm : t.Admits source 3 .allowed := (canUse_iff_admits ..).1 (by decide +kernel)
    have hstop : t.Admits source 2 .allowed := (canUse_iff_admits ..).1 (by decide +kernel)
    exact ⟨3, by decide +kernel, hm, 2, by decide +kernel, hstop, trivial⟩
  have hspells := (parse_spells_iff_treads console_readsForward (reachable_relay .denied)
    (List.cons_ne_nil _ _) (by decide)).2 htreads
  have hwalks := (h (relay .denied) source ["m", "stop"] (reachable_relay .denied)
    (by decide +kernel) (List.cons_ne_nil _ _) (by decide)).1 hspells
  revert hwalks
  decide +kernel

end CommandTree

end CommandConsole
