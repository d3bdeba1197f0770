import CommandConsole.Proofs.Edits
import CommandConsole.Proofs.LineEnd
import CommandConsole.Proofs.Walks
import Mathlib.Data.Bool.AllAny

/-!
# Options anywhere below their owner

Where a line is matched by literals and one option, the steps are forced: every word leads on to
its literal, and the name of the option to its value. What the line comes to is then read off the
path and the value. Nothing in it depends on the node at which the option is given.
-/

namespace CommandConsole

open Text

variable {L : Language}

/-- Whether a line is consumed in one context that enters some nodes. -/
structure Parsed.RunsThrough (parsed : Parsed L) (ids : List NodeId) : Prop where
  complete : parsed.isComplete = true
  single : parsed.chain.redirected = []
  nodes : parsed.chain.outer.nodes.map (·.node) = ids

def Context.values (c : Context L) : List (String × Value) :=
  c.captured.entries.map fun e => (e.1, e.2.value)

namespace CommandTree

variable {t : CommandTree L} {source : L.Source} {p p' p'' q : Position L} {layer : NodeId → Nat}

/-! ### Paths of literals -/

/-- Whether a word leads from a node to a literal, behind which the line goes on there. -/
structure LeadsDown (t : CommandTree L) (id : NodeId) (word : String) (child : NodeId) : Prop where
  isToken : IsToken word
  plain : namedOption? (t.node id) word.toList = none
  found : (t.node id).literals.find? word = some child
  stays : (t.node child).forward = none

/-- Whether words lead down literals, one below the other. -/
def LiteralPath (t : CommandTree L) : NodeId → List (String × NodeId) → Prop
  | _, [] => True
  | id, (word, child) :: path => t.LeadsDown id word child ∧ LiteralPath t child path

def endOf (id : NodeId) : List (String × NodeId) → NodeId
  | [] => id
  | (_, child) :: path => endOf child path

/-- The position behind the words of a path. -/
def along (t : CommandTree L) (p : Position L) : List (String × NodeId) → Position L
  | [] => p
  | (word, child) :: path =>
    t.along (t.beyond p child p.context (p.reader.pass word.length)) path

/-- The position behind an option that takes a token as its value. -/
def behindOption (p : Position L) (name : String) (option : NodeId) (token : String)
    (value : Value) : Position L :=
  let named := p.reader.pass (2 + name.length)
  let start := named.skipBlank
  let behind := start.pass token.length
  ⟨p.closed, p.node, p.context.takeOption
    ⟨name, option, p.node, ⟨p.reader.cursor, named.cursor⟩, ⟨start.cursor, behind.cursor⟩⟩ value,
    behind.skipBlank⟩

theorem literalPath_append {id : NodeId} {front back : List (String × NodeId)} :
    t.LiteralPath id (front ++ back) ↔
      t.LiteralPath id front ∧ t.LiteralPath (endOf id front) back := by
  induction front generalizing id with
  | nil => simp [LiteralPath, endOf]
  | cons s front ih =>
    show _ ∧ t.LiteralPath s.2 (front ++ back) ↔ (_ ∧ _) ∧ _
    rw [ih, and_assoc]
    rfl

theorem LiteralPath.isToken {id : NodeId} {path : List (String × NodeId)}
    (h : t.LiteralPath id path) : ∀ w ∈ path.map (·.1), IsToken w := by
  induction path generalizing id with
  | nil => simp
  | cons s path ih => exact List.forall_mem_cons.2 ⟨h.1.isToken, ih h.2⟩

theorem LiteralPath.kinds (hf : Filed t layer) {id : NodeId} {path : List (String × NodeId)}
    (h : t.LiteralPath id path) :
    path.map (fun s => (t.node s.2).kind) = path.map fun s => .literal s.1 := by
  induction path generalizing id with
  | nil => rfl
  | cons s path ih =>
    have hkind := ((hf id).literal _ (Keyed.mem_entries_of_find? h.1.found)).2.2
    rw [List.map_cons, List.map_cons, ih h.2, hkind]

/-- What the words of a path leave behind, and what they keep. -/
structure GoesDown (t : CommandTree L) (p : Position L) (path : List (String × NodeId))
    (q : Position L) : Prop where
  closed : q.closed = p.closed
  node : q.node = endOf p.node path
  nodes : q.context.nodes.map (·.node) = p.context.nodes.map (·.node) ++ path.map (·.2)
  command : q.context.command = path.foldl (fun _ s => (t.node s.2).command) p.context.command
  options : q.context.options = p.context.options
  captured : q.context.captured = p.context.captured

theorem beyond_eq_of_stays {child : NodeId} (h : (t.node child).forward = none)
    (taken : Context L) (behind : Reader) :
    t.beyond p child taken behind =
      ⟨p.closed, child, taken.enter child (t.node child) ⟨p.reader.cursor, behind.cursor⟩
        ((t.node child).gates.console.resolve p.context.console), behind.skipBlank⟩ := by
  unfold beyond
  rw [h]

theorem LiteralPath.goesDown {path : List (String × NodeId)} (h : t.LiteralPath p.node path) :
    t.GoesDown p path (t.along p path) := by
  induction path generalizing p with
  | nil => exact ⟨rfl, rfl, by simp [along], rfl, rfl, rfl⟩
  | cons s path ih =>
    obtain ⟨hstep, hmore⟩ := h
    have hbeyond := beyond_eq_of_stays (p := p) hstep.stays p.context (p.reader.pass s.1.length)
    have hnode : (t.beyond p s.2 p.context (p.reader.pass s.1.length)).node = s.2 := by
      rw [hbeyond]
    have hall := ih (p := t.beyond p s.2 p.context (p.reader.pass s.1.length)) (by rwa [hnode])
    show t.GoesDown p _ (t.along (t.beyond p s.2 p.context (p.reader.pass s.1.length)) path)
    rw [hbeyond] at hall ⊢
    refine ⟨hall.closed, hall.node, hall.nodes.trans ?_, hall.command, hall.options, hall.captured⟩
    simp [Context.enter]

/-! ### Forced steps -/

/-- Whether the runs from a position that take all that is left are those from another one. -/
def ComesTo (t : CommandTree L) (source : L.Source) (p p' : Position L) : Prop :=
  ∀ q, q.reader.rest = [] →
    ((∃ choices, Run t source p choices q) ↔ ∃ choices, Run t source p' choices q)

theorem ComesTo.trans (h : t.ComesTo source p p') (h' : t.ComesTo source p' p'') :
    t.ComesTo source p p'' :=
  fun q hq => (h q hq).trans (h' q hq)

theorem comesTo_of_step (hp : p.reader.rest ≠ [])
    (h : ∀ i q, Step t source p i q ↔ i = 0 ∧ q = p') : t.ComesTo source p p' := by
  intro q hq
  constructor
  · rintro ⟨choices, hrun⟩
    cases hrun with
    | done => exact absurd hq hp
    | step _ hs hr =>
      obtain ⟨-, rfl⟩ := (h _ _).1 hs
      exact ⟨_, hr⟩
  · rintro ⟨choices, hrun⟩
    exact ⟨_, .step hp ((h 0 p').2 ⟨rfl, rfl⟩) hrun⟩

/-! ### Words of a path -/

section Words

variable {word : String} {child : NodeId} {back : List String}

theorem LeadsDown.not_namesOption (h : t.LeadsDown p.node word child)
    (htoken : token p.reader.rest = word.toList) (name : String) (option : NodeId) :
    ¬t.NamesOption p name option := by
  refine namedOption?_eq_none_iff.1 ?_ name option
  rw [htoken]
  exact h.plain

/-- In front of a word of a path that the source may follow, the only step is along it. -/
theorem LeadsDown.comesTo (hf : Filed t layer) (h : t.LeadsDown p.node word child)
    (hback : ∀ w ∈ back, IsToken w)
    (hrest : p.reader.rest = (" ".intercalate (word :: back)).toList)
    (hopen : p.context.console.Open source) (hallowed : t.Admits source child .allowed) :
    let next := t.beyond p child p.context (p.reader.pass word.length)
    t.ComesTo source p next ∧ next.reader.rest = (" ".intercalate back).toList ∧
      next.context.console.Open source := by
  intro next
  obtain ⟨hsome, htoken, tail, hline, htrim, -⟩ :=
    intercalate_split (List.forall_mem_cons.2 ⟨h.isToken, hback⟩)
  rw [← hrest] at hsome htoken hline
  have ha : t.Admits source child p.context.console := (admits_iff_of_open hopen child).2 hallowed
  obtain ⟨hbehind, hopen', -⟩ := beyond_word hline ha
  refine ⟨comesTo_of_step hsome fun i q => ?_, hbehind.trans htrim, hopen'⟩
  exact step_word_iff hf (h.not_namesOption htoken) htoken h.found ha i

/-- A run that matches a word of a path by a literal goes along the path. -/
theorem LeadsDown.admits_of_run (hf : Filed t layer) (h : t.LeadsDown p.node word child)
    (hback : ∀ w ∈ back, IsToken w)
    (hrest : p.reader.rest = (" ".intercalate (word :: back)).toList)
    (hopen : p.context.console.Open source) {choices : List Nat} (hrun : Run t source p choices q)
    (hq : q.reader.rest = []) {more : List (NodeKind L)}
    (hkinds : t.kindsOf q.chain.toList = t.kindsOf p.chain.toList ++ .literal word :: more) :
    t.Admits source child .allowed := by
  obtain ⟨hsome, htoken, -⟩ := intercalate_split (List.forall_mem_cons.2 ⟨h.isToken, hback⟩)
  rw [← hrest] at hsome htoken
  cases hrun with
  | done => exact absurd hq hsome
  | step _ hs hr =>
    rcases hs.word_cases hf (h.not_namesOption htoken) htoken with
      ⟨c, hc, ha, -⟩ | ⟨-, name, type, hfirst⟩
    · obtain rfl : c = child := Option.some.inj (hc.symm.trans h.found)
      exact (admits_iff_of_open hopen c).1 ha
    · -- an argument is not a literal
      have hle := hr.kinds
      rw [hkinds, hfirst] at hle
      have hhead := (List.prefix_append_right_inj _).1 hle
      simp at hhead

end Words

section Paths

variable {path : List (String × NodeId)} {back : List String}

theorem LiteralPath.comesTo (hf : Filed t layer) (h : t.LiteralPath p.node path)
    (hback : ∀ w ∈ back, IsToken w)
    (hrest : p.reader.rest = (" ".intercalate (path.map (·.1) ++ back)).toList)
    (hopen : p.context.console.Open source)
    (hallowed : ∀ s ∈ path, t.Admits source s.2 .allowed) :
    t.ComesTo source p (t.along p path) ∧
      (t.along p path).reader.rest = (" ".intercalate back).toList ∧
      (t.along p path).context.console.Open source := by
  induction path generalizing p with
  | nil => exact ⟨fun _ _ => Iff.rfl, hrest, hopen⟩
  | cons s path ih =>
    obtain ⟨hstep, hmore⟩ := h
    obtain ⟨hchild, hrestAllowed⟩ := List.forall_mem_cons.1 hallowed
    have hwords : ∀ w ∈ path.map (·.1) ++ back, IsToken w := by
      rw [List.forall_mem_append]
      exact ⟨hmore.isToken, hback⟩
    obtain ⟨hcomes, hrest', hopen'⟩ := hstep.comesTo hf hwords hrest hopen hchild
    have hnode := congrArg Position.node
      (beyond_eq_of_stays (p := p) hstep.stays p.context (p.reader.pass s.1.length))
    obtain ⟨hcomes', hdone⟩ := ih (by rw [hnode]; exact hmore) hrest' hopen' hrestAllowed
    exact ⟨hcomes.trans hcomes', hdone⟩

theorem LiteralPath.admits_of_run (hf : Filed t layer) (h : t.LiteralPath p.node path)
    (hback : ∀ w ∈ back, IsToken w)
    (hrest : p.reader.rest = (" ".intercalate (path.map (·.1) ++ back)).toList)
    (hopen : p.context.console.Open source) {choices : List Nat} (hrun : Run t source p choices q)
    (hq : q.reader.rest = []) {more : List (NodeKind L)}
    (hkinds : t.kindsOf q.chain.toList =
      t.kindsOf p.chain.toList ++ (path.map (fun s => .literal s.1) ++ more)) :
    ∀ s ∈ path, t.Admits source s.2 .allowed := by
  induction path generalizing p choices with
  | nil => simp
  | cons s path ih =>
    obtain ⟨hstep, hmore⟩ := h
    have hwords : ∀ w ∈ path.map (·.1) ++ back, IsToken w := by
      rw [List.forall_mem_append]
      exact ⟨hmore.isToken, hback⟩
    have hchild := hstep.admits_of_run hf hwords hrest hopen hrun hq hkinds
    obtain ⟨hcomes, hrest', hopen'⟩ := hstep.comesTo hf hwords hrest hopen hchild
    obtain ⟨choices', hrun'⟩ := (hcomes q hq).1 ⟨choices, hrun⟩
    have hnode := congrArg Position.node
      (beyond_eq_of_stays (p := p) hstep.stays p.context (p.reader.pass s.1.length))
    refine List.forall_mem_cons.2 ⟨hchild, ih (by rw [hnode]; exact hmore) hrest' hopen' hrun' ?_⟩
    obtain ⟨-, htoken, -⟩ := intercalate_split (List.forall_mem_cons.2 ⟨hstep.isToken, hwords⟩)
    rw [hkinds, kinds_word hf ((congrArg token hrest).trans htoken) hstep.found
      ((admits_iff_of_open hopen s.2).2 hchild)]
    simp

end Paths

/-! ### The text that literals take -/

theorem length_skipBlank_le (r : Reader) : r.skipBlank.rest.length ≤ r.rest.length := by
  rw [Reader.rest_skipBlank]
  exact (List.dropWhile_suffix _).length_le

theorem length_trimFront_lt {tail : List Char} (hends : endsToken tail = true)
    (hsome : trimFront tail ≠ []) : (trimFront tail).length < tail.length := by
  cases tail with
  | nil => exact absurd rfl hsome
  | cons c tail =>
    have hblank : isBlank c = true := hends
    rw [trimFront, List.dropWhile_cons, if_pos hblank]
    exact Nat.lt_succ_of_le (List.dropWhile_suffix _).length_le

theorem Enters.literal_rest {child : NodeId} {word : String} (h : t.Enters source p child q)
    (hkind : (t.node child).kind = .literal word) :
    ∃ tail, p.reader.rest = word.toList ++ tail ∧ endsToken tail = true ∧
      q.reader.rest = trimFront tail := by
  obtain ⟨taken, behind, hr, -, rfl⟩ := h
  cases hr with
  | literal hk htoken =>
    obtain rfl := NodeKind.literal.inj (hkind.symm.trans hk)
    have hrest := token_append_dropWhile p.reader.rest
    rw [htoken] at hrest
    refine ⟨_, hrest.symm, endsToken_append_token _, ?_⟩
    rw [reader_beyond, Reader.rest_skipBlank, Reader.rest_pass, ← String.length_toList, ← hrest,
      List.drop_left, hrest]
  | argument hk _ _ =>
    rw [hkind] at hk
    cases hk

theorem Run.length_le (hL : L.ReadsForward) {choices : List Nat} (h : Run t source p choices q)
    {words : List String} (hwords : ∀ w ∈ words, IsToken w)
    (hkinds : t.kindsOf q.chain.toList = t.kindsOf p.chain.toList ++ words.map .literal) :
    (" ".intercalate words).length ≤ p.reader.rest.length := by
  induction h generalizing words with
  | done p =>
    have hnil : words = [] := by simpa using hkinds
    simp [hnil]
  | @step p q₁ q i choices _ hs hr ih =>
    rcases hs.gives_or_enters with ⟨name, option, -, hg⟩ | ⟨child, -, he⟩
    · obtain ⟨n, -, hreader⟩ := hg.passes hL
      rw [← hg.kinds] at hkinds
      refine (ih hwords hkinds).trans ?_
      rw [hreader]
      refine (length_skipBlank_le _).trans ?_
      rw [Reader.rest_pass, List.length_drop]
      exact Nat.sub_le _ _
    · have hle := hr.kinds
      rw [hkinds, he.kinds, List.prefix_append_right_inj] at hle
      cases words with
      | nil => simp at hle
      | cons word words =>
        have hkind : (t.node child).kind = .literal word := by simpa using hle
        obtain ⟨tail, hrest, hends, hbehind⟩ := he.literal_rest hkind
        obtain ⟨-, hmore⟩ := List.forall_mem_cons.1 hwords
        have hshort := ih hmore (by rw [hkinds, he.kinds, hkind]; simp)
        rw [hbehind] at hshort
        rw [hrest, List.length_append, ← String.length_toList]
        cases words with
        | nil => simp
        | cons next words =>
          obtain ⟨d, ds, hline, -⟩ := intercalate_ink words (hmore next List.mem_cons_self)
          rw [toList_intercalate_cons, List.length_append, List.length_cons]
          rw [← String.length_toList] at hshort
          have hlt := length_trimFront_lt hends fun hnil => by simp [hnil, hline] at hshort
          omega

/-! ### The value of an option -/

theorem isToken_optionName {name : String} (hname : ∀ c ∈ name.toList, isBlank c = false) :
    IsToken ("--" ++ name) where
  some h := by simpa using congrArg String.toList h
  ink c hc := by
    rw [String.toList_append, List.mem_append] at hc
    rcases hc with hc | hc
    · exact (List.all_iff_forall_prop (p := (isBlank · = false))).1 (by decide +kernel) c hc
    · exact hname c hc

section Values

variable {name v : String} {option : NodeId} {type : L.Argument} {b : Builtin}
  {words : List String}

theorem pass_eq_of_leaves {r : Reader} {n : Nat}
    (hwords : ∀ w ∈ v :: words, IsToken w)
    (hrest : r.rest = (" ".intercalate (v :: words)).toList)
    (hends : endsToken (r.pass n).rest = true)
    (hleaves : (" ".intercalate words).length ≤ (r.pass n).rest.length) :
    r.pass n = r.pass v.length := by
  obtain ⟨hv, hmore⟩ := List.forall_mem_cons.1 hwords
  rw [Reader.rest_pass] at hends hleaves
  rcases Nat.lt_trichotomy n v.length with hlt | rfl | hgt
  · -- the token has no blank to end at
    obtain ⟨tail, htail⟩ : ∃ tail, r.rest = v.toList ++ tail := by
      obtain ⟨-, -, tail, htail, -⟩ := intercalate_split hwords
      exact ⟨tail, hrest.trans htail⟩
    have hlt' : n < v.toList.length := String.length_toList ▸ hlt
    rw [htail, List.drop_append_of_le_length (Nat.le_of_lt hlt'),
      List.drop_eq_getElem_cons hlt'] at hends
    have hblank : isBlank v.toList[n] = true := hends
    rw [hv.ink _ (List.getElem_mem hlt')] at hblank
    cases hblank
  · rfl
  · cases words with
    | nil =>
      have hlength : r.rest.length = v.length := by simp [hrest, String.length_toList]
      have hn : r.rest.length ≤ n := hlength ▸ Nat.le_of_lt hgt
      have hv : r.rest.length ≤ v.length := Nat.le_of_eq hlength
      rw [Reader.pass, Reader.pass, List.take_of_length_le hn, List.take_of_length_le hv,
        List.drop_of_length_le hn, List.drop_of_length_le hv]
    | cons next words =>
      obtain ⟨d, ds, hline, hink⟩ := intercalate_ink words (hmore next List.mem_cons_self)
      obtain ⟨k, rfl⟩ := Nat.exists_eq_add_of_lt hgt
      have hbehind : r.rest.drop (v.length + k + 1) = (d :: ds).drop k := by
        rw [hrest, toList_intercalate_cons, hline, ← String.length_toList, Nat.add_assoc,
          List.drop_length_add_append]
        rfl
      rw [hbehind] at hends hleaves
      cases k with
      | zero =>
        have hblank : isBlank d = true := hends
        rw [hink] at hblank
        cases hblank
      | succ k =>
        rw [← String.length_toList, hline, List.length_cons, List.drop_succ_cons,
          List.length_drop] at hleaves
        omega

/-- The name of an option and a token as its value, at the front of a line. -/
structure AtOption (t : CommandTree L) (p : Position L) (name : String) (option : NodeId)
    (type : L.Argument) (v : String) (tail : List Char) : Prop where
  kind : (t.node option).kind = .option name type
  carried : (t.node p.node).options.find? name = some option
  ink : ∀ c ∈ name.toList, isBlank c = false
  isToken : IsToken v
  rest : p.reader.rest = ("--" ++ name).toList ++ ' ' :: (v.toList ++ tail)
  ends : endsToken tail = true

namespace AtOption

variable {tail : List Char} (h : t.AtOption p name option type v tail)

include h

theorem names : t.NamesOption p name option := by
  refine ⟨?_, h.carried⟩
  rw [h.rest, token_append (isToken_optionName h.ink).ink rfl, String.toList_append]
  rfl

theorem rest_ne_nil : p.reader.rest ≠ [] := by
  rw [h.rest]
  simp

theorem rest_start :
    (p.reader.pass (2 + name.length)).skipBlank.rest = v.toList ++ tail := by
  have hlength : 2 + name.length = ("--" ++ name).toList.length := by
    rw [String.length_toList, String.length_append]
    rfl
  obtain ⟨d, ds, hv, hink⟩ := intercalate_ink [] h.isToken
  have hspace : isBlank ' ' = true := by decide
  rw [String.intercalate_singleton] at hv
  rw [Reader.rest_skipBlank, Reader.rest_pass, h.rest, hlength, List.drop_left, hv]
  simp [trimFront, hspace, hink]

theorem rest_behind : ((p.reader.pass (2 + name.length)).skipBlank.pass v.length).rest = tail := by
  rw [Reader.rest_pass, h.rest_start, ← String.length_toList, List.drop_left]

/-- In front of an option that the source may give, the only step is to take its value. -/
theorem step_iff (hscan : L.scan type = b.scan) (hb : b ≠ .greedy)
    (hopen : p.context.console.Open source) (hallowed : t.Admits source option .allowed)
    (hnew : ∀ o ∈ p.context.options, o.name ≠ name) {value : Value}
    (hvalue : b.scan.Accepts v.toList value) (i : Nat) :
    Step t source p i q ↔ i = 0 ∧ q = behindOption p name option v value := by
  let start := (p.reader.pass (2 + name.length)).skipBlank
  have hread : Scan.start (L.scan type) start = (.ok value, start.pass v.length) := by
    rw [hscan, ← String.length_toList]
    exact (Builtin.start_token_iff hb h.rest_start h.ends).2 hvalue
  refine h.names.step_iff.trans (and_congr_right fun _ => (gives_iff h.kind).trans ⟨?_, ?_⟩)
  · rintro ⟨-, -, -, value', behind, hread', -, rfl⟩
    obtain ⟨hvalue', rfl⟩ := Prod.mk.inj (hread.symm.trans hread')
    obtain rfl := Except.ok.inj hvalue'
    rfl
  · rintro rfl
    refine ⟨(admits_iff_of_open hopen option).2 hallowed, hnew, ?_, value, _, hread, ?_, rfl⟩
    · rw [h.rest_start]
      exact List.append_ne_nil_of_left_ne_nil (mt String.toList_eq_nil_iff.1 h.isToken.some) _
    · rw [h.rest_behind]
      exact h.ends

theorem reader_behindOption (value : Value) :
    (behindOption p name option v value).reader.rest = trimFront tail := by
  show (Reader.skipBlank _).rest = _
  rw [Reader.rest_skipBlank, h.rest_behind]

/-- An option whose value leaves the words behind it takes its token as the value. -/
theorem eq_of_gives (hL : L.ReadsForward) (hscan : L.scan type = b.scan) (hb : b ≠ .greedy)
    (hwords : ∀ w ∈ v :: words, IsToken w)
    (hline : v.toList ++ tail = (" ".intercalate (v :: words)).toList)
    (hg : Gives t source p name option q)
    (hleaves : (" ".intercalate words).length ≤ q.reader.rest.length) :
    ∃ value, b.scan.Accepts v.toList value ∧ q = behindOption p name option v value := by
  obtain ⟨-, -, -, value, behind, hread, hends, rfl⟩ := (gives_iff h.kind).1 hg
  obtain ⟨n, rfl⟩ := hL _ _ _ _ hread
  have hpass := pass_eq_of_leaves hwords (h.rest_start.trans hline) hends
    (hleaves.trans (length_skipBlank_le _))
  rw [hpass] at hread ⊢
  refine ⟨value, (Builtin.start_token_iff hb h.rest_start h.ends).1 ?_, rfl⟩
  rw [← hscan, String.length_toList]
  exact hread

end AtOption

end Values

/-! ### A path with an option on the way -/

theorem GoesDown.kinds {path : List (String × NodeId)} (h : t.GoesDown p path q) :
    t.kindsOf q.chain.toList =
      t.kindsOf p.chain.toList ++ path.map fun s => (t.node s.2).kind := by
  have hnodes := congrArg (List.map fun id => (t.node id).kind) h.nodes
  rw [List.map_append, List.map_map, List.map_map, List.map_map] at hnodes
  rw [Position.toList_chain, Position.toList_chain, kindsOf_append, kindsOf_append, h.closed,
    List.append_assoc]
  congr 1
  simpa [kindsOf, Function.comp_def] using hnodes

/-- The words of a path with an option and its value on the way, at the front of a line. -/
structure OnPath (t : CommandTree L) (source : L.Source) (p : Position L)
    (front back : List (String × NodeId)) (name : String) (option : NodeId) (type : L.Argument)
    (v : String) : Prop where
  path : t.LiteralPath p.node (front ++ back)
  kind : (t.node option).kind = .option name type
  carried : (t.node (endOf p.node front)).options.find? name = some option
  ink : ∀ c ∈ name.toList, isBlank c = false
  isToken : IsToken v
  rest : p.reader.rest = (" ".intercalate
    (front.map (·.1) ++ ("--" ++ name) :: v :: back.map (·.1))).toList
  opened : p.context.console.Open source
  fresh : ∀ o ∈ p.context.options, o.name ≠ name

/-- Whether a source may pass the nodes of a path and give an option, whose type accepts a token. -/
structure Passable (t : CommandTree L) (source : L.Source) (path : List (String × NodeId))
    (option : NodeId) (b : Builtin) (v : String) (value : Value) : Prop where
  path : ∀ s ∈ path, t.Admits source s.2 .allowed
  option : t.Admits source option .allowed
  value : b.scan.Accepts v.toList value

namespace OnPath

variable {front back : List (String × NodeId)} {name v : String} {option : NodeId}
  {type : L.Argument} {b : Builtin} (h : t.OnPath source p front back name option type v)

include h

theorem tokens : ∀ w ∈ ("--" ++ name) :: v :: back.map (·.1), IsToken w := by
  have hback := (literalPath_append.1 h.path).2.isToken
  exact List.forall_mem_cons.2 ⟨isToken_optionName h.ink, List.forall_mem_cons.2 ⟨h.isToken, hback⟩⟩

theorem comesTo_option (hf : Filed t layer) (hfront : ∀ s ∈ front, t.Admits source s.2 .allowed) :
    t.ComesTo source p (t.along p front) ∧ (t.along p front).context.console.Open source ∧
      ∃ tail, t.AtOption (t.along p front) name option type v tail ∧
        v.toList ++ tail = (" ".intercalate (v :: back.map (·.1))).toList ∧
        trimFront tail = (" ".intercalate (back.map (·.1))).toList := by
  have hpath := (literalPath_append.1 h.path).1
  obtain ⟨hcomes, hrest, hopen⟩ := hpath.comesTo hf h.tokens h.rest h.opened hfront
  obtain ⟨-, htoken, tail, hline, htrim, -⟩ := intercalate_split (List.forall_mem_cons.1 h.tokens).2
  refine ⟨hcomes, hopen, tail, ⟨h.kind, ?_, h.ink, h.isToken, ?_, ?_⟩, hline.symm, htrim⟩
  · rw [hpath.goesDown.node]
    exact h.carried
  · rw [hrest, toList_intercalate_cons, hline]
  · have hends := endsToken_of_token_eq htoken
    rwa [hline, List.drop_left] at hends

theorem fresh_along : ∀ o ∈ (t.along p front).context.options, o.name ≠ name := by
  rw [(literalPath_append.1 h.path).1.goesDown.options]
  exact h.fresh

theorem path_behind (value : Value) :
    t.LiteralPath (behindOption (t.along p front) name option v value).node back := by
  obtain ⟨hfront, hback⟩ := literalPath_append.1 h.path
  show t.LiteralPath (t.along p front).node back
  rwa [hfront.goesDown.node]

/-- What the line comes to if the source may pass. -/
theorem comesTo (hf : Filed t layer) (hscan : L.scan type = b.scan) (hb : b ≠ .greedy)
    {value : Value} (hpass : t.Passable source (front ++ back) option b v value) :
    let q := t.along (behindOption (t.along p front) name option v value) back
    t.ComesTo source p q ∧ q.reader.rest = [] := by
  intro q
  obtain ⟨hfront, hback⟩ := List.forall_mem_append.1 hpass.path
  obtain ⟨hcomes, hopen, tail, hat, -, htrim⟩ := h.comesTo_option hf hfront
  have hcomes' := comesTo_of_step hat.rest_ne_nil fun i q =>
    hat.step_iff hscan hb hopen hpass.option h.fresh_along hpass.value i
  have hrest' := (hat.reader_behindOption value).trans (htrim.trans
    (congrArg (fun ws => (" ".intercalate ws).toList) (List.append_nil (back.map (·.1))).symm))
  obtain ⟨hcomes'', hdone, -⟩ := (h.path_behind value).comesTo hf (by simp) hrest' hopen hback
  exact ⟨(hcomes.trans hcomes').trans hcomes'', hdone⟩

theorem passable_of_run (hf : Filed t layer) (hL : L.ReadsForward) (hscan : L.scan type = b.scan)
    (hb : b ≠ .greedy) {choices : List Nat} (hrun : Run t source p choices q)
    (hq : q.reader.rest = [])
    (hkinds : t.kindsOf q.chain.toList =
      t.kindsOf p.chain.toList ++ (front ++ back).map fun s => .literal s.1) :
    ∃ value, t.Passable source (front ++ back) option b v value := by
  have hpath := (literalPath_append.1 h.path).1
  rw [List.map_append] at hkinds
  have hfront := hpath.admits_of_run hf h.tokens h.rest h.opened hrun hq hkinds
  obtain ⟨hcomes, hopen, tail, hat, hline, htrim⟩ := h.comesTo_option hf hfront
  obtain ⟨choices', hrun'⟩ := (hcomes q hq).1 ⟨choices, hrun⟩
  have hkinds' : t.kindsOf q.chain.toList = t.kindsOf (t.along p front).chain.toList ++
      back.map fun s => .literal s.1 := by
    rw [hkinds, hpath.goesDown.kinds, hpath.kinds hf, List.append_assoc]
  cases hrun' with
  | done => exact absurd hq hat.rest_ne_nil
  | step _ hs hr =>
    obtain ⟨-, hg⟩ := hat.names.step_iff.1 hs
    have hallowed := (admits_iff_of_open hopen option).1 ((gives_iff h.kind).1 hg).1
    rw [← hg.kinds] at hkinds'
    have hback := (literalPath_append.1 h.path).2.isToken
    have hleaves := hr.length_le hL hback (by rw [hkinds', List.map_map]; rfl)
    obtain ⟨value, hvalue, rfl⟩ := hat.eq_of_gives hL hscan hb
      (List.forall_mem_cons.1 h.tokens).2 hline hg hleaves
    refine ⟨value, List.forall_mem_append.2 ⟨hfront, ?_⟩, hallowed, hvalue⟩
    have hrest := (hat.reader_behindOption value).trans htrim
    rw [← List.append_nil (back.map (·.1))] at hrest
    rw [← List.append_nil (back.map fun s => NodeKind.literal s.1)] at hkinds'
    exact (h.path_behind value).admits_of_run hf (List.forall_mem_nil _) hrest hopen hr hq hkinds'

end OnPath

/-! ### Whole lines -/

/-- The words of a path with an option and its value behind some of them. -/
def optionBehind (path : List (String × NodeId)) (name v : String) (j : Nat) : String :=
  " ".intercalate ((path.take j).map (·.1) ++ ("--" ++ name) :: v :: (path.drop j).map (·.1))

section Lines

variable {front back : List (String × NodeId)} {name v : String} {option : NodeId}
  {type : L.Argument} {b : Builtin} {line : String}

theorem OnPath.exists_ink {r : Reader}
    (h : t.OnPath source (Position.start r.skipBlank) front back name option type v) :
    ∃ c ∈ r.rest, isBlank c = false := by
  have hwords : ∀ w ∈ front.map (·.1) ++ ("--" ++ name) :: v :: back.map (·.1), IsToken w :=
    List.forall_mem_append.2 ⟨(literalPath_append.1 h.path).1.isToken, h.tokens⟩
  obtain ⟨word, words, hcons⟩ := List.exists_cons_of_ne_nil
    (show front.map (·.1) ++ ("--" ++ name) :: v :: back.map (·.1) ≠ [] by simp)
  have hrest := h.rest
  rw [hcons] at hwords hrest
  obtain ⟨d, ds, hline, hink⟩ := intercalate_ink words (hwords word List.mem_cons_self)
  refine ⟨d, (List.dropWhile_suffix isBlank).subset ?_, hink⟩
  have hskip : r.skipBlank.rest = d :: ds := hrest.trans hline
  rw [Reader.rest_skipBlank] at hskip
  show d ∈ trimFront r.rest
  rw [hskip]
  exact List.mem_cons_self

theorem OnPath.end_facts {r : Reader}
    (h : t.OnPath source (Position.start r.skipBlank) front back name option type v)
    (value : Value) (hq : q = t.along
      (behindOption (t.along (Position.start r.skipBlank) front) name option v value) back) :
    q.chain = ⟨q.context, []⟩ ∧ q.context.nodes.map (·.node) = (front ++ back).map (·.2) ∧
      q.context.command = (front ++ back).foldl (fun _ s => (t.node s.2).command) none ∧
      q.context.values = [(name, value)] := by
  subst hq
  have hfront := (literalPath_append.1 h.path).1.goesDown
  have hback := (h.path_behind value).goesDown
  refine ⟨?_, ?_, ?_, ?_⟩
  · rw [Position.chain, hback.closed]
    show Chain.under _ (t.along _ front).closed = _
    rw [hfront.closed]
    rfl
  · rw [hback.nodes]
    show (t.along _ front).context.nodes.map (·.node) ++ _ = _
    rw [hfront.nodes, List.map_append]
    rfl
  · rw [hback.command, List.foldl_append]
    show back.foldl _ (t.along _ front).context.command = _
    rw [hfront.command]
    rfl
  · rw [Context.values, hback.captured]
    show ((t.along _ front).context.captured.insert name _).entries.map _ = _
    rw [hfront.captured]
    rfl

/-- A line that is a path with an option on the way passes through the path exactly if the source
may pass, and then what it comes to does not depend on where the option is. -/
theorem parse_runsThrough_iff (hL : L.ReadsForward) (ht : t.Reachable)
    (h : t.OnPath source (Position.start (Reader.ofString line).skipBlank) front back name option
      type v) (hscan : L.scan type = b.scan) (hb : b ≠ .greedy) :
    ((t.parse line source).RunsThrough ((front ++ back).map (·.2)) ↔
      ∃ value, t.Passable source (front ++ back) option b v value) ∧
    ∀ value, t.Passable source (front ++ back) option b v value →
      (t.parse line source).chain.last.command =
          (front ++ back).foldl (fun _ s => (t.node s.2).command) none ∧
        (t.parse line source).chain.outer.values = [(name, value)] := by
  obtain ⟨layer, hg⟩ := ht.grown
  have hf := hg.filed
  obtain ⟨hcomplete, hfirst⟩ := parse_complete_iff_run hL ht line source h.exists_ink
  -- if the source may pass, the parser ends where the path does
  have hend : ∀ value, t.Passable source (front ++ back) option b v value → ∃ q,
      (t.parse line source).isComplete = true ∧ (t.parse line source).chain = ⟨q, []⟩ ∧
        q.nodes.map (·.node) = (front ++ back).map (·.2) ∧
        q.command = (front ++ back).foldl (fun _ s => (t.node s.2).command) none ∧
        q.values = [(name, value)] := by
    intro value hpass
    obtain ⟨hcomes, hdone⟩ := h.comesTo hf hscan hb hpass
    obtain ⟨hchain, hfacts⟩ := h.end_facts value rfl
    have hover := hcomplete.2
      ((hcomes _ hdone).2 ⟨[], .done _⟩ |>.imp fun choices hrun => ⟨_, hrun, hdone⟩)
    obtain ⟨choices, q, hq, hsame⟩ := hfirst hover
    obtain ⟨choices', hrun⟩ := (hcomes q hq.consumed).1 ⟨choices, hq.run⟩
    obtain ⟨-, rfl⟩ := run_of_rest_nil hdone hrun
    exact ⟨_, hover, hsame.trans hchain, hfacts⟩
  refine ⟨⟨fun hthrough => ?_, ?_⟩, fun value hpass => ?_⟩
  · obtain ⟨choices, q, hq, hsame⟩ := hfirst hthrough.complete
    refine h.passable_of_run hf hL hscan hb hq.run hq.consumed ?_
    have hkinds := congrArg (List.map fun id => (t.node id).kind) hthrough.nodes
    rw [List.map_map, List.map_map] at hkinds
    have hnames := h.path.kinds hf
    rw [← hsame, Chain.toList, hthrough.single]
    simpa [kindsOf, Function.comp_def, Position.start, Position.chain, Chain.under, Chain.toList,
      Context.startAt] using hkinds.trans hnames
  · rintro ⟨value, hpass⟩
    obtain ⟨q, hover, hchain, hnodes, -⟩ := hend value hpass
    exact ⟨hover, by rw [hchain], by rw [hchain]; exact hnodes⟩
  · obtain ⟨q, -, hchain, -, hcommand, hvalues⟩ := hend value hpass
    rw [hchain]
    exact ⟨hcommand, hvalues⟩

end Lines

theorem optionBehind_onPath (source : L.Source) {path : List (String × NodeId)}
    (hpath : t.LiteralPath root path) {name v : String} {option : NodeId} {type : L.Argument}
    (hkind : (t.node option).kind = .option name type)
    (hname : ∀ c ∈ name.toList, isBlank c = false) (hv : IsToken v) {j : Nat}
    (hcarried : (t.node (endOf root (path.take j))).options.find? name = some option) :
    t.OnPath source (Position.start (Reader.ofString (optionBehind path name v j)).skipBlank)
      (path.take j) (path.drop j) name option type v := by
  have hboth := hpath
  rw [← List.take_append_drop j path] at hboth
  refine ⟨hboth, hkind, hcarried, hname, hv, ?_, fun hno => ?_, fun o ho => ?_⟩
  rotate_left
  · cases hno.1
  · cases ho
  have hwords : ∀ w ∈ (path.take j).map (·.1) ++ ("--" ++ name) :: v :: (path.drop j).map (·.1),
      IsToken w := by
    obtain ⟨hfront, hback⟩ := literalPath_append.1 hboth
    exact List.forall_mem_append.2 ⟨hfront.isToken, List.forall_mem_cons.2
      ⟨isToken_optionName hname, List.forall_mem_cons.2 ⟨hv, hback.isToken⟩⟩⟩
  show (Reader.skipBlank _).rest = (optionBehind path name v j).toList
  rw [Reader.rest_skipBlank]
  show trimFront (optionBehind path name v j).toList = _
  obtain ⟨word, words, hcons⟩ := List.exists_cons_of_ne_nil
    (show (path.take j).map (·.1) ++ ("--" ++ name) :: v :: (path.drop j).map (·.1) ≠ [] by simp)
  rw [hcons] at hwords
  obtain ⟨d, ds, hline, hink⟩ := intercalate_ink words (hwords word List.mem_cons_self)
  rw [optionBehind, hcons, hline, trimFront, List.dropWhile_cons, if_neg (by simp [hink])]

/-- An option may be given behind any node of a path that carries it: the line passes through the
path in all cases or in none, with the same command and the same values. -/
theorem parse_option_anywhere (hL : L.ReadsForward) (ht : t.Reachable) (source : L.Source)
    {path : List (String × NodeId)} (hpath : t.LiteralPath root path) {name v : String}
    {option : NodeId} {type : L.Argument} {b : Builtin}
    (hkind : (t.node option).kind = .option name type) (hscan : L.scan type = b.scan)
    (hb : b ≠ .greedy) (hname : ∀ c ∈ name.toList, isBlank c = false) (hv : IsToken v) {i : Nat}
    (hcarried : ∀ m, i ≤ m → m ≤ path.length →
      (t.node (endOf root (path.take m))).options.find? name = some option)
    {j j' : Nat} (hj : i ≤ j ∧ j ≤ path.length) (hj' : i ≤ j' ∧ j' ≤ path.length) :
    let parsed := t.parse (optionBehind path name v j) source
    let moved := t.parse (optionBehind path name v j') source
    (parsed.RunsThrough (path.map (·.2)) ↔ moved.RunsThrough (path.map (·.2))) ∧
      (parsed.RunsThrough (path.map (·.2)) →
        parsed.chain.last.command = moved.chain.last.command ∧
        parsed.chain.outer.values = moved.chain.outer.values) := by
  intro parsed moved
  obtain ⟨hthrough, hcomes⟩ := parse_runsThrough_iff hL ht
    (optionBehind_onPath source hpath hkind hname hv (hcarried j hj.1 hj.2)) hscan hb
  obtain ⟨hthrough', hcomes'⟩ := parse_runsThrough_iff hL ht
    (optionBehind_onPath source hpath hkind hname hv (hcarried j' hj'.1 hj'.2)) hscan hb
  simp only [List.take_append_drop] at hthrough hcomes hthrough' hcomes'
  refine ⟨hthrough.trans hthrough'.symm, fun h => ?_⟩
  obtain ⟨value, hpass⟩ := hthrough.1 h
  obtain ⟨hcommand, hvalues⟩ := hcomes value hpass
  obtain ⟨hcommand', hvalues'⟩ := hcomes' value hpass
  exact ⟨hcommand.trans hcommand'.symm, hvalues.trans hvalues'.symm⟩

/-- A command with an option, and with one that looks like two others. -/
def postage : CommandTree .builtins :=
  built [
    { Blueprint.literal "send" with
      options := [.option "to" Builtin.word, .option "on time --by" Builtin.word]
      children := [(Blueprint.literal "now").executes ()] },
    { Blueprint.literal "send" with
      options := [.option "on" Builtin.word, .option "by" Builtin.word] }]

theorem literalPath_postage : postage.LiteralPath root [("send", 1), ("now", 4)] := by
  have hstays : ∀ id, (postage.node id).forward = none := by
    have hsize : postage.size ≤ 7 := by decide +kernel
    intro id
    exact Option.isNone_iff_eq_none.1 <| forall_node (P := fun n => n.forward.isNone = true) hsize
      rfl (by decide +kernel) id
  refine ⟨⟨by decide +kernel, by decide +kernel, by decide +kernel, hstays 1⟩,
    ⟨by decide +kernel, by decide +kernel, by decide +kernel, hstays 4⟩, trivial⟩

theorem carried_postage (name : String) (option : NodeId)
    (hsend : (postage.node 1).options.find? name = some option)
    (hnow : (postage.node 4).options.find? name = some option) :
    ∀ m, 1 ≤ m → m ≤ [("send", 1), ("now", 4)].length →
      (postage.node (endOf root ([("send", 1), ("now", 4)].take m))).options.find? name =
        some option := by
  intro m hm hle
  have hcases : m = 1 ∨ m = 2 := by
    have hlength : m ≤ 2 := hle
    omega
  rcases hcases with rfl | rfl
  · exact hsend
  · exact hnow

theorem parse_option_anywhere_postage :
    let path := [("send", 1), ("now", 4)]
    let parsed := postage.parse (optionBehind path "to" "me" 1) ()
    let moved := postage.parse (optionBehind path "to" "me" 2) ()
    optionBehind path "to" "me" 1 = "send --to me now" ∧
      optionBehind path "to" "me" 2 = "send now --to me" ∧
      postage.LiteralPath root path ∧ parsed.RunsThrough (path.map (·.2)) ∧
      (parsed.RunsThrough (path.map (·.2)) ↔ moved.RunsThrough (path.map (·.2))) ∧
      (parsed.RunsThrough (path.map (·.2)) →
        parsed.chain.last.command = moved.chain.last.command ∧
        parsed.chain.outer.values = moved.chain.outer.values) := by
  intro path parsed moved
  have hcarried := carried_postage "to" 2 (by decide +kernel) (by decide +kernel)
  exact ⟨by decide +kernel, by decide +kernel, literalPath_postage,
    ⟨by decide +kernel, by decide +kernel, by decide +kernel⟩,
    parse_option_anywhere Language.isBuiltin_builtins.readsLocally.readsForward (reachable_built _)
      () literalPath_postage (b := .word) rfl rfl (by nofun)
      (List.all_iff_forall_prop.1 (by decide +kernel)) (by decide +kernel)
      hcarried ⟨Nat.le_refl 1, by decide⟩ ⟨by decide, Nat.le_refl 2⟩⟩

/-- An option with blanks in its name may be read as other options, which not all nodes carry that
carry it. -/
theorem option_moved_ne :
    ¬∀ (t : CommandTree .builtins) (path : List (String × NodeId)) (name v : String)
      (option : NodeId) (type : Builtin) (i j j' : Nat), t.Reachable → t.LiteralPath root path →
      (t.node option).kind = .option name type → type ≠ .greedy → IsToken v →
      (∀ m, i ≤ m → m ≤ path.length →
        (t.node (endOf root (path.take m))).options.find? name = some option) →
      (i ≤ j ∧ j ≤ path.length) → (i ≤ j' ∧ j' ≤ path.length) →
      ((t.parse (optionBehind path name v j) ()).RunsThrough (path.map (·.2)) ↔
        (t.parse (optionBehind path name v j') ()).RunsThrough (path.map (·.2))) := by
  intro h
  let path := [("send", 1), ("now", 4)]
  have hcarried := carried_postage "on time --by" 3 (by decide +kernel) (by decide +kernel)
  have hmoved := h postage path "on time --by" "noon" 3 .word 1 1 2 (reachable_built _)
    literalPath_postage rfl (by nofun) (by decide +kernel) hcarried ⟨Nat.le_refl 1, by decide⟩
    ⟨by decide, Nat.le_refl 2⟩
  have hthrough : (postage.parse (optionBehind path "on time --by" "noon" 1) ()).RunsThrough
      (path.map (·.2)) := ⟨by decide +kernel, by decide +kernel, by decide +kernel⟩
  have hstuck : (postage.parse (optionBehind path "on time --by" "noon" 2) ()).isComplete = false :=
    by decide +kernel
  rw [(hmoved.1 hthrough).complete] at hstuck
  cases hstuck

end CommandTree

end CommandConsole
