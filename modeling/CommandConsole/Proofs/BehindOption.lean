import CommandConsole.Proofs.Anywhere
import CommandConsole.Proofs.Completeness
import CommandConsole.Proofs.Once
import CommandConsole.Proofs.Relocation

/-!
# Completing behind an option

A line of literals is matched in the same way whatever it goes on with behind a blank. So what is
typed behind a path is typed at the node at its end, and an option of that node that is given in
between leads back to the same node. The two are completed alike, each in its own place.
-/

namespace CommandConsole

open Text

variable {L : Language}

/-! ### Lines that go on -/

/-- The reader of the line that goes on with another text. -/
def Reader.followedBy (r : Reader) (more : List Char) : Reader := ⟨r.passed, r.rest ++ more⟩

def Position.followedBy (p : Position L) (more : List Char) : Position L :=
  { p with reader := p.reader.followedBy more }

namespace Reader

variable {r : Reader} {more : List Char}

theorem pass_followedBy {n : Nat} (hn : n ≤ r.rest.length) :
    (r.followedBy more).pass n = (r.pass n).followedBy more := by
  simp only [pass, followedBy, List.take_append_of_le_length hn, List.drop_append_of_le_length hn]

theorem skipBlank_followedBy (hmore : ∀ c ∈ more.head?, isBlank c = false) :
    (r.followedBy more).skipBlank = r.skipBlank.followedBy more := by
  have hnone : more.takeWhile isBlank = [] := by
    cases more with
    | nil => rfl
    | cons c more => simp [hmore c rfl]
  have hsame : (r.rest ++ more).takeWhile isBlank = r.rest.takeWhile isBlank := by
    rw [List.takeWhile_append, hnone, List.append_nil]
    split
    · next hall => rw [(List.takeWhile_prefix isBlank).eq_of_length hall]
    · rfl
  show (r.followedBy more).pass ((r.rest ++ more).takeWhile isBlank).length = _
  rw [hsame, pass_followedBy (List.takeWhile_prefix isBlank).length_le]
  rfl

end Reader

namespace CommandTree

variable {t : CommandTree L} {source : L.Source} {p q r : Position L} {layer : NodeId → Nat}
  {more : List Char}

/-- A step that leaves a blank is taken in the line that goes on, too, and to the same place. -/
theorem Step.followedBy (hL : L.ReadsLocally) {i : Nat} (h : Step t source p i q)
    (hmore : ∀ c ∈ more.head?, isBlank c = false)
    (hleaves : ∀ n c, Takes t source p n c q → (p.reader.pass n).rest ≠ []) :
    Step t source (p.followedBy more) i (q.followedBy more) := by
  obtain ⟨n, c, ht, halike⟩ := h.movesAlike hL
  obtain ⟨d, b, hrest⟩ := List.exists_cons_of_ne_nil (hleaves n c ht)
  have hd : isBlank d = true := ht.isBlank_head hrest
  have hsplit : p.reader.rest = p.reader.rest.take n ++ d :: b := by
    rw [← hrest, Reader.rest_pass, List.take_append_drop]
  have hn : n ≤ p.reader.rest.length := by
    refine Nat.le_of_not_lt fun hlt => ?_
    rw [Reader.rest_pass, List.drop_of_length_le (Nat.le_of_lt hlt)] at hrest
    cases hrest
  have hreader : p.reader.Alike d b (b ++ more) (p.reader.followedBy more) :=
    ⟨p.reader.passed, p.reader.rest.take n, by rw [← hsplit], by
      rw [Reader.followedBy, ← List.cons_append, ← List.append_assoc, ← hsplit]⟩
  obtain ⟨q', c', hs', ht', habreast⟩ := halike d b (b ++ more) _ hd hreader
    (by rw [hrest]; exact Nat.lt_succ_self _)
  have hread : q'.reader = q.reader.followedBy more := by
    rw [ht'.reader, ht.reader]
    show ((p.reader.followedBy more).pass n).skipBlank = _
    rw [Reader.pass_followedBy hn, Reader.skipBlank_followedBy hmore]
  have hsame : q' = q.followedBy more := by
    obtain ⟨closed, node, context, reader⟩ := q'
    obtain rfl : reader = _ := hread
    obtain rfl : closed = _ := habreast.closed
    obtain rfl : node = _ := habreast.node
    obtain rfl : context = _ := habreast.context rfl
    rfl
  exact hsame ▸ hs'

theorem Step.only (hf : Filed t layer) {i j : Nat} (h : Step t source p i q)
    (hliterals : ∀ k ∈ t.kindsOf q.chain.toList, k.isLiteral = true) (h' : Step t source p j r) :
    r = q := by
  have hsame : j = i := by
    cases h with
    | option hn _ => exact (hn.step_iff.1 h').1
    | literal hno hn he =>
      obtain ⟨taken, behind, -, ha, -⟩ := he
      exact (hn.step_iff hno ha |>.1 h').1
    | @argument _ child _ _ _ hc he =>
      obtain ⟨name, type, hkind⟩ := ((hf p.node).argument child (List.mem_of_getElem? hc)).2.2
      have hliteral := hliterals (t.node child).kind (by rw [he.kinds]; simp)
      rw [hkind] at hliteral
      cases hliteral
  subst hsame
  exact hf.step_unique h' h

/-! ### Positions that parsing comes by -/

/-- Whether parsing a line comes by a position. -/
structure ComesBy (t : CommandTree L) (source : L.Source) (layer : NodeId → Nat) (line : String)
    (p : Position L) : Prop where
  tracked : Tracked t source layer (Reader.ofString line) p
  reaches : ∃ r, (t.parse line source).chain = r.chain ∧ t.Leaves source p r ∧
    (p.reader.rest ≠ [] → Ends t source p r)

variable {line : String}

theorem Filed.comesBy_start (hf : Filed t layer) (hL : L.ReadsForward) (source : L.Source)
    (line : String) :
    t.ComesBy source layer line (.start (Reader.ofString line).skipBlank) := by
  obtain ⟨r, hchain, -, hleaves, hends⟩ := hf.parse_leaves hL line source
  refine ⟨tracked_start line, r, hchain, hleaves, fun hrest => hends ?_⟩
  exact (Reader.skipBlank_cases _).resolve_left hrest

theorem ComesBy.step (hf : Filed t layer) (hL : L.ReadsForward)
    (h : t.ComesBy source layer line p) (hrest : p.reader.rest ≠ []) {i : Nat}
    (hs : Step t source p i q) (honly : ∀ j q', Step t source p j q' → q' = q) :
    t.ComesBy source layer line q := by
  obtain ⟨n, c, ht⟩ := hs.takes hL
  obtain ⟨r, hchain, -, hends⟩ := h.reaches
  have hnext : Ends t source q r := by
    cases hends hrest with
    | finished hnil => exact absurd hnil hrest
    | stuck _ hno => exact absurd hs (hno i q)
    | step _ hs' hends' => exact honly _ _ hs' ▸ hends'
  exact ⟨h.tracked.step hf hL hrest hs ht, r, hchain, hnext.leaves, fun _ => hnext⟩

/-- In front of the last word of a line, parsing ends, or takes the word and ends. -/
theorem ComesBy.lastStep (hL : L.ReadsForward) (h : t.ComesBy source layer line p)
    (hword : ∀ c ∈ p.reader.rest, isBlank c = false) :
    ∃ r, (t.parse line source).chain = r.chain ∧ t.LastStep source p r := by
  obtain ⟨r, hchain, hleaves, -⟩ := h.reaches
  refine ⟨r, hchain, ?_⟩
  rcases hleaves with rfl | ⟨i, q, hs, hends⟩
  · exact Or.inl rfl
  · obtain ⟨n, c, ht⟩ := hs.takes hL
    refine lastStep_of_over hs ht (nil_of_endsToken ht.ends fun d hd => hword d ?_) hends
    rw [Reader.rest_pass] at hd
    exact List.mem_of_mem_drop hd

theorem ComesBy.cursor_eq {front typed : String} (h : t.ComesBy source layer (front ++ typed) p)
    (hrest : p.reader.rest = typed.toList) : p.reader.cursor = bytes front := by
  have htext := h.tracked.text
  rw [Reader.text, hrest] at htext
  have hpassed : p.reader.passed.reverse = front.toList :=
    List.append_cancel_right (htext.trans String.toList_append)
  rw [Reader.cursor_eq, hpassed]
  rfl

theorem ComesBy.target (hf : Filed t layer) (hL : L.ReadsForward) {front typed : String}
    (h : t.ComesBy source layer (front ++ typed) p) (hrest : p.reader.rest = typed.toList)
    (htyped : ∀ c ∈ typed.toList, isBlank c = false)
    (hbehind : ∀ s ∈ p.pieces, s.stop < bytes front)
    (htail : (t.parse (front ++ typed) source).chain.last.nodes = [] →
      (t.parse (front ++ typed) source).chain.last.options = []) :
    (t.parse (front ++ typed) source).chain.target (front ++ typed) (bytes (front ++ typed)) =
      .branch p.node p.context.console (bytes front) := by
  obtain ⟨r, hchain, hlast⟩ := h.lastStep hL (by rwa [hrest])
  rw [hchain] at htail ⊢
  have htarget := hlast.target hf hL h.tracked String.toList_append htyped (h.cursor_eq hrest)
    hbehind htail
  rw [Reader.line_ofString] at htarget
  exact htarget

theorem ComesBy.nodes_ne_nil (hL : L.ReadsForward) (h : t.ComesBy source layer line p)
    (hword : ∀ c ∈ p.reader.rest, isBlank c = false) (hnodes : p.context.nodes ≠ []) :
    (t.parse line source).chain.last.nodes ≠ [] := by
  obtain ⟨r, hchain, hlast⟩ := h.lastStep hL hword
  rw [hchain]
  rcases hlast with rfl | ⟨i, n, c, -, ht, hover⟩
  · rwa [Position.last_chain]
  · have hlast : r.chain.last = c := by
      rw [← Chain.getLast_toList]
      simp [ht.contexts_over hover]
    rw [hlast]
    cases ht.piece with
    | node => simp [Context.enter]
    | option _ _ _ _ _ _ => exact hnodes

/-! ### Runs of lines that go on -/

theorem Takes.mem_pieces {n : Nat} {c : Context L} (h : Takes t source p n c q) :
    p.taken n ∈ q.pieces ∧ p.pieces ⊆ q.pieces := by
  have hpieces : p.pieces.Perm ((p.closed ++ [p.context]).flatMap Context.pieces) :=
    .of_eq (congrArg (List.flatMap _) p.toList_chain)
  have hperm := h.pieces_perm hpieces
  rw [← Position.toList_chain] at hperm
  exact ⟨hperm.mem_iff.1 (by simp), fun s hs => hperm.mem_iff.1 (by simp [hs])⟩

theorem Run.pieces (hL : L.ReadsForward) {choices : List Nat} (h : Run t source p choices q) :
    p.pieces ⊆ q.pieces :=
  h.invariant (P := fun q => p.pieces ⊆ q.pieces)
    (fun _ _ _ hp hs => by
      obtain ⟨n, c, ht⟩ := hs.takes hL
      exact fun s hmem => ht.mem_pieces.2 (hp hmem)) fun _ hmem => hmem

theorem Run.text (hL : L.ReadsForward) {choices : List Nat} (h : Run t source p choices q) :
    q.reader.text = p.reader.text :=
  h.invariant (P := fun q => q.reader.text = p.reader.text)
    (fun _ _ _ hp hs => by
      obtain ⟨n, c, ht⟩ := hs.takes hL
      exact ht.text.trans hp) rfl

/-- A run of literals and options through a line, with blanks behind all of them, is what parsing
does in the line that goes on, too. -/
theorem Run.comesBy (hf : Filed t layer) (hL : L.ReadsLocally) {choices : List Nat}
    (h : Run t source p choices q) (hq : q.reader.rest = [])
    (hliterals : ∀ k ∈ t.kindsOf q.chain.toList, k.isLiteral = true)
    (hapart : ∀ s ∈ q.pieces, s.stop < q.reader.totalLength)
    (hmore : ∀ c ∈ more.head?, isBlank c = false)
    (hp : t.ComesBy source layer line (p.followedBy more)) :
    t.ComesBy source layer line (q.followedBy more) := by
  have hforward := hL.readsForward
  induction h with
  | done => exact hp
  | @step p q₁ q i choices hrest hs hr ih =>
    refine ih hq hliterals hapart ?_
    have hstep := hs.followedBy hL hmore fun n c ht hnil => ?_
    · refine hp.step hf hforward ?_ hstep fun j q' hs' => hstep.only hf ?_ hs'
      · exact List.append_ne_nil_of_left_ne_nil hrest more
      · exact fun k hk => hliterals k (hr.kinds.subset hk)
    · -- the piece of the step does not end with the line
      have hstop := hapart _ (hr.pieces hforward ht.mem_pieces.1)
      rw [Reader.totalLength, hr.text hforward, ht.text, ← Reader.text_pass _ n] at hstop
      exact absurd (Reader.cursor_of_rest_nil hnil) (Nat.ne_of_lt hstop)

theorem Run.starts_at_root {choices : List Nat} {reader : Reader}
    (h : Run t source (.start reader) choices q) (hclosed : q.closed = []) :
    q.context.root = root := by
  refine h.invariant (P := fun q => q.closed = [] → q.context.root = root)
    (fun p i q hp hs hclosed => ?_) (fun _ => rfl) hclosed
  rcases hs.gives_or_enters with ⟨name, option, -, hg⟩ | ⟨child, -, taken, behind, hr, -, rfl⟩
  · cases hg
    exact hp hclosed
  · obtain ⟨captured, rfl⟩ := hr.capture_eq
    rcases beyond_cases (t := t) p child { p.context with captured } behind with
      heq | ⟨forward, -, -, heq⟩
    · rw [heq] at hclosed ⊢
      exact hp hclosed
    · rw [heq] at hclosed
      simp at hclosed

theorem Run.open {choices : List Nat} (h : Run t source p choices q)
    (hp : p.context.console.Open source) : q.context.console.Open source := by
  refine h.invariant (P := fun q => q.context.console.Open source) (fun p i q hopen hs => ?_) hp
  rcases hs.gives_or_enters with ⟨name, option, -, hg⟩ | ⟨child, -, taken, behind, -, ha, rfl⟩
  · cases hg
    exact hopen
  · rcases beyond_cases (t := t) p child taken behind with heq | ⟨forward, -, -, heq⟩
    · rw [heq]
      exact open_of_admits ha
    · rw [heq]
      exact open_of_admits ha

/-! ### Paths -/

/-- Whether a line is consumed by literals on the way to a node, and maybe options, each of them
with a blank behind it. -/
structure IsPath (t : CommandTree L) (source : L.Source) (line : String) (id : NodeId) : Prop where
  ink : ∃ c ∈ line.toList, isBlank c = false
  complete : (t.parse line source).isComplete = true
  single : (t.parse line source).chain.redirected = []
  literals : ∀ m ∈ (t.parse line source).chain.outer.nodes, (t.node m.node).kind.isLiteral = true
  apart : ∀ s ∈ (t.parse line source).chain.outer.pieces, s.stop < bytes line
  stands : (t.parse line source).chain.outer.standsAt (t.parse line source).chain.outer.nodes = id

/-- Whether a text leads to a node: blanks to the root, a path to its end. -/
def IsWayTo (t : CommandTree L) (source : L.Source) (front : String) (id : NodeId) : Prop :=
  (id = root ∧ ∀ c ∈ front.toList, isBlank c = true) ∨ t.IsPath source front id

/-- Where parsing stands behind a text, whatever the line goes on with. -/
structure StandsBehind (t : CommandTree L) (source : L.Source) (layer : NodeId → Nat)
    (front : String) (id : NodeId) (p : Position L) : Prop where
  node : p.node = id
  nodes : id ≠ root → p.context.nodes ≠ []
  rest : p.reader.rest = []
  opened : p.context.console.Open source
  behind : ∀ s ∈ p.pieces, s.stop < bytes front
  given : ∀ o ∈ p.context.options, o ∈ (t.parse front source).chain.outer.options
  comesBy : ∀ more : String, (∀ c ∈ more.toList.head?, isBlank c = false) →
    t.ComesBy source layer (front ++ more) (p.followedBy more.toList)

theorem start_followedBy (front more : String)
    (hmore : ∀ c ∈ more.toList.head?, isBlank c = false) :
    Position.start (L := L) (Reader.ofString (front ++ more)).skipBlank =
      (Position.start (Reader.ofString front).skipBlank).followedBy more.toList := by
  have hreader : Reader.ofString (front ++ more) =
      (Reader.ofString front).followedBy more.toList := by
    rw [Reader.ofString, String.toList_append]
    rfl
  rw [hreader, Reader.skipBlank_followedBy hmore]
  rfl

variable {front : String} {id : NodeId}

theorem standsBehind_blank (hf : Filed t layer) (hL : L.ReadsForward)
    (hblank : ∀ c ∈ front.toList, isBlank c = true) :
    t.StandsBehind source layer front root (.start (Reader.ofString front).skipBlank) where
  node := rfl
  nodes hne := absurd rfl hne
  rest := by
    show (Reader.skipBlank _).rest = []
    rw [Reader.rest_skipBlank]
    exact List.dropWhile_eq_nil_iff.2 hblank
  opened := open_start _
  behind s hs := by
    simp [Position.pieces, Position.start, Position.chain, Chain.under, Chain.toList,
      Context.pieces, Context.startAt] at hs
  given o ho := by simp [Position.start, Context.startAt] at ho
  comesBy more hmore := by
    rw [← start_followedBy front more hmore]
    exact hf.comesBy_start hL source _

theorem Position.of_single (h : p.chain.redirected = []) :
    p.closed = [] ∧ p.context = p.chain.outer := by
  have hlist : [p.chain.outer] = p.closed ++ [p.context] := by
    rw [← Position.toList_chain, Chain.toList, h]
  cases hclosed : p.closed with
  | nil =>
    rw [hclosed] at hlist
    exact ⟨rfl, (List.singleton_inj.1 hlist).symm⟩
  | cons c closed =>
    rw [hclosed] at hlist
    simp at hlist

theorem IsPath.standsBehind (hf : Filed t layer) (ht : t.Reachable) (hL : L.ReadsLocally)
    (h : t.IsPath source front id) : ∃ p, t.StandsBehind source layer front id p := by
  have hforward := hL.readsForward
  obtain ⟨-, hfirst⟩ := parse_complete_iff_run hforward ht front source h.ink
  obtain ⟨choices, q, hq, hchain⟩ := hfirst h.complete
  have hrun := hq.run
  obtain ⟨hclosed, hcontext⟩ : q.closed = [] ∧ q.context = (t.parse front source).chain.outer := by
    rw [hchain]
    exact Position.of_single (hchain ▸ h.single)
  have hpieces : q.pieces = (t.parse front source).chain.outer.pieces := by
    simp [Position.pieces, Position.toList_chain, hclosed, hcontext]
  have hkinds : ∀ k ∈ t.kindsOf q.chain.toList, k.isLiteral = true := by
    rw [Position.toList_chain, hclosed, hcontext]
    simpa [kindsOf] using h.literals
  have htext : q.reader.text = front.toList := by
    rw [hrun.text hforward]
    exact Reader.text_skipBlank _
  have hlength : q.reader.totalLength = bytes front := congrArg byteLength htext
  have hcomes : ∀ more : String, (∀ c ∈ more.toList.head?, isBlank c = false) →
      t.ComesBy source layer (front ++ more) (q.followedBy more.toList) := by
    intro more hmore
    refine hrun.comesBy hf hL hq.consumed hkinds ?_ hmore ?_
    · rw [hpieces, hlength]
      exact h.apart
    · rw [← start_followedBy front more hmore]
      exact hf.comesBy_start hforward source _
  refine ⟨q, ?_, fun hne hnil => hne ?_, hq.consumed, hrun.open (open_start _), hpieces ▸ h.apart,
    hcontext ▸ fun _ ho => ho, hcomes⟩
  · have hstands := (hcomes "" (by simp)).tracked.guarded.descends.stands
    rw [← h.stands, ← hcontext]
    exact hstands.symm
  · rw [← h.stands, ← hcontext, hnil]
    exact hrun.starts_at_root hclosed

theorem IsWayTo.standsBehind (hf : Filed t layer) (ht : t.Reachable) (hL : L.ReadsLocally)
    (h : t.IsWayTo source front id) : ∃ p, t.StandsBehind source layer front id p := by
  rcases h with ⟨rfl, hblank⟩ | hpath
  · exact ⟨_, standsBehind_blank hf hL.readsForward hblank⟩
  · exact hpath.standsBehind hf ht hL

/-! ### An option in between -/

def withOption (front name v : String) : String := front ++ ("--" ++ name ++ " " ++ v ++ " ")

theorem pieces_behindOption {name v : String} {option : NodeId} {value : Value} {s : Span}
    (h : s ∈ (behindOption p name option v value).pieces) : s ∈ p.pieces ∨ s.stop =
      ((p.reader.pass (2 + name.length)).skipBlank.pass v.length).cursor := by
  rw [Position.pieces, Position.toList_chain, List.flatMap_append, List.mem_append] at h ⊢
  rcases h with h | h
  · exact Or.inl (Or.inl h)
  · rw [List.flatMap_singleton, Context.pieces, List.mem_append] at h
    rw [List.flatMap_singleton, Context.pieces, List.mem_append]
    rcases h with h | h
    · exact Or.inl (Or.inr (Or.inl h))
    · obtain ⟨o, ho, rfl⟩ := List.mem_map.1 h
      rcases List.mem_append.1 ho with ho | ho
      · exact Or.inl (Or.inr (Or.inr (List.mem_map_of_mem ho)))
      · rw [List.mem_singleton.1 ho]
        exact Or.inr rfl

theorem StandsBehind.blank (h : t.StandsBehind source layer front id p) :
    ∀ c ∈ front.toList.getLast?, isBlank c = true := by
  have hcomes := h.comesBy "" (by simp)
  have hrest : (p.followedBy "".toList).reader.rest = [] := by
    show p.reader.rest ++ [] = []
    rw [h.rest, List.append_nil]
  have hpassed : p.reader.passed.reverse = front.toList := by
    have htext := hcomes.tracked.text
    rw [Reader.text, hrest, List.append_nil] at htext
    exact htext.trans (congrArg String.toList (String.append_empty))
  obtain ⟨y, hsettled, hy⟩ := hcomes.tracked.settled
  obtain ⟨before, blanks, hgap, hblank, rfl⟩ := hsettled.gap
  have hsplit : front.toList = before ++ blanks := hpassed.symm.trans hgap
  intro c hc
  refine hblank c ?_
  cases hblanks : blanks.getLast? with
  | some d =>
    rw [hsplit, List.getLast?_append, hblanks] at hc
    obtain rfl : d = c := Option.some.inj hc
    exact List.mem_of_getLast? hblanks
  | none =>
    rw [List.getLast?_eq_none_iff.1 hblanks, List.append_nil] at hsplit
    rcases hy with ⟨hzero, -⟩ | ⟨s, hs, hstop⟩
    · rw [hsplit, eq_nil_of_byteLength hzero] at hc
      cases hc
    · have hlt := h.behind s hs
      rw [hstop, bytes, hsplit] at hlt
      exact absurd hlt (Nat.lt_irrefl _)

theorem trimFront_typed {typed : String} (htyped : ∀ c ∈ typed.toList, isBlank c = false) :
    trimFront (' ' :: typed.toList) = typed.toList := by
  have hspace : isBlank ' ' = true := by decide
  rw [trimFront, List.dropWhile_cons, if_pos hspace]
  exact List.dropWhile_eq_self_iff.2 fun hlt => by simp [htyped _ (List.getElem_mem hlt)]

section Option

variable {name v typed : String} {option : NodeId} {type : L.Argument} {b : Builtin} {value : Value}

theorem StandsBehind.comesBy_option (hf : Filed t layer) (hL : L.ReadsForward)
    (hp : t.StandsBehind source layer front id p)
    (hkind : (t.node option).kind = .option name type) (hscan : L.scan type = b.scan)
    (hb : b ≠ .greedy) (hcarried : (t.node id).options.find? name = some option)
    (husable : t.Admits source option .allowed)
    (hnew : name ∉ (t.parse front source).chain.outer.given)
    (hname : ∀ c ∈ name.toList, isBlank c = false) (hv : IsToken v)
    (hvalue : b.scan.Accepts v.toList value) (htyped : ∀ c ∈ typed.toList, isBlank c = false) :
    ∃ q, t.ComesBy source layer (withOption front name v ++ typed) q ∧ q.node = id ∧
      q.context.console = p.context.console ∧ q.context.nodes = p.context.nodes ∧
      q.reader.rest = typed.toList ∧
      ∀ s ∈ q.pieces, s.stop < bytes (withOption front name v) := by
  let more := "--" ++ name ++ " " ++ v ++ " " ++ typed
  have hline : withOption front name v ++ typed = front ++ more := by
    simp [withOption, more, String.append_assoc]
  have hcomes := hp.comesBy more (by simpa [more] using (by decide : isBlank '-' = false))
  have hat : t.AtOption (p.followedBy more.toList) name option type v (' ' :: typed.toList) := by
    refine ⟨hkind, ?_, hname, hv, ?_, rfl⟩
    · show (t.node p.node).options.find? name = some option
      rw [hp.node]
      exact hcarried
    · show p.reader.rest ++ more.toList = _
      rw [hp.rest]
      simp [more]
  have hfresh : ∀ o ∈ (p.followedBy more.toList).context.options, o.name ≠ name := by
    rintro o ho rfl
    exact hnew (List.mem_map_of_mem (hp.given o ho))
  let q := behindOption (p.followedBy more.toList) name option v value
  have hstep : ∀ i q', Step t source (p.followedBy more.toList) i q' ↔ i = 0 ∧ q' = q := fun i _ =>
    hat.step_iff hscan hb hp.opened husable hfresh hvalue i
  have hq : t.ComesBy source layer (withOption front name v ++ typed) q := by
    rw [hline]
    exact hcomes.step hf hL hat.rest_ne_nil ((hstep 0 q).2 ⟨rfl, rfl⟩)
      fun j q' hs => ((hstep j q').1 hs).2
  have hrest : q.reader.rest = typed.toList :=
    (hat.reader_behindOption value).trans (trimFront_typed htyped)
  refine ⟨q, hq, hp.node, rfl, rfl, hrest, fun s hs => ?_⟩
  rcases pieces_behindOption hs with hs | hstop
  · refine Nat.lt_of_lt_of_le (hp.behind s hs) ?_
    rw [withOption, bytes, bytes, String.toList_append, byteLength_append]
    exact Nat.le_add_right _ _
  · -- the value ends in front of the blank behind it
    rw [hstop, ← hq.cursor_eq hrest]
    refine Reader.cursor_lt_pass _ ?_ (by rw [hat.rest_behind]; simp)
    rw [hat.rest_behind]
    exact Nat.succ_pos _

end Option

/-- Whether what is typed behind a text that leads to a node is looked for where it stands: the text
is as long in lowercase, and at the root, options are not given without any node. -/
structure KeepsPlace (t : CommandTree L) (source : L.Source) (front typed : String)
    (id : NodeId) : Prop where
  length : bytes (lowercase front) = bytes front
  tail : id = root → (t.parse (front ++ typed) source).chain.last.nodes = [] →
    (t.parse (front ++ typed) source).chain.last.options = []

theorem KeepsPlace.target (hf : Filed t layer) (hL : L.ReadsForward) {typed : String}
    (h : t.KeepsPlace source front typed id) (hp : t.ComesBy source layer (front ++ typed) p)
    (hnode : p.node = id) (hnodes : id ≠ root → p.context.nodes ≠ [])
    (hrest : p.reader.rest = typed.toList) (htyped : ∀ c ∈ typed.toList, isBlank c = false)
    (hbehind : ∀ s ∈ p.pieces, s.stop < bytes front) :
    (t.parse (front ++ typed) source).chain.target (front ++ typed) (bytes (front ++ typed)) =
      .branch id p.context.console (bytes front) := by
  rw [← hnode]
  refine hp.target hf hL hrest htyped hbehind ?_
  by_cases hroot : id = root
  · exact h.tail hroot
  · exact fun hnil => absurd hnil (hp.nodes_ne_nil hL (by rwa [hrest]) (hnodes hroot))

/-- Behind an option that is given at the end of a path, the same texts are suggested as without
the option. -/
theorem completion_behind_option (hL : L.IsBuiltin) (ht : t.Reachable)
    {name v typed : String} {option : NodeId} {type : L.Argument} {b : Builtin} {value : Value}
    (hfront : t.IsWayTo source front id) (hkind : (t.node option).kind = .option name type)
    (hscan : L.scan type = b.scan) (hb : b ≠ .greedy)
    (hcarried : (t.node id).options.find? name = some option)
    (husable : t.Admits source option .allowed)
    (hnew : name ∉ (t.parse front source).chain.outer.given) (hv : IsToken v)
    (hvalue : b.scan.Accepts v.toList value) (htyped : ∀ c ∈ typed.toList, isBlank c = false)
    (hascii : ∀ c ∈ typed.toList, c.toNat < 0x80) (hminus : typed.toList.head? ≠ some '-')
    (hname : ∀ c ∈ name.toList, isBlank c = false) (hplace : t.KeepsPlace source front typed id)
    (hplace' : t.KeepsPlace source (withOption front name v) typed id) (around : L.Surroundings) :
    ∃ g g', t.complete? around (t.parse (front ++ typed) source) = some g ∧
      t.complete? around (t.parse (withOption front name v ++ typed) source) = some g' ∧
      g'.list.map (·.text) = g.list.map (·.text) := by
  obtain ⟨layer, hg⟩ := ht.grown
  have hf := hg.filed
  have hforward := hL.readsLocally.readsForward
  obtain ⟨p, hp⟩ := hfront.standsBehind hf ht hL.readsLocally
  obtain ⟨q, hq, hnode, hconsole, hnodes, hrest, hbehind⟩ := hp.comesBy_option hf hforward hkind
    hscan hb hcarried husable hnew hname hv hvalue htyped
  have hcomes := hp.comesBy typed fun c hc => htyped c (List.mem_of_mem_head? hc)
  have htarget := hplace.target hf hforward hcomes hp.node hp.nodes
    (by show p.reader.rest ++ _ = _; rw [hp.rest]; rfl) htyped hp.behind
  have htarget' := hplace'.target hf hforward hq hnode (hnodes ▸ hp.nodes) hrest htyped hbehind
  rw [hconsole] at htarget'
  have hblank : ∀ c ∈ (withOption front name v).toList.getLast?, isBlank c = true := by
    intro c hc
    have hlast : (withOption front name v).toList =
        (front ++ ("--" ++ name ++ " " ++ v)).toList ++ [' '] := by
      simp [withOption]
    rw [hlast, List.getLast?_concat] at hc
    obtain rfl := Option.some.inj hc
    decide
  have hmoves := Draft.new_moves (back?_typed front typed)
    (back?_typed (withOption front name v) typed)
    (back?_lowercase_append hp.blank hascii hplace.length)
    (back?_lowercase_append hblank hascii hplace'.length)
  have hremaining : (Draft.new (front ++ typed) (bytes front)).remaining = typed := by
    show (back? (bytes front) (front ++ typed)).getD "" = typed
    rw [back?_typed]
    rfl
  rw [hf.complete?_parse hforward, hf.complete?_parse hforward, htarget, htarget']
  exact completeTarget?_moves hL around _ _ _ _ hmoves (by rwa [hremaining])
    (pendingOption?_word htyped) (pendingOption?_word htyped)

theorem completion_behind_option_postage :
    let line := postage.parse ("send " ++ "n") ()
    let line' := postage.parse (withOption "send " "to" "me" ++ "n") ()
    postage.IsWayTo () "send " 1 ∧ withOption "send " "to" "me" ++ "n" = "send --to me n" ∧
      (postage.complete? () line).map (fun g => g.list.map (·.text)) = some ["now"] ∧
      ∃ g g', postage.complete? () line = some g ∧ postage.complete? () line' = some g' ∧
        g'.list.map (·.text) = g.list.map (·.text) := by
  intro line line'
  have hway : postage.IsWayTo () "send " 1 :=
    Or.inr ⟨⟨'s', by decide, by decide⟩, by decide +kernel, by decide +kernel, by decide +kernel,
      by decide +kernel, by decide +kernel⟩
  have hkind : (postage.node 2).kind = .option "to" Builtin.word := rfl
  have husable : postage.Admits () 2 .allowed := (canUse_iff_admits ..).1 (by decide +kernel)
  have hvalue : Builtin.word.scan.Accepts "me".toList (.string "me") := ⟨⟨['e', 'm'], []⟩, rfl, rfl⟩
  exact ⟨hway, by decide +kernel, by decide +kernel,
    completion_behind_option Language.isBuiltin_builtins (reachable_built _) hway hkind
      (b := .word) rfl (by nofun) (by decide +kernel) husable (by decide +kernel)
      (by decide +kernel) hvalue (List.all_iff_forall_prop.1 (by decide +kernel))
      (List.all_iff_forall_prop.1 (by decide +kernel)) (by decide +kernel)
      (List.all_iff_forall_prop.1 (by decide +kernel))
      ⟨by decide +kernel, fun h => absurd h (by decide)⟩
      ⟨by decide +kernel, fun h => absurd h (by decide)⟩ ()⟩

/-- A tree with an option at its root. -/
def threshold : CommandTree .builtins :=
  builtUnder [.option "opt" Builtin.word] [.literal "xa"]

theorem reachable_threshold : threshold.Reachable := reachable_builtUnder _ _

/-- Behind an option at the root, nothing is suggested as long as nothing else is matched. -/
theorem completion_hidden_at_root :
    ¬∀ (t : CommandTree .builtins) (front name v typed : String) (id option : NodeId)
      (type : Builtin) (value : Value), t.Reachable → t.IsWayTo () front id →
      (t.node option).kind = .option name type → type ≠ .greedy →
      (t.node id).options.find? name = some option → t.Admits () option .allowed →
      name ∉ (t.parse front ()).chain.outer.given → IsToken v →
      type.scan.Accepts v.toList value → (∀ c ∈ typed.toList, isBlank c = false) →
      (∀ c ∈ (v ++ typed).toList, c.toNat < 0x80) → typed.toList.head? ≠ some '-' →
      (t.complete? () (t.parse (withOption front name v ++ typed) ())).map
          (fun g => g.list.map (·.text)) =
        (t.complete? () (t.parse (front ++ typed) ())).map fun g => g.list.map (·.text) := by
  intro h
  have husable : threshold.Admits () 1 .allowed := (canUse_iff_admits ..).1 (by decide +kernel)
  have hsame := h threshold "" "opt" "5" "x" root 1 .word (.string "5") reachable_threshold
    (Or.inl ⟨rfl, List.forall_mem_nil _⟩) rfl (by nofun) (by decide +kernel) husable
    (by decide +kernel) (by decide +kernel) ⟨⟨['5'], []⟩, rfl, rfl⟩
    (List.all_iff_forall_prop.1 (by decide +kernel))
    (List.all_iff_forall_prop.1 (by decide +kernel)) (by decide +kernel)
  have hshown : (threshold.complete? () (threshold.parse ("" ++ "x") ())).map
      (fun g => g.list.map (·.text)) = some ["xa"] := by decide +kernel
  have hhidden : (threshold.complete? () (threshold.parse (withOption "" "opt" "5" ++ "x") ())).map
      (fun g => g.list.map (·.text)) = some [] := by decide +kernel
  rw [hshown, hhidden] at hsame
  cases hsame

end CommandTree

end CommandConsole
