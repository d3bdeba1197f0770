import CommandConsole.Proofs.Place

/-!
# Cutting a line

A step that ends in front of a blank does not look behind the blank, so a line and what is left of
it in front of a cursor are matched by the same steps up to the token at the cursor.
-/

namespace CommandConsole

open Text

variable {L : Language}

/-! ### Alike readers -/

namespace Reader.Alike

variable {d : Char} {b b' : List Char} {r r' s : Reader}

theorem cursor_eq (h : r.Alike d b b' r') : r'.cursor = r.cursor := by
  obtain ⟨passed, a, rfl, rfl⟩ := h
  rfl

theorem rest_ne_nil (h : r.Alike d b b' r') : r'.rest ≠ [] := by
  obtain ⟨passed, a, -, rfl⟩ := h
  simp

theorem token_eq (hd : isBlank d = true) (h : r.Alike d b b' r') :
    token r'.rest = token r.rest := by
  obtain ⟨passed, a, rfl, rfl⟩ := h
  have hstop : (!isBlank d) = false := by simp [hd]
  unfold token
  rw [Scan.takeWhile_append_cons hstop, Scan.takeWhile_append_cons hstop]

theorem endsToken_eq (h : r.Alike d b b' r') : endsToken r'.rest = endsToken r.rest := by
  obtain ⟨passed, a, rfl, rfl⟩ := h
  cases a <;> rfl

theorem skipBlank (hd : isBlank d = true) (h : r.Alike d b b' r')
    (hlen : b.length < r.skipBlank.rest.length) : r.skipBlank.Alike d b b' r'.skipBlank := by
  have hcount : r'.rest.takeWhile isBlank = r.rest.takeWhile isBlank := by
    rw [Reader.skipBlank_eq_pass, Reader.rest_pass, List.length_drop] at hlen
    obtain ⟨passed, a, rfl, rfl⟩ := h
    have hink : ∃ e ∈ a, isBlank e = false := by
      refine Decidable.byContradiction fun hno => ?_
      have hall : ∀ e ∈ a ++ [d], isBlank e = true := by
        intro e he
        rcases List.mem_append.1 he with he | he
        · rw [← Bool.not_eq_false]
          exact fun hf => hno ⟨e, he, hf⟩
        · rw [List.mem_singleton.1 he]
          exact hd
      rw [show a ++ d :: b = (a ++ [d]) ++ b by simp, List.takeWhile_append_of_pos hall] at hlen
      simp only [List.length_append] at hlen
      omega
    obtain ⟨e, he, hf⟩ := hink
    obtain ⟨a₁, a₂, rfl⟩ := List.append_of_mem he
    simp only [List.append_assoc, List.cons_append]
    rw [Scan.takeWhile_append_cons hf, Scan.takeWhile_append_cons hf]
  rw [Reader.skipBlank_eq_pass, Reader.skipBlank_eq_pass, hcount]
  rw [Reader.skipBlank_eq_pass] at hlen
  exact h.pass hlen

end Reader.Alike

namespace CommandTree

variable {t : CommandTree L} {source : L.Source} {p q r : Position L} {layer : NodeId → Nat}
  {n : Nat} {c : Context L} {x y : Nat} {d : Char} {b b' : List Char} {r' : Reader}

/-! ### Steps in front of a blank -/

/-- Whether two positions were matched alike: if they stand at the same offset, a context that
starts there is the same, too. -/
structure Abreast (q q' : Position L) : Prop where
  closed : q'.closed = q.closed
  node : q'.node = q.node
  console : q'.context.console = q.context.console
  context : q'.reader.cursor = q.reader.cursor → q'.context = q.context

/-- Whether a move that ends in front of a blank is made whatever follows the blank. -/
def MovesAlike (t : CommandTree L) (source : L.Source) (moves : Position L → Position L → Prop)
    (p q : Position L) : Prop :=
  ∃ n c, Takes t source p n c q ∧ ∀ (d : Char) (b b' : List Char) (r' : Reader),
    isBlank d = true → p.reader.Alike d b b' r' → b.length < (p.reader.pass n).rest.length →
    ∃ q' c', moves { p with reader := r' } q' ∧ Takes t source { p with reader := r' } n c' q' ∧
      Abreast q q'

theorem namesOption_alike (hd : isBlank d = true) (hr : p.reader.Alike d b b' r') (name : String)
    (option : NodeId) :
    t.NamesOption { p with reader := r' } name option ↔ t.NamesOption p name option := by
  unfold NamesOption
  rw [hr.token_eq hd]

theorem namesLiteral_alike (hd : isBlank d = true) (hr : p.reader.Alike d b b' r')
    (child : NodeId) :
    t.NamesLiteral { p with reader := r' } child ↔ t.NamesLiteral p child := by
  unfold NamesLiteral
  rw [hr.token_eq hd]

theorem Gives.movesAlike (hL : L.ReadsLocally) {name : String}
    {option : NodeId} (hn : t.NamesOption p name option) (h : Gives t source p name option q) :
    MovesAlike t source (fun p q => Gives t source p name option q) p q := by
  cases h with
  | @intro type named start behind value hk ha hnew hnamed hstart hrest hs he =>
    obtain ⟨m, rfl⟩ := hL.readsForward _ _ _ _ hs
    obtain ⟨n, hpass⟩ : ∃ n, p.reader.pass n = start.pass m := by
      rw [hstart, hnamed, Reader.skipBlank_eq_pass, Reader.pass_pass, Reader.pass_pass]
      exact ⟨_, rfl⟩
    refine ⟨n, _, takes_give hn ha hnamed hstart hrest hpass he value, ?_⟩
    intro d b b' r' hd hr hlen
    have hrpass := hr.pass hlen
    -- every reader on the way is in front of the blank
    rw [hpass] at hlen
    have hlenStart : b.length < start.rest.length :=
      Nat.lt_of_lt_of_le hlen (Reader.rest_pass_le _ _)
    have hlenNamed : b.length < named.rest.length := by
      rw [hstart] at hlenStart
      exact Nat.lt_of_lt_of_le hlenStart (Reader.rest_pass_le _ _)
    have hrnamed : named.Alike d b b' (r'.pass (2 + name.length)) := by
      rw [hnamed] at hlenNamed ⊢
      exact hr.pass hlenNamed
    have hrstart : start.Alike d b b' (r'.pass (2 + name.length)).skipBlank := by
      rw [hstart] at hlenStart ⊢
      exact hrnamed.skipBlank hd hlenStart
    have hrbehind := hrstart.pass hlen
    have hscan := (hL type d b b' hd).alike hrstart hrbehind hs
    have hends := hrbehind.endsToken_eq.trans he
    have hpass' : r'.pass n = (r'.pass (2 + name.length)).skipBlank.pass m := by
      rw [hpass] at hrpass
      exact hrpass.unique hrbehind
    have hn' := (namesOption_alike hd hr name option).2 hn
    have ha' : t.Admits source option ({ p with reader := r' } : Position L).context.console := ha
    have htakes := takes_give hn' ha' rfl rfl hrstart.rest_ne_nil hpass' hends value
    refine ⟨_, _, .intro hk ha hnew rfl rfl hrstart.rest_ne_nil hscan hends, htakes,
      ⟨rfl, rfl, rfl, fun _ => ?_⟩⟩
    show Context.takeOption _ _ _ = Context.takeOption _ _ _
    rw [hrbehind.cursor_eq, hrstart.cursor_eq, hrnamed.cursor_eq, hr.cursor_eq]

theorem Reads.alike (hL : L.ReadsLocally) {child : NodeId} {taken : Context L}
    (h : Reads t p child taken (p.reader.pass n)) (hd : isBlank d = true)
    (hr : p.reader.Alike d b b' r') (hlen : b.length < (p.reader.pass n).rest.length) :
    Reads t { p with reader := r' } child taken (r'.pass n) := by
  have hrbehind := hr.pass hlen
  generalize hbehind : p.reader.pass n = behind at h hrbehind
  cases h with
  | @literal name hk htoken =>
    rw [hbehind] at hlen
    have hsame := hrbehind.unique (hr.pass hlen)
    have htoken' := (hr.token_eq hd).trans htoken
    rw [hsame]
    exact .literal hk htoken'
  | @argument name type value behind hk hs he =>
    have hscan := (hL type d b b' hd).alike hr hrbehind hs
    rw [← hr.cursor_eq, ← hrbehind.cursor_eq]
    exact .argument hk hscan (hrbehind.endsToken_eq.trans he)

theorem abreast_beyond {behind behind' : Reader} (hr : p.reader.Alike d b b' r')
    (hbehind : behind.Alike d b b' behind') (child : NodeId) (taken : Context L) :
    Abreast (t.beyond p child taken behind)
      (t.beyond { p with reader := r' } child taken behind') := by
  have hread : behind.canRead = true ∧ behind'.canRead = true := by
    obtain ⟨passed, a, rfl, rfl⟩ := hbehind
    simp [Reader.canRead]
  unfold beyond
  simp only [hr.cursor_eq, hbehind.cursor_eq]
  cases (t.node child).forward with
  | none => exact ⟨rfl, rfl, rfl, fun _ => rfl⟩
  | some forward =>
    simp only [hread.1, hread.2, if_true]
    exact ⟨rfl, rfl, rfl, fun hsame => congrArg (Context.startAt _ · _) hsame⟩

theorem Enters.movesAlike (hL : L.ReadsLocally) {child : NodeId}
    (h : t.Enters source p child q) :
    MovesAlike t source (fun p q => t.Enters source p child q) p q := by
  obtain ⟨taken, behind, hr, ha, rfl⟩ := h
  have hends : endsToken behind.rest = true := (reads_iff_takeToken.1 hr).2
  obtain ⟨n, rfl⟩ := hr.behind hL.readsForward
  obtain ⟨captured, rfl⟩ := hr.capture_eq
  refine ⟨n, _, takes_beyond child captured hends, ?_⟩
  intro d b b' r' hd hreader hlen
  have hbehind := hreader.pass hlen
  have hr' := hr.alike hL hd hreader hlen
  exact ⟨_, _, ⟨_, _, hr', ha, rfl⟩,
    takes_beyond (p := { p with reader := r' }) child captured (hbehind.endsToken_eq.trans hends),
    abreast_beyond hreader hbehind child _⟩

/-- A step that ends in front of a blank is taken whatever follows the blank. -/
theorem Step.movesAlike (hL : L.ReadsLocally) {i : Nat}
    (h : Step t source p i q) : MovesAlike t source (fun p q => Step t source p i q) p q := by
  cases h with
  | option hn hg =>
    obtain ⟨n, c, ht, halike⟩ := hg.movesAlike hL hn
    refine ⟨n, c, ht, fun d b b' r' hd hr hlen => ?_⟩
    obtain ⟨q', c', hg', ht', habreast⟩ := halike d b b' r' hd hr hlen
    exact ⟨q', c', .option ((namesOption_alike hd hr ..).2 hn) hg', ht', habreast⟩
  | literal hno hn he =>
    obtain ⟨n, c, ht, halike⟩ := he.movesAlike hL
    refine ⟨n, c, ht, fun d b b' r' hd hr hlen => ?_⟩
    obtain ⟨q', c', he', ht', habreast⟩ := halike d b b' r' hd hr hlen
    refine ⟨q', c', .literal (fun name option hn' => ?_) ((namesLiteral_alike hd hr _).2 hn) he',
      ht', habreast⟩
    exact hno name option ((namesOption_alike hd hr ..).1 hn')
  | argument hno hshadow hc he =>
    obtain ⟨n, c, ht, halike⟩ := he.movesAlike hL
    refine ⟨n, c, ht, fun d b b' r' hd hr hlen => ?_⟩
    obtain ⟨q', c', he', ht', habreast⟩ := halike d b b' r' hd hr hlen
    refine ⟨q', c', .argument (fun name option hn' => ?_) (fun literal hn' => ?_) hc he', ht',
      habreast⟩
    · exact hno name option ((namesOption_alike hd hr ..).1 hn')
    · exact hshadow literal ((namesLiteral_alike hd hr _).1 hn')

/-! ### Steps that are told apart -/

theorem eq_of_pairwise_lt {steps : List (Nat × Position L)}
    (h : steps.Pairwise fun a b => a.1 < b.1) {i : Nat} (hq : (i, q) ∈ steps)
    (hr : (i, r) ∈ steps) : q = r := by
  induction steps with
  | nil => cases hq
  | cons s steps ih =>
    obtain ⟨hfirst, hrest⟩ := List.pairwise_cons.1 h
    rcases List.mem_cons.1 hq with hq | hq
    · rcases List.mem_cons.1 hr with hr | hr
      · exact (Prod.mk.inj (hq.trans hr.symm)).2
      · exact absurd (hfirst _ hr) (by rw [← hq]; exact Nat.lt_irrefl i)
    · rcases List.mem_cons.1 hr with hr | hr
      · exact absurd (hfirst _ hq) (by rw [← hr]; exact Nat.lt_irrefl i)
      · exact ih hrest hq hr

/-- A number stands for at most one step. -/
theorem Filed.step_unique (hf : Filed t layer) {i : Nat} (hq : Step t source p i q)
    (hr : Step t source p i r) : q = r := by
  obtain ⟨steps, hsorted, hmem, -⟩ := hf.follow_steps source p
  exact eq_of_pairwise_lt hsorted ((hmem i q).1 hq) ((hmem i r).1 hr)

theorem Piece.stop_eq (h : Piece t source p n c)
    (hstop : p.context.span.stop ≤ p.reader.cursor) :
    c.span.stop = (p.reader.pass n).cursor := by
  have hle : p.context.span.stop ≤ (p.reader.pass n).cursor :=
    Nat.le_trans hstop (Reader.cursor_le_pass _ _)
  cases h with
  | node => exact Nat.max_eq_right hle
  | option _ _ _ _ _ _ => exact Nat.max_eq_right hle

theorem Takes.end_unique {n' : Nat} {c' : Context L} (h : Takes t source p n c q)
    (h' : Takes t source p n' c' q) (hstop : p.context.span.stop ≤ p.reader.cursor) :
    (p.reader.pass n).cursor = (p.reader.pass n').cursor := by
  have hsame : c = c' := by
    rcases h.goesOn with ⟨hclosed, hc⟩ | ⟨-, hclosed, -⟩
    · rcases h'.goesOn with ⟨-, hc'⟩ | ⟨-, hclosed', -⟩
      · exact hc.symm.trans hc'
      · rw [hclosed] at hclosed'
        simp at hclosed'
    · rcases h'.goesOn with ⟨hclosed', -⟩ | ⟨-, hclosed', -⟩
      · rw [hclosed'] at hclosed
        simp at hclosed
      · rw [hclosed] at hclosed'
        simpa using hclosed'
  rw [← h.piece.stop_eq hstop, ← h'.piece.stop_eq hstop, hsame]

/-- Whether a token that ends in front of an offset leaves no choice: wherever steps lead to it from
a position on, there is one step at most. -/
def Decided (t : CommandTree L) (source : L.Source) (p : Position L) (x : Nat) : Prop :=
  ∀ (choices : List Nat) (q : Position L), Run t source p choices q →
    q.reader.cursor + byteLength (token q.reader.rest) < x →
    ∀ (i j : Nat) (r s : Position L), Step t source q i r → Step t source q j s → i = j

theorem Decided.step (h : Decided t source p x) (hrest : p.reader.rest ≠ []) {i : Nat}
    (hs : Step t source p i q) : Decided t source q x :=
  fun choices r hrun => h (i :: choices) r (.step hrest hs hrun)

theorem decided_of_arguments (h : ∀ id, (t.node id).arguments.length ≤ 1) :
    Decided t source p x := by
  intro choices q _ _ i j r s hi hj
  have hzero : ∀ {i : Nat} {r : Position L}, Step t source q i r → i = 0 := by
    intro i r hs
    cases hs with
    | option _ _ => rfl
    | literal _ _ _ => rfl
    | argument _ _ hc _ =>
      obtain ⟨hlt, -⟩ := List.getElem?_eq_some_iff.1 hc
      exact Nat.lt_one_iff.1 (Nat.lt_of_lt_of_le hlt (h _))
  rw [hzero hi, hzero hj]

theorem cursor_token_le {r : Reader} (h : endsToken (r.pass n).rest = true) :
    r.cursor + byteLength (token r.rest) ≤ (r.pass n).cursor := by
  have hsplit := token_append_dropWhile r.rest
  rcases Nat.lt_or_ge n (token r.rest).length with hlt | hge
  · exfalso
    obtain ⟨d, ds, hdrop⟩ : ∃ d ds, (token r.rest).drop n = d :: ds :=
      List.exists_cons_of_ne_nil (by simpa using hlt)
    have hmem : d ∈ token r.rest := List.mem_of_mem_drop (by rw [hdrop]; simp)
    rw [Reader.rest_pass, ← hsplit, List.drop_append_of_le_length (Nat.le_of_lt hlt), hdrop] at h
    rw [show endsToken (d :: ds ++ _) = isBlank d from rfl, not_isBlank_of_mem_token hmem] at h
    cases h
  · have htoken : token r.rest = r.rest.take (token r.rest).length :=
      List.prefix_iff_eq_take.1 ⟨_, hsplit⟩
    rw [htoken, ← Reader.cursor_pass]
    exact Reader.cursor_pass_mono r hge

theorem Decided.eq (h : Decided t source p x) (hends : endsToken (p.reader.pass n).rest = true)
    (hlt : (p.reader.pass n).cursor < x) {i j : Nat} (hq : Step t source p i q)
    (hr : Step t source p j r) : i = j :=
  h [] p (.done p) (Nat.lt_of_le_of_lt (cursor_token_le hends) hlt) i j q r hq hr

/-! ### Lines with a common front -/

theorem blank_of_cursor_lt {pre w b : List Char}
    (hends : endsToken ((⟨pre, w ++ b⟩ : Reader).pass n).rest = true)
    (hlt : ((⟨pre, w ++ b⟩ : Reader).pass n).cursor < byteLength pre + byteLength w) :
    ∃ a d v, w = a ++ d :: v ∧ a.length = n ∧ isBlank d = true := by
  have hn : n < w.length := by
    refine Nat.lt_of_not_le fun hge => ?_
    rw [Reader.cursor_pass, List.take_append, List.take_of_length_le hge, byteLength_append] at hlt
    simp only [Reader.cursor] at hlt
    omega
  obtain ⟨d, v, hdrop⟩ : ∃ d v, w.drop n = d :: v :=
    List.exists_cons_of_ne_nil (by simpa using hn)
  refine ⟨w.take n, d, v, ?_, ?_, ?_⟩
  · rw [← hdrop, List.take_append_drop]
  · rw [List.length_take]
    exact Nat.min_eq_left (Nat.le_of_lt hn)
  · rw [Reader.rest_pass, List.drop_append_of_le_length (Nat.le_of_lt hn), hdrop] at hends
    exact hends

theorem skipBlank_append (pre v : List Char) :
    (∃ pre' w, (∃ d ds, w = d :: ds ∧ isBlank d = false) ∧
      pre'.reverse ++ w = pre.reverse ++ v ∧
      ∀ b, (⟨pre, v ++ b⟩ : Reader).skipBlank = ⟨pre', w ++ b⟩) ∨
    ∀ b, byteLength pre + byteLength v ≤ (⟨pre, v ++ b⟩ : Reader).skipBlank.cursor := by
  have hsplit : v.takeWhile isBlank ++ v.dropWhile isBlank = v := List.takeWhile_append_dropWhile
  have hblank : ∀ e ∈ v.takeWhile isBlank, isBlank e = true := List.all_eq_true.1 List.all_takeWhile
  cases hrest : v.dropWhile isBlank with
  | nil =>
    rw [hrest, List.append_nil] at hsplit
    rw [hsplit] at hblank
    refine Or.inr fun b => ?_
    rw [Reader.skipBlank_eq_pass, Reader.cursor_pass]
    show _ ≤ byteLength pre + byteLength ((v ++ b).take ((v ++ b).takeWhile isBlank).length)
    rw [List.takeWhile_append_of_pos hblank, List.length_append, List.take_length_add_append,
      byteLength_append]
    omega
  | cons e ds =>
    have he : isBlank e = false := by
      have hhead := List.head?_dropWhile_not isBlank v
      rw [hrest] at hhead
      simpa using hhead
    rw [hrest] at hsplit
    refine Or.inl ⟨(v.takeWhile isBlank).reverse ++ pre, e :: ds, ⟨e, ds, rfl, he⟩, ?_, fun b => ?_⟩
    · rw [List.reverse_append, List.reverse_reverse, List.append_assoc, hsplit]
    · generalize v.takeWhile isBlank = blanks at hsplit hblank ⊢
      have htake : (v ++ b).takeWhile isBlank = blanks := by
        rw [← hsplit, List.append_assoc, List.takeWhile_append_of_pos hblank, List.cons_append,
          List.takeWhile_cons, he]
        simp
      rw [Reader.skipBlank_eq_pass, htake, ← hsplit]
      simp [Reader.pass]

/-! ### Matching two lines with a common front -/

structure Ready (t : CommandTree L) (source : L.Source) (layer : NodeId → Nat) (x : Nat)
    (p : Position L) : Prop where
  guarded : t.Guarded source layer p
  decided : Decided t source p x
  settled : ∃ y ≤ x, Settled p y
  clear : ClearOf p x

theorem ready_start (line : String)
    (h : Decided t source (.start (Reader.ofString line).skipBlank) x) :
    Ready t source layer x (.start (Reader.ofString line).skipBlank) where
  guarded := guarded_start _
  decided := h
  settled := ⟨0, Nat.zero_le x, settled_start line⟩
  clear := ⟨fun _ hd => absurd hd List.not_mem_nil, Or.inl ⟨rfl, rfl, rfl⟩⟩

theorem Ready.step (hf : Filed t layer) (h : Ready t source layer x p) {i : Nat}
    (hrest : p.reader.rest ≠ []) (hs : Step t source p i q) (ht : Takes t source p n c q)
    (hlt : (p.reader.pass n).cursor < x) : Ready t source layer x q := by
  obtain ⟨y, -, hsettled⟩ := h.settled
  have hnext := ht.settled hsettled
  exact ⟨h.guarded.step hf hs, h.decided.step hrest hs, ⟨_, Nat.le_of_lt hlt, hnext⟩,
    hnext.clearOf hlt⟩

theorem Ends.guarded (hf : Filed t layer) (h : Ends t source p r)
    (hp : t.Guarded source layer p) : t.Guarded source layer r := by
  induction h with
  | finished _ => exact hp
  | stuck _ _ => exact hp
  | step _ hs _ ih => exact ih (hp.step hf hs)

theorem Leaves.guarded (hf : Filed t layer) (h : t.Leaves source p r)
    (hp : t.Guarded source layer p) : t.Guarded source layer r := by
  rcases h with rfl | ⟨i, q, hs, hends⟩
  · exact hp
  · exact hends.guarded hf (hp.step hf hs)

theorem Leaves.text (hL : L.ReadsForward) (h : t.Leaves source p r) :
    r.reader.text = p.reader.text := by
  rcases h with rfl | ⟨i, q, hs, hends⟩
  · rfl
  · obtain ⟨n, c, ht⟩ := hs.takes hL
    rw [hends.text hL, ht.text]

/-- Where two lines with a common front are completed alike: the targets are the same, or both are
what may be typed in the last token of the front. -/
inductive Agrees (t : CommandTree L) (source : L.Source) (front : List Char) :
    CursorTarget → CursorTarget → Prop
  | same (found : CursorTarget) : Agrees t source front found found
  | token {p : Position L} {pre w b b' : List Char} {found found' : CursorTarget} :
      pre.reverse ++ w = front → (∃ d ds, w = d :: ds ∧ isBlank d = false) →
      p.reader = ⟨pre, w ++ b⟩ → Typed t source p (byteLength front) found →
      Typed t source { p with reader := ⟨pre, w ++ b'⟩ } (byteLength front) found' →
      Agrees t source front found found'

variable {front pre v w : List Char} {p' q' s : Position L}

theorem agrees_or_ink (hf : Filed t layer) (hL : L.ReadsForward)
    (hfront : pre.reverse ++ v = front) (habreast : Abreast q q')
    (hq : q.reader = (⟨pre, v ++ b⟩ : Reader).skipBlank)
    (hq' : q'.reader = (⟨pre, v ++ b'⟩ : Reader).skipBlank)
    (hready : Ready t source layer (byteLength front) q)
    (hready' : Ready t source layer (byteLength front) q')
    (hleaves : t.Leaves source q r) (hleaves' : t.Leaves source q' s)
    (hopen : r.chain.OpenAt (byteLength front)) (hopen' : s.chain.OpenAt (byteLength front)) :
    (∃ pre' w, pre'.reverse ++ w = front ∧ (∃ d ds, w = d :: ds ∧ isBlank d = false) ∧
      q.reader = ⟨pre', w ++ b⟩ ∧ q' = { q with reader := ⟨pre', w ++ b'⟩ }) ∨
    Agrees t source front (r.chain.target r.reader.line (byteLength front))
      (s.chain.target s.reader.line (byteLength front)) := by
  rcases skipBlank_append pre v with ⟨pre', w, hink, htext, hsame⟩ | hover
  · rw [hsame] at hq hq'
    refine Or.inl ⟨pre', w, htext.trans hfront, hink, hq, ?_⟩
    obtain ⟨closed, node, context, reader⟩ := q'
    obtain rfl : reader = _ := hq'
    obtain rfl : closed = _ := habreast.closed
    obtain rfl : node = _ := habreast.node
    obtain rfl : context = _ := habreast.context (by rw [hq]; rfl)
    rfl
  · have hlen : byteLength front = byteLength pre + byteLength v := by
      rw [← hfront, byteLength_append, byteLength_reverse]
    -- the offset lies at or in front of the next ink
    have hgap : ∀ {q r : Position L} {b : List Char},
        q.reader = (⟨pre, v ++ b⟩ : Reader).skipBlank →
        Ready t source layer (byteLength front) q → t.Leaves source q r →
        r.chain.OpenAt (byteLength front) → r.chain.target r.reader.line (byteLength front) =
          .branch q.node q.context.console (byteLength front) := by
      intro q r b hq hready hleaves hopen
      obtain ⟨y, hy, hsettled⟩ := hready.settled
      have htext : q.reader.text = front ++ b := by
        rw [hq, Reader.text_skipBlank, ← hfront, List.append_assoc]
        rfl
      have hge : byteLength front ≤ q.reader.cursor := by
        rw [hq, hlen]
        exact hover b
      have hline : r.reader.line = q.reader.line := by
        rw [Reader.line, hleaves.text hL]
        rfl
      rw [hline]
      exact hsettled.target_gap hL hy hready.guarded (hleaves.guarded hf hready.guarded)
        hready.clear hopen hleaves htext rfl hge
    rw [hgap hq hready hleaves hopen, hgap hq' hready' hleaves' hopen', habreast.node,
      habreast.console]
    exact Or.inr (.same _)

theorem Step.transfer (hL : L.ReadsLocally) {i : Nat}
    (hs : Step t source p i q) (hread : p.reader = ⟨pre, w ++ b⟩)
    (hfront : pre.reverse ++ w = front) (b' : List Char) :
    ∃ n c, Takes t source p n c q ∧ ((p.reader.pass n).cursor < byteLength front →
      ∃ q' c' pre' v, Step t source { p with reader := ⟨pre, w ++ b'⟩ } i q' ∧
        Takes t source { p with reader := ⟨pre, w ++ b'⟩ } n c' q' ∧ Abreast q q' ∧
        pre'.reverse ++ v = front ∧ p.reader.pass n = ⟨pre', v ++ b⟩ ∧
        (⟨pre, w ++ b'⟩ : Reader).pass n = ⟨pre', v ++ b'⟩) := by
  obtain ⟨n, c, ht, halike⟩ := hs.movesAlike hL
  refine ⟨n, c, ht, fun hlt => ?_⟩
  have hends := ht.ends
  rw [hread] at hends hlt
  rw [← hfront, byteLength_append, byteLength_reverse] at hlt
  obtain ⟨a, d, v, rfl, rfl, hd⟩ := blank_of_cursor_lt hends hlt
  have hpass : ∀ b, (⟨pre, a ++ d :: v ++ b⟩ : Reader).pass a.length =
      ⟨a.reverse ++ pre, d :: v ++ b⟩ := by
    intro b
    simp [Reader.pass]
  have hreaders : p.reader.Alike d (v ++ b) (v ++ b') ⟨pre, a ++ d :: v ++ b'⟩ :=
    ⟨pre, a, by rw [hread]; simp, by simp⟩
  obtain ⟨q', c', hs', ht', habreast⟩ := halike d (v ++ b) (v ++ b') _ hd hreaders (by
    rw [hread, hpass]
    exact Nat.lt_succ_self _)
  refine ⟨q', c', a.reverse ++ pre, d :: v, hs', ht', habreast, ?_, ?_, hpass b'⟩
  · rw [← hfront, List.reverse_append, List.reverse_reverse, List.append_assoc]
  · rw [hread, hpass]

theorem cursor_of_reverse_append {r : Reader} (hread : r = ⟨pre, w ++ b⟩)
    (hfront : pre.reverse ++ w = front) (hink : ∃ d ds, w = d :: ds ∧ isBlank d = false) :
    r.AtInk ∧ r.cursor < byteLength front ∧ r.text = front ++ b := by
  obtain ⟨d, ds, rfl, hd⟩ := hink
  subst hread
  refine ⟨⟨d, ds ++ b, rfl, hd⟩, ?_, ?_⟩
  · have hpos := Reader.byteLength_pos (List.cons_ne_nil d ds)
    rw [← hfront, byteLength_append, byteLength_reverse]
    show byteLength pre < _
    omega
  · rw [← hfront, List.append_assoc]
    rfl

theorem Ready.typed (hf : Filed t layer) (hL : L.ReadsForward)
    (h : Ready t source layer (byteLength front) p) (hread : p.reader = ⟨pre, w ++ b⟩)
    (hfront : pre.reverse ++ w = front) (hink : ∃ d ds, w = d :: ds ∧ isBlank d = false)
    (hends : Ends t source p r) (hopen : r.chain.OpenAt (byteLength front))
    (hreach : ∀ i q, Step t source p i q → Ends t source q r →
      ∃ n c, Takes t source p n c q ∧ byteLength front ≤ (p.reader.pass n).cursor) :
    Typed t source p (byteLength front) (r.chain.target r.reader.line (byteLength front)) := by
  obtain ⟨hatInk, hlt, htext⟩ := cursor_of_reverse_append hread hfront hink
  obtain ⟨y, hy, hsettled⟩ := h.settled
  have hguarded := hends.guarded hf h.guarded
  cases hends with
  | finished hrest => exact absurd hrest hatInk.rest_ne_nil
  | stuck _ hno =>
    rw [hsettled.target hy h.guarded h.clear hopen htext rfl fun _ => hatInk,
      Nat.min_eq_left (Nat.le_of_lt hlt)]
    exact .branch
  | @step _ q _ i _ hs hq =>
    obtain ⟨n, c, ht, hge⟩ := hreach i q hs hq
    exact ht.target hL hq h.guarded hguarded hsettled.start_le h.clear (Nat.le_of_lt hlt) hge
      hopen _

/-- In a token that no step of the first line ends in front of an offset, no step of the second
line does either, and the token is what is typed in both. -/
theorem agrees_in_token (hf : Filed t layer) (hL : L.ReadsLocally)
    (hread : p.reader = ⟨pre, w ++ b⟩) (hfront : pre.reverse ++ w = front)
    (hink : ∃ d ds, w = d :: ds ∧ isBlank d = false)
    (hready : Ready t source layer (byteLength front) p)
    (hready' : Ready t source layer (byteLength front) { p with reader := ⟨pre, w ++ b'⟩ })
    (hends : Ends t source p r) (hends' : Ends t source { p with reader := ⟨pre, w ++ b'⟩ } s)
    (hopen : r.chain.OpenAt (byteLength front)) (hopen' : s.chain.OpenAt (byteLength front))
    (hreach : ∀ i q n c, Step t source p i q → Takes t source p n c q →
      byteLength front ≤ (p.reader.pass n).cursor) :
    Agrees t source front (r.chain.target r.reader.line (byteLength front))
      (s.chain.target s.reader.line (byteLength front)) := by
  have hforward := hL.readsForward
  refine .token hfront hink hread
    (hready.typed hf hforward hread hfront hink hends hopen fun i q hs _ => ?_)
    (hready'.typed hf hforward rfl hfront hink hends' hopen' fun i q' hs' _ => ?_)
  · obtain ⟨n, c, ht⟩ := hs.takes hforward
    exact ⟨n, c, ht, hreach i q n c hs ht⟩
  · -- a step that ends in front of the offset would be taken in the first line, too
    obtain ⟨n, c', ht', htransfer⟩ := hs'.transfer hL rfl hfront b
    refine ⟨n, c', ht', Nat.le_of_not_lt fun hlt => ?_⟩
    obtain ⟨q, c, pre', v, hs, ht, -, -, hpass, hpass'⟩ := htransfer hlt
    rw [← hread] at hs ht hpass'
    have hle := hreach i q n c hs ht
    rw [hpass] at hlt
    rw [hpass'] at hle
    exact Nat.not_le.2 hlt hle

/-- Two lines with a common front, read in step from the same place in it, are completed alike at
its end. -/
theorem Ends.agrees (hf : Filed t layer) (hL : L.ReadsLocally)
    (hends : Ends t source p r) (hread : p.reader = ⟨pre, w ++ b⟩)
    (hfront : pre.reverse ++ w = front) (hink : ∃ d ds, w = d :: ds ∧ isBlank d = false)
    (hready : Ready t source layer (byteLength front) p)
    (hready' : Ready t source layer (byteLength front) { p with reader := ⟨pre, w ++ b'⟩ })
    (hends' : Ends t source { p with reader := ⟨pre, w ++ b'⟩ } s)
    (hopen : r.chain.OpenAt (byteLength front)) (hopen' : s.chain.OpenAt (byteLength front)) :
    Agrees t source front (r.chain.target r.reader.line (byteLength front))
      (s.chain.target s.reader.line (byteLength front)) := by
  induction hends generalizing pre w with
  | finished hrest =>
    exact absurd hrest (cursor_of_reverse_append hread hfront hink).1.rest_ne_nil
  | stuck hrest hno =>
    exact agrees_in_token hf hL hread hfront hink hready hready' (.stuck hrest hno) hends' hopen
      hopen' fun i q _ _ hs _ => absurd hs (hno i q)
  | @step p q r i hrest hs hq ih =>
    obtain ⟨n, c, ht, htransfer⟩ := hs.transfer hL hread hfront b'
    rcases Nat.lt_or_ge (p.reader.pass n).cursor (byteLength front) with hlt | hge
    · obtain ⟨q', c', pre', v, hs', ht', habreast, hfront', hpass, hpass'⟩ := htransfer hlt
      have hlt' : ((⟨pre, w ++ b'⟩ : Reader).pass n).cursor < byteLength front := by
        rw [hpass']
        rw [hpass] at hlt
        exact hlt
      cases hends' with
      | finished hrest' =>
        exact absurd hrest' (cursor_of_reverse_append rfl hfront hink).1.rest_ne_nil
      | stuck _ hno => exact absurd hs' (hno i q')
      | @step _ q'' _ j hrest' hs'' hq' =>
        -- both lines take the same step
        obtain rfl := hready'.decided.eq ht'.ends hlt' hs' hs''
        obtain rfl := hf.step_unique hs' hs''
        have hnext := hready.step hf hrest hs ht hlt
        have hnext' := hready'.step hf hrest' hs' ht' hlt'
        rcases agrees_or_ink hf hL.readsForward hfront' habreast (by rw [ht.reader, hpass])
          (by rw [ht'.reader, hpass']) hnext hnext' hq.leaves hq'.leaves hopen hopen' with
          ⟨pre'', w', hfront'', hink'', hread'', rfl⟩ | hagrees
        · exact ih hread'' hfront'' hink'' hnext hnext' hq' hopen
        · exact hagrees
    · obtain ⟨y, hy, hsettled⟩ := hready.settled
      refine agrees_in_token hf hL hread hfront hink hready hready' (.step hrest hs hq) hends'
        hopen hopen' fun j q₁ m c₁ hs₁ ht₁ => Nat.le_of_not_lt fun hlt => ?_
      -- a step that ends in front of the offset would be the one that does not
      obtain rfl := hready.decided.eq ht₁.ends hlt hs₁ hs
      obtain rfl := hf.step_unique hs₁ hs
      have hsame := ht₁.end_unique ht (Nat.le_of_lt_succ hsettled.before.stop)
      rw [hsame] at hlt
      exact Nat.not_le.2 hlt hge

/-! ### Parsed lines -/

theorem Filed.parseFrom_leaves (hf : Filed t layer) (hL : L.ReadsForward) (s : Reader)
    (source : L.Source) :
    ∃ r : Position L, (t.parseFrom s source).chain = r.chain ∧
      (t.parseFrom s source).reader = r.reader ∧
      t.Leaves source (.start s.skipBlank) r ∧
      (s.skipBlank.AtInk → Ends t source (.start s.skipBlank) r) := by
  rcases Reader.skipBlank_cases s with hnil | hink
  · obtain ⟨r, failures, heq, hrun⟩ :=
      hf.follow_ends source (Position.start s.skipBlank)
    have hout : (t.parseFrom s source).outcome = ⟨r.chain, r.reader, failures⟩ := heq
    refine ⟨r, congrArg Outcome.chain hout, congrArg Outcome.reader hout, ?_,
      fun hink => absurd hnil hink.rest_ne_nil⟩
    rcases hrun with rfl | ⟨i, q, choices, hs, hr⟩
    · exact Or.inl rfl
    · obtain ⟨n, c, ht⟩ := hs.takes hL
      have hq : q.reader.rest = [] := by
        rw [ht.reader]
        refine skipBlank_of_rest_nil ?_
        show (s.skipBlank.rest).drop n = []
        rw [hnil, List.drop_nil]
      -- nothing is left to read behind the first step
      cases hr with
      | done => exact Or.inr ⟨i, _, hs, .finished hq⟩
      | step hrest _ _ => exact absurd hq hrest
  · obtain ⟨r, failures, heq, hends, -⟩ :=
      hf.follow_end hL source (Position.start s.skipBlank) hink
    have hout : (t.parseFrom s source).outcome = ⟨r.chain, r.reader, failures⟩ := heq
    exact ⟨r, congrArg Outcome.chain hout, congrArg Outcome.reader hout, hends.leaves,
      fun _ => hends⟩

theorem Filed.parse_leaves (hf : Filed t layer) (hL : L.ReadsForward) (line : String)
    (source : L.Source) :
    ∃ r : Position L, (t.parse line source).chain = r.chain ∧
      (t.parse line source).reader = r.reader ∧
      t.Leaves source (.start (Reader.ofString line).skipBlank) r ∧
      ((Reader.ofString line).skipBlank.AtInk →
        Ends t source (.start (Reader.ofString line).skipBlank) r) :=
  hf.parseFrom_leaves hL (.ofString line) source

theorem Filed.line_parse (hf : Filed t layer) (hL : L.ReadsForward) (line : String)
    (source : L.Source) : (t.parse line source).reader.line = line := by
  obtain ⟨r, -, hreader, hleaves, -⟩ := hf.parse_leaves hL line source
  rw [hreader, Reader.line, hleaves.text hL]
  show String.ofList (Reader.ofString line).skipBlank.text = line
  rw [Reader.text_skipBlank]
  exact String.ofList_toList

/-- Two lines with a common front are completed alike at its end. -/
theorem Filed.parse_agrees (hf : Filed t layer) (hL : L.ReadsLocally)
    {line line' : String} (hline : line.toList = front ++ b) (hline' : line'.toList = front ++ b')
    (hdecided : Decided t source (.start (Reader.ofString line).skipBlank) (byteLength front))
    (hdecided' : Decided t source (.start (Reader.ofString line').skipBlank) (byteLength front))
    (hopen : (t.parse line source).chain.OpenAt (byteLength front))
    (hopen' : (t.parse line' source).chain.OpenAt (byteLength front)) :
    Agrees t source front ((t.parse line source).chain.target line (byteLength front))
      ((t.parse line' source).chain.target line' (byteLength front)) := by
  have hforward := hL.readsForward
  have hreader := hf.line_parse hforward line source
  have hreader' := hf.line_parse hforward line' source
  obtain ⟨r, hchain, hr, hleaves, hends⟩ := hf.parse_leaves hforward line source
  obtain ⟨s, hchain', hs, hleaves', hends'⟩ := hf.parse_leaves hforward line' source
  rw [hr] at hreader
  rw [hs] at hreader'
  have hready : Ready t source layer (byteLength front) _ := ready_start line hdecided
  have hready' : Ready t source layer (byteLength front) _ := ready_start line' hdecided'
  rw [hchain] at hopen ⊢
  rw [hchain'] at hopen' ⊢
  have habreast : Abreast (Position.start (L := L) (Reader.ofString line).skipBlank)
      (Position.start (Reader.ofString line').skipBlank) :=
    ⟨rfl, rfl, rfl, fun hsame => congrArg (Context.startAt root · .inherited) hsame⟩
  rcases agrees_or_ink hf hforward (List.nil_append front) habreast (by rw [← hline]; rfl)
    (by rw [← hline']; rfl) hready hready' hleaves hleaves' hopen hopen' with
    ⟨pre, w, hfront, hink, hread, hsame⟩ | hagrees
  · have hatInk := (cursor_of_reverse_append hread hfront hink).1
    have hread' : (Reader.ofString line').skipBlank = ⟨pre, w ++ b'⟩ :=
      congrArg Position.reader hsame
    have hatInk' := (cursor_of_reverse_append hread' hfront hink).1
    have hends' := hends' hatInk'
    rw [hsame] at hends' hready'
    have hagrees := (hends hatInk).agrees hf hL hread hfront hink hready hready' hends'
      hopen hopen'
    rw [hreader, hreader'] at hagrees
    exact hagrees
  · rw [hreader, hreader'] at hagrees
    exact hagrees

end CommandTree

end CommandConsole
