import CommandConsole.Proofs.Relations

/-!
# Built-in types read one token

Accepting only passes characters, and accepting up to the end of a token does not depend on what is
in front of the token or behind it: neither on what follows the blank, nor on whether there is a
blank at all or the line is over. So what was accepted is accepted again on its own. Failures may
leave the cursor anywhere, so going back before failing does no harm.
-/

namespace CommandConsole

open Text

/-- Whether two texts both end a token, the second at the end of the line if the first does. -/
structure Breaks (back back' : List Char) : Prop where
  left : endsToken back = true
  right : endsToken back' = true
  nil : back = [] → back' = []

theorem breaks_cons {c : Char} (hc : isBlank c = true) (b b' : List Char) :
    Breaks (c :: b) (c :: b') :=
  ⟨hc, hc, fun h => by cases h⟩

theorem breaks_nil {back : List Char} (h : endsToken back = true) : Breaks back [] :=
  ⟨h, rfl, fun _ => rfl⟩

/-! ### Readers that are alike up to some text -/

namespace Reader

theorem rest_pass_le (r : Reader) (n : Nat) : (r.pass n).rest.length ≤ r.rest.length := by
  rw [rest_pass, List.length_drop]
  exact Nat.sub_le _ _

theorem ext_text {r s : Reader} (htext : s.text = r.text) (hrest : s.rest = r.rest) : s = r := by
  obtain ⟨passed, rest⟩ := r
  obtain ⟨passed', rest'⟩ := s
  obtain rfl : rest' = rest := hrest
  have hpassed : passed'.reverse = passed.reverse := List.append_cancel_right htext
  rw [List.reverse_inj.1 hpassed]

/-- Two readers with the same text ahead, up to some text behind it. -/
def Shares (back back' : List Char) (r r' : Reader) : Prop :=
  ∃ passed passed' front, r = ⟨passed, front ++ back⟩ ∧ r' = ⟨passed', front ++ back'⟩

/-- Two readers that are the same, or share the text ahead. -/
def Like (back back' : List Char) (r r' : Reader) : Prop := r' = r ∨ r.Shares back back' r'

/-- Two readers with the same text up to a character, which is still to be read. -/
def Alike (c : Char) (b b' : List Char) (r r' : Reader) : Prop :=
  ∃ passed a, r = ⟨passed, a ++ c :: b⟩ ∧ r' = ⟨passed, a ++ c :: b'⟩

variable {c : Char} {b b' back back' : List Char} {r r' s' : Reader}

theorem Shares.pass {n : Nat} (hb : Breaks back back') (h : r.Shares back back' r')
    (hn : back.length ≤ (r.pass n).rest.length) :
    (r.pass n).Shares back back' (r'.pass n) := by
  obtain ⟨passed, passed', front, rfl, rfl⟩ := h
  simp only [rest_pass, List.length_drop, List.length_append] at hn
  rcases Nat.lt_or_ge front.length n with hlt | hle
  · -- nothing is behind the shared text, so there is no more to pass either way
    obtain rfl : back = [] := List.eq_nil_of_length_eq_zero (by omega)
    obtain rfl := hb.nil rfl
    exact ⟨(front.take n).reverse ++ passed, (front.take n).reverse ++ passed', front.drop n,
      by simp [Reader.pass], by simp [Reader.pass]⟩
  · refine ⟨(front.take n).reverse ++ passed, (front.take n).reverse ++ passed', front.drop n,
      ?_, ?_⟩ <;>
    simp [Reader.pass, List.take_append_of_le_length hle, List.drop_append_of_le_length hle]

theorem Shares.unique {s : Reader} (h : r.Shares back back' r') (h' : r.Shares back back' s)
    (htext : s.text = r'.text) : s = r' := by
  obtain ⟨passed, passed', front, rfl, rfl⟩ := h
  obtain ⟨passed₁, passed₁', front', heq, rfl⟩ := h'
  obtain ⟨-, hrest⟩ := Reader.mk.inj heq
  obtain rfl := List.append_cancel_right hrest
  exact ext_text htext rfl

theorem Alike.shares (h : r.Alike c b b' r') : r.Shares (c :: b) (c :: b') r' := by
  obtain ⟨passed, a, rfl, rfl⟩ := h
  exact ⟨passed, passed, a, rfl, rfl⟩

theorem Alike.pass {n : Nat} (h : r.Alike c b b' r') (hn : b.length < (r.pass n).rest.length) :
    (r.pass n).Alike c b b' (r'.pass n) := by
  obtain ⟨passed, a, rfl, rfl⟩ := h
  have hle : n ≤ a.length := by
    simp only [rest_pass, List.length_drop, List.length_append, List.length_cons] at hn
    omega
  refine ⟨(a.take n).reverse ++ passed, a.drop n, ?_, ?_⟩ <;>
    simp [Reader.pass, List.take_append_of_le_length hle, List.drop_append_of_le_length hle]

theorem Alike.length_lt (h : r.Alike c b b' r') : b.length < r.rest.length := by
  obtain ⟨passed, a, rfl, -⟩ := h
  simp only [List.length_append, List.length_cons]
  omega

theorem Alike.unique {r'' : Reader} (h : r.Alike c b b' r') (h' : r.Alike c b b' r'') :
    r' = r'' := by
  obtain ⟨passed, a, rfl, rfl⟩ := h
  obtain ⟨passed', a', heq, rfl⟩ := h'
  obtain ⟨rfl, hrest⟩ := Reader.mk.inj heq
  rw [List.append_cancel_right hrest]

theorem Like.peek?_filter (hb : Breaks back back') {p : Char → Bool}
    (hp : ∀ c, isBlank c = true → p c = false) (h : r.Like back back' r') :
    r'.peek?.filter p = r.peek?.filter p := by
  rcases h with rfl | ⟨passed, passed', front, rfl, rfl⟩
  · rfl
  · cases front with
    | nil =>
      exact (filter_head?_of_endsToken hp hb.right).trans
        (filter_head?_of_endsToken hp hb.left).symm
    | cons c front => rfl

theorem Like.atPoints (hb : Breaks back back') (h : r.Like back back' r') :
    Bounds.atPoints r' = Bounds.atPoints r := by
  rcases h with rfl | ⟨passed, passed', front, rfl, rfl⟩
  · rfl
  · have hleft := beq_head?_of_endsToken hb.left (c := '.') (by decide)
    have hright := beq_head?_of_endsToken hb.right (c := '.') (by decide)
    cases front with
    | nil => simp only [Bounds.atPoints, peek?, List.nil_append, hleft, hright, Bool.false_and]
    | cons c front =>
      cases front with
      | nil =>
        rw [List.head?_eq_getElem?] at hleft hright
        simp only [Bounds.atPoints, peek?, peekAt?, List.cons_append, List.nil_append,
          List.head?_cons, List.getElem?_cons_succ, hleft, hright]
      | cons d front => rfl

end Reader

namespace Scan

variable {α β : Type} {c : Char} {b b' back back' : List Char}

/-- Whether accepting only passes characters, and another scan accepts alike from a reader that
shares what is ahead, if the first does not get past that. -/
def Carries (back back' : List Char) (r r' : Reader) (x x' : Scan α) : Prop :=
  ∀ (v : α) (s : Reader), start x r = (.ok v, s) → (∃ n, s = r.pass n) ∧
    (r.Shares back back' r' → back.length ≤ s.rest.length →
      ∃ s', start x' r' = (.ok v, s') ∧ s.Shares back back' s')

/-- Whether accepting up to the end of a token depends on nothing around the token. -/
def IsSelfContained (x : Scan α) : Prop :=
  ∀ ⦃back back' : List Char⦄ ⦃r r' : Reader⦄, Breaks back back' → r.Like back back' r' →
    Carries back back' r r' x x

/-- Whether accepting only passes characters, and another scan accepts alike where the first does
not get past the character. -/
def Mirrors (c : Char) (b b' : List Char) (x x' : Scan α) : Prop :=
  ∀ (r : Reader) (v : α) (s : Reader), start x r = (.ok v, s) → ∃ n, s = r.pass n ∧
    ∀ r' : Reader, r.Alike c b b' r' → b.length < s.rest.length →
      start x' r' = (.ok v, r'.pass n)

/-- Whether accepting in front of a blank depends on nothing behind the blank. -/
def IsLocal (x : Scan α) : Prop :=
  ∀ (c : Char) (b b' : List Char), isBlank c = true → Mirrors c b b' x x

theorem IsLocal.forward {x : Scan α} (h : x.IsLocal) {r s : Reader} {v : α}
    (hs : start x r = (.ok v, s)) : ∃ n, s = r.pass n := by
  obtain ⟨n, hn, -⟩ := h ' ' [] [] (by decide) r v s hs
  exact ⟨n, hn⟩

theorem Mirrors.alike {x x' : Scan α} (h : Mirrors c b b' x x') {r r' s s' : Reader} {v : α}
    (hr : r.Alike c b b' r') (hs : s.Alike c b b' s') (hstart : start x r = (.ok v, s)) :
    start x' r' = (.ok v, s') := by
  obtain ⟨n, rfl, halike⟩ := h r v s hstart
  rw [halike r' hr hs.length_lt, (hr.pass hs.length_lt).unique hs]

theorem IsSelfContained.isLocal {x : Scan α} (h : x.IsSelfContained) : x.IsLocal := by
  intro c b b' hc r v s hs
  have hb := breaks_cons hc b b'
  obtain ⟨⟨n, rfl⟩, -⟩ := h hb (Or.inl rfl) v s hs
  refine ⟨n, rfl, fun r' hr hlen => ?_⟩
  have hlen' : (c :: b).length ≤ (r.pass n).rest.length := hlen
  obtain ⟨-, hcarry⟩ := h hb (Or.inr hr.shares) v _ hs
  obtain ⟨s', hs', hshares⟩ := hcarry hr.shares hlen'
  obtain ⟨⟨k, rfl⟩, -⟩ := h hb (Or.inl rfl) v s' hs'
  rw [hs', (hr.shares.pass hb hlen').unique hshares (by simp)]

/-- What was accepted up to the end of a token is accepted on its own. -/
theorem IsSelfContained.alone {x : Scan α} (h : x.IsSelfContained) {r s : Reader} {v : α}
    (hs : start x r = (.ok v, s)) (hends : endsToken s.rest = true) :
    ∃ n after, s = r.pass n ∧ start x ⟨[], r.rest.take n⟩ = (.ok v, after) ∧ after.rest = [] := by
  obtain ⟨⟨n, rfl⟩, -⟩ := h (breaks_nil hends) (Or.inl rfl) v s hs
  have hsplit : r.rest.take n ++ (r.pass n).rest = r.rest := List.take_append_drop n r.rest
  have hshares : r.Shares (r.pass n).rest [] ⟨[], r.rest.take n⟩ :=
    ⟨r.passed, [], r.rest.take n, by rw [hsplit], by rw [List.append_nil]⟩
  obtain ⟨-, hcarry⟩ := h (breaks_nil hends) (Or.inr hshares) v _ hs
  obtain ⟨after, hafter, passed, passed', front, hrest, rfl⟩ := hcarry hshares (Nat.le_refl _)
  have hfront : front = [] := by
    have hlen := congrArg (fun r : Reader => r.rest.length) hrest
    simp only [List.length_append] at hlen
    exact List.eq_nil_of_length_eq_zero (by omega)
  exact ⟨n, _, rfl, hafter, by rw [hfront]; rfl⟩

/-! ### Quoted strings -/

theorem push_eq_closed {q : Quoted} {d : Char} {k n : Nat} {value : List Char} :
    q.push d k = .closed value n ↔
      ∃ value' m, q = .closed value' m ∧ value = d :: value' ∧ n = m + k := by
  cases q with
  | closed value' m =>
    simp only [Quoted.push, Quoted.closed.injEq]
    constructor
    · rintro ⟨rfl, rfl⟩
      exact ⟨value', m, ⟨rfl, rfl⟩, rfl, rfl⟩
    · rintro ⟨value'', m', ⟨rfl, rfl⟩, rfl, rfl⟩
      exact ⟨rfl, rfl⟩
  | badEscape found m => simp [Quoted.push]
  | unclosed => simp [Quoted.push]

theorem push_eq_closed_congr {q q' : Quoted} {d : Char} {k n : Nat} {value : List Char}
    (h : ∀ value' m, n = m + k → (q = .closed value' m ↔ q' = .closed value' m)) :
    q.push d k = .closed value n ↔ q'.push d k = .closed value n := by
  rw [push_eq_closed, push_eq_closed]
  constructor
  · rintro ⟨value', m, hm, hvalue, hn⟩
    exact ⟨value', m, (h value' m hn).1 hm, hvalue, hn⟩
  · rintro ⟨value', m, hm, hvalue, hn⟩
    exact ⟨value', m, (h value' m hn).2 hm, hvalue, hn⟩

theorem unquote_cons (quote : Char) {d : Char} (hd : d ≠ '\\') (cs : List Char) :
    unquote quote (d :: cs) =
      if d == quote then .closed [] 1 else (unquote quote cs).push d 1 := by
  rw [unquote]
  · exact fun h _ => hd h
  · exact fun _ _ h _ => hd h

theorem ne_backslash {d : Char} {cs : List Char} (hnil : d = '\\' → cs = [] → False)
    (hcons : ∀ e es, d = '\\' → cs = e :: es → False) : d ≠ '\\' := by
  intro hd
  cases cs with
  | nil => exact hnil hd rfl
  | cons e es => exact hcons e es hd rfl

theorem pos_of_unquote {quote : Char} {cs value : List Char} {n : Nat}
    (h : unquote quote cs = .closed value n) : 0 < n := by
  fun_cases unquote quote cs with
  | case1 => simp [unquote] at h
  | case2 => simp [unquote] at h
  | case3 d cs hd =>
    rw [unquote, if_pos hd, push_eq_closed] at h
    obtain ⟨value', m, -, -, rfl⟩ := h
    omega
  | case4 d cs hd => simp [unquote, hd] at h
  | case5 d cs hnil hcons hd =>
    rw [unquote_cons quote (ne_backslash hnil hcons), if_pos hd] at h
    obtain ⟨-, rfl⟩ := Quoted.closed.inj h
    omega
  | case6 d cs hnil hcons hd =>
    rw [unquote_cons quote (ne_backslash hnil hcons), if_neg hd, push_eq_closed] at h
    obtain ⟨value', m, -, -, rfl⟩ := h
    omega

theorem unquote_append {quote : Char} {front value : List Char} {n : Nat} (hn : n ≤ front.length) :
    unquote quote (front ++ back) = .closed value n ↔ unquote quote front = .closed value n := by
  fun_induction unquote quote front generalizing value n with
  | case1 =>
    refine ⟨fun h => ?_, fun h => by cases h⟩
    have hpos := pos_of_unquote h
    simp at hn
    omega
  | case2 =>
    refine ⟨fun h => ?_, fun h => by cases h⟩
    cases back with
    | nil => simp [unquote] at h
    | cons d back =>
      simp only [List.cons_append, List.nil_append, unquote] at h
      split at h
      · rw [push_eq_closed] at h
        obtain ⟨value', m, -, -, rfl⟩ := h
        simp at hn
      · cases h
  | case3 d cs hd ih =>
    simp only [List.cons_append, unquote, hd, if_true, List.length_cons] at hn ⊢
    apply push_eq_closed_congr
    intro value' m hm
    exact ih (by omega)
  | case4 d cs hd => simp [unquote, hd]
  | case5 d cs hnil hcons hd =>
    rw [List.cons_append, unquote_cons quote (ne_backslash hnil hcons), if_pos hd]
  | case6 d cs hnil hcons hd ih =>
    rw [List.cons_append, unquote_cons quote (ne_backslash hnil hcons), if_neg hd]
    rw [List.length_cons] at hn
    apply push_eq_closed_congr
    intro value' m hm
    exact ih (by omega)

theorem start_stringUntil_eq_ok {quote : Char} {r s : Reader} {v : String} :
    start (stringUntil quote) r = (.ok v, s) ↔
      ∃ value n, unquote quote r.rest = .closed value n ∧ String.ofList value = v ∧
        r.pass n = s := by
  rw [start_stringUntil]
  cases unquote quote r.rest <;> simp [failedAt]

theorem carries_stringUntil {r r' : Reader} (hb : Breaks back back') (quote : Char) :
    Carries back back' r r' (stringUntil quote) (stringUntil quote) := by
  intro v s h
  obtain ⟨value, n, hvalue, rfl, rfl⟩ := start_stringUntil_eq_ok.1 h
  refine ⟨⟨n, rfl⟩, fun hr hlen => ⟨r'.pass n, ?_, hr.pass hb hlen⟩⟩
  refine start_stringUntil_eq_ok.2 ⟨value, n, ?_, rfl, rfl⟩
  obtain ⟨passed, passed', front, rfl, rfl⟩ := hr
  simp only [Reader.rest_pass, List.length_drop, List.length_append] at hlen
  rcases Nat.lt_or_ge front.length n with hlt | hle
  · obtain rfl : back = [] := List.eq_nil_of_length_eq_zero (by omega)
    rw [hb.nil rfl]
    exact hvalue
  · exact (unquote_append hle).2 ((unquote_append hle).1 hvalue)

/-! ### Built-in types -/

theorem FindsToken.shares {find : List Char → List Char} (hfind : FindsToken find)
    (hb : Breaks back back') {r r' : Reader} (h : r.Shares back back' r') :
    find r'.rest = find r.rest := by
  obtain ⟨passed, passed', front, rfl, rfl⟩ := h
  rw [hfind.append hb.left, hfind.append hb.right]

end Scan

/-- What readers accept alike up to the end of a token. -/
def carrying {back back' : List Char} (hb : Breaks back back') : ScanRelation where
  At := Reader.Like back back'
  Rel := Scan.Carries back back'
  peek?_filter h hp := h.peek?_filter hb hp
  atPoints h := h.atPoints hb
  congr hy hy' h := by rwa [Scan.Carries, hy, hy']
  pure _ v := by
    intro w s h
    obtain ⟨hv, rfl⟩ := Prod.mk.inj h
    obtain rfl := Except.ok.inj hv
    exact ⟨⟨0, rfl⟩, fun hr _ => ⟨_, rfl, hr⟩⟩
  bind {α β r r' x x' f f'} hx hf := by
    intro v s h
    obtain ⟨w, m, hw, hv⟩ := Scan.start_bind_eq_ok.1 h
    obtain ⟨⟨n, hn⟩, hcarry⟩ := hx w m hw
    obtain ⟨⟨k, hk⟩, -⟩ := hf w m m (Or.inl rfl) v s hv
    refine ⟨⟨n + k, by rw [hk, hn, Reader.pass_pass]⟩, fun hr hlen => ?_⟩
    have hmid : back.length ≤ m.rest.length := by
      rw [hk] at hlen
      exact Nat.le_trans hlen (Reader.rest_pass_le _ _)
    obtain ⟨m', hw', hm⟩ := hcarry hr hmid
    obtain ⟨-, hcarry'⟩ := hf w m m' (Or.inr hm) v s hv
    obtain ⟨s', hv', hs⟩ := hcarry' hm hlen
    exact ⟨s', Scan.start_bind_eq_ok.2 ⟨w, m', hw', hv'⟩, hs⟩
  failBack _ _ _ := fun _ _ h => nomatch h
  pass {r r' n} _ _ := by
    intro v s h
    obtain ⟨-, rfl⟩ := Prod.mk.inj h
    exact ⟨⟨n, rfl⟩, fun hr hlen => ⟨r'.pass n, rfl, hr.pass hb hlen⟩⟩
  take {r r' find} hfind _ := by
    intro v s h
    obtain ⟨hv, rfl⟩ := Prod.mk.inj h
    refine ⟨⟨_, rfl⟩, fun hr hlen => ⟨r'.pass (find r'.rest).length, ?_, ?_⟩⟩
    · rw [← hv, ← hfind.shares hb hr]
      rfl
    · rw [hfind.shares hb hr]
      exact hr.pass hb hlen
  stringUntil _ quote := Scan.carries_stringUntil hb quote

theorem Scan.isSelfContained_greedy : greedy.IsSelfContained := by
  intro back back' r r' hb _ v s h
  obtain ⟨hv, rfl⟩ := Prod.mk.inj h
  obtain rfl := Except.ok.inj hv
  refine ⟨⟨r.rest.length, rfl⟩, fun hr hlen => ?_⟩
  obtain rfl : back = [] := by
    simp only [Reader.passAll, Reader.rest_pass, List.drop_length, List.length_nil] at hlen
    exact List.eq_nil_of_length_eq_zero (by omega)
  obtain rfl := hb.nil rfl
  have hpass := hr.pass (n := r.rest.length) hb (Nat.zero_le _)
  obtain ⟨passed, passed', front, rfl, rfl⟩ := hr
  exact ⟨_, rfl, hpass⟩

/-- Every built-in type accepts alike whatever is around its token. -/
theorem Builtin.isSelfContained_scan (type : Builtin) : type.scan.IsSelfContained :=
  fun _ _ _ _ hb h => (carrying hb).builtin h type fun _ => Scan.isSelfContained_greedy hb h

theorem Builtin.isLocal_scan (type : Builtin) : type.scan.IsLocal :=
  type.isSelfContained_scan.isLocal

/-! ### Languages -/

/-- Whether every type of arguments reads in front of a blank without regard to what follows it. -/
def Language.ReadsLocally (L : Language) : Prop := ∀ type, (L.scan type).IsLocal

theorem Language.ReadsLocally.readsForward {L : Language} (h : L.ReadsLocally) :
    L.ReadsForward :=
  fun type _ _ _ hs => (h type).forward hs

end CommandConsole
