import CommandConsole.Argument.Builtin
import CommandConsole.Proofs.Run

/-!
# Relations between scans

The built-in types are made of a few scans: going on with what is there, failing, passing
characters, taking a token and reading up to a quote. A relation between what two scans do from two
readers that has a clause for each of them holds of every built-in type.
-/

namespace CommandConsole

open Text

/-! ### In front of what ends a token -/

theorem filter_head?_of_endsToken {back : List Char} {p : Char → Bool}
    (hp : ∀ c, isBlank c = true → p c = false) (h : endsToken back = true) :
    back.head?.filter p = none := by
  cases back with
  | nil => rfl
  | cons c back => simp [hp c h]

theorem beq_head?_of_endsToken {back : List Char} {c : Char} (h : endsToken back = true)
    (hc : isBlank c = false) : (back.head? == some c) = false := by
  cases back with
  | nil => rfl
  | cons d back =>
    refine beq_false_of_ne ?_
    rintro ⟨⟩
    have hblank : isBlank c = true := h
    rw [hc] at hblank
    cases hblank

theorem Reader.one_le_of_peek? {r : Reader} {c : Char} (h : r.peek? = some c) :
    1 ≤ r.rest.length := by
  obtain ⟨cs, hrest⟩ := List.head?_eq_some_iff.1 h
  rw [hrest]
  exact Nat.succ_pos _

namespace Scan

variable {α β : Type} {c : Char} {b back : List Char}

/-! ### Steps of a scan -/

theorem start_bind (x : Scan α) (f : α → Scan β) (r : Reader) :
    start (x >>= f) r =
      match start x r with
      | (.ok v, behind) => start (f v) behind
      | (.error e, behind) => (.error e, behind) := by
  show (match start x r with | (a, behind) => start (ExceptT.mk (ExceptT.bindCont f a)) behind) = _
  obtain ⟨a, behind⟩ := start x r
  cases a <;> rfl

theorem start_get_bind (f : Reader → Scan α) (r : Reader) :
    start (get >>= f) r = start (f r) r :=
  rfl

theorem start_bind_eq_ok {x : Scan α} {f : α → Scan β} {r s : Reader} {v : β} :
    start (x >>= f) r = (.ok v, s) ↔
      ∃ w m, start x r = (.ok w, m) ∧ start (f w) m = (.ok v, s) := by
  rw [start_bind]
  cases start x r with
  | mk result m => cases result <;> simp

/-! ### Tokens -/

theorem ne_of_isBlank {d : Char} (hc : isBlank c = true) (hd : isBlank d = false) : c ≠ d := by
  rintro rfl
  rw [hc] at hd
  cases hd

theorem not_isAlphanum_of_isBlank (hc : isBlank c = true) : c.isAlphanum = false := by
  rw [Bool.eq_false_iff]
  intro h
  have hranges : ('A'.val ≤ c.val ∧ c.val ≤ 'Z'.val ∨ 'a'.val ≤ c.val ∧ c.val ≤ 'z'.val) ∨
      '0'.val ≤ c.val ∧ c.val ≤ '9'.val := by
    change (decide (c.val ≥ 'A'.val ∧ c.val ≤ 'Z'.val) || decide (c.val ≥ 'a'.val) &&
      decide (c.val ≤ 'z'.val) || decide (c.val ≥ '0'.val) && decide (c.val ≤ '9'.val)) = true at h
    simpa only [Bool.or_eq_true, Bool.and_eq_true, decide_eq_true_eq] using h
  simp only [UInt32.le_iff_toNat_le, show 'A'.val.toNat = 65 from rfl,
    show 'Z'.val.toNat = 90 from rfl, show 'a'.val.toNat = 97 from rfl,
    show 'z'.val.toNat = 122 from rfl, show '0'.val.toNat = 48 from rfl,
    show '9'.val.toNat = 57 from rfl] at hranges
  simp only [isBlank, Char.toNat, Bool.or_eq_true, Bool.and_eq_true, decide_eq_true_eq,
    beq_iff_eq] at hc
  omega

theorem not_isWordChar_of_isBlank (hc : isBlank c = true) : isWordChar c = false := by
  have halnum := not_isAlphanum_of_isBlank hc
  have hunder : c ≠ '_' := ne_of_isBlank hc (by decide)
  have hminus : c ≠ '-' := ne_of_isBlank hc (by decide)
  have hpoint : c ≠ '.' := ne_of_isBlank hc (by decide)
  have hplus : c ≠ '+' := ne_of_isBlank hc (by decide)
  simp [isWordChar, halnum, hunder, hminus, hpoint, hplus]

theorem takeWhile_append_cons {p : Char → Bool} (hp : p c = false) (a : List Char) :
    (a ++ c :: b).takeWhile p = a.takeWhile p := by
  induction a with
  | nil => simp [hp]
  | cons d a ih => simp only [List.cons_append, List.takeWhile_cons, ih]

theorem takeWhile_append_of_endsToken {p : Char → Bool} (hp : ∀ c, isBlank c = true → p c = false)
    (h : endsToken back = true) (front : List Char) :
    (front ++ back).takeWhile p = front.takeWhile p := by
  cases back with
  | nil => rw [List.append_nil]
  | cons c back => exact takeWhile_append_cons (hp c h) front

theorem numberToken_append (h : endsToken back = true) (point : Bool) (front : List Char) :
    CommandConsole.numberToken point (front ++ back) = CommandConsole.numberToken point front := by
  induction front generalizing point with
  | nil =>
    cases back with
    | nil => rfl
    | cons c back =>
      have hc : isBlank c = true := h
      have halnum := not_isAlphanum_of_isBlank hc
      simp only [Char.isAlphanum, Bool.or_eq_false_iff] at halnum
      have hminus : c ≠ '-' := ne_of_isBlank hc (by decide)
      have hpoint : c ≠ '.' := ne_of_isBlank hc (by decide)
      simp [CommandConsole.numberToken, halnum.2, hminus, hpoint]
  | cons d front ih =>
    have hhead : ((front ++ back).head? != some '.') = (front.head? != some '.') := by
      cases front with
      | nil =>
        show (!(back.head? == some '.')) = true
        rw [beq_head?_of_endsToken h (by decide)]
        rfl
      | cons e front => rfl
    simp only [List.cons_append, CommandConsole.numberToken, ih, hhead]

def take (find : List Char → List Char) : Scan (List Char) :=
  modifyGet fun r => (find r.rest, r.pass (find r.rest).length)

/-- Whether what is found at the start of a text depends on nothing behind a token. -/
structure FindsToken (find : List Char → List Char) : Prop where
  length_le : ∀ cs, (find cs).length ≤ cs.length
  append : ∀ {back}, endsToken back = true → ∀ front, find (front ++ back) = find front

theorem findsToken_numberToken (point : Bool) : FindsToken (CommandConsole.numberToken point) where
  length_le cs := by
    obtain ⟨tail, htail⟩ := exists_numberToken_append point cs
    rw [← congrArg List.length htail, List.length_append]
    exact Nat.le_add_right _ _
  append hback := numberToken_append hback point

theorem findsToken_word : FindsToken (List.takeWhile isWordChar) where
  length_le _ := (List.takeWhile_prefix _).length_le
  append hback := takeWhile_append_of_endsToken (fun _ => not_isWordChar_of_isBlank) hback

/-! ### Strings -/

theorem isBlank_of_isQuote {d : Char} (hd : isQuote d = true) : isBlank d = false := by
  simp only [isQuote, Bool.or_eq_true, beq_iff_eq] at hd
  rcases hd with rfl | rfl <;> decide

theorem not_isQuote_of_isBlank (hc : isBlank c = true) : isQuote c = false := by
  rw [Bool.eq_false_iff]
  intro hquote
  rw [isBlank_of_isQuote hquote] at hc
  cases hc

def failedAt {α : Type} (f : Fault) (r : Reader) : Except LineError α × Reader :=
  (.error (f.pinned r), r)

theorem start_stringUntil (quote : Char) (r : Reader) :
    start (stringUntil quote) r =
      match unquote quote r.rest with
      | .closed value n => (.ok (String.ofList value), r.pass n)
      | .badEscape c n => failedAt (.invalidEscape c) (r.pass n)
      | .unclosed => failedAt .expectedEndOfQuote r.passAll := by
  unfold stringUntil
  rw [start_get_bind]
  cases unquote quote r.rest <;> rfl

/-- At the end of the line a word is empty, like a string. -/
theorem start_string (r : Reader) :
    start string r =
      start (match r.peek?.filter isQuote with
        | some quote => do pass 1; stringUntil quote
        | none => word) r := by
  obtain ⟨passed, rest⟩ := r
  unfold string
  rw [start_get_bind]
  cases rest with
  | nil => rfl
  | cons c rest =>
    have hpeek : Reader.peek? ⟨passed, c :: rest⟩ = some c := rfl
    rw [hpeek, Option.filter_some]
    simp only
    split <;> rfl

end Scan

/-! ### Both ends of bounds -/

namespace Bounds

variable {α : Type} [Quantity α]

/-- At the end of the line both ends are missing, which is the same failure. -/
theorem start_scanEnds (how : Reading α) (r : Reader) :
    Scan.start (scanEnds how) r =
      Scan.start (do
        let lo ← scanEnd how
        let hi ← scanUpper how r lo
        if lo.isNone && hi.isNone then Scan.failBack r .boundsEmpty
        else return ⟨lo, hi⟩) r := by
  unfold scanEnds
  rw [Scan.start_get_bind]
  by_cases hread : r.canRead = true
  · rw [if_neg (by simp [hread])]
  · rw [if_pos (by simp [hread])]
    obtain ⟨passed, rest⟩ := r
    obtain rfl : rest = [] := Reader.not_canRead_iff.1 hread
    obtain ⟨floating, invalid, adjust⟩ := how
    cases floating <;> rfl

theorem start_scanEnds_eq_ok {how : Reading α} {r s : Reader} {b : Bounds α} :
    Scan.start (scanEnds how) r = (.ok b, s) ↔
      ∃ m, Scan.start (scanEnd how) r = (.ok b.min, m) ∧
        Scan.start (scanUpper how r b.min) m = (.ok b.max, s) ∧ (b.min.isSome ∨ b.max.isSome) := by
  rw [start_scanEnds]
  constructor
  · intro h
    obtain ⟨lo, m, hlo, h⟩ := Scan.start_bind_eq_ok.1 h
    obtain ⟨hi, n, hhi, h⟩ := Scan.start_bind_eq_ok.1 h
    split at h
    · cases h
    · next hsome =>
      obtain ⟨hb, rfl⟩ := Prod.mk.inj h
      obtain rfl := Except.ok.inj hb
      refine ⟨m, hlo, hhi, ?_⟩
      cases lo <;> cases hi <;> simp_all
  · rintro ⟨m, hlo, hhi, hsome⟩
    refine Scan.start_bind_eq_ok.2 ⟨_, m, hlo, Scan.start_bind_eq_ok.2 ⟨_, s, hhi, ?_⟩⟩
    rw [if_neg]
    · rfl
    · rintro hnone
      obtain ⟨hmin, hmax⟩ := Bool.and_eq_true_iff.1 hnone
      simp_all

end Bounds

/-! ### Relations -/

/-- Numbers for which what is wrong with a token is never that the line is unknown. -/
class Quantity.NamesFaults (α : Type) [Quantity α] : Prop where
  expected : Quantity.expected α ≠ .unknownCommand
  invalid : ∀ s, Quantity.invalid α s ≠ .unknownCommand

instance : Quantity.NamesFaults Int32 := ⟨by simp [Quantity.expected], by simp [Quantity.invalid]⟩

instance : Quantity.NamesFaults Int64 := ⟨by simp [Quantity.expected], by simp [Quantity.invalid]⟩

instance : Quantity.NamesFaults Float32 := ⟨by simp [Quantity.expected], by simp [Quantity.invalid]⟩

instance : Quantity.NamesFaults Float := ⟨by simp [Quantity.expected], by simp [Quantity.invalid]⟩

open Scan

/-- A relation between what two scans do from two readers, with a clause for each scan that the
built-in types are made of. -/
structure ScanRelation where
  /-- Where the readers may be. -/
  At : Reader → Reader → Prop
  Rel {α : Type} : Reader → Reader → Scan α → Scan α → Prop
  peek?_filter {r r' : Reader} {p : Char → Bool} : At r r' → (∀ c, isBlank c = true → p c = false) →
    r'.peek?.filter p = r.peek?.filter p
  atPoints {r r' : Reader} : At r r' → Bounds.atPoints r' = Bounds.atPoints r
  congr {α : Type} {r r' : Reader} {x x' y y' : Scan α} : start y r = start x r →
    start y' r' = start x' r' → Rel r r' x x' → Rel r r' y y'
  pure {α : Type} {r r' : Reader} : At r r' → ∀ v : α, Rel r r' (pure v) (pure v)
  bind {α β : Type} {r r' : Reader} {x x' : Scan α} {f f' : α → Scan β} : Rel r r' x x' →
    (∀ v s s', At s s' → Rel s s' (f v) (f' v)) → Rel r r' (x >>= f) (x' >>= f')
  failBack {α : Type} {r r' start start' : Reader} {f : Fault} : f ≠ .unknownCommand →
    At start start' → At r r' → Rel r r' (failBack start f : Scan α) (failBack start' f)
  pass {r r' : Reader} {n : Nat} : At r r' → n ≤ r.rest.length → Rel r r' (pass n) (pass n)
  take {r r' : Reader} {find : List Char → List Char} : FindsToken find → At r r' →
    Rel r r' (take find) (take find)
  stringUntil {r r' : Reader} : At r r' → ∀ quote, Rel r r' (stringUntil quote) (stringUntil quote)

namespace ScanRelation

variable {R : ScanRelation} {α β : Type} {r r' start start' : Reader}

theorem get_bind {f f' : Reader → Scan α} (h : R.Rel r r' (f r) (f' r')) :
    R.Rel r r' (get >>= f) (get >>= f') :=
  R.congr (start_get_bind f r) (start_get_bind f' r') h

theorem map {x x' : Scan α} (hx : R.Rel r r' x x') (f : α → β) :
    R.Rel r r' (f <$> x) (f <$> x') := by
  rw [map_eq_pure_bind, map_eq_pure_bind]
  exact R.bind hx fun v s s' hs => R.pure hs _

theorem peek?_beq {c : Char} (h : R.At r r') (hc : isBlank c = false) :
    (r'.peek? == some c) = (r.peek? == some c) := by
  have hbeq : ∀ o : Option Char, (o == some c) = (o.filter (· == c)).isSome := by
    intro o
    cases o with
    | none => rfl
    | some d => by_cases hd : d = c <;> simp [hd]
  rw [hbeq, hbeq, R.peek?_filter h fun d hd => beq_false_of_ne (ne_of_isBlank hd hc)]

variable (h : R.At r r')

include h

theorem fail {f : Fault} (hf : f ≠ .unknownCommand) :
    R.Rel r r' (Scan.fail f : Scan α) (Scan.fail f) := by
  refine R.congr ?_ ?_ (R.failBack hf h h) <;> rfl

theorem numberToken (point : Bool) : R.Rel r r' (Scan.numberToken point) (Scan.numberToken point) :=
  R.take (findsToken_numberToken point) h

theorem number {read? : List Char → Option α} {expected : Fault} {invalid : String → Fault}
    (hexpected : expected ≠ .unknownCommand) (hinvalid : ∀ s, invalid s ≠ .unknownCommand) :
    R.Rel r r' (Scan.number read? expected invalid) (Scan.number read? expected invalid) := by
  refine R.get_bind (R.bind (R.numberToken h true) fun found s s' hs => ?_)
  split
  · exact R.fail hs hexpected
  · split
    · exact R.pure hs _
    · exact R.failBack (hinvalid _) h hs

theorem word : R.Rel r r' Scan.word Scan.word := R.map (R.take findsToken_word h) _

theorem string : R.Rel r r' Scan.string Scan.string := by
  refine R.congr (start_string r) (start_string r') ?_
  rw [R.peek?_filter h fun _ => not_isQuote_of_isBlank]
  cases hquote : r.peek?.filter isQuote with
  | none => exact R.word h
  | some quote =>
    have hone := Reader.one_le_of_peek? (Option.filter_eq_some_iff.1 hquote).1
    exact R.bind (R.pass h hone) fun _ _ _ hs => R.stringUntil hs quote

theorem boolean : R.Rel r r' Scan.boolean Scan.boolean := by
  refine R.get_bind (R.bind (R.string h) fun value s s' hs => ?_)
  split
  · exact R.fail hs (by nofun)
  · split
    · exact R.pure hs _
    · split
      · exact R.pure hs _
      · exact R.failBack (by nofun) h hs

variable [Quantity α]

theorem limits [q : Quantity.NamesFaults α] (limits : Limits α) :
    R.Rel r r' limits.scan limits.scan := by
  refine R.get_bind (R.bind (R.number h q.expected q.invalid) fun v s s' hs => ?_)
  split
  · exact R.failBack (by nofun) h hs
  · split
    · exact R.failBack (by nofun) h hs
    · exact R.pure hs _

variable {how : Bounds.Reading α} (hhow : ∀ s, how.invalid s ≠ .unknownCommand)

include hhow

theorem scanEnd : R.Rel r r' (Bounds.scanEnd how) (Bounds.scanEnd how) := by
  refine R.get_bind (R.bind (R.numberToken h _) fun found s s' hs => ?_)
  split
  · exact R.pure hs _
  · split
    · exact R.pure hs _
    · exact R.failBack (hhow _) h hs

theorem scanUpper (hstart : R.At start start') (lo : Option α) :
    R.Rel r r' (Bounds.scanUpper how start lo) (Bounds.scanUpper how start' lo) := by
  refine R.get_bind ?_
  rw [R.atPoints h, R.peek?_beq h (by decide)]
  split
  · next hpoints =>
    have htwo : 2 ≤ r.rest.length := by
      unfold Bounds.atPoints at hpoints
      obtain ⟨-, hsecond⟩ := Bool.and_eq_true_iff.1 hpoints
      obtain ⟨hlt, -⟩ := List.getElem?_eq_some_iff.1 (eq_of_beq hsecond)
      exact hlt
    exact R.bind (R.pass h htwo) fun _ _ _ hs => R.scanEnd hs hhow
  · split
    · exact R.failBack (by nofun) hstart h
    · exact R.pure h _

theorem scanEnds : R.Rel r r' (Bounds.scanEnds how) (Bounds.scanEnds how) := by
  refine R.congr (Bounds.start_scanEnds how r) (Bounds.start_scanEnds how r') ?_
  refine R.bind (R.scanEnd h hhow) fun lo s s' hs => ?_
  refine R.bind (R.scanUpper hs hhow h lo) fun hi u u' hu => ?_
  split
  · exact R.failBack (by nofun) h hu
  · exact R.pure hu _

omit hhow

theorem bounds [q : Quantity.NamesFaults α] :
    R.Rel r r' (Bounds.scan : Scan (Bounds α)) Bounds.scan := by
  refine R.get_bind (R.bind (R.scanEnds h q.invalid) fun b s s' hs => ?_)
  split
  · exact R.failBack (by nofun) h hs
  · exact R.pure hs _

omit [Quantity α]

/-- A type that takes one token of the line is related to itself; taking all that is left is a case
of its own. -/
theorem builtin (type : Builtin) (hgreedy : type = .greedy → R.Rel r r' Scan.greedy Scan.greedy) :
    R.Rel r r' type.scan type.scan := by
  cases type with
  | bool => exact R.map (R.boolean h) _
  | integer limits => exact R.map (R.limits h limits) _
  | long limits => exact R.map (R.limits h limits) _
  | float limits => exact R.map (R.limits h limits) _
  | double limits => exact R.map (R.limits h limits) _
  | word => exact R.map (R.word h) _
  | string => exact R.map (R.string h) _
  | greedy => exact R.map (hgreedy rfl) _
  | intRange => exact R.map (R.bounds h) _
  | floatRange => exact R.map (R.bounds h) _

end ScanRelation

end CommandConsole
