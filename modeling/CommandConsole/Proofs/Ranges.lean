import CommandConsole.Proofs.Reading

/-!
# Ranges of whole numbers

Which texts stand for bounds of whole numbers is said by `Bounds.Spells`, with no reader in it: runs
of digits and minus signs around two points, or one run without a point behind it. Reading accepts
exactly these texts and leaves the cursor in front of the tail. Written bounds spell themselves, so
they are read back unless their ends are in the wrong order.
-/

namespace CommandConsole

open Text Decimal

/-! ### Digits -/

namespace Decimal

theorem natural?_eq_some_iff {cs : List Char} {n : Nat} :
    natural? cs = some n ↔
      cs ≠ [] ∧ (∀ c ∈ cs, c.isDigit = true) ∧ digitsValue cs = n := by
  unfold natural?
  rw [Option.ite_none_right_eq_some, Option.some.injEq, Bool.and_eq_true, List.all_eq_true]
  simp [and_assoc]

theorem whole?_eq_some_iff {cs : List Char} {i : Int} :
    whole? cs = some i ↔
      (∃ ds, cs = '-' :: ds ∧ ds ≠ [] ∧ (∀ c ∈ ds, c.isDigit = true) ∧ i = -(digitsValue ds : Int)) ∨
        cs ≠ [] ∧ (∀ c ∈ cs, c.isDigit = true) ∧ i = digitsValue cs := by
  by_cases hminus : ∃ ds, cs = '-' :: ds
  · obtain ⟨ds, rfl⟩ := hminus
    have hdigit : ('-').isDigit = false := by decide
    have hwhole : whole? ('-' :: ds) = Option.map (fun n : Nat => -(n : Int)) (natural? ds) := by
      rw [whole?]
      cases natural? ds <;> rfl
    rw [hwhole, Option.map_eq_some_iff]
    simp only [natural?_eq_some_iff]
    constructor
    · rintro ⟨n, ⟨hne, hall, rfl⟩, rfl⟩
      exact Or.inl ⟨ds, rfl, hne, hall, rfl⟩
    · rintro (⟨ds', heq, hne, hall, rfl⟩ | ⟨-, hall, -⟩)
      · obtain rfl := (List.cons.inj heq).2
        exact ⟨_, ⟨hne, hall, rfl⟩, rfl⟩
      · rw [hall '-' List.mem_cons_self] at hdigit
        cases hdigit
  · rw [whole?_of_digits fun ds h => hminus ⟨ds, h⟩, Option.map_eq_some_iff]
    simp only [natural?_eq_some_iff]
    constructor
    · rintro ⟨n, ⟨hne, hall, rfl⟩, rfl⟩
      exact Or.inr ⟨hne, hall, rfl⟩
    · rintro (⟨ds, heq, -⟩ | ⟨hne, hall, rfl⟩)
      · exact absurd ⟨ds, heq⟩ hminus
      · exact ⟨_, ⟨hne, hall, rfl⟩, rfl⟩

end Decimal

theorem int32?_eq_some_iff {cs : List Char} {v : Int32} :
    int32? cs = some v ↔ whole? cs = some v.toInt := by
  unfold int32?
  rw [Option.bind_eq_some_iff]
  constructor
  · rintro ⟨i, hi, h⟩
    rw [Option.ite_none_right_eq_some, Option.some.injEq, Int32.toInt_minValue,
      Int32.toInt_maxValue] at h
    obtain ⟨⟨hlow, hhigh⟩, rfl⟩ := h
    rw [hi, Int32.toInt_ofInt_of_le hlow (by omega)]
  · intro h
    refine ⟨v.toInt, h, ?_⟩
    rw [if_pos ⟨v.minValue_le_toInt, v.toInt_le⟩, Int32.ofInt_toInt]

/-! ### Runs of digits and minus signs -/

def isSigned (c : Char) : Bool := c.isDigit || c == '-'

theorem numberToken_whole (cs : List Char) : numberToken false cs = cs.takeWhile isSigned := by
  induction cs with
  | nil => rfl
  | cons c cs ih =>
    unfold numberToken
    rw [List.takeWhile_cons, ih, Bool.and_false, Bool.false_and, if_neg Bool.false_ne_true]
    rfl

/-- A run of digits and minus signs in front of a tail that does not go on with one. -/
structure IsRun (run tail : List Char) : Prop where
  signed : ∀ c ∈ run, isSigned c = true
  stops : ∀ c ∈ tail.head?, isSigned c = false

theorem IsRun.takeWhile_append {run tail : List Char} (h : IsRun run tail) :
    (run ++ tail).takeWhile isSigned = run := by
  rw [List.takeWhile_append_of_pos h.signed]
  cases tail with
  | nil => simp
  | cons c tail => simp [h.stops c (by simp)]

theorem isRun_takeWhile (cs : List Char) :
    IsRun (cs.takeWhile isSigned) (cs.dropWhile isSigned) where
  signed := List.all_eq_true.1 List.all_takeWhile
  stops c hc := by
    have hhead := List.head?_dropWhile_not isSigned cs
    rw [Option.mem_def.1 hc] at hhead
    simpa using hhead

namespace Bounds

/-! ### Spelling -/

/-- The texts that stand for an end: nothing for a missing one, else digits behind an optional
minus sign, for the number in range that they make up. -/
inductive SpellsEnd : List Char → Option Int32 → Prop
  | missing : SpellsEnd [] none
  | digits {ds : List Char} {v : Int32} : ds ≠ [] → (∀ c ∈ ds, c.isDigit = true) →
      v.toInt = digitsValue ds → SpellsEnd ds (some v)
  | negative {ds : List Char} {v : Int32} : ds ≠ [] → (∀ c ∈ ds, c.isDigit = true) →
      v.toInt = -(digitsValue ds : Int) → SpellsEnd ('-' :: ds) (some v)

/-- The texts that stand for bounds, with the tail behind them: two ends around two points, not both
missing and in order, or one number without a point behind it. -/
inductive Spells : List Char → Bounds Int32 → List Char → Prop
  | ends {a b tail : List Char} {lo hi : Option Int32} :
      IsRun a ('.' :: '.' :: (b ++ tail)) → IsRun b tail → SpellsEnd a lo → SpellsEnd b hi →
      lo.isSome ∨ hi.isSome → (∀ x ∈ lo, ∀ y ∈ hi, x ≤ y) →
      Spells (a ++ '.' :: '.' :: (b ++ tail)) ⟨lo, hi⟩ tail
  | number {a tail : List Char} {v : Int32} :
      IsRun a tail → SpellsEnd a (some v) → tail.head? ≠ some '.' →
      Spells (a ++ tail) ⟨some v, some v⟩ tail

theorem spellsEnd_some_iff {cs : List Char} {v : Int32} :
    SpellsEnd cs (some v) ↔ int32? cs = some v := by
  rw [int32?_eq_some_iff, whole?_eq_some_iff]
  constructor
  · intro h
    cases h with
    | digits hne hall hv => exact Or.inr ⟨hne, hall, hv⟩
    | negative hne hall hv => exact Or.inl ⟨_, rfl, hne, hall, hv⟩
  · rintro (⟨ds, rfl, hne, hall, hv⟩ | ⟨hne, hall, hv⟩)
    · exact .negative hne hall hv
    · exact .digits hne hall hv

theorem spellsEnd_none_iff {cs : List Char} : SpellsEnd cs none ↔ cs = [] := by
  constructor
  · intro h
    cases h
    rfl
  · rintro rfl
    exact .missing

theorem SpellsEnd.ne_nil {cs : List Char} {v : Int32} (h : SpellsEnd cs (some v)) : cs ≠ [] := by
  cases h with
  | digits hne _ _ => exact hne
  | negative _ _ _ => exact List.cons_ne_nil _ _

/-! ### Reading -/

open Scan

theorem start_scanEnd (r : Reader) :
    let run := r.rest.takeWhile isSigned
    start (scanEnd (.plain : Reading Int32)) r =
      if run = [] then (.ok none, r)
      else match int32? run with
        | some v => (.ok (some v), r.pass run.length)
        | none => (.error ((Fault.invalidInt (String.ofList run)).pinned r), r) := by
  intro run
  have hrun : CommandConsole.numberToken false r.rest = run := numberToken_whole _
  have hfirst : start (Scan.numberToken (Reading.plain (α := Int32)).floating) r =
      (.ok run, r.pass run.length) := by
    rw [← hrun]
    rfl
  unfold scanEnd
  rw [start_get_bind, start_bind, hfirst]
  simp only [List.isEmpty_iff]
  by_cases hnil : run = []
  · rw [if_pos hnil, if_pos hnil, hnil]
    show (_, r.pass 0) = _
    simp [Reader.pass]
  · rw [if_neg hnil, if_neg hnil]
    have hread : Quantity.read? run = int32? run := rfl
    rw [hread]
    cases int32? run <;> rfl

theorem start_scanEnd_eq_ok {r s : Reader} {lo : Option Int32} :
    start (scanEnd (.plain : Reading Int32)) r = (.ok lo, s) ↔
      ∃ run tail, r.rest = run ++ tail ∧ IsRun run tail ∧ SpellsEnd run lo ∧
        s = r.pass run.length := by
  rw [start_scanEnd]
  constructor
  · intro h
    refine ⟨_, _, (List.takeWhile_append_dropWhile (p := isSigned)).symm, isRun_takeWhile _, ?_⟩
    split at h
    · next hnil =>
      obtain ⟨hlo, rfl⟩ := Prod.mk.inj h
      obtain rfl := Except.ok.inj hlo
      rw [hnil]
      exact ⟨.missing, by simp [Reader.pass]⟩
    · split at h
      · next v hv =>
        obtain ⟨hlo, rfl⟩ := Prod.mk.inj h
        obtain rfl := Except.ok.inj hlo
        exact ⟨spellsEnd_some_iff.2 hv, rfl⟩
      · cases h
  · rintro ⟨run, tail, hrest, hrun, hend, rfl⟩
    have htake : r.rest.takeWhile isSigned = run := by rw [hrest, hrun.takeWhile_append]
    rw [htake]
    cases lo with
    | none =>
      obtain rfl := spellsEnd_none_iff.1 hend
      simp [Reader.pass]
    | some v => rw [if_neg hend.ne_nil, spellsEnd_some_iff.1 hend]

theorem atPoints_iff {r : Reader} : atPoints r = true ↔ ∃ back, r.rest = '.' :: '.' :: back := by
  obtain ⟨passed, rest⟩ := r
  cases rest with
  | nil => simp [atPoints, Reader.peek?]
  | cons c rest =>
    cases rest with
    | nil => simp [atPoints, Reader.peekAt?]
    | cons d rest => simp [atPoints, Reader.peek?, Reader.peekAt?]

theorem start_scanUpper_eq_ok {back m s : Reader} {lo hi : Option Int32} :
    start (scanUpper .plain back lo) m = (.ok hi, s) ↔
      (∃ tail, m.rest = '.' :: '.' :: tail ∧
        start (scanEnd .plain) (m.pass 2) = (.ok hi, s)) ∨
      m.rest.head? ≠ some '.' ∧ hi = lo ∧ s = m := by
  unfold scanUpper
  rw [start_get_bind]
  by_cases hpoints : atPoints m = true
  · obtain ⟨tail, htail⟩ := atPoints_iff.1 hpoints
    rw [if_pos hpoints, start_bind_eq_ok]
    constructor
    · rintro ⟨u, n, hpass, h⟩
      obtain ⟨-, rfl⟩ := Prod.mk.inj hpass
      exact Or.inl ⟨tail, htail, h⟩
    · rintro (⟨-, -, h⟩ | ⟨hno, -⟩)
      · exact ⟨(), _, rfl, h⟩
      · rw [htail] at hno
        exact absurd rfl hno
  · have hno : ∀ tail, m.rest ≠ '.' :: '.' :: tail := fun tail h =>
      hpoints (atPoints_iff.2 ⟨tail, h⟩)
    have hfloating : (Reading.plain (α := Int32)).floating = false := rfl
    rw [if_neg hpoints, hfloating]
    by_cases hpoint : m.rest.head? = some '.'
    · rw [if_pos (by simpa [Reader.peek?] using hpoint)]
      constructor
      · intro h
        cases h
      · rintro (⟨tail, htail, -⟩ | ⟨hne, -⟩)
        · exact absurd htail (hno tail)
        · exact absurd hpoint hne
    · rw [if_neg (by simpa [Reader.peek?] using hpoint)]
      constructor
      · intro h
        obtain ⟨hlo, rfl⟩ := Prod.mk.inj h
        exact Or.inr ⟨hpoint, (Except.ok.inj hlo).symm, rfl⟩
      · rintro (⟨tail, htail, -⟩ | ⟨-, rfl, rfl⟩)
        · exact absurd htail (hno tail)
        · rfl

theorem isSwapped_eq_false_iff {b : Bounds Int32} :
    b.isSwapped = false ↔ ∀ x ∈ b.min, ∀ y ∈ b.max, x ≤ y := by
  obtain ⟨lo, hi⟩ := b
  cases lo with
  | none => simp [isSwapped]
  | some x =>
    cases hi with
    | none => simp [isSwapped]
    | some y =>
      have hlt : Quantity.lt y x = decide (y < x) := rfl
      simp [isSwapped, hlt, Int32.not_lt]

theorem start_scan_eq_ok {r s : Reader} {b : Bounds Int32} :
    start scan r = (.ok b, s) ↔
      start (scanEnds .plain) r = (.ok b, s) ∧ b.isSwapped = false := by
  unfold scan scanWith
  rw [start_get_bind, start_bind_eq_ok]
  constructor
  · rintro ⟨b', m, hb, h⟩
    split at h
    · cases h
    · next hswapped =>
      obtain ⟨hb', rfl⟩ := Prod.mk.inj h
      obtain rfl := Except.ok.inj hb'
      exact ⟨hb, Bool.eq_false_iff.2 hswapped⟩
  · rintro ⟨hb, hswapped⟩
    refine ⟨b, s, hb, ?_⟩
    rw [hswapped]
    rfl

theorem start_scan_of_swapped {r s : Reader} {b : Bounds Int32}
    (h : start (scanEnds .plain) r = (.ok b, s)) (hswapped : b.isSwapped = true) :
    start (scan (α := Int32)) r = (.error (Fault.boundsSwapped.pinned r), r) := by
  unfold scan scanWith
  rw [start_get_bind, start_bind, h]
  simp only [hswapped, if_true]
  rfl

/-! ### Exactness -/

theorem rest_pass_append {r : Reader} {run tail : List Char} (h : r.rest = run ++ tail) :
    (r.pass run.length).rest = tail := by
  rw [Reader.rest_pass, h, List.drop_left]

theorem spells_of_start {r s : Reader} {b : Bounds Int32}
    (h : start (scan (α := Int32)) r = (.ok b, s)) : s.text = r.text ∧ Spells r.rest b s.rest := by
  obtain ⟨hends, hswapped⟩ := start_scan_eq_ok.1 h
  obtain ⟨m, hlo, hhi, hsome⟩ := start_scanEnds_eq_ok.1 hends
  obtain ⟨a, tail, hrest, hrun, hmin, rfl⟩ := start_scanEnd_eq_ok.1 hlo
  have hm : (r.pass a.length).rest = tail := rest_pass_append hrest
  have horder := isSwapped_eq_false_iff.1 hswapped
  obtain ⟨lo, hi⟩ := b
  dsimp only at *
  rcases start_scanUpper_eq_ok.1 hhi with ⟨back, hback, hhi⟩ | ⟨hpoint, rfl, rfl⟩
  · obtain ⟨c, tail', hrest', hrun', hmax, rfl⟩ := start_scanEnd_eq_ok.1 hhi
    have htail : tail = '.' :: '.' :: (c ++ tail') := by
      rw [Reader.rest_pass, hback] at hrest'
      rw [← hm, hback, ← hrest']
      rfl
    refine ⟨by simp only [Reader.text_pass], ?_⟩
    rw [rest_pass_append hrest', hrest, htail]
    rw [htail] at hrun
    exact .ends hrun hrun' hmin hmax hsome horder
  · obtain ⟨v, rfl⟩ := Option.isSome_iff_exists.1 (hsome.elim id id)
    refine ⟨Reader.text_pass _ _, ?_⟩
    rw [hm] at hpoint ⊢
    rw [hrest]
    exact .number hrun hmin hpoint

theorem start_scanEnds_of_ends {r : Reader} {a c tail : List Char} {lo hi : Option Int32}
    (hr : r.rest = a ++ '.' :: '.' :: (c ++ tail)) (ha : IsRun a ('.' :: '.' :: (c ++ tail)))
    (hc : IsRun c tail) (hlo : SpellsEnd a lo) (hhi : SpellsEnd c hi)
    (hsome : lo.isSome ∨ hi.isSome) :
    start (scanEnds .plain) r = (.ok ⟨lo, hi⟩, r.pass (a.length + 2 + c.length)) := by
  have hm : (r.pass a.length).rest = '.' :: '.' :: (c ++ tail) := rest_pass_append hr
  have hrest : ((r.pass a.length).pass 2).rest = c ++ tail := by
    rw [Reader.rest_pass, hm]
    rfl
  have hlower : start (scanEnd .plain) r = (.ok lo, r.pass a.length) :=
    start_scanEnd_eq_ok.2 ⟨a, _, hr, ha, hlo, rfl⟩
  have hupper : start (scanEnd .plain) ((r.pass a.length).pass 2) =
      (.ok hi, ((r.pass a.length).pass 2).pass c.length) :=
    start_scanEnd_eq_ok.2 ⟨c, tail, hrest, hc, hhi, rfl⟩
  rw [← Reader.pass_pass, ← Reader.pass_pass]
  apply start_scanEnds_eq_ok.2
  exact ⟨_, hlower, start_scanUpper_eq_ok.2 (Or.inl ⟨_, hm, hupper⟩), hsome⟩

theorem start_of_spells {r : Reader} {b : Bounds Int32} {tail : List Char}
    (h : Spells r.rest b tail) :
    ∃ n, start (scan (α := Int32)) r = (.ok b, r.pass n) ∧ (r.pass n).rest = tail := by
  generalize hr : r.rest = text at h
  cases h with
  | @ends a c tail lo hi ha hc hlo hhi hsome horder =>
    have hends := start_scanEnds_of_ends hr ha hc hlo hhi hsome
    refine ⟨_, start_scan_eq_ok.2 ⟨hends, isSwapped_eq_false_iff.2 horder⟩, ?_⟩
    have hrest : ((r.pass a.length).pass 2).rest = c ++ tail := by
      rw [Reader.rest_pass, rest_pass_append hr]
      rfl
    rw [← Reader.pass_pass, ← Reader.pass_pass]
    exact rest_pass_append hrest
  | @number a tail v ha hv hpoint =>
    have hm : (r.pass a.length).rest = tail := rest_pass_append hr
    have hlower : start (scanEnd .plain) r = (.ok (some v), r.pass a.length) :=
      start_scanEnd_eq_ok.2 ⟨a, tail, hr, ha, hv, rfl⟩
    have hupper : start (scanUpper .plain r (some v)) (r.pass a.length) =
        (.ok (some v), r.pass a.length) :=
      start_scanUpper_eq_ok.2 (Or.inr ⟨by rwa [hm], rfl, rfl⟩)
    have hends : start (scanEnds .plain) r = (.ok ⟨some v, some v⟩, r.pass a.length) :=
      start_scanEnds_eq_ok.2 ⟨_, hlower, hupper, Or.inl rfl⟩
    exact ⟨_, start_scan_eq_ok.2 ⟨hends, isSwapped_eq_false_iff.2 (by simp)⟩, hm⟩

/-- Bounds of whole numbers are read from exactly the texts that spell them, with the cursor left in
front of the tail, and they are never in the wrong order. -/
theorem start_scan_iff_spells (r : Reader) :
    ((∃ b s, start (scan (α := Int32)) r = (.ok b, s)) ↔ ∃ b tail, Spells r.rest b tail) ∧
      (∀ b s, start (scan (α := Int32)) r = (.ok b, s) ↔
        s.text = r.text ∧ Spells r.rest b s.rest) ∧
      ∀ b s, start (scan (α := Int32)) r = (.ok b, s) → ∀ lo ∈ b.min, ∀ hi ∈ b.max, lo ≤ hi := by
  refine ⟨⟨?_, ?_⟩, fun b s => ⟨spells_of_start, ?_⟩, fun b s h => ?_⟩
  · rintro ⟨b, s, h⟩
    exact ⟨b, s.rest, (spells_of_start h).2⟩
  · rintro ⟨b, tail, h⟩
    obtain ⟨n, hstart, -⟩ := start_of_spells h
    exact ⟨b, _, hstart⟩
  · rintro ⟨htext, h⟩
    obtain ⟨n, hstart, hrest⟩ := start_of_spells h
    rw [hstart, Reader.ext_text (htext.trans (Reader.text_pass r n).symm) hrest.symm]
  · exact isSwapped_eq_false_iff.1 (start_scan_eq_ok.1 h).2

theorem start_scan_iff_spells_behind_name :
    Spells ['-', '3', '.', '.', '7', ' ', 'd'] ⟨some (-3), some 7⟩ [' ', 'd'] ∧
      start (scan (α := Int32)) ⟨['='], ['-', '3', '.', '.', '7', ' ', 'd']⟩ =
        (.ok ⟨some (-3), some 7⟩, ⟨['7', '.', '.', '3', '-', '='], [' ', 'd']⟩) ∧
      (-3 : Int32) ≤ 7 := by
  have hlow : SpellsEnd ['-', '3'] (some (-3)) :=
    .negative (List.cons_ne_nil _ _) (List.all_eq_true.1 rfl) rfl
  have hhigh : SpellsEnd ['7'] (some 7) :=
    .digits (List.cons_ne_nil _ _) (List.all_eq_true.1 rfl) rfl
  have hspells : Spells ['-', '3', '.', '.', '7', ' ', 'd'] ⟨some (-3), some 7⟩ [' ', 'd'] :=
    .ends ⟨List.all_eq_true.1 rfl, by simp [isSigned]⟩ ⟨List.all_eq_true.1 rfl, by simp [isSigned]⟩
      hlow hhigh (Or.inl rfl) (by simp)
  have hexact := start_scan_iff_spells ⟨['='], ['-', '3', '.', '.', '7', ' ', 'd']⟩
  have hstart := (hexact.2.1 _ ⟨['7', '.', '.', '3', '-', '='], [' ', 'd']⟩).2 ⟨rfl, hspells⟩
  exact ⟨hspells, hstart, hexact.2.2 _ _ hstart _ rfl _ rfl⟩

/-! ### Written bounds -/

def endDigits : Option Int32 → List Char
  | none => []
  | some v => signedDigits v.toInt

theorem spellsEnd_endDigits : (o : Option Int32) → SpellsEnd (endDigits o) o
  | none => .missing
  | some v => spellsEnd_some_iff.2 (int32?_eq_some_iff.2 (whole?_signedDigits v.toInt))

theorem SpellsEnd.isRun {cs tail : List Char} {o : Option Int32} (h : SpellsEnd cs o)
    (htail : ∀ c ∈ tail.head?, isSigned c = false) : IsRun cs tail where
  stops := htail
  signed c hc := by
    cases h with
    | missing => cases hc
    | digits _ hall _ => simp [isSigned, hall c hc]
    | negative _ hall _ =>
      cases hc with
      | head => rfl
      | tail _ hc => simp [isSigned, hall c hc]

theorem toList_text_exactly (v : Int32) : (exactly v).text.toList = endDigits (some v) := by
  have hsame : Quantity.same v v = true := beq_self_eq_true v
  show (if Quantity.same v v then _ else _ : String).toList = _
  rw [if_pos hsame]
  exact String.toList_ofList

theorem toList_text_of_ne {b : Bounds Int32} (h : ∀ v, b ≠ exactly v) :
    b.text.toList = endDigits b.min ++ '.' :: '.' :: endDigits b.max := by
  obtain ⟨lo, hi⟩ := b
  cases lo with
  | none => cases hi <;> simp [text, endDigits, Quantity.text, ofInt]
  | some x =>
    cases hi with
    | none => simp [text, endDigits, Quantity.text, ofInt]
    | some y =>
      have hne : x ≠ y := by
        rintro rfl
        exact h x rfl
      simp [text, endDigits, Quantity.text, Quantity.same, ofInt, hne]

theorem spells_text {b : Bounds Int32} (hsome : b.min.isSome ∨ b.max.isSome)
    (horder : ∀ lo ∈ b.min, ∀ hi ∈ b.max, lo ≤ hi) : Spells b.text.toList b [] := by
  by_cases hexactly : ∃ v, b = exactly v
  · obtain ⟨v, rfl⟩ := hexactly
    have hend := spellsEnd_endDigits (some v)
    rw [toList_text_exactly, ← List.append_nil (endDigits _)]
    exact .number (hend.isRun (by simp)) hend (by simp)
  · rw [toList_text_of_ne (not_exists.1 hexactly), ← List.append_nil (endDigits b.max)]
    have hlo := spellsEnd_endDigits b.min
    have hhi := spellsEnd_endDigits b.max
    exact .ends (hlo.isRun (by simp [isSigned])) (hhi.isRun (by simp)) hlo hhi hsome horder

theorem ofString_of_spells {s : String} {b : Bounds Int32} (h : Spells s.toList b []) :
    ofString s = .ok b := by
  obtain ⟨n, hstart, hrest⟩ := start_of_spells (r := .ofString s) h
  have hread : ((Reader.ofString s).pass n).canRead = false := by simp [Reader.canRead, hrest]
  unfold ofString
  rw [hstart]
  simp [hread]

theorem ofString_text_of_lt {lo hi : Int32} (h : hi < lo) :
    ofString (α := Int32) (between lo hi).text =
      .error (Fault.boundsSwapped.pinned (.ofString (between lo hi).text)) := by
  have hne : ∀ v, between lo hi ≠ exactly v := by
    rintro v ⟨⟩
    exact Int32.lt_irrefl h
  have hlo := spellsEnd_endDigits (some lo)
  have hhi := spellsEnd_endDigits (some hi)
  have hrest : (Reader.ofString (between lo hi).text).rest =
      endDigits (some lo) ++ '.' :: '.' :: (endDigits (some hi) ++ []) := by
    rw [List.append_nil]
    exact toList_text_of_ne hne
  have hends := start_scanEnds_of_ends hrest (hlo.isRun (by simp [isSigned])) (hhi.isRun (by simp))
    hlo hhi (Or.inl rfl)
  have hswapped : (between lo hi).isSwapped = true := decide_eq_true h
  unfold ofString
  rw [start_scan_of_swapped hends hswapped]

end Bounds

/-- Written bounds of whole numbers are read back, their squares with them; between ends in the
wrong order, reading fails at the front. -/
theorem SquaredBounds.ofString_text :
    (∀ b : SquaredBounds Int32, b.min.isSome ∨ b.max.isSome →
      (∀ lo ∈ b.min, ∀ hi ∈ b.max, lo ≤ hi) → SquaredBounds.ofString b.text = .ok b) ∧
      ∀ lo hi : Int32, hi < lo →
        SquaredBounds.ofString (α := Int32) (Bounds.between lo hi).text =
          .error ⟨.boundsSwapped, some ⟨(Bounds.between lo hi).text, 0⟩⟩ := by
  constructor
  · intro b hsome horder
    unfold SquaredBounds.ofString
    rw [Bounds.ofString_of_spells (Bounds.spells_text hsome horder)]
    exact congrArg Except.ok b.ofBounds_toBounds
  · intro lo hi h
    unfold SquaredBounds.ofString
    rw [Bounds.ofString_text_of_lt h, Fault.pinned, Reader.line_ofString]
    rfl

theorem SquaredBounds.ofString_text_extremes :
    (SquaredBounds.ofString (α := Int32)
        (Bounds.between Int32.minValue Int32.maxValue).text =
      .ok (.ofBounds (.between Int32.minValue Int32.maxValue))) ∧
      SquaredBounds.ofString (α := Int32) (Bounds.between 7 (-3 : Int32)).text =
        .error ⟨.boundsSwapped, some ⟨(Bounds.between 7 (-3 : Int32)).text, 0⟩⟩ := by
  constructor
  · apply SquaredBounds.ofString_text.1 (.ofBounds (.between Int32.minValue Int32.maxValue))
    · exact Or.inl rfl
    · rintro _ ⟨⟩ _ ⟨⟩
      decide
  · exact SquaredBounds.ofString_text.2 7 (-3) (by decide)

end CommandConsole
