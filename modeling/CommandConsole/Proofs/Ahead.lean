import CommandConsole.Proofs.Alignment
import CommandConsole.Proofs.Console

/-!
# Reading what is ahead

A type of arguments reads what is ahead of the cursor: where two readers have the same left to read,
it accepts the same value with the same number of characters, or fails for the same reason at the
same distance. What stands in front of the cursor does not matter, so a run may be moved.
-/

namespace CommandConsole

open Text

/-! ### Readers that are equally far ahead -/

/-- Whether two readers are equally far ahead of two others. -/
def Reader.Ahead (b b' r r' : Reader) : Prop := ∃ n, r = b.pass n ∧ r' = b'.pass n

/-- Whether two errors are the same, and pinned equally far ahead of two readers if at all. -/
inductive LineError.Ahead (b b' : Reader) : LineError → LineError → Prop
  | unplaced (f : Fault) : Ahead b b' f.unplaced f.unplaced
  | pinned (f : Fault) {r r' : Reader} : Reader.Ahead b b' r r' →
      Ahead b b' (f.pinned r) (f.pinned r')

variable {b b' r r' : Reader}

theorem Reader.Ahead.refl (b b' : Reader) : Ahead b b' b b' :=
  ⟨0, by simp [pass], by simp [pass]⟩

theorem Reader.Ahead.pass (h : Ahead b b' r r') (n : Nat) : Ahead b b' (r.pass n) (r'.pass n) := by
  obtain ⟨k, rfl, rfl⟩ := h
  exact ⟨k + n, pass_pass .., pass_pass ..⟩

theorem Reader.Ahead.rest_eq (hb : b'.rest = b.rest) (h : Ahead b b' r r') : r'.rest = r.rest := by
  obtain ⟨n, rfl, rfl⟩ := h
  rw [rest_pass, rest_pass, hb]

namespace Scan

variable {α : Type}

/-- Whether the results of two scans agree, and leave readers that are equally far ahead. -/
def SameAhead (b b' : Reader) (p p' : Except LineError α × Reader) : Prop :=
  Agree (LineError.Ahead b b') (fun v v' => v' = v ∧ Reader.Ahead b b' p.2 p'.2) p.1 p'.1

/-- Whether a scan depends on nothing but what is ahead of the cursor. -/
def LooksAhead (x : Scan α) : Prop :=
  ∀ b b' : Reader, b'.rest = b.rest → SameAhead b b' (start x b) (start x b')

end Scan

/-- What scans come to alike if they go on equally far ahead of two readers. -/
def tracking (hb : b'.rest = b.rest) : ScanRelation where
  At := Reader.Ahead b b'
  Rel r r' x x' := Scan.SameAhead b b' (Scan.start x r) (Scan.start x' r')
  peek?_filter h _ := by rw [Reader.peek?, h.rest_eq hb, Reader.peek?]
  atPoints h := by simp only [Bounds.atPoints, Reader.peek?, Reader.peekAt?, h.rest_eq hb]
  congr hy hy' h := by rwa [hy, hy']
  pure h v := .ok ⟨rfl, h⟩
  bind {α β r r' x x' f f'} hx hf := by
    unfold Scan.SameAhead at hx
    rw [Scan.start_bind, Scan.start_bind]
    revert hx
    obtain ⟨y, s⟩ := Scan.start x r
    obtain ⟨y', s'⟩ := Scan.start x' r'
    rintro (⟨rfl, hs⟩ | he)
    · exact hf _ s s' hs
    · exact .error he
  failBack {α r r' start start' f} _ hstart _ := .error (.pinned f hstart)
  pass {r r' n} h _ := .ok ⟨rfl, h.pass n⟩
  take {r r' find} _ h := by
    refine .ok ⟨by rw [h.rest_eq hb], ?_⟩
    show Reader.Ahead b b' (r.pass (find r.rest).length) (r'.pass (find r'.rest).length)
    rw [h.rest_eq hb]
    exact h.pass _
  stringUntil {r r'} h quote := by
    rw [Scan.start_stringUntil, Scan.start_stringUntil, h.rest_eq hb]
    cases unquote quote r.rest with
    | closed value n => exact .ok ⟨rfl, h.pass n⟩
    | badEscape found n => exact .error (.pinned _ (h.pass n))
    | unclosed =>
      refine .error (.pinned .expectedEndOfQuote ?_)
      rw [Reader.passAll, Reader.passAll, h.rest_eq hb]
      exact h.pass _

theorem Builtin.looksAhead_scan (type : Builtin) : type.scan.LooksAhead := by
  intro b b' hb
  have hahead := Reader.Ahead.refl b b'
  refine (tracking hb).builtin hahead type fun _ => .ok ⟨?_, ?_⟩
  · rw [Reader.remaining, hb, Reader.remaining]
  · show Reader.Ahead b b' b.passAll b'.passAll
    rw [Reader.passAll, Reader.passAll, hb]
    exact hahead.pass _

theorem looksAhead_scanPlayer : scanPlayer.LooksAhead :=
  fun b b' hb => (tracking hb).player (.refl b b')

/-! ### Languages -/

/-- Whether every type of arguments reads nothing but what is ahead. -/
def Language.LooksAhead (L : Language) : Prop := ∀ type, (L.scan type).LooksAhead

theorem console_looksAhead : console.LooksAhead := by
  intro type
  cases type with
  | builtin type => exact type.looksAhead_scan
  | player => exact looksAhead_scanPlayer

end CommandConsole
