import CommandConsole.Proofs.Reading
import CommandConsole.Proofs.Tiling

/-!
# Values at the end of a line

A value that a built-in type accepts at the end of a line is accepted in front of a blank, too, and
what follows the blank does not matter. The type that takes all that is left of a line is the only
one for which this fails. So whether a token is a value of a type can be asked of the token alone.
-/

namespace CommandConsole

open Text

namespace Scan

variable {α : Type} {back : List Char} {r r' : Reader}

/-- Whether what a scan accepts, another one accepts with some text behind, and leaves that text. -/
def Outlasts (back : List Char) (r r' : Reader) (x x' : Scan α) : Prop :=
  ∀ v s, start x r = (.ok v, s) → ∃ s', start x' r' = (.ok v, s') ∧ s'.rest = s.rest ++ back

theorem length_of_unquote {quote : Char} {cs value : List Char} {n : Nat}
    (h : unquote quote cs = .closed value n) : n ≤ cs.length := by
  fun_induction unquote quote cs generalizing value n with
  | case1 => cases h
  | case2 => cases h
  | case3 d cs hd ih =>
    obtain ⟨value', m, hm, -, rfl⟩ := push_eq_closed.1 h
    have hle := ih hm
    simp only [List.length_cons]
    omega
  | case4 d cs hd => cases h
  | case5 d cs hnil hcons hd =>
    obtain ⟨-, rfl⟩ := Quoted.closed.inj h
    exact Nat.succ_pos _
  | case6 d cs hnil hcons hd ih =>
    obtain ⟨value', m, hm, -, rfl⟩ := push_eq_closed.1 h
    exact Nat.succ_le_succ (ih hm)

theorem like_of_rest (hr : r'.rest = r.rest ++ back) : r'.Like back [] r :=
  Or.inr ⟨r'.passed, r.passed, r.rest, by rw [← hr], by rw [List.append_nil]⟩

theorem outlasts_stringUntil (hr : r'.rest = r.rest ++ back) (quote : Char) :
    Outlasts back r r' (stringUntil quote) (stringUntil quote) := by
  intro v s h
  obtain ⟨value, n, hvalue, rfl, rfl⟩ := start_stringUntil_eq_ok.1 h
  have hn := length_of_unquote hvalue
  refine ⟨r'.pass n, start_stringUntil_eq_ok.2 ⟨value, n, ?_, rfl, rfl⟩, ?_⟩
  · rw [hr]
    exact (unquote_append hn).2 hvalue
  · rw [Reader.rest_pass, Reader.rest_pass, hr, List.drop_append_of_le_length hn]

end Scan

open Scan

/-- What scans still accept with a text behind that ends a token. -/
def outlasting {back : List Char} (hback : endsToken back = true) : ScanRelation where
  At r r' := r'.rest = r.rest ++ back
  Rel := Outlasts back
  peek?_filter h hp := ((like_of_rest h).peek?_filter (breaks_nil hback) hp).symm
  atPoints h := ((like_of_rest h).atPoints (breaks_nil hback)).symm
  congr hy hy' h := by rwa [Outlasts, hy, hy']
  pure hr v := by
    intro w s h
    obtain ⟨hw, rfl⟩ := Prod.mk.inj h
    obtain rfl := Except.ok.inj hw
    exact ⟨_, rfl, hr⟩
  bind hx hf := by
    intro v s h
    obtain ⟨w, m, hw, hv⟩ := start_bind_eq_ok.1 h
    obtain ⟨m', hw', hm⟩ := hx w m hw
    obtain ⟨s', hv', hs⟩ := hf w m m' hm v s hv
    exact ⟨s', start_bind_eq_ok.2 ⟨w, m', hw', hv'⟩, hs⟩
  failBack _ _ _ := fun _ _ h => nomatch h
  pass {r r' n} hr hn := by
    intro v s h
    obtain ⟨-, rfl⟩ := Prod.mk.inj h
    refine ⟨r'.pass n, rfl, ?_⟩
    rw [Reader.rest_pass, Reader.rest_pass, hr, List.drop_append_of_le_length hn]
  take {r r' find} hfind hr := by
    intro v s h
    obtain ⟨hv, rfl⟩ := Prod.mk.inj h
    have heq : find r'.rest = find r.rest := by rw [hr, hfind.append hback]
    refine ⟨r'.pass (find r'.rest).length, ?_, ?_⟩
    · rw [← hv, ← heq]
      rfl
    · rw [heq, Reader.rest_pass, Reader.rest_pass, hr,
        List.drop_append_of_le_length (hfind.length_le _)]
  stringUntil hr quote := outlasts_stringUntil hr quote

theorem Builtin.outlasts_scan {type : Builtin} (htype : type ≠ .greedy) {back : List Char}
    {r r' : Reader} (hback : endsToken back = true) (hr : r'.rest = r.rest ++ back) :
    Outlasts back r r' type.scan type.scan :=
  (outlasting hback).builtin hr type fun h => absurd h htype

/-! ### Values of a type -/

/-- Whether a text on its own is a value of a scan. -/
def Scan.Accepts {α : Type} (x : Scan α) (text : List Char) (v : α) : Prop :=
  ∃ after, start x ⟨[], text⟩ = (.ok v, after) ∧ after.rest = []

/-- In front of a blank or at the end of a line, a type reads a token up to its end exactly if the
token is a value on its own. -/
theorem Builtin.start_token_iff {type : Builtin} (htype : type ≠ .greedy) {r : Reader}
    {token back : List Char} (hr : r.rest = token ++ back) (hback : endsToken back = true)
    {v : Value} :
    start type.scan r = (.ok v, r.pass token.length) ↔ type.scan.Accepts token v := by
  have hpass : (r.pass token.length).rest = back := by rw [Reader.rest_pass, hr, List.drop_left]
  constructor
  · intro hstart
    obtain ⟨n, after, hn, halone, hafter⟩ :=
      type.isSelfContained_scan.alone hstart (by rw [hpass]; exact hback)
    have htake : r.rest.take n = token := by
      have hpassed := congrArg (fun s : Reader => s.passed.reverse) hn
      simp only [Reader.passed_pass] at hpassed
      rw [hr, List.take_left, ← hr] at hpassed
      exact (List.append_cancel_left hpassed).symm
    rw [htake] at halone
    exact ⟨after, halone, hafter⟩
  · rintro ⟨after, hstart, hafter⟩
    have houtlasts : Outlasts back ⟨[], token⟩ r type.scan type.scan :=
      Builtin.outlasts_scan htype hback hr
    obtain ⟨s, hs, hrest⟩ := houtlasts v after hstart
    obtain ⟨n, rfl⟩ := type.isLocal_scan.forward hs
    rw [hs]
    refine congrArg (Prod.mk _) (Reader.ext_text (by simp) ?_)
    rw [hrest, hafter, hpass]
    rfl

end CommandConsole
