import CommandConsole.Proofs.Cursor
import Mathlib.Data.Set.Basic

/-!
# Suggestions gathered at one span

Suggestions whose spans cut a line at characters can be brought to one span. Widening, leaving out
those that offer the same, and sorting neither lose nor add a line that taking one of them results
in, and neither does merging what has been gathered.
-/

namespace CommandConsole

open Text

variable {line : String}

/-! ### Spans that cut a line -/

/-- Whether an offset lies between two characters of a line. -/
def CutsAt (line : String) (x : Nat) : Prop := ∃ a b, line.toList = a ++ b ∧ byteLength a = x

structure Span.Cuts (s : Span) (line : String) : Prop where
  start : CutsAt line s.start
  stop : CutsAt line s.stop
  le : s.start ≤ s.stop

theorem cutsAt_iff {x : Nat} : CutsAt line x ↔ (splitAt? x line.toList).isSome = true := by
  constructor
  · rintro ⟨a, b, hline, rfl⟩
    rw [hline, splitAt?_append]
    rfl
  · intro h
    obtain ⟨⟨a, b⟩, hsplit⟩ := Option.isSome_iff_exists.1 h
    obtain ⟨hline, hlength⟩ := append_of_splitAt? hsplit
    exact ⟨a, b, hline.symm, hlength⟩

instance : DecidablePred (CutsAt line) := fun _ => decidable_of_iff _ cutsAt_iff.symm

instance (s : Span) : Decidable (s.Cuts line) :=
  decidable_of_iff (CutsAt line s.start ∧ CutsAt line s.stop ∧ s.start ≤ s.stop)
    ⟨fun h => ⟨h.1, h.2.1, h.2.2⟩, fun h => ⟨h.start, h.stop, h.le⟩⟩

theorem CutsAt.le {x : Nat} (h : CutsAt line x) : x ≤ bytes line := by
  obtain ⟨a, b, hline, rfl⟩ := h
  rw [bytes, hline, byteLength_append]
  exact Nat.le_add_right _ _

theorem eq_nil_of_byteLength {cs : List Char} (h : byteLength cs = 0) : cs = [] :=
  Decidable.byContradiction fun hne => Nat.ne_of_gt (Reader.byteLength_pos hne) h

theorem cutsAt_zero (line : String) : CutsAt line 0 := ⟨[], line.toList, rfl, rfl⟩

theorem cutsAt_cursor {r : Reader} (h : r.text = line.toList) : CutsAt line r.cursor :=
  ⟨_, _, h.symm, (Reader.cursor_eq _).symm⟩

theorem cutsAt_bytes (line : String) : CutsAt line (bytes line) :=
  ⟨line.toList, [], (List.append_nil _).symm, rfl⟩

namespace Span

theorem Cuts.split {s : Span} (h : s.Cuts line) : ∃ a m b, line.toList = a ++ m ++ b ∧
    byteLength a = s.start ∧ byteLength (a ++ m) = s.stop := by
  obtain ⟨a, c, hline, ha⟩ := h.start
  obtain ⟨d, b, hline', hd⟩ := h.stop
  have hle : byteLength a ≤ byteLength d := by
    rw [ha, hd]
    exact h.le
  obtain ⟨m, rfl, -⟩ := append_of_byteLength_le (hline.symm.trans hline') hle
  exact ⟨a, m, b, hline', ha, hd⟩

def Within (s wide : Span) : Prop := wide.start ≤ s.start ∧ s.stop ≤ wide.stop

theorem Within.trans {s s' s'' : Span} (h : s.Within s') (h' : s'.Within s'') : s.Within s'' :=
  ⟨Nat.le_trans h'.1 h.1, Nat.le_trans h.2 h'.2⟩

/-- Whether a span is the union hull of some spans: it holds them all, and no more. -/
structure IsHullOf (hull : Span) (spans : List Span) : Prop where
  within : ∀ s ∈ spans, s.Within hull
  start : spans ≠ [] → ∃ s ∈ spans, s.start = hull.start
  stop : spans ≠ [] → ∃ s ∈ spans, s.stop = hull.stop

variable {hull : Span} {spans : List Span}

theorem IsHullOf.of_hull {s s' : Span} (h : hull.IsHullOf (s.hull s' :: spans)) :
    hull.IsHullOf (s :: s' :: spans) := by
  obtain ⟨hboth, hall⟩ := List.forall_mem_cons.1 h.within
  refine ⟨?_, fun _ => ?_, fun _ => ?_⟩
  · have hleft : s.Within hull := Within.trans ⟨Nat.min_le_left _ _, Nat.le_max_left _ _⟩ hboth
    have hright : s'.Within hull :=
      Within.trans ⟨Nat.min_le_right _ _, Nat.le_max_right _ _⟩ hboth
    exact List.forall_mem_cons.2 ⟨hleft, List.forall_mem_cons.2 ⟨hright, hall⟩⟩
  · obtain ⟨x, hx, heq⟩ := h.start (List.cons_ne_nil _ _)
    rcases List.mem_cons.1 hx with rfl | hx
    · change min s.start s'.start = hull.start at heq
      rcases Nat.le_total s.start s'.start with hle | hle
      · exact ⟨s, by simp, by omega⟩
      · exact ⟨s', by simp, by omega⟩
    · exact ⟨x, by simp [hx], heq⟩
  · obtain ⟨x, hx, heq⟩ := h.stop (List.cons_ne_nil _ _)
    rcases List.mem_cons.1 hx with rfl | hx
    · change max s.stop s'.stop = hull.stop at heq
      rcases Nat.le_total s.stop s'.stop with hle | hle
      · exact ⟨s', by simp, by omega⟩
      · exact ⟨s, by simp, by omega⟩
    · exact ⟨x, by simp [hx], heq⟩

theorem isHullOf_foldl (first : Span) (spans : List Span) :
    (spans.foldl Span.hull first).IsHullOf (first :: spans) := by
  induction spans generalizing first with
  | nil => exact ⟨by simp [Within], fun _ => by simp, fun _ => by simp⟩
  | cons s spans ih => exact (ih (first.hull s)).of_hull

theorem IsHullOf.cuts (h : hull.IsHullOf spans) (hne : spans ≠ [])
    (hcuts : ∀ s ∈ spans, s.Cuts line) : hull.Cuts line := by
  obtain ⟨a, ha, hstart⟩ := h.start hne
  obtain ⟨b, hb, hstop⟩ := h.stop hne
  have hle := (hcuts a ha).le
  have hin := (h.within a ha).2
  constructor
  · rw [← hstart]
    exact (hcuts a ha).start
  · rw [← hstop]
    exact (hcuts b hb).stop
  · omega

theorem IsHullOf.unique {hull' : Span} (h : hull.IsHullOf spans) (h' : hull'.IsHullOf spans)
    (hne : spans ≠ []) : hull = hull' := by
  obtain ⟨s, hs, hstart⟩ := h.start hne
  obtain ⟨s', hs', hstart'⟩ := h'.start hne
  obtain ⟨e, he, hstop⟩ := h.stop hne
  obtain ⟨e', he', hstop'⟩ := h'.stop hne
  have hle := (h'.within s hs).1
  have hge := (h.within s' hs').1
  have hle' := (h'.within e he).2
  have hge' := (h.within e' he').2
  cases hull
  cases hull'
  simp only [Span.mk.injEq] at *
  omega

theorem exists_mem_flatten {families : List (List Span)} {f : Span → Nat} {x : Nat}
    (h : ∃ s ∈ spans, f s = x)
    (hof : ∀ s ∈ spans, ∃ family ∈ families, ∃ s' ∈ family, f s' = f s) :
    ∃ s ∈ families.flatten, f s = x := by
  obtain ⟨s, hs, hx⟩ := h
  obtain ⟨family, hfamily, s', hs', heq⟩ := hof s hs
  exact ⟨s', List.mem_flatten.2 ⟨family, hfamily, hs'⟩, heq.trans hx⟩

theorem IsHullOf.flatten {families : List (List Span)} (h : hull.IsHullOf spans)
    (hof : ∀ s ∈ spans, ∃ family ∈ families, family ≠ [] ∧ s.IsHullOf family)
    (hto : ∀ family ∈ families, family ≠ [] → ∃ s ∈ spans, s.IsHullOf family) :
    hull.IsHullOf families.flatten := by
  have hcover : ∀ s ∈ families.flatten, ∃ s' ∈ spans, s.Within s' := by
    intro s hs
    obtain ⟨family, hfamily, hs⟩ := List.mem_flatten.1 hs
    obtain ⟨s', hs', hhull⟩ := hto family hfamily (List.ne_nil_of_mem hs)
    exact ⟨s', hs', hhull.within s hs⟩
  have hne : families.flatten ≠ [] → spans ≠ [] := by
    intro hflat
    obtain ⟨s, hs⟩ := List.exists_mem_of_ne_nil _ hflat
    obtain ⟨s', hs', -⟩ := hcover s hs
    exact List.ne_nil_of_mem hs'
  constructor
  · intro s hs
    obtain ⟨s', hs', hin⟩ := hcover s hs
    exact hin.trans (h.within s' hs')
  · intro hflat
    apply exists_mem_flatten (h.start (hne hflat))
    intro s hs
    obtain ⟨family, hfamily, hsome, hhull⟩ := hof s hs
    exact ⟨family, hfamily, hhull.start hsome⟩
  · intro hflat
    apply exists_mem_flatten (h.stop (hne hflat))
    intro s hs
    obtain ⟨family, hfamily, hsome, hhull⟩ := hof s hs
    exact ⟨family, hfamily, hhull.stop hsome⟩

end Span

/-! ### The line that results -/

namespace Suggestion

theorem applyTo?_eq (s : Suggestion) (line : String) : s.applyTo? line =
    if s.span.start = 0 ∧ s.span.stop = bytes line then some s.text
    else
      (if 0 < s.span.start then front? s.span.start line else some "").bind fun before =>
        (if s.span.stop < bytes line then back? s.span.stop line else some "").bind fun after =>
          some (before ++ s.text ++ after) := by
  unfold applyTo?
  refine congrArg (ite _ _) ?_
  by_cases hstart : 0 < s.span.start <;> by_cases hstop : s.span.stop < bytes line <;>
    simp only [hstart, hstop, if_true, if_false] <;> rfl

theorem expand?_eq (s : Suggestion) (line : String) (span : Span) : s.expand? line span =
    if span = s.span then some s
    else
      (if span.start < s.span.start then between? span.start s.span.start line
        else some "").bind fun before =>
        (if s.span.stop < span.stop then between? s.span.stop span.stop line
          else some "").bind fun after =>
          some
            { span, text := before ++ s.text ++ after, tooltip := s.tooltip, value := none } := by
  unfold expand?
  refine congrArg (ite _ _) ?_
  by_cases hstart : span.start < s.span.start <;> by_cases hstop : s.span.stop < span.stop <;>
    simp only [hstart, hstop, if_true, if_false] <;> rfl

theorem applyTo?_of_split {s : Suggestion} {a m b : List Char} (hline : line.toList = a ++ m ++ b)
    (hstart : byteLength a = s.span.start) (hstop : byteLength (a ++ m) = s.span.stop) :
    s.applyTo? line = some (String.ofList (a ++ s.text.toList ++ b)) := by
  have hlength : bytes line = byteLength (a ++ m) + byteLength b := by
    rw [bytes, hline, byteLength_append]
  have hfront : (if 0 < s.span.start then front? s.span.start line else some "") =
      some (String.ofList a) := by
    split
    · rw [front?, hline, ← hstart, List.append_assoc, splitAt?_append]
      rfl
    · rw [eq_nil_of_byteLength (show byteLength a = 0 by omega)]
  have hback : (if s.span.stop < bytes line then back? s.span.stop line else some "") =
      some (String.ofList b) := by
    split
    · rw [back?, hline, ← hstop, splitAt?_append]
      rfl
    · rw [eq_nil_of_byteLength (show byteLength b = 0 by omega)]
  rw [applyTo?_eq]
  split
  · -- the whole line is replaced
    rw [eq_nil_of_byteLength (show byteLength a = 0 by omega),
      eq_nil_of_byteLength (show byteLength b = 0 by omega)]
    simp
  · rw [hfront, hback]
    simp [String.append_assoc]

/-- What taking a suggestion comes to: the line that results, and the tooltip. -/
def effect (line : String) (s : Suggestion) : Option String × Option String :=
  (s.applyTo? line, s.tooltip)

theorem applyTo?_isSome {s : Suggestion} (h : s.span.Cuts line) :
    (s.applyTo? line).isSome = true := by
  obtain ⟨a, m, b, hline, hstart, hstop⟩ := h.split
  rw [applyTo?_of_split hline hstart hstop]
  rfl

/-- Whether a suggestion is another one brought to a wider span of a line: it comes to the same and
sorts by no other number. -/
structure IsWidened (line : String) (span : Span) (s s' : Suggestion) : Prop where
  span_eq : s'.span = span
  effect_eq : s'.effect line = s.effect line
  counts : s' = s ∨ s'.value = none

theorem expand?_widened {s : Suggestion} {span : Span} (hs : s.span.Cuts line)
    (hspan : span.Cuts line) (hin : s.span.Within span) :
    ∃ s', s.expand? line span = some s' ∧ s.IsWidened line span s' := by
  rw [expand?_eq]
  by_cases heq : span = s.span
  · exact ⟨s, if_pos heq, heq.symm, rfl, Or.inl rfl⟩
  · obtain ⟨a, m, b, hline, hstart, hstop⟩ := hs.split
    obtain ⟨a', m', b', hline', hstart', hstop'⟩ := hspan.split
    -- u and v are what the wider span covers in front of the narrow one and behind it
    obtain ⟨u, rfl, -⟩ := append_of_byteLength_le
      (show a' ++ (m' ++ b') = a ++ (m ++ b) by
        rw [← List.append_assoc, ← hline', hline, List.append_assoc])
      (by rw [hstart', hstart]; exact hin.1)
    obtain ⟨v, hv, rfl⟩ := append_of_byteLength_le
      (show (a' ++ u ++ m) ++ b = (a' ++ m') ++ b' by rw [← hline, hline'])
      (by rw [hstop, hstop']; exact hin.2)
    have hbefore : (if span.start < s.span.start then between? span.start s.span.start line
        else some "") = some (String.ofList u) := by
      split
      · rw [between?, hline, ← hstart, ← hstart', List.append_assoc _ m, slice?_append]
        rfl
      · rw [byteLength_append] at hstart
        rw [eq_nil_of_byteLength (show byteLength u = 0 by omega)]
    have hafter : (if s.span.stop < span.stop then between? s.span.stop span.stop line
        else some "") = some (String.ofList v) := by
      split
      · rw [between?, hline, ← hstop, ← hstop', hv, ← List.append_assoc _ v, slice?_append]
        rfl
      · rw [hv, byteLength_append] at hstop'
        rw [eq_nil_of_byteLength (show byteLength v = 0 by omega)]
    let wide : Suggestion :=
      { span, text := String.ofList u ++ s.text ++ String.ofList v, tooltip := s.tooltip,
        value := none }
    refine ⟨wide, ?_, rfl, ?_, Or.inr rfl⟩
    · rw [if_neg heq, hbefore, hafter]
      rfl
    · rw [effect, effect, applyTo?_of_split (s := s) hline hstart hstop,
        applyTo?_of_split (s := wide) hline' hstart' hstop']
      simp [wide]

theorem same_iff {a b : Suggestion} :
    a.same b = true ↔ a.span = b.span ∧ a.text = b.text ∧ a.tooltip = b.tooltip := by
  simp [same, and_assoc]

theorem same_refl (s : Suggestion) : s.same s = true := same_iff.2 ⟨rfl, rfl, rfl⟩

theorem same_comm (a b : Suggestion) : a.same b = b.same a := by
  rw [Bool.eq_iff_iff, same_iff, same_iff, eq_comm, eq_comm (a := a.text),
    eq_comm (a := a.tooltip)]

theorem effect_of_same {a b : Suggestion} (h : a.same b = true) (line : String) :
    a.effect line = b.effect line := by
  obtain ⟨hspan, htext, htooltip⟩ := same_iff.1 h
  rw [effect, effect, applyTo?, applyTo?, hspan, htext, htooltip]

end Suggestion

/-! ### Steps of grouping -/

namespace Suggestions

theorem isHullOf_hullOf (first : Suggestion) (rest : List Suggestion) :
    (hullOf first rest).IsHullOf ((first :: rest).map (·.span)) := by
  rw [hullOf, ← List.foldl_map]
  exact Span.isHullOf_foldl _ _

theorem expandAll_widened {span : Span} {list : List Suggestion} (hspan : span.Cuts line)
    (h : ∀ s ∈ list, s.span.Cuts line ∧ s.span.Within span) :
    ∃ wide, expandAll line span list = some wide ∧
      List.Forall₂ (Suggestion.IsWidened line span) list wide := by
  induction list with
  | nil => exact ⟨[], rfl, .nil⟩
  | cons s list ih =>
    obtain ⟨⟨hs, hin⟩, hmore⟩ := List.forall_mem_cons.1 h
    obtain ⟨s', hexpand, hone⟩ := Suggestion.expand?_widened hs hspan hin
    obtain ⟨wide, hwide, hall⟩ := ih hmore
    refine ⟨s' :: wide, ?_, .cons hone hall⟩
    rw [expandAll, hexpand, hwide]
    rfl

theorem mem_dedupe (list : List Suggestion) : (∀ s ∈ dedupe list, s ∈ list) ∧
    ∀ s ∈ list, ∃ s' ∈ dedupe list, s'.same s = true := by
  have hfold : ∀ kept : List Suggestion,
      let out := list.foldl (fun kept s => if kept.any (·.same s) then kept else s :: kept) kept
      (∀ s ∈ out, s ∈ kept ∨ s ∈ list) ∧ (∀ s ∈ kept, s ∈ out) ∧
        ∀ s ∈ list, ∃ s' ∈ out, s'.same s = true := by
    induction list with
    | nil => exact fun kept => ⟨fun s hs => Or.inl hs, fun s hs => hs, by simp⟩
    | cons s list ih =>
      intro kept
      rw [List.foldl_cons]
      split
      · next hany =>
        obtain ⟨hout, hkept, hall⟩ := ih kept
        obtain ⟨s', hs', hsame⟩ := List.any_eq_true.1 hany
        refine ⟨fun s hs => (hout s hs).imp id (List.mem_cons_of_mem _), hkept,
          List.forall_mem_cons.2 ⟨⟨s', hkept s' hs', hsame⟩, hall⟩⟩
      · obtain ⟨hout, hkept, hall⟩ := ih (s :: kept)
        obtain ⟨hs, hkept⟩ := List.forall_mem_cons.1 hkept
        refine ⟨fun s' hs' => ?_, hkept,
          List.forall_mem_cons.2 ⟨⟨s, hs, s.same_refl⟩, hall⟩⟩
        rcases hout s' hs' with hs' | hs'
        · rcases List.mem_cons.1 hs' with rfl | hs'
          · exact Or.inr (List.mem_cons_self ..)
          · exact Or.inl hs'
        · exact Or.inr (List.mem_cons_of_mem _ hs')
  obtain ⟨hout, -, hall⟩ := hfold []
  constructor
  · intro s hs
    exact (hout s (List.mem_reverse.1 hs)).resolve_left List.not_mem_nil
  · intro s hs
    obtain ⟨s', hs', hsame⟩ := hall s hs
    exact ⟨s', List.mem_reverse.2 hs', hsame⟩

theorem distinct_dedupe (list : List Suggestion) :
    (dedupe list).Pairwise fun a b => a.same b = false := by
  have hfold : ∀ kept : List Suggestion, (kept.Pairwise fun a b => a.same b = false) →
      (list.foldl (fun kept s => if kept.any (·.same s) then kept else s :: kept) kept).Pairwise
        fun a b => a.same b = false := by
    induction list with
    | nil => exact fun _ => id
    | cons s list ih =>
      intro kept hkept
      rw [List.foldl_cons]
      split
      · exact ih kept hkept
      · next hany =>
        apply ih
        refine .cons (fun s' hs' => ?_) hkept
        rw [Suggestion.same_comm]
        simpa using fun h => hany (List.any_eq_true.2 ⟨s', hs', h⟩)
  have hall := hfold [] .nil
  rw [dedupe, List.pairwise_reverse]
  exact hall.imp fun h => (Suggestion.same_comm _ _).trans h

theorem perm_insertLast (s : Suggestion) (list : List Suggestion) :
    (insertLast s list).Perm (s :: list) := by
  induction list with
  | nil => exact .refl _
  | cons t list ih =>
    unfold insertLast
    split
    · exact (ih.cons t).trans (.swap s t list)
    · exact .refl _

theorem perm_sort (list : List Suggestion) : (sort list).Perm list := by
  have hfold : ∀ sorted : List Suggestion,
      (list.foldl (fun sorted s => insertLast s sorted) sorted).Perm (list ++ sorted) := by
    induction list with
    | nil => exact fun sorted => .refl _
    | cons t list ih =>
      intro sorted
      rw [List.foldl_cons]
      exact (ih _).trans (((perm_insertLast t sorted).append_left list).trans List.perm_middle)
  have hall := hfold []
  rw [List.append_nil] at hall
  exact (List.reverse_perm _).trans hall

/-! ### Effects -/

def effects (line : String) (list : List Suggestion) : Set (Option String × Option String) :=
  {e | ∃ s ∈ list, s.effect line = e}

theorem effects_subset {list list' : List Suggestion}
    (h : ∀ s ∈ list, ∃ s' ∈ list', s'.effect line = s.effect line) :
    effects line list ⊆ effects line list' := by
  rintro e ⟨s, hs, rfl⟩
  exact h s hs

theorem effects_of_widened {span : Span} {list wide : List Suggestion}
    (h : List.Forall₂ (Suggestion.IsWidened line span) list wide) :
    effects line wide = effects line list := by
  apply Set.Subset.antisymm <;> apply effects_subset
  · intro s' hs'
    obtain ⟨s, hs, hone⟩ := forall₂_mem_right h hs'
    exact ⟨s, hs, hone.effect_eq.symm⟩
  · intro s hs
    obtain ⟨s', hs', hone⟩ := forall₂_mem_left h hs
    exact ⟨s', hs', hone.effect_eq⟩

theorem effects_dedupe (line : String) (list : List Suggestion) :
    effects line (dedupe list) = effects line list := by
  obtain ⟨hsub, hsame⟩ := mem_dedupe list
  apply Set.Subset.antisymm <;> apply effects_subset
  · exact fun s hs => ⟨s, hsub s hs, rfl⟩
  · intro s hs
    obtain ⟨s', hs', heq⟩ := hsame s hs
    exact ⟨s', hs', Suggestion.effect_of_same heq line⟩

theorem effects_perm {list list' : List Suggestion} (h : list.Perm list') :
    effects line list = effects line list' := by
  apply Set.Subset.antisymm <;> apply effects_subset
  · exact fun s hs => ⟨s, h.mem_iff.1 hs, rfl⟩
  · exact fun s hs => ⟨s, h.mem_iff.2 hs, rfl⟩

theorem effects_flatMap (groups : List Suggestions) :
    effects line (groups.flatMap (·.list)) = {e | ∃ g ∈ groups, e ∈ effects line g.list} := by
  ext e
  constructor
  · rintro ⟨s, hs, rfl⟩
    obtain ⟨g, hg, hs⟩ := List.mem_flatMap.1 hs
    exact ⟨g, hg, s, hs, rfl⟩
  · rintro ⟨g, hg, s, hs, rfl⟩
    exact ⟨s, List.mem_flatMap.2 ⟨g, hg, hs⟩, rfl⟩

/-! ### Groups -/

/-- The steps that a group is built in, for suggestions whose spans cut the line. -/
theorem create?_steps {list : List Suggestion} (h : ∀ s ∈ list, s.span.Cuts line) :
    ∃ span wide, span.Cuts line ∧ span.IsHullOf (list.map (·.span)) ∧
      expandAll line span list = some wide ∧
      List.Forall₂ (Suggestion.IsWidened line span) list wide ∧
      create? line list = some ⟨span, sort (dedupe wide)⟩ := by
  cases list with
  | nil =>
    have hstart := cutsAt_zero line
    exact ⟨Span.atOffset 0, [], ⟨hstart, hstart, Nat.le_refl 0⟩, ⟨by simp, by simp, by simp⟩, rfl,
      .nil, rfl⟩
  | cons first rest =>
    have hhull := isHullOf_hullOf first rest
    have hspan : (hullOf first rest).Cuts line := by
      apply hhull.cuts (by simp)
      simpa using h
    have hin : ∀ s ∈ first :: rest, s.span.Within (hullOf first rest) := fun s hs =>
      hhull.within _ (List.mem_map_of_mem hs)
    obtain ⟨wide, hwide, hall⟩ := expandAll_widened hspan fun s hs => ⟨h s hs, hin s hs⟩
    refine ⟨hullOf first rest, wide, hspan, hhull, hwide, hall, ?_⟩
    rw [create?, hwide]
    rfl

/-- Whether a group is what some suggestions come to at one span: the hull of theirs, where no two
offer the same, and taking one of the group can come to just what taking one of them can. -/
structure Gathers (line : String) (g : Suggestions) (list : List Suggestion) : Prop where
  cuts : g.span.Cuts line
  hull : g.span.IsHullOf (list.map (·.span))
  at_span : ∀ s ∈ g.list, s.span = g.span
  distinct : g.list.Pairwise fun a b => a.same b = false
  applies : ∀ s ∈ g.list, (s.applyTo? line).isSome = true
  effects_eq : effects line g.list = effects line list

theorem create?_gathers {list : List Suggestion} (h : ∀ s ∈ list, s.span.Cuts line) :
    ∃ g, create? line list = some g ∧ g.Gathers line list := by
  obtain ⟨span, wide, hspan, hhull, -, hall, hcreate⟩ := create?_steps h
  have hperm := perm_sort (dedupe wide)
  have hat : ∀ s ∈ sort (dedupe wide), s.span = span := by
    intro s hs
    have hs := (mem_dedupe wide).1 s (hperm.mem_iff.1 hs)
    obtain ⟨_, -, hone⟩ := forall₂_mem_right hall hs
    exact hone.span_eq
  refine ⟨_, hcreate, hspan, hhull, hat, ?_, fun s hs => ?_, ?_⟩
  · apply (hperm.pairwise_iff fun {a b} h => ?_).2 (distinct_dedupe wide)
    rw [Suggestion.same_comm]
    exact h
  · apply Suggestion.applyTo?_isSome
    rw [hat s hs]
    exact hspan
  · rw [effects_perm hperm, effects_dedupe, effects_of_widened hall]

/-! ### Merging -/

variable {g : Suggestions} {list : List Suggestion} {groups : List Suggestions}
  {lists : List (List Suggestion)}

theorem Gathers.ne_nil_iff (h : g.Gathers line list) : g.list ≠ [] ↔ list ≠ [] := by
  have hnil : ∀ {list : List Suggestion}, list ≠ [] ↔ (effects line list).Nonempty := by
    intro list
    cases list with
    | nil => simp [effects, Set.Nonempty]
    | cons s list => exact ⟨fun _ => ⟨_, s, by simp, rfl⟩, fun _ => by simp⟩
  rw [hnil, hnil, h.effects_eq]

theorem effects_flatten (h : List.Forall₂ (Gathers line) groups lists) :
    effects line lists.flatten = {e | ∃ g ∈ groups, e ∈ effects line g.list} := by
  ext e
  constructor
  · rintro ⟨s, hs, rfl⟩
    obtain ⟨list, hlist, hs⟩ := List.mem_flatten.1 hs
    obtain ⟨g, hg, hone⟩ := forall₂_mem_right h hlist
    exact ⟨g, hg, hone.effects_eq.symm.subset ⟨s, hs, rfl⟩⟩
  · rintro ⟨g, hg, he⟩
    obtain ⟨list, hlist, hone⟩ := forall₂_mem_left h hg
    obtain ⟨s, hs, heq⟩ := hone.effects_eq.subset he
    exact ⟨s, List.mem_flatten.2 ⟨list, hlist, hs⟩, heq⟩

theorem hull_flatMap {hull : Span} (h : List.Forall₂ (Gathers line) groups lists)
    (hhull : hull.IsHullOf ((groups.flatMap (·.list)).map (·.span))) :
    hull.IsHullOf (lists.flatten.map (·.span)) := by
  rw [List.map_flatten]
  apply hhull.flatten
  · intro span hspan
    obtain ⟨s, hs, rfl⟩ := List.mem_map.1 hspan
    obtain ⟨g, hg, hs⟩ := List.mem_flatMap.1 hs
    obtain ⟨list, hlist, hone⟩ := forall₂_mem_left h hg
    have hne := hone.ne_nil_iff.1 (List.ne_nil_of_mem hs)
    rw [hone.at_span s hs]
    exact ⟨_, List.mem_map_of_mem hlist, by simpa using hne, hone.hull⟩
  · intro spans hspans hne
    obtain ⟨list, hlist, rfl⟩ := List.mem_map.1 hspans
    obtain ⟨g, hg, hone⟩ := forall₂_mem_right h hlist
    have hne : g.list ≠ [] := hone.ne_nil_iff.2 (by simpa using hne)
    obtain ⟨s, hs⟩ := List.exists_mem_of_ne_nil _ hne
    refine ⟨s.span, List.mem_map_of_mem (List.mem_flatMap.2 ⟨g, hg, hs⟩), ?_⟩
    rw [hone.at_span s hs]
    exact hone.hull

theorem merge?_gathers (h : List.Forall₂ (Gathers line) groups lists) :
    ∃ m, merge? line groups = some m ∧ m.Gathers line lists.flatten := by
  have hcuts : ∀ s ∈ groups.flatMap (·.list), s.span.Cuts line := by
    intro s hs
    obtain ⟨g, hg, hs⟩ := List.mem_flatMap.1 hs
    obtain ⟨_, -, hone⟩ := forall₂_mem_left h hg
    rw [hone.at_span s hs]
    exact hone.cuts
  have hcreate : ∃ m, create? line (groups.flatMap (·.list)) = some m ∧
      m.Gathers line lists.flatten := by
    obtain ⟨m, hm, hall⟩ := create?_gathers hcuts
    exact ⟨m, hm, hall.cuts, hull_flatMap h hall.hull, hall.at_span, hall.distinct, hall.applies,
      hall.effects_eq.trans ((effects_flatMap groups).trans (effects_flatten h).symm)⟩
  cases h with
  | nil => exact hcreate
  | cons hone hrest =>
    cases hrest with
    | nil => exact ⟨_, rfl, by simpa using hone⟩
    | cons _ _ => exact hcreate

end Suggestions

end CommandConsole
