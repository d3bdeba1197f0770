import CommandConsole.Console.Permission

/-!
# The first rule decides

Which permissions a rule covers is said by `Covers`, with nothing in it that splits a text: the
parts of a text are those that make it up with points between them. A rule that has no star among
its parts covers itself alone, and one that has covers whatever begins with the parts in front of
its first star. A permission is held if the first of the rules that cover it has no minus sign.
-/

namespace CommandConsole

open Text

/-! ### Parts -/

/-- Whether a text is made up of some parts, at least one, with points between them. -/
structure MadeUpOf (cs : List Char) (parts : List (List Char)) : Prop where
  ne_nil : parts ≠ []
  pointless : ∀ part ∈ parts, '.' ∉ part
  joined : ['.'].intercalate parts = cs

theorem not_mem_of_mem_splitOn {sep : Char} {cs part : List Char} (h : part ∈ cs.splitOn sep) :
    sep ∉ part := by
  induction cs generalizing part with
  | nil =>
    obtain rfl := List.mem_singleton.1 h
    exact List.not_mem_nil
  | cons c cs ih =>
    rw [List.splitOn, List.splitOnP_cons_eq_if_modifyHead] at h
    split at h
    · rcases List.mem_cons.1 h with rfl | h
      · exact List.not_mem_nil
      · exact ih h
    · next hc =>
      obtain ⟨first, parts, hparts⟩ := List.exists_cons_of_ne_nil (List.splitOn_ne_nil sep cs)
      rw [← List.splitOn, hparts] at h
      rw [hparts] at ih
      rcases List.mem_cons.1 h with rfl | h
      · have hfirst : sep ∉ first := ih List.mem_cons_self
        simpa [hfirst] using Ne.symm (ne_of_beq_false (Bool.eq_false_iff.2 hc))
      · exact ih (List.mem_cons_of_mem _ h)

/-- A text is made up of its segments and of no other parts. -/
theorem madeUpOf_iff {cs : List Char} {parts : List (List Char)} :
    MadeUpOf cs parts ↔ parts = segments cs := by
  constructor
  · rintro ⟨hne, hpointless, rfl⟩
    rw [segments, List.splitOn_intercalate '.' hpointless hne]
  · rintro rfl
    refine ⟨List.splitOn_ne_nil '.' cs, fun part => not_mem_of_mem_splitOn, ?_⟩
    rw [segments, List.intercalate_splitOn]

theorem segments_inj {cs cs' : List Char} (h : segments cs = segments cs') : cs = cs' := by
  have hcs := madeUpOf_iff.2 (rfl : segments cs = segments cs)
  rw [← hcs.joined, h]
  exact (madeUpOf_iff.2 rfl).joined

/-! ### Covering -/

/-- The permissions that a rule covers, without the sign of the rule. -/
inductive Covers : List Char → List Char → Prop
  /-- Without a star, the rule itself. -/
  | itself {cs : List Char} {parts : List (List Char)} : MadeUpOf cs parts → ['*'] ∉ parts →
      Covers cs cs
  /-- With a star, all that begin with the parts in front of the first one, whatever is behind. -/
  | below {cs permission : List Char} {front more tail : List (List Char)} :
      MadeUpOf cs (front ++ ['*'] :: more) → ['*'] ∉ front → MadeUpOf permission (front ++ tail) →
      Covers cs permission

theorem map_ofChars {parts : List (List Char)} (h : ['*'] ∉ parts) :
    parts.map Segment.ofChars = parts.map .named := by
  apply List.map_congr_left
  rintro part hpart
  have hne : part ≠ ['*'] := by
    rintro rfl
    exact h hpart
  rw [Segment.ofChars, if_neg hne]

theorem pathMatches_iff_covers (cs permission : List Char) :
    PermissionRule.pathMatches ((segments cs).map Segment.ofChars) (segments permission) = true ↔
      Covers cs permission := by
  constructor
  · intro h
    by_cases hstar : ['*'] ∈ segments cs
    · obtain ⟨front, more, hparts, hfront⟩ := List.eq_append_cons_of_mem hstar
      rw [hparts, List.map_append, List.map_cons, map_ofChars hfront] at h
      obtain ⟨tail, htail⟩ := (PermissionRule.pathMatches_named_star _ _ _).1 h
      exact .below (madeUpOf_iff.2 hparts.symm) hfront (madeUpOf_iff.2 htail.symm)
    · rw [map_ofChars hstar, PermissionRule.pathMatches_named] at h
      obtain rfl := segments_inj h
      exact .itself (madeUpOf_iff.2 rfl) hstar
  · intro h
    cases h with
    | itself hparts hstar =>
      obtain rfl := madeUpOf_iff.1 hparts
      rw [map_ofChars hstar, PermissionRule.pathMatches_named]
    | below hparts hfront htail =>
      rw [← madeUpOf_iff.1 hparts, ← madeUpOf_iff.1 htail, List.map_append, List.map_cons,
        map_ofChars hfront]
      exact (PermissionRule.pathMatches_named_star _ _ _).2 ⟨_, rfl⟩

/-! ### Written rules -/

/-- What a written rule says without the blanks around it and one minus sign in front. -/
def unsigned (rule : String) : List Char :=
  let cs := trimBoth rule.toList
  if cs.head? = some '-' then cs.tail else cs

def Revokes (rule : String) : Prop := (trimBoth rule.toList).head? = some '-'

theorem ofString_cases (rule : String) :
    (PermissionRule.ofString rule).path = (segments (unsigned rule)).map Segment.ofChars ∧
      ((PermissionRule.ofString rule).grants = true ↔ ¬Revokes rule) := by
  unfold PermissionRule.ofString unsigned Revokes
  split
  · next path h => simp [h]
  · next path hminus =>
    have hhead : (trimBoth rule.toList).head? ≠ some '-' := by
      intro h
      obtain ⟨tail, htail⟩ := List.head?_eq_some_iff.1 h
      exact hminus tail htail
    simp [hhead]

theorem ofString_covers_iff (rule permission : String) :
    (PermissionRule.ofString rule).covers permission = true ↔
      Covers (unsigned rule) permission.toList := by
  unfold PermissionRule.covers
  rw [(ofString_cases rule).1, pathMatches_iff_covers]

/-- A permission is held exactly if some written rule covers it and the first one that does has no
minus sign. -/
theorem permits_iff_first_grants (rules : List String) (permission : String) :
    permits (rules.map PermissionRule.ofString) permission = true ↔
      ∃ before rule behind, rules = before ++ rule :: behind ∧
        (∀ other ∈ before, ¬Covers (unsigned other) permission.toList) ∧
        Covers (unsigned rule) permission.toList ∧ ¬Revokes rule := by
  have hdecide : permits (rules.map PermissionRule.ofString) permission = true ↔
      ∃ rule,
        rules.find? (fun rule => (PermissionRule.ofString rule).covers permission) = some rule ∧
        (PermissionRule.ofString rule).grants = true := by
    unfold permits decide?
    rw [List.find?_map, Option.map_map, Option.getD_eq_iff]
    simp [Function.comp_def]
  rw [hdecide]
  constructor
  · rintro ⟨rule, hfind, hgrants⟩
    obtain ⟨hcovers, before, behind, hrules, hbefore⟩ := List.find?_eq_some_iff_append.1 hfind
    refine ⟨before, rule, behind, hrules, fun other hother h => ?_,
      (ofString_covers_iff rule permission).1 hcovers, (ofString_cases rule).2.1 hgrants⟩
    have hnot := hbefore other hother
    rw [(ofString_covers_iff other permission).2 h] at hnot
    cases hnot
  · rintro ⟨before, rule, behind, hrules, hbefore, hcovers, hsign⟩
    refine ⟨rule, List.find?_eq_some_iff_append.2 ⟨(ofString_covers_iff rule permission).2 hcovers,
      before, behind, hrules, fun other hother => ?_⟩, (ofString_cases rule).2.2 hsign⟩
    have hnot := mt (ofString_covers_iff other permission).1 (hbefore other hother)
    simpa using hnot

end CommandConsole
