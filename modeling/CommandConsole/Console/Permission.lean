import CommandConsole.Text.Split

/-!
# Permissions of players

A permission is a path of segments with points between them. A rule grants or, with a minus sign
in front, revokes the permissions that it matches: its own path, or from a star on whatever
follows. The first rule that matches a permission decides; without one it is not held.
-/

namespace CommandConsole

open Text

inductive Segment where
  /-- Matches whatever is left of a path, also nothing. -/
  | star
  | named (name : List Char)
  deriving DecidableEq, Repr

structure PermissionRule where
  path : List Segment
  grants : Bool
  deriving DecidableEq, Repr

def segments (permission : List Char) : List (List Char) := permission.splitOn '.'

def Segment.ofChars (cs : List Char) : Segment := if cs = ['*'] then .star else .named cs

namespace PermissionRule

/-- A rule as it is written; blanks around it are left out. -/
def ofString (s : String) : PermissionRule :=
  match trimBoth s.toList with
  | '-' :: path => ⟨(segments path).map Segment.ofChars, false⟩
  | path => ⟨(segments path).map Segment.ofChars, true⟩

/-- Whether a path of segments matches the segments of a permission. -/
def pathMatches : List Segment → List (List Char) → Bool
  | [], [] => true
  | [], _ :: _ => false
  | .star :: _, _ => true
  | .named _ :: _, [] => false
  | .named name :: path, part :: parts => name == part && pathMatches path parts

def covers (r : PermissionRule) (permission : String) : Bool :=
  pathMatches r.path (segments permission.toList)

theorem pathMatches_named (names parts : List (List Char)) :
    pathMatches (names.map .named) parts = true ↔ parts = names := by
  induction names generalizing parts with
  | nil => cases parts <;> simp [pathMatches]
  | cons name names ih =>
    cases parts with
    | nil => simp [pathMatches]
    | cons part parts =>
      simp only [List.map_cons, pathMatches, Bool.and_eq_true, beq_iff_eq, ih, List.cons.injEq]
      constructor
      · rintro ⟨rfl, rfl⟩
        exact ⟨rfl, rfl⟩
      · rintro ⟨rfl, rfl⟩
        exact ⟨rfl, rfl⟩

theorem pathMatches_named_star (names parts : List (List Char)) (more : List Segment) :
    pathMatches (names.map .named ++ .star :: more) parts = true ↔
      ∃ tail, parts = names ++ tail := by
  induction names generalizing parts with
  | nil => simp [pathMatches]
  | cons name names ih =>
    cases parts with
    | nil => simp [pathMatches]
    | cons part parts =>
      simp only [List.map_cons, List.cons_append, pathMatches, Bool.and_eq_true, beq_iff_eq, ih,
        List.cons.injEq]
      constructor
      · rintro ⟨rfl, tail, rfl⟩
        exact ⟨tail, rfl, rfl⟩
      · rintro ⟨tail, rfl, rfl⟩
        exact ⟨rfl, tail, rfl⟩

end PermissionRule

/-- What the first rule that matches a permission says. -/
def decide? (rules : List PermissionRule) (permission : String) : Option Bool :=
  (rules.find? (·.covers permission)).map (·.grants)

def permits (rules : List PermissionRule) (permission : String) : Bool :=
  (decide? rules permission).getD false

end CommandConsole
