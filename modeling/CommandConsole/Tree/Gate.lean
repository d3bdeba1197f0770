import CommandConsole.Tree.Language

/-!
# Gates

A node may demand something of the source, demand a permission, and exclude the console. The first
of these that a source fails, in this order, is the reason why the node is denied to it.
-/

namespace CommandConsole

inductive Denial where
  | requirement
  | permission (name : String)
  | console
  deriving DecidableEq, Repr

def Denial.fault : Denial → Fault
  | requirement => .requirementNotMet
  | permission name => .permissionDenied name
  | console => .consoleDenied

/-- What a node demands of a source. -/
structure Gates (L : Language) where
  requirement : Option (L.Source → Bool)
  permission : Option String
  console : ConsolePolicy

namespace Gates

variable {L : Language}

def none : Gates L := ⟨.none, .none, .inherited⟩

/-- The first reason to deny a source, under a policy that is already resolved. -/
def check (g : Gates L) (source : L.Source) (policy : ConsolePolicy) : Option Denial :=
  if !g.requirement.all (· source) then some .requirement
  else
    match g.permission with
    | some name =>
      if !L.holds source name then some (.permission name)
      else if policy == .denied && L.isConsole source then some .console
      else .none
    | .none => if policy == .denied && L.isConsole source then some .console else .none

/-- Whether a source gets through, given the policy in effect above. -/
def letThrough (g : Gates L) (source : L.Source) (above : ConsolePolicy) : Bool :=
  (g.check source (g.console.resolve above)).isNone

theorem check_eq_none_iff (g : Gates L) (source : L.Source) (policy : ConsolePolicy) :
    g.check source policy = .none ↔
      (∀ p, g.requirement = some p → p source = true) ∧
      (∀ name, g.permission = some name → L.holds source name = true) ∧
      ¬(policy = .denied ∧ L.isConsole source = true) := by
  obtain ⟨requirement, permission, console⟩ := g
  cases requirement <;> cases permission <;> cases policy <;> simp [check] <;>
    first | done | grind

end Gates

end CommandConsole
