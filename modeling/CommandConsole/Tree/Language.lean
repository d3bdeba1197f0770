import CommandConsole.Argument.Value
import CommandConsole.Suggestion.Draft

/-!
# What a command tree is built over

A language fixes who issues lines, which types of arguments there are, and which data stand for
what a command does and for how a redirect turns one source into several. The last two are only
carried by the tree; an interpreter gives them their meaning when a line is run.
-/

namespace CommandConsole

/-- The parameters of a command tree. -/
structure Language where
  /-- Who issues a line. -/
  Source : Type
  /-- Types of arguments. -/
  Argument : Type
  /-- What a command does. -/
  Action : Type
  /-- How a redirect turns one source into several. -/
  Modifier : Type
  /-- What suggestions may depend on beside the line. -/
  Surroundings : Type
  /-- Whether a source holds a permission. -/
  holds : Source → String → Bool
  /-- Whether a source is the console. -/
  isConsole : Source → Bool
  /-- Reads a value at the cursor. -/
  scan : Argument → Scan Value
  /-- Suggests values, given the text of the arguments already there. -/
  suggest? : Argument → Surroundings → (String → Option String) → Draft → Option Suggestions
  /-- Texts that a type accepts. -/
  examples : Argument → List String
  /-- The name under which a type is exported. -/
  parserName : Argument → String

inductive ConsolePolicy where
  | allowed
  | denied
  /-- As decided by the nearest node above on the way there. -/
  | inherited
  deriving DecidableEq, Repr

namespace ConsolePolicy

/-- The policy in effect below a node, given the one in effect above it. -/
def resolve (own above : ConsolePolicy) : ConsolePolicy :=
  match own with
  | inherited => above
  | own => own

@[simp] theorem resolve_inherited (above : ConsolePolicy) : resolve inherited above = above := rfl

end ConsolePolicy

end CommandConsole
