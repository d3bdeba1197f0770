import CommandConsole.Matching.Context
import CommandConsole.Running.Error

/-!
# Invocations

A command runs for a source with the context that it was matched in. It asks for its arguments by
name and type; asking for one that was not captured, or for the wrong type, is a failure of the
command itself.
-/

namespace CommandConsole

/-- What a command, or the modifier of a redirect, is given to work with. -/
structure Invocation (L : Language) where
  source : L.Source
  line : String
  context : Context L
  /-- The contexts behind the redirect of this one. -/
  behind : List (Context L)

namespace Invocation

variable {L : Language}

def has (i : Invocation L) (name : String) : Bool := i.context.captured.contains name

def raw? (i : Invocation L) (name : String) : Option String := i.context.raw? i.line name

/-- The value captured under a name, if it is of the type asked for. -/
def argument {α : Type} (i : Invocation L) (kind : ValueKind α) (name : String) :
    Except CommandError α :=
  match i.context.captured.find? name with
  | none => .error (.internal (.missingArgument name))
  | some captured =>
    match kind.project? captured.value with
    | none => .error (.internal (.wrongArgumentType name kind.label))
    | some v => .ok v

def optionalArgument {α : Type} (i : Invocation L) (kind : ValueKind α) (name : String) :
    Except CommandError (Option α) :=
  if i.has name then some <$> i.argument kind name else .ok none

end Invocation

end CommandConsole
