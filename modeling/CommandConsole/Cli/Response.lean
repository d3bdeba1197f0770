import CommandConsole.Cli.Request
import CommandConsole.Console.Session
import CommandConsole.Document.Library
import CommandConsole.Text.Split
import CommandConsole.Views.Export

/-!
# Responses to the command line

A request is answered with completions, with the tree, or by running the lines of the input. The
settings are loaded first; if that fails nothing is shown.
-/

namespace CommandConsole

open Text

structure Session where
  dispatcher : Dispatcher console
  actor : Actor
  state : ServerState

def Session.start (r : Request) (settings : Settings) : Session :=
  let state := ServerState.start settings.players
  { dispatcher := consoleDispatcher settings.aliases
    actor := match r.player with
      | some name => state.actorFor name
      | none => .console settings.consoleName
    state }

/-! ### Lines -/

def joinLines (lines : List String) : String := String.join (lines.map (· ++ "\n"))

def withoutReturn (cs : List Char) : List Char :=
  if cs.getLast? = some '\r' then cs.dropLast else cs

/-- The lines of an input. Only a line that has an end loses a carriage return, and nothing behind
the last end is no line. -/
def inputLines (input : String) : List String :=
  let parts := input.toList.splitOn '\n'
  let unended := parts.getLast?.getD []
  (parts.dropLast.map fun cs => String.ofList (withoutReturn cs)) ++
    if unended.isEmpty then [] else [String.ofList unended]

/-! ### Answers -/

/-- The first items of a list, as many as a limit allows; a negative limit allows all. -/
def limited {α : Type} (limit : Int64) (items : List α) : List α :=
  if limit < 0 then items else items.take limit.toInt.toNat

def Suggestion.line (s : Suggestion) : String :=
  match s.tooltip with
  | some tooltip => s.text ++ "\t" ++ tooltip
  | none => s.text

/-- What is shown for a request without running lines, if it asks for that: completions before the
tree. The inner result is missing when a completion does not fit its line. -/
def Session.view? (s : Session) (r : Request) (settings : Settings) : Option (Option String) :=
  match r.completed with
  | some line =>
    some ((completeConsoleLine? s.dispatcher s.actor line s.state).map fun suggestions =>
      joinLines ((limited settings.maxSuggestions suggestions.list).map Suggestion.line))
  | none =>
    if r.showsTree then some (some (exportText (s.dispatcher.declare s.actor) ++ "\n")) else none

def Session.output? (s : Session) (r : Request) (settings : Settings) (input : String) :
    Option String :=
  match s.view? r settings with
  | some view => view
  | none => some (joinLines (runConsoleLines s.dispatcher s.actor (inputLines input) s.state).1)

/-- The exit codes of the program. -/
inductive ExitCode where
  | success
  /-- The settings are not loaded. -/
  | failure
  /-- The command line is not allowed. -/
  | refused
  /-- A suggestion does not fit its line. -/
  | aborted
  deriving DecidableEq, Repr

def ExitCode.number : ExitCode → Nat
  | success => 0
  | failure => 1
  | refused => 2
  | aborted => 101

structure Response where
  exit : ExitCode
  output : String
  kept : Option (String × String)

/-- The response to a command line, given what texts there are, where a text can be kept, and the
input. -/
def respond (arguments : List String) (stored? : String → Option String)
    (writable : String → Bool) (input : String) : Response :=
  match Task.ofArguments? arguments with
  | none => ⟨.refused, "", none⟩
  | some .version => ⟨.success, versionText, none⟩
  | some .help => ⟨.success, helpText, none⟩
  | some (.run r) =>
    let loaded := loadSettings ((stored? r.path).getD "") (writable r.path)
    let kept := loaded.kept.map (r.path, ·)
    match loaded.result with
    | .error _ => ⟨.failure, "", kept⟩
    | .ok settings =>
      match (Session.start r settings).output? r settings input with
      | none => ⟨.aborted, "", kept⟩
      | some output => ⟨.success, output, kept⟩

end CommandConsole
