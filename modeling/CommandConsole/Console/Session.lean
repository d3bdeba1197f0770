import CommandConsole.Console.Actions
import CommandConsole.Views.Completion

/-!
# Lines at the console

Running a line gives what is in the outbox of its actor then, the replies of its commands, followed
by a description of the error if there was one: the error itself, how the line could go on, and
where to find help. Completing a line gives the suggestions for its end; aliases are expanded first.
-/

namespace CommandConsole

open Text

def describeLineError (t : CommandTree console) (actor : Actor) (p : Parsed console)
    (e : LineError) : List String :=
  match p.chain.last.nodes.getLast? with
  | none => [e.display]
  | some last =>
    let typed := (front? last.span.stop p.reader.line).getD ""
    let usages := (t.smartUsage last.node actor).map fun (_, usage) =>
      "Usage: /" ++ typed ++ " " ++ usage
    let help := p.chain.outer.nodes.head?.toList.map fun first =>
      "Run /help " ++ (t.node first.node).name ++ " for more information."
    e.display :: usages ++ help

def describeError (t : CommandTree console) (actor : Actor) (p : Parsed console) :
    CommandError → List String
  | .line e => describeLineError t actor p e
  | .runtime e => [e.display]
  | .internal _ => ["An internal error occurred while running this command"]

def describeResult (t : CommandTree console) (actor : Actor) (p : Parsed console) :
    Except CommandError Nat → List String
  | .ok _ => []
  | .error e => describeError t actor p e

/-- Runs a line for an actor in a world: what is shown, which empties the outbox of the actor, and
the world afterwards. A blank line does nothing. -/
def ConsoleWorld.runLine (d : Dispatcher console) (actor : Actor) (line : String)
    (w : ConsoleWorld) : List String × ConsoleWorld :=
  let line := trim line
  if line.isEmpty then ([], w)
  else
    let p := d.tree.parse (d.expand line) actor
    let (result, w) := (ExceptT.run ((consoleInterpreter d.tree).execute p)).run w
    (w.lines actor.outbox ++ describeResult d.tree actor p result, w.drain actor.outbox)

/-- Runs a line for an actor with nothing in any outbox: what is shown, and the state afterwards. -/
def runConsoleLine (d : Dispatcher console) (actor : Actor) (line : String)
    (state : ServerState) : List String × ServerState :=
  let (shown, w) := ConsoleWorld.runLine d actor line ⟨state, []⟩
  (shown, w.state)

def completeConsoleLine? (d : Dispatcher console) (actor : Actor) (line : String)
    (state : ServerState) : Option Suggestions :=
  d.tree.complete? state (d.tree.parse (d.expand line) actor)

/-- Runs lines in order until the server stops: what is shown, and the world afterwards. -/
def ConsoleWorld.runLines (d : Dispatcher console) (actor : Actor) :
    List String → ConsoleWorld → List String × ConsoleWorld
  | [], w => ([], w)
  | line :: lines, w =>
    let (shown, w) := w.runLine d actor line
    if w.state.running then
      let (more, w) := runLines d actor lines w
      (shown ++ more, w)
    else (shown, w)

def runConsoleLines (d : Dispatcher console) (actor : Actor) (lines : List String)
    (state : ServerState) : List String × ServerState :=
  let (shown, w) := ConsoleWorld.runLines d actor lines ⟨state, []⟩
  (shown, w.state)

end CommandConsole
