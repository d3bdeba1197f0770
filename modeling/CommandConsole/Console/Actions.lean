import CommandConsole.Console.Commands
import CommandConsole.Views.Usage

/-!
# What the commands of the console do

Commands change the state of the server and reply to the source that they run for. Replies are
collected in the outbox of the source; whoever runs a line as other players hands the outbox on to
them.
-/

namespace CommandConsole

structure ConsoleWorld where
  state : ServerState
  /-- The replies that have not been shown, in order, each with the outbox that it is in. -/
  posted : List (OutboxId × String)

namespace ConsoleWorld

def lines (w : ConsoleWorld) (outbox : OutboxId) : List String :=
  (w.posted.filter (·.1 == outbox)).map (·.2)

def drain (w : ConsoleWorld) (outbox : OutboxId) : ConsoleWorld :=
  { w with posted := w.posted.filter (·.1 != outbox) }

end ConsoleWorld

abbrev ConsoleEffect (α : Type) : Type := Effect ConsoleWorld α

namespace ConsoleEffect

def reply (source : Actor) (line : String) : ConsoleEffect Unit :=
  modify fun w => { w with posted := w.posted ++ [(source.outbox, line)] }

def state : ConsoleEffect ServerState := do return (← get).state

def change (f : ServerState → ServerState) : ConsoleEffect Unit :=
  modify fun w => { w with state := f w.state }

def refuse {α : Type} (message : String) : ConsoleEffect α := throw (.runtime (.message message))

end ConsoleEffect

open ConsoleEffect

/-! ### Arguments -/

def textKind : ValueKind String := ⟨"text", Value.string?⟩

def boundsKind : ValueKind (Bounds Int32) :=
  ⟨"bounds of whole numbers", fun
    | .intRange v => some v
    | _ => none⟩

def textOf (i : Invocation console) (name : String) : ConsoleEffect String :=
  liftExcept (i.argument textKind name)
where
  /-- A result as a computation. -/
  liftExcept {α : Type} : Except CommandError α → ConsoleEffect α
    | .ok v => pure v
    | .error e => throw e

def textOf? (i : Invocation console) (name : String) : ConsoleEffect (Option String) :=
  textOf.liftExcept (i.optionalArgument textKind name)

/-! ### Bans and kicks -/

def ban (i : Invocation console) : ConsoleEffect Unit := do
  let target ← textOf i "target"
  let duration ← textOf.liftExcept (i.optionalArgument boundsKind "duration")
  let reason ← textOf? i "reason"
  if (← state).bans.contains target then refuse (target ++ " is already banned")
  change fun s =>
    { s.sendOffline target with bans := s.bans.insert target ⟨i.source.name, reason, duration⟩ }
  match duration with
  | some days => reply i.source ("Banned " ++ target ++ " for " ++ days.text ++ " days")
  | none => reply i.source ("Banned " ++ target)

def pardon (i : Invocation console) : ConsoleEffect Unit := do
  let target ← textOf i "target"
  if !(← state).bans.contains target then refuse (target ++ " is not banned")
  change fun s => { s with bans := s.bans.erase target }
  reply i.source ("Unbanned " ++ target)

def Ban.describe (b : Ban) (name : String) : String :=
  let duration := match b.duration with
    | some days => days.text ++ " days"
    | none => "forever"
  name ++ ": " ++ duration ++ " by " ++ b.author ++ " (" ++
    b.reason.getD "no reason given" ++ ")"

def listBans (i : Invocation console) : ConsoleEffect Unit := do
  let bans := (← state).bans.entries
  if bans.isEmpty then reply i.source "There are no bans"
  else bans.forM fun (name, b) => reply i.source (b.describe name)

def kick (i : Invocation console) : ConsoleEffect Unit := do
  let target ← textOf i "target"
  let reason ← textOf? i "reason"
  if !((← state).players.find? target).any (·.online) then refuse (target ++ " is not online")
  change (·.sendOffline target)
  match reason with
  | some reason => reply i.source ("Kicked " ++ target ++ ": " ++ reason)
  | none => reply i.source ("Kicked " ++ target)

/-! ### Players -/

def demandKnown (target : String) : ConsoleEffect Unit := do
  if !(← state).players.contains target then refuse ("Unknown player " ++ target)

def setGameMode (mode : GameMode) (i : Invocation console) : ConsoleEffect Unit := do
  let target ← match ← textOf? i "target" with
    | some target => pure target
    | none => if i.source.isConsole then throw (.runtime .playerOnly) else pure i.source.name
  demandKnown target
  change fun s => { s with players := s.players.modify target ({ · with gameMode := mode }) }
  reply i.source ("Set " ++ target ++ "'s game mode to " ++ mode.name)

def showPermissions (i : Invocation console) : ConsoleEffect Unit := do
  let target ← textOf i "target"
  match (← state).players.find? target with
  | none => refuse ("Unknown player " ++ target)
  | some record =>
    if record.permissions.isEmpty then reply i.source (target ++ " has no permissions")
    else reply i.source (target ++ ": " ++ String.intercalate ", " record.permissions)

/-- The actors for the players named: all that are online for a star. They reply into the outbox of
the source. -/
def asPlayers (i : Invocation console) : ConsoleEffect (List Actor) := do
  let target ← textOf i "targets"
  let s ← state
  let actorFor (name : String) : Actor := (s.actorFor name).withOutbox i.source.outbox
  if target == "*" then return s.online.map actorFor
  demandKnown target
  return [actorFor target]

def talk (i : Invocation console) : ConsoleEffect Unit := do
  let action ← textOf i "action"
  reply i.source ("* " ++ i.source.name ++ " " ++ action)

def stop (i : Invocation console) : ConsoleEffect Unit := do
  change ({ · with running := false })
  reply i.source "Stopping"

/-! ### Help -/

def isVisible {L : Language} (t : CommandTree L) (source : L.Source) :
    NodeId → ConsolePolicy → List String → Bool
  | _, _, [] => true
  | id, policy, name :: names =>
    match (t.node id).child? name with
    | none => false
    | some child =>
      (t.node child).canUse source policy &&
        isVisible t source child ((t.node child).gates.console.resolve policy) names

def listCommands (t : CommandTree console) (i : Invocation console) : ConsoleEffect Unit :=
  (t.smartUsage CommandTree.root i.source).forM fun (_, usage) => reply i.source ("/" ++ usage)

def explainCommand (t : CommandTree console) (i : Invocation console) : ConsoleEffect Unit := do
  let command ← textOf i "command"
  let path := Text.words command
  match t.find? path with
  | none => refuse ("Unknown command: " ++ command)
  | some id =>
    if !isVisible t i.source CommandTree.root .inherited path then
      refuse ("Unknown command: " ++ command)
    let lead := String.intercalate " " path
    (t.allUsage id i.source true).forM fun usage =>
      reply i.source ("/" ++ lead ++ if usage.isEmpty then "" else " " ++ usage)
    let options := t.optionUsage id i.source
    if !options.isEmpty then reply i.source ("Options: " ++ String.intercalate " " options)

/-- The meaning of the actions and modifiers of the console, over a tree of commands. -/
def consoleInterpreter (t : CommandTree console) : Interpreter console ConsoleWorld where
  act action i :=
    match action with
    | .ban => ban i
    | .pardon => pardon i
    | .listBans => listBans i
    | .kick => kick i
    | .setGameMode mode => setGameMode mode i
    | .talk => talk i
    | .showPermissions => showPermissions i
    | .stop => stop i
    | .listCommands => listCommands t i
    | .explainCommand => explainCommand t i
  modify modifier i :=
    match modifier with
    | .asPlayers => asPlayers i

end CommandConsole
