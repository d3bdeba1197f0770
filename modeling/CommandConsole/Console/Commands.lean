import CommandConsole.Argument.Builtin
import CommandConsole.Console.State
import CommandConsole.Dispatcher

/-!
# The commands of the console

Bans and pardons, kicks, game modes, running a line as other players, talking, looking at
permissions, stopping the server, and help. Each command is described by a blueprint; what it does
is named here and given its meaning where lines are run.
-/

namespace CommandConsole

inductive ConsoleArgument where
  | builtin (type : Builtin)
  /-- The name of a player, or a star for all that are online. -/
  | player

inductive ConsoleAction where
  | ban
  | pardon
  | listBans
  | kick
  | setGameMode (mode : GameMode)
  | talk
  | showPermissions
  | stop
  | listCommands
  | explainCommand
  deriving DecidableEq, Repr

inductive ConsoleModifier where
  /-- The players that were named run the rest of the line. -/
  | asPlayers
  deriving DecidableEq, Repr

/-! ### The argument of a player -/

def scanPlayer : Scan Value := do
  if (← get).peek? == some '*' then
    Scan.pass 1
    return .string "*"
  let name ← Scan.word
  if name == "" then Scan.fail (.custom "Expected player name")
  return .string name

/-- The language of the console; completion looks at who is online. -/
def console : Language where
  Source := Actor
  Argument := ConsoleArgument
  Action := ConsoleAction
  Modifier := ConsoleModifier
  Surroundings := ServerState
  holds := Actor.holds
  isConsole := Actor.isConsole
  scan
    | .builtin type => type.scan
    | .player => scanPlayer
  suggest? type state _ draft :=
    match type with
    | .builtin type => type.suggest? draft
    | .player => (draft.suggestMatching state.online).build?
  examples
    | .builtin type => type.examples
    | .player => ["Steve", "*"]
  parserName
    | .builtin type => type.name
    | .player => "player"

/-! ### Blueprints -/

def needing (permission : String) : Gates console := ⟨none, some permission, .inherited⟩

def word (name : String) (children : List (Blueprint console)) : Blueprint console :=
  { Blueprint.literal name with children }

/-- A place where a line may end with an action, with what else may follow. -/
def ending (b : Blueprint console) (action : ConsoleAction)
    (children : List (Blueprint console)) : Blueprint console :=
  { b with command := some action, children }

def playerArgument (name : String) : Blueprint console := Blueprint.argument name .player

def builtinArgument (name : String) (type : Builtin) : Blueprint console :=
  Blueprint.argument name (.builtin type)

def banCommand : Blueprint console :=
  { word "ban"
      [ending (playerArgument "target") .ban
        [ending (builtinArgument "duration" .intRange) .ban []]] with
    gates := needing "mcadmin.ban"
    options := [Blueprint.option "reason" (.builtin .string)] }

def pardonCommand : Blueprint console :=
  { word "pardon" [ending (playerArgument "target") .pardon []] with
    gates := needing "mcadmin.ban" }

def banlistCommand : Blueprint console :=
  { ending (word "banlist" []) .listBans [] with gates := needing "mcadmin.ban" }

def kickCommand : Blueprint console :=
  { word "kick"
      [ending (playerArgument "target") .kick
        [ending (builtinArgument "reason" .greedy) .kick []]] with
    gates := needing "mcadmin.kick" }

def gameModeCommand : Blueprint console :=
  { Blueprint.bare (.literal "gamemode" ["gm"]) with
    gates := needing "mcadmin.gamemode"
    children := GameMode.all.map fun mode =>
      ending (word mode.name []) (.setGameMode mode)
        [ending (playerArgument "target") (.setGameMode mode) []] }

def executeRunCommand : Blueprint console :=
  { word "execute"
      [{ Blueprint.literal "run" with forward := some ⟨CommandTree.root, none, false⟩ }] with
    gates := needing "mcadmin.execute" }

/-- Runs the rest of the line as other players, given the node of the command itself. -/
def executeAsCommand (execute : NodeId) : Blueprint console :=
  word "execute"
    [word "as"
      [{ playerArgument "targets" with forward := some ⟨execute, some .asPlayers, true⟩ }]]

def talkCommand : Blueprint console :=
  { word "me" [ending (builtinArgument "action" .greedy) .talk []] with
    gates := ⟨none, none, .denied⟩ }

def permissionsCommand : Blueprint console :=
  { word "perms" [ending (playerArgument "target") .showPermissions []] with
    gates := needing "mcadmin.perms" }

def stopCommand : Blueprint console :=
  { ending (word "stop" []) .stop [] with gates := ⟨some Actor.isConsole, none, .inherited⟩ }

def helpCommand : Blueprint console :=
  ending (word "help" []) .listCommands
    [ending (builtinArgument "command" .greedy) .explainCommand []]

/-! ### The dispatcher -/

def registerAll? (d : Dispatcher console) :
    List (Blueprint console) → Except Misuse (Dispatcher console)
  | [] => .ok d
  | b :: bs => do
    let (d, _) ← d.register? b
    registerAll? d bs

def commandTree? : Except Misuse (CommandTree console) := do
  let d ← registerAll? .empty
    [banCommand, pardonCommand, banlistCommand, kickCommand, gameModeCommand]
  let (d, execute) ← d.register? executeRunCommand
  let d ← registerAll? d
    [executeAsCommand execute, talkCommand, permissionsCommand, stopCommand, helpCommand]
  return d.tree

def commandTree : CommandTree console := commandTree?.toOption.getD .empty

/-- The dispatcher with all commands and some aliases; blanks around them are left out. -/
def consoleDispatcher (aliases : Keyed String String) : Dispatcher console where
  tree := commandTree
  aliases := aliases.entries.map fun (name, replacement) =>
    ⟨Text.trim name, Text.trim replacement⟩

end CommandConsole
