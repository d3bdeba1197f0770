/-!
# The command line

The command line says where the settings are, for whom lines are run, and whether completions or
the tree are shown instead. An option that takes a value has it behind an equals sign or as the
next argument; no option is given twice, and nothing but options is allowed. The first thing that
is wrong decides, unless the version or help is asked for before it.
-/

namespace CommandConsole

structure Request where
  /-- Where the settings are. -/
  settings : Option String
  /-- The player for whom lines are run instead of the console. -/
  player : Option String
  /-- A line to complete. -/
  completed : Option String
  /-- Whether the tree is shown. -/
  showsTree : Bool
  deriving DecidableEq, Repr

inductive Task where
  | run (request : Request)
  | version
  | help
  deriving DecidableEq, Repr

inductive ValueOption where
  | settings
  | player
  | completed
  deriving DecidableEq, Repr

namespace ValueOption

def ofName? : List Char → Option ValueOption := fun name =>
  if name == "config".toList then some settings
  else if name == "as".toList then some player
  else if name == "complete".toList then some completed
  else none

end ValueOption

namespace Request

def empty : Request := ⟨none, none, none, false⟩

/-- Where the settings are, by default in the working directory. -/
def path (r : Request) : String := r.settings.getD "Config.toml"

/-- The request with the value of an option that it does not have yet. A path is not empty. -/
def give? (r : Request) (option : ValueOption) (value : String) : Option Request :=
  match option with
  | .settings =>
    if r.settings.isNone && !value.isEmpty then some { r with settings := some value } else none
  | .player => if r.player.isNone then some { r with player := some value } else none
  | .completed => if r.completed.isNone then some { r with completed := some value } else none

end Request

/-- Whether an argument may be a value: it does not look like an option. -/
def mayBeValue (argument : List Char) : Bool :=
  match argument with
  | ['-'] => true
  | '-' :: _ => false
  | _ => true

/-- What is asked for by arguments, given what came before and the option that the next argument
is the value of; none if the arguments are not allowed. -/
def taskOf? (r : Request) : Option ValueOption → List String → Option Task
  | none, [] => some (.run r)
  | some _, [] => none
  | some option, argument :: rest =>
    if mayBeValue argument.toList then
      match r.give? option argument with
      | some r => taskOf? r none rest
      | none => none
    else none
  | none, argument :: rest =>
    match argument.toList with
    | ['-', '-'] => if rest.isEmpty then some (.run r) else none
    | '-' :: '-' :: long =>
      match ValueOption.ofName? (long.takeWhile (· != '=')), long.dropWhile (· != '=') with
      | some option, _ :: value =>
        match r.give? option (String.ofList value) with
        | some r => taskOf? r none rest
        | none => none
      | some option, [] => taskOf? r (some option) rest
      | none, _ =>
        if long == "dump-tree".toList then
          if r.showsTree then none else taskOf? { r with showsTree := true } none rest
        else if long == "version".toList then some .version
        else if long == "help".toList then some .help
        else none
    | '-' :: 'V' :: _ => some .version
    | '-' :: 'h' :: _ => some .help
    | _ => none

/-- What is asked for by the arguments of a command line. -/
def Task.ofArguments? (arguments : List String) : Option Task := taskOf? .empty none arguments

/-! ### Texts -/

def versionText : String := "mcadmin 0.1.0-dev\n"

def helpText : String :=
  "Server administration console built on a tree-based command grammar.\n" ++
  "\n" ++
  "Usage: mcadmin [OPTIONS]\n" ++
  "\n" ++
  "Options:\n" ++
  "      --config <CONFIG>   Path to the config file. Missing keys are written back with " ++
    "defaults [default: Config.toml]\n" ++
  "      --as <PLAYER>       Run as this player instead of the console\n" ++
  "      --complete <INPUT>  Print completions for the given partial command line and exit\n" ++
  "      --dump-tree         Print the command tree visible to the actor as JSON and exit\n" ++
  "  -h, --help              Print help\n" ++
  "  -V, --version           Print version\n"

end CommandConsole
