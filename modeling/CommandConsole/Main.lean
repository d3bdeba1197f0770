import CommandConsole.Cli.Response

/-!
# The program

Reads the settings, keeps their completed text, and answers the command line. Lines are run as
they come in.
-/

namespace CommandConsole

def readBytes? (path : String) : IO (Option ByteArray) := do
  try return some (← IO.FS.readBinFile path) catch _ => return none

/-- Keeps a text in a file, and says whether that was possible. -/
def keepText (path text : String) : IO Bool := do
  try
    IO.FS.writeFile path text
    return true
  catch _ => return false

def readSettings (path : String) : IO (Except SettingsError Settings) := do
  let loaded := tomlLibrary.load (← readBytes? path) true
  match loaded.kept with
  | none => return loaded.result
  | some text =>
    if ← keepText path text then return loaded.result else return .error .unwritable

/-- Runs lines as they come in, until there are no more or the server stops. -/
partial def serve (s : Session) (w : ConsoleWorld) : IO Unit := do
  let raw ← (← IO.getStdin).getLine
  match inputLines raw with
  | [] => return
  | line :: _ =>
    let (shown, w) := w.runLine s.dispatcher s.actor line
    let output ← IO.getStdout
    output.putStr (joinLines shown)
    output.flush
    if w.state.running then serve s w

def SettingsError.describe (path : String) : SettingsError → String
  | malformed => "Failed to parse " ++ path
  | unwritable => "Failed to open " ++ path
  | unusable => "Invalid config in " ++ path

def answer (r : Request) : IO ExitCode := do
  match ← readSettings r.path with
  | .error e =>
    IO.eprintln ("Error: " ++ e.describe r.path)
    return .failure
  | .ok settings =>
    let s := Session.start r settings
    match s.view? r settings with
    | some (some view) =>
      IO.print view
      return .success
    | some none => return .aborted
    | none =>
      serve s ⟨s.state, []⟩
      return .success

end CommandConsole

open CommandConsole in
def main (arguments : List String) : IO UInt32 := do
  let exit ← match Task.ofArguments? arguments with
    | none =>
      IO.eprint helpText
      pure ExitCode.refused
    | some .version =>
      IO.print versionText
      pure .success
    | some .help =>
      IO.print helpText
      pure .success
    | some (.run r) => answer r
  return UInt32.ofNat exit.number
