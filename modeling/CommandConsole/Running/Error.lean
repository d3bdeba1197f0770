import CommandConsole.Line.Fault

/-!
# Errors of running a line

A line may be refused before it runs, a command may fail for a reason that concerns its user, or
it may ask for arguments that its place in the tree does not provide.
-/

namespace CommandConsole

inductive RuntimeError where
  | permissionDenied (permission : String)
  | consoleOnly
  | playerOnly
  | message (text : String)
  deriving DecidableEq, Repr

inductive InternalError where
  | missingArgument (name : String)
  | wrongArgumentType (name expected : String)
  | message (text : String)
  deriving DecidableEq, Repr

inductive CommandError where
  | line (error : LineError)
  | runtime (error : RuntimeError)
  | internal (error : InternalError)
  deriving DecidableEq, Repr

def RuntimeError.display : RuntimeError → String
  | permissionDenied permission => "Permission denied: " ++ permission
  | consoleOnly => "This command can only be executed from the console"
  | playerOnly => "This command can only be executed by players"
  | message text => text

def InternalError.display : InternalError → String
  | missingArgument name =>
    "Internal error: Argument '" ++ name ++ "' not found in context (command registration bug)"
  | wrongArgumentType name expected =>
    "Internal error: Argument '" ++ name ++ "' has wrong type, expected " ++ expected ++
      " (command registration bug)"
  | message text => "Internal error (bug): " ++ text

def CommandError.display : CommandError → String
  | line e => e.display
  | runtime e => e.display
  | internal e => e.display

end CommandConsole
