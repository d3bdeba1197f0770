import CommandConsole.Number.Bounds

/-!
# Values of arguments

An argument of a command has one of eight kinds of values. A kind picks the values of one type and
is named in a message when a command asks for the wrong one.
-/

namespace CommandConsole

inductive Value where
  | bool (v : Bool)
  | int (v : Int32)
  | long (v : Int64)
  | float (v : Float32)
  | double (v : Float)
  | string (v : String)
  | intRange (v : Bounds Int32)
  | floatRange (v : Bounds Float)

structure ValueKind (α : Type) where
  /-- What the type is called in messages. -/
  label : String
  /-- The value, if it is of this type. -/
  project? : Value → Option α

namespace Value

def string? : Value → Option String
  | string v => some v
  | _ => none

end Value

end CommandConsole
