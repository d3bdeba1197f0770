import CommandConsole.Line.Reader

/-!
# Faults in a line

A fault says why a line, or a part of it, is not accepted. An error is a fault that may be pinned
to a place in a line; it is shown with the last few characters before that place.
-/

namespace CommandConsole

open Text

inductive Fault where
  | expectedStartOfQuote
  | expectedEndOfQuote
  | invalidEscape (found : Char)
  | invalidBool (found : String)
  | expectedBool
  | invalidInt (found : String)
  | expectedInt
  | invalidLong (found : String)
  | expectedLong
  | invalidFloat (found : String)
  | expectedFloat
  | invalidDouble (found : String)
  | expectedDouble
  | expectedSymbol (symbol : Char)
  | tooLow (kind least found : String)
  | tooHigh (kind most found : String)
  | literalIncorrect (literal : String)
  | unknownCommand
  | unknownArgument
  | expectedArgumentSeparator
  | incompleteCommand
  | boundsEmpty
  | boundsSwapped
  | boundsIntsOnly
  | optionExpectedValue (option : String)
  | optionDuplicate (option : String)
  | permissionDenied (permission : String)
  | consoleDenied
  | requirementNotMet
  | custom (message : String)
  deriving DecidableEq, Repr

namespace Fault

def message : Fault → String
  | expectedStartOfQuote => "Expected quote to start a string"
  | expectedEndOfQuote => "Unclosed quoted string"
  | invalidEscape c =>
    "Invalid escape sequence '" ++ String.singleton c ++ "' in quoted string"
  | invalidBool s => "Invalid bool, expected true or false but found '" ++ s ++ "'"
  | expectedBool => "Expected bool"
  | invalidInt s => "Invalid integer '" ++ s ++ "'"
  | expectedInt => "Expected integer"
  | invalidLong s => "Invalid long '" ++ s ++ "'"
  | expectedLong => "Expected long"
  | invalidFloat s => "Invalid float '" ++ s ++ "'"
  | expectedFloat => "Expected float"
  | invalidDouble s => "Invalid double '" ++ s ++ "'"
  | expectedDouble => "Expected double"
  | expectedSymbol c => "Expected '" ++ String.singleton c ++ "'"
  | tooLow kind least found => kind ++ " must not be less than " ++ least ++ ", found " ++ found
  | tooHigh kind most found => kind ++ " must not be more than " ++ most ++ ", found " ++ found
  | literalIncorrect s => "Expected literal " ++ s
  | unknownCommand => "Unknown command"
  | unknownArgument => "Incorrect argument for command"
  | expectedArgumentSeparator =>
    "Expected whitespace to end one argument, but found trailing data"
  | incompleteCommand => "Incomplete command"
  | boundsEmpty => "Expected value or range of values"
  | boundsSwapped => "Min cannot be bigger than max"
  | boundsIntsOnly => "Only whole numbers allowed, not decimals"
  | optionExpectedValue s => "Expected a value for option '--" ++ s ++ "'"
  | optionDuplicate s => "Option '--" ++ s ++ "' was already specified"
  | permissionDenied p => "You do not have permission to use this command (" ++ p ++ ")"
  | consoleDenied => "This command cannot be used from the console"
  | requirementNotMet => "You cannot use this command here"
  | custom m => m

end Fault

/-! ### Errors -/

structure Place where
  line : String
  cursor : Nat
  deriving DecidableEq, Repr

structure LineError where
  fault : Fault
  place : Option Place
  deriving DecidableEq, Repr

def Fault.unplaced (f : Fault) : LineError := ⟨f, none⟩

def Fault.pinned (f : Fault) (r : Reader) : LineError := ⟨f, some ⟨r.line, r.cursor⟩⟩

def shownBefore : Nat := 10

/-- The last characters before a cut, marked when more stand before them, and an arrow. -/
def shownContext (before : List Char) : String :=
  let shown :=
    if shownBefore < before.length then
      ['.', '.', '.'] ++ before.drop (before.length - shownBefore)
    else before
  String.ofList shown ++ "<--[HERE]"

/-- The text before the place, cut at the last character boundary. -/
def Place.before (p : Place) : List Char :=
  match splitAt? (boundaryBefore p.cursor p.line.toList) p.line.toList with
  | some (front, _) => front
  | none => p.line.toList

namespace LineError

def message (e : LineError) : String := e.fault.message

def context? (e : LineError) : Option String := e.place.map fun p => shownContext p.before

def display (e : LineError) : String :=
  match e.place with
  | none => e.message
  | some p =>
    e.message ++ " at position " ++ toString p.cursor ++ ": " ++ shownContext p.before

end LineError

/-! ### Wordings with a token in them -/

/-- The template with its first pair of braces replaced by a text. -/
def fillFirst (token : List Char) : List Char → List Char
  | [] => []
  | '\x7b' :: '\x7d' :: rest => token ++ rest
  | c :: cs => c :: fillFirst token cs

/-- The template with every pair of braces replaced by a text. -/
def fillAll (token : List Char) : List Char → List Char
  | [] => []
  | '\x7b' :: '\x7d' :: rest => token ++ fillAll token rest
  | c :: cs => c :: fillAll token cs

/-- A fault whose wording has the offending token in place of a pair of braces. -/
def Fault.ofTemplate (template token : String) : Fault :=
  .custom (String.ofList (fillFirst token.toList template.toList))

end CommandConsole
