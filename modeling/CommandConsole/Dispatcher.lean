import CommandConsole.Running.Execution
import CommandConsole.Tree.Registration

/-!
# Dispatchers

A dispatcher is a command tree together with custom aliases. Before a line is parsed, an alias that
is its first word is expanded: the replacement takes its place, and the rest of the line is put
where the replacement has a pair of braces, or else behind it.
-/

namespace CommandConsole

open Text

structure Alias where
  name : String
  replacement : String
  deriving DecidableEq, Repr

def strip? : List Char → List Char → Option (List Char)
  | [], cs => some cs
  | _ :: _, [] => none
  | a :: as, c :: cs => if a = c then strip? as cs else none

def hasBraces : List Char → Bool
  | '\x7b' :: '\x7d' :: _ => true
  | _ :: cs => hasBraces cs
  | [] => false

namespace Alias

/-- The rest of a line behind the alias, if the alias is its first word. -/
def restOf? (a : Alias) (line : List Char) : Option (List Char) :=
  (strip? a.name.toList line).bind fun rest =>
    if endsToken rest then some (trimFront rest) else none

def fill (a : Alias) (rest : List Char) : String :=
  if hasBraces a.replacement.toList then String.ofList (fillAll rest a.replacement.toList)
  else if rest.isEmpty then a.replacement
  else a.replacement ++ " " ++ String.ofList rest

def front (a : Alias) : String :=
  if hasBraces a.replacement.toList then
    String.ofList (trimBoth (go a.replacement.toList))
  else a.replacement
where
  /-- What stands before the first pair of braces. -/
  go : List Char → List Char
    | '\x7b' :: '\x7d' :: _ => []
    | c :: cs => c :: go cs
    | [] => []

end Alias

def expandAliases (aliases : List Alias) (line : String) : String :=
  match aliases.findSome? fun a => (a.restOf? line.toList).map a.fill with
  | some expanded => expanded
  | none => line

structure Dispatcher (L : Language) where
  tree : CommandTree L
  aliases : List Alias

namespace Dispatcher

variable {L : Language}

def empty : Dispatcher L := ⟨.empty, []⟩

def register? (d : Dispatcher L) (b : Blueprint L) : Except Misuse (Dispatcher L × NodeId) := do
  let (tree, first, _) ← d.tree.add? CommandTree.root b
  return ({ d with tree }, first)

/-- Adds an option that every command registered from now on accepts. -/
def registerOption? (d : Dispatcher L) (b : Blueprint L) :
    Except Misuse (Dispatcher L × NodeId) := do
  let (tree, id) ← d.tree.addOption? CommandTree.root b
  return ({ d with tree }, id)

def addAlias (d : Dispatcher L) (a : Alias) : Dispatcher L :=
  { d with aliases := d.aliases ++ [a] }

def expand (d : Dispatcher L) (line : String) : String := expandAliases d.aliases line

/-- Trims a line, expands its alias, and runs it for a source. -/
def runLine {W : Type} (d : Dispatcher L) (I : Interpreter L W) (line : String)
    (source : L.Source) : Effect W Nat :=
  I.execute (d.tree.parse (d.expand (trim line)) source)

end Dispatcher

end CommandConsole
