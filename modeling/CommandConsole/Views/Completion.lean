import CommandConsole.Matching.Place

/-!
# Completing a line

The line is cut at the cursor. What is being typed there is completed with the value of an option,
or with the children of a node and its options; a node or an option takes part only if the source
may use it, and an option only if it has not been given.
-/

namespace CommandConsole

open Text

/-- An option that waits for its value, and where the value starts. -/
structure PendingOption where
  option : NodeId
  valueStart : Nat

/-- The line up to the last character boundary that is not after the cursor. -/
def cutAt (line : String) (cursor : Nat) : List Char :=
  match splitAt? (boundaryBefore cursor line.toList) line.toList with
  | some (front, _) => front
  | none => []

namespace CommandTree

variable {L : Language}

/-- The option whose value is being typed as one token behind its name, if the source may use the
option. -/
def pendingOption? (t : CommandTree L) (source : L.Source) (parent : NodeId)
    (policy : ConsolePolicy) (line : String) (start : Nat) : Option PendingOption := do
  let typed := (← back? start line).toList
  let name := token typed
  let behind := typed.drop name.length
  if behind.isEmpty then none
  let option ← namedOption? (t.node parent) name
  if !(t.node option).canUse source policy then none
  let value := trimFront behind
  if value.any isBlank then none
  return ⟨option, bytes line - byteLength value⟩

/-- The names of the options of a node that have not been given, for a token that starts with a
minus sign. -/
def optionNames (t : CommandTree L) (source : L.Source) (parent : NodeId)
    (policy : ConsolePolicy) (given : List MatchedOption) (draft : Draft) : Draft :=
  if draft.remaining.toList.head? != some '-' then draft
  else
    (t.node parent).options.entries.foldl (fun draft (name, option) =>
      if given.any (·.name == name) || !(t.node option).canUse source policy then draft
      else draft.suggestMatching ["--" ++ name]) draft

def suggestAll? (t : CommandTree L) (around : L.Surroundings) (raw : String → Option String)
    (draft : Draft) : List NodeId → Option (List Suggestions)
  | [] => some []
  | id :: ids => do
    let here ← (t.node id).kind.suggest? around raw draft
    let others ← suggestAll? t around raw draft ids
    return here :: others

/-- The suggestions for what is being typed at the end of a line, given the options already there.
-/
def completeTarget? (t : CommandTree L) (around : L.Surroundings) (raw : String → Option String)
    (source : L.Source) (given : List MatchedOption) (line : String) :
    CursorTarget → Option Suggestions
  | .optionValue option start =>
    (t.node option).kind.suggest? around raw (Draft.new line start)
  | .branch parent policy start =>
    match t.pendingOption? source parent policy line start with
    | some pending =>
      (t.node pending.option).kind.suggest? around raw (Draft.new line pending.valueStart)
    | none => do
      let usable := (t.node parent).children.values.filter fun child =>
        (t.node child).canUse source policy
      let groups ← t.suggestAll? around raw (Draft.new line start) usable
      let names ← (t.optionNames source parent policy given (Draft.new line start)).build?
      Suggestions.merge? line (groups ++ [names])

def completeAt? (t : CommandTree L) (around : L.Surroundings) (p : Parsed L) (cursor : Nat) :
    Option Suggestions :=
  let whole := p.reader.line
  let typed := cutAt whole cursor
  let line := String.ofList typed
  t.completeTarget? around (p.chain.outer.raw? line) p.source p.chain.last.options line
    (p.chain.target whole (byteLength typed))

def complete? (t : CommandTree L) (around : L.Surroundings) (p : Parsed L) :
    Option Suggestions :=
  t.completeAt? around p p.reader.totalLength

end CommandTree

end CommandConsole
