import CommandConsole.Matching.Parsed

/-!
# The place of the cursor

Completion needs to know what stands at the cursor: the value of an option, or the children and
options of a node, from some offset on. The contexts of a parsed line are searched for it, the
outermost first.
-/

namespace CommandConsole

open Text

inductive CursorTarget where
  /-- A child or an option of a node, under a policy, from an offset on. -/
  | branch (parent : NodeId) (policy : ConsolePolicy) (start : Nat)
  /-- The value of an option, from an offset on. -/
  | optionValue (option : NodeId) (start : Nat)
  deriving DecidableEq

namespace Span

/-- Whether an offset lies in the span or at one of its ends. -/
def touches (s : Span) (n : Nat) : Bool := s.start ≤ n && n ≤ s.stop

end Span

/-- The first character in a part of the line that is not blank, as an offset. -/
def firstInk? (line : String) (start stop : Nat) : Option Nat :=
  (slice? start stop line.toList).bind fun gap =>
    let front := gap.takeWhile isBlank
    if front.length < gap.length then some (start + byteLength front) else none

namespace Context

variable {L : Language}

/-- The first option that the cursor is at, by its value or its name. -/
def optionTarget? (c : Context L) (cursor : Nat) : Option CursorTarget :=
  c.options.findSome? fun o =>
    if o.valueSpan.touches cursor then some (.optionValue o.option o.valueSpan.start)
    else if o.nameSpan.touches cursor then
      some (.branch o.owner (c.policyAt o.owner) o.nameSpan.start)
    else none

/-- What is typed behind all that the context has matched. -/
def tailTarget (c : Context L) (line : String) (cursor : Nat) : CursorTarget :=
  let (parent, policy, stop) :=
    match c.nodes.getLast? with
    | some entered =>
      (entered.node, entered.console,
        c.options.foldl (fun stop o => max stop o.valueSpan.stop) entered.span.stop)
    | none => (c.root, c.startConsole, c.span.start)
  .branch parent policy ((firstInk? line stop cursor).getD cursor)

/-- What is typed at or in front of a node, given the node before it. -/
def nodeTarget (cursor spanStart : Nat) :
    NodeId → ConsolePolicy → List MatchedNode → CursorTarget
  | parent, policy, [] => .branch parent policy spanStart
  | parent, policy, entered :: more =>
    if entered.span.touches cursor then .branch parent policy entered.span.start
    else nodeTarget cursor spanStart entered.node entered.console more

/-- What is being typed at the cursor, unless the cursor is behind all that was matched. -/
def target? (c : Context L) (cursor : Nat) : Option CursorTarget :=
  if cursor < c.span.start then some (.branch c.root c.startConsole cursor)
  else
    match c.optionTarget? cursor with
    | some found => some found
    | none =>
      if c.span.stop < cursor then none
      else some (nodeTarget cursor c.span.start c.root c.startConsole c.nodes)

/-- What is being typed at the cursor, in this context or those behind its redirect. -/
def target (line : String) (cursor : Nat) (c : Context L) : List (Context L) → CursorTarget
  | [] => (c.target? cursor).getD (c.tailTarget line cursor)
  | next :: more => (c.target? cursor).getD (target line cursor next more)

end Context

def Chain.target {L : Language} (c : Chain L) (line : String) (cursor : Nat) : CursorTarget :=
  c.outer.target line cursor c.redirected

end CommandConsole
