import CommandConsole.Line.Span
import CommandConsole.Tree.Basic

/-!
# Contexts

A context is what a part of a line has been matched with: the nodes on the way, the options given,
and the values captured under their names. A redirect starts a new context, so a whole line is
matched with a chain of contexts, each of which begins where the one before it redirects.
-/

namespace CommandConsole

open Text

structure Captured where
  span : Span
  value : Value

/-- A node on the way, with the policy in effect once it was entered. -/
structure MatchedNode where
  node : NodeId
  span : Span
  console : ConsolePolicy
  deriving DecidableEq

structure MatchedOption where
  name : String
  option : NodeId
  owner : NodeId
  nameSpan : Span
  valueSpan : Span
  deriving DecidableEq

/-- What a part of a line has been matched with. -/
structure Context (L : Language) where
  root : NodeId
  captured : Keyed String Captured
  nodes : List MatchedNode
  options : List MatchedOption
  /-- The command of the last node. -/
  command : Option L.Action
  /-- The redirect of the last node. -/
  forward : Option (Forward L)
  span : Span
  /-- The policy in effect at the end. -/
  console : ConsolePolicy
  /-- The policy in effect at the start. -/
  startConsole : ConsolePolicy

namespace Context

variable {L : Language}

def startAt (root : NodeId) (offset : Nat) (policy : ConsolePolicy) : Context L where
  root := root
  captured := .empty
  nodes := []
  options := []
  command := none
  forward := none
  span := Span.atOffset offset
  console := policy
  startConsole := policy

def hasOption (c : Context L) (name : String) : Bool := c.options.any (·.name == name)

/-- Whether failures behind the redirect are passed over. -/
def forks (c : Context L) : Bool := c.forward.any (·.forks)

def modifier? (c : Context L) : Option L.Modifier := c.forward.bind (·.modifier)

/-- Captures a value under a name; an earlier one of the same name is replaced. -/
def capture (c : Context L) (name : String) (span : Span) (value : Value) : Context L :=
  { c with captured := c.captured.insert name ⟨span, value⟩ }

def enter (c : Context L) (id : NodeId) (n : Node L) (span : Span) (policy : ConsolePolicy) :
    Context L :=
  { c with
    nodes := c.nodes ++ [⟨id, span, policy⟩]
    span := c.span.hull span
    command := n.command
    forward := n.forward
    console := policy }

def takeOption (c : Context L) (o : MatchedOption) (value : Value) : Context L :=
  { c.capture o.name o.valueSpan value with
    options := c.options ++ [o]
    span := c.span.hull ⟨o.nameSpan.start, o.valueSpan.stop⟩ }

def raw? (c : Context L) (line name : String) : Option String :=
  (c.captured.find? name).bind fun captured =>
    between? captured.span.start captured.span.stop line

/-- The policy in effect at a node that was entered last there, else at the start. -/
def policyAt (c : Context L) (id : NodeId) : ConsolePolicy :=
  match c.nodes.reverse.find? (·.node == id) with
  | some entered => entered.console
  | none => c.startConsole

end Context

/-! ### Chains -/

/-- The contexts of a line, one for each redirect and one in front. -/
structure Chain (L : Language) where
  outer : Context L
  redirected : List (Context L)

namespace Chain

variable {L : Language}

def toList (c : Chain L) : List (Context L) := c.outer :: c.redirected

def last (c : Chain L) : Context L := c.redirected.getLast?.getD c.outer

theorem toList_ne_nil (c : Chain L) : c.toList ≠ [] := List.cons_ne_nil _ _

theorem getLast_toList (c : Chain L) : c.toList.getLast c.toList_ne_nil = c.last := by
  obtain ⟨outer, redirected⟩ := c
  cases redirected with
  | nil => rfl
  | cons next more => simp [toList, last, List.getLast?_eq_some_getLast]

end Chain

end CommandConsole
