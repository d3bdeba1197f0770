import CommandConsole.Keyed
import CommandConsole.Tree.Gate

/-!
# Nodes of a command tree

A node is the root, a literal word, an argument or an option. It knows its children in order, and
apart from that which of them are literals and which are arguments; the options that may be given
at it; its gates; its command, if a line may end there; and where the rest of a line goes when it
redirects.
-/

namespace CommandConsole

open Text

abbrev NodeId : Type := Nat

/-- Where the rest of a line goes, and for which sources. -/
structure Forward (L : Language) where
  target : NodeId
  /-- Turns the source into those that the rest is run for. -/
  modifier : Option L.Modifier
  /-- Whether failures behind the redirect are passed over. -/
  forks : Bool

inductive NodeKind (L : Language) where
  | root
  | literal (name : String)
  | argument (name : String) (type : L.Argument)
  | option (name : String) (type : L.Argument)

structure Node (L : Language) where
  kind : NodeKind L
  children : Keyed String NodeId
  /-- The children that are literals. -/
  literals : Keyed String NodeId
  /-- The children that are arguments. -/
  arguments : List NodeId
  options : Keyed String NodeId
  command : Option L.Action
  gates : Gates L
  forward : Option (Forward L)

namespace NodeKind

variable {L : Language}

def name : NodeKind L → String
  | root => ""
  | literal name | argument name _ | option name _ => name

def usageText : NodeKind L → String
  | root => ""
  | literal name => name
  | argument name _ => "<" ++ name ++ ">"
  | option name _ => "--" ++ name ++ " <" ++ name ++ ">"

def isLiteral : NodeKind L → Bool
  | literal _ => true
  | _ => false

/-- The type of the values of an argument or an option. -/
def type? : NodeKind L → Option L.Argument
  | argument _ type | option _ type => some type
  | _ => none

def examples : NodeKind L → List String
  | root => []
  | literal name => [name]
  | argument _ type | option _ type => L.examples type

/-- Whether a text, up to a blank or its end, is accepted by a node. -/
def accepts (kind : NodeKind L) (text : String) : Bool :=
  let r := Reader.ofString text
  match kind with
  | root => false
  | literal name => r.peekToken == name
  | argument _ type | option _ type =>
    match Scan.start (L.scan type) r with
    | (.ok _, after) => endsToken after.rest
    | (.error _, _) => false

def suggest? (kind : NodeKind L) (around : L.Surroundings) (raw : String → Option String)
    (draft : Draft) : Option Suggestions :=
  match kind with
  | root => some .none
  | literal name => (draft.suggestIfMatching name).build?
  | argument _ type | option _ type => L.suggest? type around raw draft

end NodeKind

namespace Node

variable {L : Language}

def bare (kind : NodeKind L) : Node L where
  kind := kind
  children := .empty
  literals := .empty
  arguments := []
  options := .empty
  command := none
  gates := .none
  forward := none

def name (n : Node L) : String := n.kind.name

def child? (n : Node L) (name : String) : Option NodeId := n.children.find? name

def canUse (n : Node L) (source : L.Source) (above : ConsolePolicy) : Bool :=
  n.gates.letThrough source above

/-- Attaches a child under a name, and files it as a literal or an argument. -/
def attach (n : Node L) (name : String) (child : NodeId) (isLiteral : Bool) : Node L :=
  if isLiteral then
    { n with children := n.children.insert name child, literals := n.literals.insert name child }
  else
    { n with children := n.children.insert name child, arguments := n.arguments ++ [child] }

def giveOption (n : Node L) (name : String) (option : NodeId) : Node L :=
  { n with options := n.options.insert name option }

/-- Takes over the children and options of another node. -/
def shareBranches (n other : Node L) : Node L :=
  { n with
    children := n.children.extend other.children
    literals := n.literals.extend other.literals
    arguments := n.arguments ++ other.arguments
    options := n.options.extend other.options }

/-! ### Branches after a change -/

@[simp] theorem kind_attach (n : Node L) (name : String) (child : NodeId) (isLiteral : Bool) :
    (n.attach name child isLiteral).kind = n.kind := by
  unfold attach
  split <;> rfl

@[simp] theorem children_attach (n : Node L) (name : String) (child : NodeId) (isLiteral : Bool) :
    (n.attach name child isLiteral).children = n.children.insert name child := by
  unfold attach
  split <;> rfl

@[simp] theorem options_attach (n : Node L) (name : String) (child : NodeId) (isLiteral : Bool) :
    (n.attach name child isLiteral).options = n.options := by
  unfold attach
  split <;> rfl

@[simp] theorem command_attach (n : Node L) (name : String) (child : NodeId) (isLiteral : Bool) :
    (n.attach name child isLiteral).command = n.command := by
  unfold attach
  split <;> rfl

@[simp] theorem gates_attach (n : Node L) (name : String) (child : NodeId) (isLiteral : Bool) :
    (n.attach name child isLiteral).gates = n.gates := by
  unfold attach
  split <;> rfl

@[simp] theorem forward_attach (n : Node L) (name : String) (child : NodeId) (isLiteral : Bool) :
    (n.attach name child isLiteral).forward = n.forward := by
  unfold attach
  split <;> rfl

theorem mem_literals_attach {n : Node L} {name : String} {child : NodeId} {isLiteral : Bool}
    {e : String × NodeId} (h : e ∈ (n.attach name child isLiteral).literals.entries) :
    isLiteral = true ∧ e = (name, child) ∨ e ∈ n.literals.entries := by
  unfold attach at h
  split at h
  · next hl =>
    rcases Keyed.mem_entries_insert h with h | h
    · exact Or.inl ⟨hl, h⟩
    · exact Or.inr h
  · exact Or.inr h

theorem mem_arguments_attach {n : Node L} {name : String} {child c : NodeId} {isLiteral : Bool}
    (h : c ∈ (n.attach name child isLiteral).arguments) :
    isLiteral = false ∧ c = child ∨ c ∈ n.arguments := by
  unfold attach at h
  split at h
  · exact Or.inr h
  · next hl =>
    rcases List.mem_append.1 h with h | h
    · exact Or.inr h
    · exact Or.inl ⟨Bool.eq_false_iff.2 hl, List.mem_singleton.1 h⟩

end Node

end CommandConsole
