import CommandConsole.Dispatcher

/-!
# The exported tree

The part of a tree that a source may use is exported as a list of entries that refer to each other
by their place in the list. The root comes first; a node has one entry, however often it is met,
and that entry is made under the policy of the first way to it. Aliases are exported as literals
that redirect to where their replacement leads.
-/

namespace CommandConsole

inductive EntryShape where
  | root
  | literal
  | argument
  | option
  deriving DecidableEq, Repr

structure Entry where
  shape : EntryShape
  /-- Whether a line may end here. -/
  executable : Bool
  /-- Whether the rest of a line goes on elsewhere. -/
  redirects : Bool
  children : List Nat
  options : List Nat
  redirect : Option Nat
  name : Option String
  parser : Option String
  deriving DecidableEq, Repr

def EntryShape.bits : EntryShape → Nat
  | root => 0
  | literal => 1
  | argument => 2
  | option => 16

/-- The shape, and whether the entry is executable and redirects, as bits of one number. -/
def Entry.flags (e : Entry) : Nat :=
  e.shape.bits + (if e.executable then 4 else 0) + (if e.redirects then 8 else 0)

def NodeKind.shape {L : Language} : NodeKind L → EntryShape
  | root => .root
  | literal _ => .literal
  | argument _ _ => .argument
  | option _ _ => .option

def Node.entry {L : Language} (n : Node L) : Entry where
  shape := n.kind.shape
  executable := n.command.isSome
  redirects := n.forward.isSome
  children := []
  options := []
  redirect := none
  name := if n.kind.shape = .root then none else some n.name
  parser := n.kind.type?.map L.parserName

/-- The entries so far, and which entry is that of which node. -/
structure Declared where
  entries : Array Entry
  places : Keyed NodeId Nat

namespace CommandTree

variable {L : Language}

/-- Adds the entry of a node, with all that can be reached from it, unless it is there; the result
is its place. The steps bound how deep nodes are followed. -/
def declareNode (t : CommandTree L) (source : L.Source) :
    Nat → NodeId → ConsolePolicy → StateM Declared Nat
  | 0, _, _ => pure 0
  | steps + 1, id, above => do
    match (← get).places.find? id with
    | some place => return place
    | none =>
      let n := t.node id
      let policy := n.gates.console.resolve above
      let usable (ids : List NodeId) := ids.filter fun i => (t.node i).canUse source policy
      let place := (← get).entries.size
      modify fun d => ⟨d.entries.push n.entry, d.places.insert id place⟩
      let children ← (usable n.children.values).mapM fun i => declareNode t source steps i policy
      let options ← (usable n.options.values).mapM fun i => declareNode t source steps i policy
      let redirect ← n.forward.mapM fun f => declareNode t source steps f.target policy
      modify fun d =>
        { d with entries := d.entries.modify place ({ · with children, options, redirect }) }
      return place

/-- The node that the rest of a line behind a text goes on at. -/
def leadsTo? (t : CommandTree L) (source : L.Source) (text : String) : Option NodeId :=
  let last := (t.parse text source).chain.last
  match last.nodes.getLast? with
  | some entered => some entered.node
  | none => if last.root = root then none else some last.root

end CommandTree

def Alias.entry (a : Alias) (target : Nat) : Entry where
  shape := .literal
  executable := false
  redirects := true
  children := []
  options := []
  redirect := some target
  name := some a.name
  parser := none

namespace Dispatcher

variable {L : Language}

/-- Adds the entry of an alias below the root, if it leads to a node that has an entry. -/
def declareAlias (d : Dispatcher L) (source : L.Source) (declared : Declared) (a : Alias) :
    Declared :=
  match (d.tree.leadsTo? source a.front).bind declared.places.find? with
  | none => declared
  | some target =>
    let place := declared.entries.size
    { declared with
      entries := (declared.entries.push (a.entry target)).modify 0
        fun e => { e with children := e.children ++ [place] } }

def declare (d : Dispatcher L) (source : L.Source) : List Entry :=
  let start : Declared := ⟨#[], .empty⟩
  let (_, tree) :=
    (d.tree.declareNode source (d.tree.size + 1) CommandTree.root .inherited).run start
  (d.aliases.foldl (d.declareAlias source) tree).entries.toList

end Dispatcher

end CommandConsole
