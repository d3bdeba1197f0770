import CommandConsole.Tree.Node

/-!
# Command trees

A tree is a list of nodes with the root in front. Nodes are only ever added, so the number of a
node stays valid. Paths go along children and do not follow redirects.
-/

namespace CommandConsole

/-- A list of nodes, the first of which is the root. -/
structure CommandTree (L : Language) where
  nodes : Array (Node L)

namespace CommandTree

variable {L : Language}

def root : NodeId := 0

def empty : CommandTree L := ⟨#[.bare .root]⟩

def size (t : CommandTree L) : Nat := t.nodes.size

def node? (t : CommandTree L) (id : NodeId) : Option (Node L) := t.nodes[id]?

/-- The node with a number; a number that no node has stands for a node without branches. -/
def node (t : CommandTree L) (id : NodeId) : Node L := (t.node? id).getD (.bare .root)

def push (t : CommandTree L) (n : Node L) : CommandTree L × NodeId :=
  (⟨t.nodes.push n⟩, t.size)

def update (t : CommandTree L) (id : NodeId) (f : Node L → Node L) : CommandTree L :=
  ⟨t.nodes.modify id f⟩

@[simp] theorem size_push (t : CommandTree L) (n : Node L) : (t.push n).1.size = t.size + 1 := by
  simp [size, push]

@[simp] theorem size_update (t : CommandTree L) (id : NodeId) (f : Node L → Node L) :
    (t.update id f).size = t.size := by
  simp [size, update]

theorem node?_push (t : CommandTree L) (n : Node L) (id : NodeId) :
    (t.push n).1.node? id = if id = t.size then some n else t.node? id := by
  simp only [node?, push, size]
  exact Array.getElem?_push

theorem node?_update (t : CommandTree L) (id id' : NodeId) (f : Node L → Node L) :
    (t.update id f).node? id' = if id = id' then (t.node? id').map f else t.node? id' := by
  simp [node?, update, Array.getElem?_modify]

theorem node_of_node? {t : CommandTree L} {id : NodeId} {n : Node L} (h : t.node? id = some n) :
    t.node id = n := by
  simp [node, h]

theorem lt_size_of_node? {t : CommandTree L} {id : NodeId} {n : Node L} (h : t.node? id = some n) :
    id < t.size :=
  (Array.getElem?_eq_some_iff.1 h).1

theorem node_of_size_le {t : CommandTree L} {id : NodeId} (h : t.size ≤ id) :
    t.node id = .bare .root := by
  have hn : t.node? id = none := Array.getElem?_eq_none h
  simp [node, hn]

theorem node_push (t : CommandTree L) (n : Node L) (id : NodeId) :
    (t.push n).1.node id = if id = t.size then n else t.node id := by
  unfold node
  rw [node?_push]
  split <;> rfl

theorem node_update (t : CommandTree L) {id id' : NodeId} (f : Node L → Node L)
    (h : id' < t.size) :
    (t.update id f).node id' = if id = id' then f (t.node id') else t.node id' := by
  unfold node
  rw [node?_update]
  have hs : ∃ n, t.node? id' = some n := ⟨_, Array.getElem?_eq_getElem h⟩
  obtain ⟨n, hn⟩ := hs
  split <;> simp [hn]

/-! ### Paths -/

def findFrom? (t : CommandTree L) : NodeId → List String → Option NodeId
  | id, [] => some id
  | id, name :: names => ((t.node id).child? name).bind fun child => t.findFrom? child names

def find? (t : CommandTree L) (path : List String) : Option NodeId := t.findFrom? root path

theorem findFrom?_append (t : CommandTree L) (id : NodeId) (a b : List String) :
    t.findFrom? id (a ++ b) = (t.findFrom? id a).bind fun mid => t.findFrom? mid b := by
  induction a generalizing id with
  | nil => rfl
  | cons name names ih =>
    simp only [List.cons_append, findFrom?]
    cases (t.node id).child? name with
    | none => rfl
    | some child => exact ih child

/-- The names on the first way down to a node, no longer than a number of steps. -/
def pathFrom? (t : CommandTree L) (target : NodeId) : Nat → NodeId → Option (List String)
  | 0, id => if id = target then some [] else none
  | steps + 1, id =>
    if id = target then some []
    else
      (t.node id).children.values.findSome? fun child =>
        (t.pathFrom? target steps child).map ((t.node child).name :: ·)

/-- The names on the first way from the root down to a node. -/
def path? (t : CommandTree L) (target : NodeId) : Option (List String) :=
  t.pathFrom? target t.size root

/-- The policy in effect at the end of a path of names. -/
def policyAlong (t : CommandTree L) : NodeId → ConsolePolicy → List String → ConsolePolicy
  | _, policy, [] => policy
  | id, policy, name :: names =>
    match (t.node id).child? name with
    | none => policy
    | some child => t.policyAlong child ((t.node child).gates.console.resolve policy) names

/-- The policy that a node inherits on the first way down to it. -/
def policyAbove (t : CommandTree L) (id : NodeId) : ConsolePolicy :=
  match t.path? id with
  | none => .inherited
  | some path => t.policyAlong root .inherited path.dropLast

end CommandTree

end CommandConsole
