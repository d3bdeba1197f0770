import CommandConsole.Tree.Blueprint

/-!
# Building blueprints into a tree

Building makes one node for every name, unless the parent has a child of that name: then the
existing node keeps its kind and gates, and takes over the command, the redirect and the children.
A new node starts with the options of its parent. Children and options are built under the first
name, and the other names share them.
-/

namespace CommandConsole

namespace CommandTree

variable {L : Language}

def nodeKind? (kind : BlueprintKind L) (name : String) : Except Misuse (NodeKind L) :=
  match kind with
  | .literal _ _ => .ok (.literal name)
  | .argument _ type => .ok (.argument name type)
  | .option option _ => .error (.optionAsChild option)

/-- Takes the command and the redirect of a blueprint over into an existing node. -/
def mergeInto? (b : Blueprint L) (name : String) (n : Node L) : Except Misuse (Node L) :=
  if n.forward.isSome && !b.children.isEmpty then .error (.childrenBelowRedirect name)
  else if b.forward.isSome && !n.children.entries.isEmpty then
    .error (.redirectAboveChildren name)
  else .ok { n with command := b.command <|> n.command, forward := b.forward <|> n.forward }

def freshNode (b : Blueprint L) (kind : NodeKind L) (parent : Node L) : Node L :=
  { Node.bare kind with
    options := parent.options, command := b.command, gates := b.gates, forward := b.forward }

def buildName? (t : CommandTree L) (parent : NodeId) (b : Blueprint L) (kind : BlueprintKind L)
    (name : String) : Except Misuse (CommandTree L × NodeId) := do
  let some above := t.node? parent | throw .missingNode
  match above.child? name with
  | some existing =>
    let merged ← mergeInto? b name (t.node existing)
    return (t.update existing fun _ => merged, existing)
  | none =>
    let kind ← nodeKind? kind name
    let (t, id) := t.push (freshNode b kind above)
    return (t.update parent (·.attach name id kind.isLiteral), id)

def buildNames? (parent : NodeId) (b : Blueprint L) (kind : BlueprintKind L) :
    CommandTree L → List String → Except Misuse (CommandTree L × List NodeId)
  | t, [] => .ok (t, [])
  | t, name :: names => do
    let (t, id) ← t.buildName? parent b kind name
    let (t, ids) ← buildNames? parent b kind t names
    return (t, id :: ids)

/-- Lets other nodes share the children and options of the first. -/
def shareAll (t : CommandTree L) (first : NodeId) (others : List NodeId) : CommandTree L :=
  let shared := t.node first
  others.foldl (fun t id => t.update id (·.shareBranches shared)) t

def optionNode (name : String) (type : L.Argument) (gates : Gates L) : Node L :=
  { Node.bare (.option name type) with gates }

/-- Attaches an option to a node; nodes built below it from now on have it too. -/
def addOption? (t : CommandTree L) (id : NodeId) (b : Blueprint L) :
    Except Misuse (CommandTree L × NodeId) :=
  match b.kind with
  | .option name type =>
    if !b.children.isEmpty || b.forward.isSome then .error (.branchingOption name)
    else if (t.node? id).isNone then .error .missingNode
    else
      let (t, option) := t.push (optionNode name type b.gates)
      .ok (t.update id (·.giveOption name option), option)
  | _ => .error .attachedNoOption

def addOptions? (t : CommandTree L) (id : NodeId) :
    List (Blueprint L) → Except Misuse (CommandTree L)
  | [] => .ok t
  | b :: bs => do
    let (t, _) ← t.addOption? id b
    t.addOptions? id bs

/-- The target of a redirect must be there before the blueprint is built. -/
def checkTarget? (t : CommandTree L) : Option (Forward L) → Except Misuse Unit
  | some forward =>
    if forward.target < t.size then .ok () else .error (.missingTarget forward.target)
  | none => .ok ()

/-- The names of a blueprint that may be built as a child. -/
def names? : BlueprintKind L → Except Misuse (String × List String)
  | .literal name others => .ok (name, others)
  | .argument name _ => .ok (name, [])
  | .option name _ => .error (.optionAsChild name)

mutual

/-- Builds a blueprint below a parent: the tree, and the nodes of its names. -/
def add? (t : CommandTree L) (parent : NodeId) :
    Blueprint L → Except Misuse (CommandTree L × NodeId × List NodeId)
  | ⟨kind, children, options, command, gates, forward⟩ => do
    let b : Blueprint L := ⟨kind, children, options, command, gates, forward⟩
    t.checkTarget? forward
    let (name, others) ← names? kind
    let (t, first) ← t.buildName? parent b kind name
    let (t, rest) ← buildNames? parent b kind t others
    let t ← t.addOptions? first options
    let t ← t.addAll? first children
    return (t.shareAll first rest, first, rest)

def addAll? (t : CommandTree L) (parent : NodeId) :
    List (Blueprint L) → Except Misuse (CommandTree L)
  | [] => .ok t
  | b :: bs => do
    let (t, _) ← t.add? parent b
    t.addAll? parent bs

end

end CommandTree

end CommandConsole
