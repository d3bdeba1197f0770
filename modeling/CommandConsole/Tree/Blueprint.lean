import CommandConsole.Tree.Basic

/-!
# Blueprints of commands

A blueprint describes a node with all that is to be built below it. A literal may have further
names, each of which becomes a node of its own. A blueprint either has children or redirects; what
cannot be described, or cannot be built into a tree, is a misuse with a cause.
-/

namespace CommandConsole

inductive BlueprintKind (L : Language) where
  /-- A literal with its further names. -/
  | literal (name : String) (others : List String)
  | argument (name : String) (type : L.Argument)
  | option (name : String) (type : L.Argument)

/-- The description of a node and of what is below it. -/
structure Blueprint (L : Language) where
  kind : BlueprintKind L
  children : List (Blueprint L)
  options : List (Blueprint L)
  command : Option L.Action
  gates : Gates L
  forward : Option (Forward L)

inductive Misuse where
  /-- A literal without a name. -/
  | noName
  /-- A child for a blueprint that redirects. -/
  | childOfRedirect
  /-- A redirect for a blueprint that has children. -/
  | redirectOfParent
  /-- Something else than an option, given as an option. -/
  | notAnOption
  | missingTarget (target : NodeId)
  /-- An option given as a child. -/
  | optionAsChild (name : String)
  /-- Children for an existing node that redirects. -/
  | childrenBelowRedirect (name : String)
  /-- A redirect for an existing node that has children. -/
  | redirectAboveChildren (name : String)
  /-- Something else than an option, attached as an option. -/
  | attachedNoOption
  /-- An option that has children or redirects. -/
  | branchingOption (name : String)
  /-- A node that the tree does not have. -/
  | missingNode
  deriving DecidableEq, Repr

def Misuse.message? : Misuse → Option String
  | noName => some "An alias literal needs at least one name"
  | childOfRedirect => some "Cannot add children to a redirected node"
  | redirectOfParent => some "Cannot forward a node with children"
  | notAnOption => some "with_option expects an option builder"
  | missingTarget target =>
    some ("Redirect target #" ++ Decimal.ofNat target ++ " does not exist")
  | optionAsChild name =>
    some ("Option '--" ++ name ++ "' must be attached with `with_option`, not `then`")
  | childrenBelowRedirect name => some ("Cannot add children to redirected node '" ++ name ++ "'")
  | redirectAboveChildren name =>
    some ("Cannot redirect node '" ++ name ++ "' which already has children")
  | attachedNoOption => some "Only option builders can be attached as options"
  | branchingOption name => some ("Option '--" ++ name ++ "' cannot have children or a redirect")
  | missingNode => none

namespace Blueprint

variable {L : Language}

def bare (kind : BlueprintKind L) : Blueprint L where
  kind := kind
  children := []
  options := []
  command := none
  gates := .none
  forward := none

def literal (name : String) : Blueprint L := bare (.literal name [])

def aliases? : List String → Except Misuse (Blueprint L)
  | [] => .error .noName
  | name :: others => .ok (bare (.literal name others))

def argument (name : String) (type : L.Argument) : Blueprint L := bare (.argument name type)

def option (name : String) (type : L.Argument) : Blueprint L := bare (.option name type)

def isOption (b : Blueprint L) : Bool :=
  match b.kind with
  | .option _ _ => true
  | _ => false

/-- Adds a child; a blueprint that redirects takes none. -/
def child? (b child : Blueprint L) : Except Misuse (Blueprint L) :=
  if b.forward.isSome then .error .childOfRedirect
  else .ok { b with children := b.children ++ [child] }

def option? (b option : Blueprint L) : Except Misuse (Blueprint L) :=
  if option.isOption then .ok { b with options := b.options ++ [option] }
  else .error .notAnOption

/-- Redirects; a blueprint that has children does not. -/
def redirect? (b : Blueprint L) (forward : Forward L) : Except Misuse (Blueprint L) :=
  if b.children.isEmpty then .ok { b with forward := some forward }
  else .error .redirectOfParent

def executes (b : Blueprint L) (action : L.Action) : Blueprint L :=
  { b with command := some action }

def requires (b : Blueprint L) (requirement : L.Source → Bool) : Blueprint L :=
  { b with gates := { b.gates with requirement := some requirement } }

def needs (b : Blueprint L) (permission : String) : Blueprint L :=
  { b with gates := { b.gates with permission := some permission } }

def console (b : Blueprint L) (policy : ConsolePolicy) : Blueprint L :=
  { b with gates := { b.gates with console := policy } }

end Blueprint

end CommandConsole
