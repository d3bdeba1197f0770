import CommandConsole.Matching.Context

/-!
# Attempts

At a node, the next token of the line is tried on options, literals and arguments. An attempt at
one of them looks at nothing but its own token: it fails with a reason, or the token is taken and
it says where the rest of the line goes. A token that names an option is tried on that option
alone, and a literal that takes the token keeps it from the arguments.
-/

namespace CommandConsole

open Text

inductive BranchFailure where
  /-- The node is denied to the source. -/
  | denied (reason : Denial)
  | refused (error : LineError)
  deriving DecidableEq

inductive Attempt (L : Language) where
  | failed (failure : BranchFailure)
  /-- The line is over. -/
  | finished (chain : Chain L) (reader : Reader)
  /-- The rest of the line goes on at a node, in the same context. -/
  | goOn (node : NodeId) (context : Context L) (reader : Reader)
  /-- The rest of the line goes on at the target of a redirect, in a fresh context. -/
  | redirect (context fresh : Context L) (reader : Reader)

namespace Attempt

variable {L : Language}

def refuse (fault : Fault) (r : Reader) : Attempt L := failed (.refused (fault.pinned r))

def isTaken : Attempt L → Bool
  | failed _ => false
  | _ => true

def failure? : Attempt L → Option BranchFailure
  | failed f => some f
  | _ => none

end Attempt

namespace CommandTree

variable {L : Language}

/-- Where the rest of a line goes after a node was entered with a reader behind its token. -/
def continueAt (id : NodeId) (n : Node L) (context : Context L) (behind : Reader) : Attempt L :=
  let reader := behind.skipBlank
  match n.forward with
  | some forward =>
    if !behind.canRead then .finished ⟨context, []⟩ reader
    else
      let fresh := Context.startAt forward.target reader.cursor context.console
      if reader.canRead then .redirect context fresh reader
      else .finished ⟨context, [fresh]⟩ reader
  | none =>
    if reader.canRead then .goOn id context reader else .finished ⟨context, []⟩ reader

/-- Takes the token of a node: the context with its value, and the reader behind it. -/
def takeToken (n : Node L) (context : Context L) (r : Reader) :
    Except LineError (Context L × Reader) :=
  match n.kind with
  | .literal name =>
    if r.peekToken == name then .ok (context, r.pass name.length)
    else .error ((Fault.literalIncorrect name).pinned r)
  | .argument name type =>
    match Scan.start (L.scan type) r with
    | (.ok value, behind) => .ok (context.capture name ⟨r.cursor, behind.cursor⟩ value, behind)
    | (.error e, _) => .error e
  | .root | .option _ _ => .error (Fault.unknownArgument.pinned r)

/-- Tries a child on the token at the cursor. A child that is denied is still tried, so that a
malformed token is reported before the denial. -/
def tryChild (t : CommandTree L) (source : L.Source) (context : Context L) (r : Reader)
    (child : NodeId) : Attempt L :=
  let n := t.node child
  let policy := n.gates.console.resolve context.console
  match takeToken n context r with
  | .error e => .failed (.refused e)
  | .ok (taken, behind) =>
    if !endsToken behind.rest then .refuse .expectedArgumentSeparator behind
    else
      match n.gates.check source policy with
      | some denial => .failed (.denied denial)
      | none =>
        continueAt child n (taken.enter child n ⟨r.cursor, behind.cursor⟩ policy) behind

def takeOptionValue (name : String) (type : L.Argument) (option owner : NodeId)
    (context : Context L) (r : Reader) : Attempt L :=
  let named := r.pass (2 + name.length)
  let start := named.skipBlank
  if !start.canRead then .refuse (.optionExpectedValue name) start
  else
    match Scan.start (L.scan type) start with
    | (.error e, _) => .failed (.refused e)
    | (.ok value, behind) =>
      if !endsToken behind.rest then .refuse .expectedArgumentSeparator behind
      else
        let taken := context.takeOption
          ⟨name, option, owner, ⟨r.cursor, named.cursor⟩, ⟨start.cursor, behind.cursor⟩⟩ value
        let reader := behind.skipBlank
        if reader.canRead then .goOn owner taken reader else .finished ⟨taken, []⟩ reader

/-- Tries an option of a node on the token at the cursor; the line goes on at the same node. -/
def tryOption (t : CommandTree L) (source : L.Source) (context : Context L) (r : Reader)
    (owner option : NodeId) : Attempt L :=
  let n := t.node option
  match n.kind with
  | .option name type =>
    match n.gates.check source (n.gates.console.resolve context.console) with
    | some denial => .failed (.denied denial)
    | none =>
      if context.hasOption name then .refuse (.optionDuplicate name) r
      else takeOptionValue name type option owner context r
  | _ => .refuse .unknownArgument r

def namedOption? (n : Node L) (token : List Char) : Option NodeId :=
  match token with
  | '-' :: '-' :: name => n.options.find? (String.ofList name)
  | _ => none

/-- All attempts at the next token of a line, in order. -/
def attempts (t : CommandTree L) (source : L.Source) (id : NodeId) (context : Context L)
    (r : Reader) : List (NodeId × Attempt L) :=
  let n := t.node id
  let next := token r.rest
  let onArguments := n.arguments.map fun child => (child, t.tryChild source context r child)
  match namedOption? n next with
  | some option => [(option, t.tryOption source context r id option)]
  | none =>
    match n.literals.find? (String.ofList next) with
    | some literal =>
      let attempt := t.tryChild source context r literal
      if attempt.isTaken then [(literal, attempt)] else (literal, attempt) :: onArguments
    | none => onArguments

end CommandTree

end CommandConsole
