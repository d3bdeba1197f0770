import CommandConsole.Matching.Parsed
import CommandConsole.Running.Invocation

/-!
# Running a parsed line

The contexts of a line are run in rounds, from the outermost to the innermost. A round visits the
invocations that the round before it has left: one at a redirect leaves an invocation of the next
context for every source that the modifier makes, and one in the last context runs the command.
Once a redirect that forks has been visited, failures are passed over; before that, the first
failure ends the run. The result counts the runs of the command that succeeded.
-/

namespace CommandConsole

/-- A computation that changes a world and may fail; what it changed before failing stays. -/
abbrev Effect (W α : Type) : Type := ExceptT CommandError (StateM W) α

/-- The meaning of actions and modifiers, as changes of a world. -/
structure Interpreter (L : Language) (W : Type) where
  /-- Runs a command. -/
  act : L.Action → Invocation L → Effect W Unit
  /-- Makes the sources that a redirected line runs for. -/
  modify : L.Modifier → Invocation L → Effect W (List L.Source)

/-- How far a run has come. -/
structure Progress (L : Language) where
  successes : Nat
  /-- Whether a redirect that forks has been visited. -/
  forked : Bool
  /-- Whether there was anything to run. -/
  found : Bool
  /-- What is left for the next round. -/
  next : List (Invocation L)

namespace Progress

variable {L : Language}

def start (p : Parsed L) : Progress L :=
  ⟨0, false, false, [⟨p.source, p.reader.line, p.chain.outer, p.chain.redirected⟩]⟩

def leave (s : Progress L) (is : List (Invocation L)) : Progress L :=
  { s with next := s.next ++ is }

def succeed (s : Progress L) : Progress L := { s with successes := s.successes + 1 }

end Progress

namespace Interpreter

variable {L : Language} {W : Type}

/-- Goes on as a computation says; behind a fork a failure changes nothing. -/
def attempt {α : Type} (s : Progress L) (x : Effect W α) (after : α → Progress L) :
    Effect W (Progress L) :=
  if s.forked then tryCatch (do let v ← x; return after v) fun _ => pure s
  else do let v ← x; return after v

def visitRedirect (I : Interpreter L W) (s : Progress L) (i : Invocation L) (next : Context L)
    (behind : List (Context L)) : Effect W (Progress L) :=
  let s := { s with forked := s.forked || i.context.forks }
  if next.nodes.isEmpty then pure s
  else
    let s := { s with found := true }
    match i.context.modifier? with
    | none => pure (s.leave [⟨i.source, i.line, next, behind⟩])
    | some modifier =>
      attempt s (I.modify modifier i) fun sources => s.leave (sources.map (⟨·, i.line, next, behind⟩))

def visitLast (I : Interpreter L W) (s : Progress L) (i : Invocation L) : Effect W (Progress L) :=
  match i.context.command with
  | none => pure s
  | some action =>
    let s := { s with found := true }
    attempt s (I.act action i) fun _ => s.succeed

def visit (I : Interpreter L W) (s : Progress L) (i : Invocation L) : Effect W (Progress L) :=
  match i.behind with
  | next :: behind => I.visitRedirect s i next behind
  | [] => I.visitLast s i

def visitAll (I : Interpreter L W) : Progress L → List (Invocation L) → Effect W (Progress L)
  | s, [] => pure s
  | s, i :: is => do
    let s ← I.visit s i
    I.visitAll s is

/-- Runs rounds until nothing is left. Every round opens one more context, so there are no more
rounds than contexts. -/
def rounds (I : Interpreter L W) : Nat → Progress L → Effect W (Progress L)
  | 0, s => pure s
  | n + 1, s =>
    if s.next.isEmpty then pure s
    else do
      let s ← I.visitAll { s with next := [] } s.next
      I.rounds n s

/-- Runs a parsed line and counts the runs of its command that succeeded. -/
def execute (I : Interpreter L W) (p : Parsed L) : Effect W Nat := do
  match p.obstacle? with
  | some e => throw (.line e)
  | none =>
    let s ← I.rounds p.chain.toList.length (.start p)
    if s.found then return s.successes
    else throw (.line (Fault.unknownCommand.pinned p.reader))

end Interpreter

end CommandConsole
