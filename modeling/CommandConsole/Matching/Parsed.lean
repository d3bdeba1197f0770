import CommandConsole.Matching.Attempt

/-!
# Parsed lines

Parsing follows every attempt that takes its token and keeps the best outcome: one that consumes
the line before one that does not, then one without failures before one with them, then the first.
Where no attempt takes the token, the outcome stays in front of it, with the reason of every
failure. Each token taken shortens the rest of the line, which is why parsing ends whatever the
redirects are.
-/

namespace CommandConsole

open Text

structure Outcome (L : Language) where
  chain : Chain L
  /-- The reader where matching stopped. -/
  reader : Reader
  failures : Keyed NodeId BranchFailure

namespace Outcome

variable {L : Language}

def clean (chain : Chain L) (reader : Reader) : Outcome L := ⟨chain, reader, .empty⟩

/-- The place in the order of outcomes; less is better. -/
def rank (o : Outcome L) : Nat :=
  (if o.reader.canRead then 2 else 0) + (if o.failures.entries.isEmpty then 0 else 1)

def best? : List (Outcome L) → Option (Outcome L)
  | [] => none
  | o :: os =>
    match best? os with
    | none => some o
    | some b => some (if b.rank < o.rank then b else o)

theorem best?_eq_none_iff {os : List (Outcome L)} : best? os = none ↔ os = [] := by
  cases os with
  | nil => simp [best?]
  | cons o os =>
    unfold best?
    split <;> simp

theorem best?_eq_some {os : List (Outcome L)} {b : Outcome L} (h : best? os = some b) :
    ∃ before behind, os = before ++ b :: behind ∧ (∀ o ∈ before, b.rank < o.rank) ∧
      ∀ o ∈ behind, b.rank ≤ o.rank := by
  induction os generalizing b with
  | nil => cases h
  | cons o os ih =>
    unfold best? at h
    split at h
    · next hn =>
      obtain rfl := Option.some.inj h
      rw [best?_eq_none_iff.1 hn]
      exact ⟨[], [], rfl, by simp, by simp⟩
    · next b' hb' =>
      obtain ⟨before, behind, rfl, hbefore, hbehind⟩ := ih hb'
      split at h
      · next hlt =>
        obtain rfl := Option.some.inj h
        refine ⟨o :: before, behind, rfl, fun o' ho' => ?_, hbehind⟩
        rcases List.mem_cons.1 ho' with rfl | ho'
        · exact hlt
        · exact hbefore o' ho'
      · next hge =>
        obtain rfl := Option.some.inj h
        refine ⟨[], before ++ b' :: behind, rfl, by simp, fun o' ho' => ?_⟩
        have hle : o.rank ≤ b'.rank := Nat.le_of_not_lt hge
        rcases List.mem_append.1 ho' with ho' | ho'
        · exact Nat.le_trans hle (Nat.le_of_lt (hbefore o' ho'))
        · rcases List.mem_cons.1 ho' with rfl | ho'
          · exact hle
          · exact Nat.le_trans hle (hbehind o' ho')

def behind (context : Context L) (o : Outcome L) : Outcome L :=
  { o with chain := ⟨context, o.chain.toList⟩ }

end Outcome

namespace CommandTree

variable {L : Language}

/-- The reasons of the failed attempts; a node tried again keeps its place. -/
def failuresOf (tried : List (NodeId × Attempt L)) : Keyed NodeId BranchFailure :=
  tried.foldl (fun fs (id, attempt) =>
    match attempt.failure? with
    | some f => fs.insert id f
    | none => fs) .empty

def follow (t : CommandTree L) (source : L.Source) (id : NodeId) (context : Context L)
    (r : Reader) : Outcome L :=
  let tried := t.attempts source id context r
  let outcomes := tried.filterMap fun (_, attempt) =>
    match attempt with
    | .failed _ => none
    | .finished chain reader => some (.clean chain reader)
    | .goOn next taken reader =>
      if _h : reader.rest.length < r.rest.length then some (t.follow source next taken reader)
      else some (.clean ⟨taken, []⟩ reader)
    | .redirect taken fresh reader =>
      if _h : reader.rest.length < r.rest.length then
        some ((t.follow source fresh.root fresh reader).behind taken)
      else some (.clean ⟨taken, [fresh]⟩ reader)
  (Outcome.best? outcomes).getD ⟨⟨context, []⟩, r, failuresOf tried⟩
termination_by r.rest.length

end CommandTree

/-! ### Whole lines -/

structure Parsed (L : Language) where
  source : L.Source
  outcome : Outcome L

namespace CommandTree

variable {L : Language}

def parseFrom (t : CommandTree L) (r : Reader) (source : L.Source) : Parsed L :=
  let r := r.skipBlank
  ⟨source, t.follow source root (Context.startAt root r.cursor .inherited) r⟩

def parse (t : CommandTree L) (line : String) (source : L.Source) : Parsed L :=
  t.parseFrom (.ofString line) source

end CommandTree

namespace Parsed

variable {L : Language}

def chain (p : Parsed L) : Chain L := p.outcome.chain

def reader (p : Parsed L) : Reader := p.outcome.reader

def isComplete (p : Parsed L) : Bool := !p.reader.canRead

theorem isComplete_iff {p : Parsed L} : p.isComplete = true ↔ p.reader.rest = [] := by
  simp only [isComplete, Bool.not_eq_true', Bool.eq_false_iff]
  exact Reader.not_canRead_iff

def refusals (p : Parsed L) : List LineError :=
  p.outcome.failures.values.filterMap fun
    | .refused e => some e
    | .denied _ => none

def denials (p : Parsed L) : List Denial :=
  p.outcome.failures.values.filterMap fun
    | .denied d => some d
    | .refused _ => none

/-- The error to report for a line that was not consumed: the only fault there is; without any
fault the first denial; else that the line is unknown, as a whole or from here on. -/
def failure (p : Parsed L) : LineError :=
  match p.refusals, p.denials with
  | [e], _ => e
  | [], d :: _ => d.fault.pinned p.reader
  | _, _ =>
    if p.chain.outer.span.isEmpty then Fault.unknownCommand.pinned p.reader
    else Fault.unknownArgument.pinned p.reader

def obstacle? (p : Parsed L) : Option LineError :=
  if !p.isComplete then some p.failure
  else if p.chain.last.command.isNone then some (Fault.incompleteCommand.pinned p.reader)
  else none

end Parsed

end CommandConsole
