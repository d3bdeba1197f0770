import CommandConsole.Tree.Basic

/-!
# Ambiguities

Two children of a node are ambiguous when an example of one is accepted by the other. Every node
is looked at once, from the root down, children after the pair that they are part of.
-/

namespace CommandConsole

/-- Examples of a child that a sibling accepts too. -/
structure Ambiguity where
  parent : NodeId
  child : NodeId
  sibling : NodeId
  inputs : List String
  deriving DecidableEq, Repr

/-- The nodes looked at so far, and what was found. -/
structure Survey where
  visited : List NodeId
  found : List Ambiguity

namespace CommandTree

variable {L : Language}

def sharedInputs (t : CommandTree L) (child sibling : NodeId) : List String :=
  (t.node child).kind.examples.filter (t.node sibling).kind.accepts

def ambiguitiesOf (t : CommandTree L) (parent child : NodeId) (siblings : List NodeId) :
    List Ambiguity :=
  siblings.filterMap fun sibling =>
    if child = sibling then none
    else
      let inputs := t.sharedInputs child sibling
      if inputs.isEmpty then none else some ⟨parent, child, sibling, inputs⟩

/-- Looks at a node and all below it that were not looked at. The steps bound how deep. -/
def surveyFrom (t : CommandTree L) : Nat → NodeId → StateM Survey Unit
  | 0, _ => pure ()
  | steps + 1, id => do
    if id ∈ (← get).visited then return
    modify fun s => { s with visited := id :: s.visited }
    let children := (t.node id).children.values
    for child in children do
      modify fun s => { s with found := s.found ++ t.ambiguitiesOf id child children }
      surveyFrom t steps child

def ambiguities (t : CommandTree L) : List Ambiguity :=
  ((t.surveyFrom (t.size + 1) root).run ⟨[], []⟩).2.found

end CommandTree

end CommandConsole
