import CommandConsole.Proofs.Linked
import CommandConsole.Proofs.Walks

/-!
# Where aliases lead

A custom alias is expanded before a line is parsed, and exported as a redirect to where parsing of
its replacement ends. The rest of the line goes on behind that: at the node where parsing ends, or
at the target if the node redirects.
-/

namespace CommandConsole

variable {L : Language}

/-- The node where parsing ends: the last one that was entered, or else where the last context
starts. -/
def Parsed.endsAt (parsed : Parsed L) : NodeId :=
  parsed.chain.last.standsAt parsed.chain.last.nodes

namespace CommandTree

variable {t : CommandTree L} {source : L.Source}

/-- The node that the rest of a line is parsed at: where parsing ends, or the target if the last
node that was entered redirects. -/
def goesOnAt (t : CommandTree L) (parsed : Parsed L) : NodeId :=
  match parsed.chain.last.nodes.getLast? with
  | some entered => t.onward entered.node
  | none => parsed.chain.last.root

theorem endsAt_of_leadsTo? {text : String} {id : NodeId} (h : t.leadsTo? source text = some id) :
    (t.parse text source).endsAt = id := by
  unfold leadsTo? at h
  unfold Parsed.endsAt Context.standsAt
  dsimp only at h ⊢
  cases hlast : (t.parse text source).chain.last.nodes.getLast? with
  | some entered =>
    rw [hlast] at h
    exact Option.some.inj h
  | none =>
    rw [hlast] at h
    dsimp only at h
    split at h
    · cases h
    · exact Option.some.inj h

end CommandTree

namespace Dispatcher

variable {d : Dispatcher L} {source : L.Source}

/-! ### Exported aliases -/

/-- Whether the entry of an alias, which redirects to a place, leads where expanded lines go on: the
replacement is consumed, and the place is that of the node that the rest of a line is parsed at. -/
def LeadsOn (d : Dispatcher L) (source : L.Source) (place? : NodeId → Option Nat) (a : Alias)
    (i : Nat) : Prop :=
  let parsed := d.tree.parse a.front source
  parsed.isComplete = true ∧ place? (d.tree.goesOnAt parsed) = some i

/-- Behind the entries of the nodes come those of the aliases that lead to one of the nodes. An
alias redirects to the node where parsing its replacement ends, which is where expanded lines go on
if the replacement is consumed and the node does not redirect. -/
theorem declare_aliases (ht : d.tree.Reachable) (source : L.Source) :
    ∃ nodes place?, d.ClosedGraph source (d.declare source) nodes place? ∧
      (d.declare source).drop nodes = d.aliasEntries source place? d.aliases ∧
      ∀ a ∈ d.aliases, ∀ i, d.aliasTarget? source place? a = some i →
        let parsed := d.tree.parse a.front source
        place? parsed.endsAt = some i ∧
          (d.LeadsOn source place? a i ↔
            parsed.isComplete = true ∧ d.tree.goesOnAt parsed = parsed.endsAt) := by
  obtain ⟨layer, hg⟩ := ht.grown
  obtain ⟨nodes, place?, hgraph, hdrop⟩ := closedGraph_declare hg source
  refine ⟨nodes, place?, hgraph, hdrop, fun a _ i hi => ?_⟩
  obtain ⟨id, hid, hplace⟩ := Option.bind_eq_some_iff.1 hi
  rw [← CommandTree.endsAt_of_leadsTo? hid] at hplace
  refine ⟨hplace, and_congr_right fun _ => ⟨fun h => hgraph.once _ _ i h hplace, fun h => ?_⟩⟩
  rw [h]
  exact hplace

/-- The menu and the short way to it, with an alias. -/
def relayAs (replacement : String) : Dispatcher console :=
  { CommandTree.relay .allowed with aliases := [⟨"go", replacement⟩] }

theorem reachable_relayAs (replacement : String) : (relayAs replacement).tree.Reachable :=
  CommandTree.reachable_relay .allowed

theorem declare_aliases_relayAs :
    let d := relayAs "m stop {}"
    let source := Actor.console "Server"
    d.tree.Reachable ∧ ∃ nodes place?, d.ClosedGraph source (d.declare source) nodes place? ∧
      (d.declare source).drop nodes = d.aliasEntries source place? d.aliases ∧
      ∀ a ∈ d.aliases, ∀ i, d.aliasTarget? source place? a = some i →
        let parsed := d.tree.parse a.front source
        place? parsed.endsAt = some i ∧
          (d.LeadsOn source place? a i ↔
            parsed.isComplete = true ∧ d.tree.goesOnAt parsed = parsed.endsAt) := by
  intro d source
  exact ⟨reachable_relayAs _, declare_aliases (reachable_relayAs _) source⟩

/-- An alias is exported although its replacement is not consumed, and an alias for the short way
redirects to the short way, which has no children, and not on to the menu. -/
theorem aliases_lead_astray :
    (¬∀ (d : Dispatcher console) (source : Actor), d.tree.Reachable → ∀ a ∈ d.aliases, ∀ i,
      a.entry i ∈ d.declare source → (d.tree.parse a.front source).isComplete = true) ∧
    ¬∀ (d : Dispatcher console) (source : Actor), d.tree.Reachable → ∀ a ∈ d.aliases, ∀ i,
      a.entry i ∈ d.declare source → (d.declare source)[i]?.map Entry.bare =
        some (d.tree.node (d.tree.goesOnAt (d.tree.parse a.front source))).entry := by
  let source := Actor.console "Server"
  constructor
  · intro h
    have hcomplete := h (relayAs "menu bogus {}") source (reachable_relayAs _) _
      (List.mem_singleton_self _) 1 (by decide +kernel)
    revert hcomplete
    decide +kernel
  · intro h
    have hentry := h (relayAs "m {}") source (reachable_relayAs _) _ (List.mem_singleton_self _) 3
      (by decide +kernel)
    revert hentry
    decide +kernel

end Dispatcher

end CommandConsole
