import CommandConsole.Proofs.Unlinking
import CommandConsole.Views.Declaration
import CommandConsole.Views.Usage
import Mathlib.Data.List.Basic

/-!
# What a source is shown

Usage lines, short usage and the exported tree leave out what a source may not use. In the tree
without a node that is denied to the source they are the same, to the layout of a line and the
number of an entry: every walk looks at a child only behind its gates, and at nothing else of it.
-/

namespace CommandConsole

variable {L : Language}

/-! ### Nodes without a child -/

namespace Node

@[simp] theorem kind_unlink (n : Node L) (d : NodeId) : (n.unlink d).kind = n.kind := rfl

@[simp] theorem command_unlink (n : Node L) (d : NodeId) : (n.unlink d).command = n.command := rfl

@[simp] theorem gates_unlink (n : Node L) (d : NodeId) : (n.unlink d).gates = n.gates := rfl

@[simp] theorem forward_unlink (n : Node L) (d : NodeId) : (n.unlink d).forward = n.forward := rfl

@[simp] theorem options_unlink (n : Node L) (d : NodeId) : (n.unlink d).options = n.options := rfl

@[simp] theorem entry_unlink (n : Node L) (d : NodeId) : (n.unlink d).entry = n.entry := rfl

@[simp] theorem canUse_unlink (n : Node L) (d : NodeId) (source : L.Source)
    (above : ConsolePolicy) : (n.unlink d).canUse source above = n.canUse source above := rfl

theorem values_unlink (n : Node L) (d : NodeId) :
    (n.unlink d).children.values = n.children.values.filter fun c => c ≠ d := by
  simp only [unlink, Keyed.without, Keyed.values, List.filter_map]
  rfl

end Node

namespace CommandTree

variable {t : CommandTree L} {source : L.Source} {d : NodeId}

theorem size_unlink (t : CommandTree L) (d : NodeId) : (t.unlink d).size = t.size := by
  simp [size, unlink]

/-! ### Walks over children -/

theorem Refuses.not_canUse (hd : t.Refuses source d) (above : ConsolePolicy) :
    (t.node d).canUse source above = false := by
  rw [Bool.eq_false_iff, ne_eq, canUse_iff_admits]
  exact hd.not_admits above

theorem Refuses.usable_unlink (hd : t.Refuses source d) (policy : ConsolePolicy) (n : Node L) :
    (n.unlink d).children.values.filter (fun c => ((t.unlink d).node c).canUse source policy) =
      n.children.values.filter fun c => (t.node c).canUse source policy := by
  rw [Node.values_unlink, List.filter_filter]
  refine List.filter_congr fun c _ => ?_
  rw [node_unlink, Node.canUse_unlink]
  by_cases hc : c = d
  · rw [hc, hd.not_canUse policy, Bool.false_and]
  · rw [decide_eq_true hc, Bool.and_true]

theorem filterMap_unlink {β : Type} {f : NodeId → Option β} (hf : f d = none) (n : Node L) :
    (n.unlink d).children.values.filterMap f = n.children.values.filterMap f := by
  rw [Node.values_unlink, List.filterMap_filter]
  refine List.filterMap_congr fun c _ => ?_
  by_cases hc : c = d
  · rw [hc, hf, ite_self]
  · rw [decide_eq_true hc, if_pos rfl]

theorem flatMap_unlink {β : Type} {f : NodeId → List β} (hf : f d = []) (n : Node L) :
    (n.unlink d).children.values.flatMap f = n.children.values.flatMap f := by
  rw [Node.values_unlink]
  induction n.children.values with
  | nil => rfl
  | cons c cs ih =>
    by_cases hc : c = d
    · rw [List.filter_cons_of_neg (by simpa using hc), ih, List.flatMap_cons, hc, hf,
        List.nil_append]
    · rw [List.filter_cons_of_pos (by simpa using hc), List.flatMap_cons, List.flatMap_cons, ih]

/-! ### Usage lines -/

theorem redirectUsage_unlink (target : NodeId) :
    (t.unlink d).redirectUsage target = t.redirectUsage target := by
  unfold redirectUsage
  rw [node_unlink, Node.kind_unlink]

theorem usageBelow_of_not_canUse {id : NodeId} {above : ConsolePolicy}
    (h : (t.node id).canUse source above = false) (steps : Nat) (lead : String) :
    t.usageBelow source true steps id above lead = [] := by
  cases steps with
  | zero => rfl
  | succ steps =>
    unfold usageBelow
    simp [h]

theorem Refuses.usageBelow_self (hd : t.Refuses source d) (steps : Nat) (above : ConsolePolicy)
    (lead : String) : t.usageBelow source true steps d above lead = [] :=
  usageBelow_of_not_canUse (hd.not_canUse above) steps lead

theorem Refuses.usageBelow_unlink (hd : t.Refuses source d) (steps : Nat) (id : NodeId)
    (above : ConsolePolicy) (lead : String) :
    (t.unlink d).usageBelow source true steps id above lead =
      t.usageBelow source true steps id above lead := by
  induction steps generalizing id above lead with
  | zero => rfl
  | succ steps ih =>
    unfold usageBelow
    simp only [node_unlink, Node.kind_unlink, Node.command_unlink, Node.gates_unlink,
      Node.forward_unlink, Node.canUse_unlink, redirectUsage_unlink, ih]
    rw [flatMap_unlink (hd.usageBelow_self steps _ _)]

/-! ### Short usage -/

theorem Refuses.shortUsage?_self (hd : t.Refuses source d) (steps : Nat) (optional deep : Bool)
    (above : ConsolePolicy) : t.shortUsage? source steps d optional deep above = none := by
  cases steps with
  | zero => rfl
  | succ steps =>
    unfold shortUsage?
    simp [hd.not_canUse above]

theorem Refuses.shortUsage?_unlink (hd : t.Refuses source d) (steps : Nat) (id : NodeId)
    (optional deep : Bool) (above : ConsolePolicy) :
    (t.unlink d).shortUsage? source steps id optional deep above =
      t.shortUsage? source steps id optional deep above := by
  induction steps generalizing id optional deep above with
  | zero => rfl
  | succ steps ih =>
    unfold shortUsage?
    rw [node_unlink]
    simp only [hd.usable_unlink]
    simp only [node_unlink, Node.kind_unlink, Node.command_unlink, Node.gates_unlink,
      Node.forward_unlink, Node.canUse_unlink, redirectUsage_unlink, ih]

/-! ### The exported tree -/

theorem Refuses.declareNode_unlink (hd : t.Refuses source d) (steps : Nat) (id : NodeId)
    (above : ConsolePolicy) :
    (t.unlink d).declareNode source steps id above = t.declareNode source steps id above := by
  induction steps generalizing id above with
  | zero => rfl
  | succ steps ih =>
    unfold declareNode
    rw [node_unlink]
    simp only [hd.usable_unlink]
    simp only [node_unlink, Node.gates_unlink, Node.forward_unlink, Node.options_unlink,
      Node.entry_unlink, Node.canUse_unlink, ih]

/-! ### Everything that is shown -/

theorem policyAbove_root (t : CommandTree L) : t.policyAbove root = .inherited := by
  have hpath : t.path? root = some [] := by
    unfold path?
    cases t.size with
    | zero => rfl
    | succ size => exact if_pos rfl
  unfold policyAbove
  rw [hpath]
  rfl

/-- A node whose requirement or permission denies it to a source changes nothing that the source is
shown, whatever is below it: not the usage lines, not their short form, and no entry of the exported
tree. -/
theorem shown_unlink (hd : t.Refuses source d) :
    (t.unlink d).allUsage root source true = t.allUsage root source true ∧
      (t.unlink d).smartUsage root source = t.smartUsage root source ∧
      (Dispatcher.mk (t.unlink d) []).declare source = (Dispatcher.mk t []).declare source := by
  refine ⟨?_, ?_, ?_⟩
  · unfold allUsage
    rw [policyAbove_root, policyAbove_root, size_unlink]
    exact hd.usageBelow_unlink _ _ _ _
  · unfold smartUsage
    rw [policyAbove_root, policyAbove_root, size_unlink, node_unlink]
    simp only [hd.shortUsage?_unlink, Node.command_unlink, Node.gates_unlink]
    exact filterMap_unlink (by rw [hd.shortUsage?_self]; rfl) _
  · unfold Dispatcher.declare
    simp only [hd.declareNode_unlink, size_unlink, List.foldl_nil]

/-- A command to stop the server behind a permission, a short way to it, and a command for all. -/
def backstage : CommandTree console :=
  built [{ word "admin" [ending (word "stop" []) .stop []] with gates := needing "mcadmin.admin" },
    { Blueprint.literal "a" with forward := some ⟨1, none, false⟩ },
    ending (word "list" []) .listCommands []]

/-- The denied node is still what the short way leads to, and its command is still below it. -/
theorem shown_unlink_backstage :
    backstage.Refuses (.player "Steve" []) 1 ∧
      (backstage.unlink 1).allUsage root (.player "Steve" []) false ≠
        backstage.allUsage root (.player "Steve" []) false ∧
      (backstage.unlink 1).allUsage root (.player "Steve" []) true =
        backstage.allUsage root (.player "Steve" []) true ∧
      (backstage.unlink 1).smartUsage root (.player "Steve" []) =
        backstage.smartUsage root (.player "Steve" []) ∧
      (Dispatcher.mk (backstage.unlink 1) []).declare (.player "Steve" []) =
        (Dispatcher.mk backstage []).declare (.player "Steve" []) := by
  have hdenied : backstage.Refuses (.player "Steve" []) 1 :=
    Or.inr ⟨"mcadmin.admin", by decide +kernel, by decide +kernel⟩
  exact ⟨hdenied, by decide +kernel, shown_unlink hdenied⟩

end CommandTree

end CommandConsole
