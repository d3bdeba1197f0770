import CommandConsole.Views.Usage
import CommandConsole.Proofs.Console
import CommandConsole.Proofs.Filing
import Mathlib.Data.List.Basic

/-!
# Layers of a tree

The nodes of a tree that can be built stand in layers, and every child is one layer below its
parent, also where nodes share children. Redirects may lead back up, but no walk along children
does: each of them is over after as many steps as there are layers, however many more it is given.
-/

namespace CommandConsole

theorem findSome?_congr {α β : Type} {as : List α} {f g : α → Option β}
    (h : ∀ a ∈ as, f a = g a) : as.findSome? f = as.findSome? g := by
  induction as with
  | nil => rfl
  | cons a as ih =>
    rw [List.findSome?_cons, List.findSome?_cons, h a List.mem_cons_self,
      ih fun a' ha' => h a' (List.mem_cons_of_mem _ ha')]

namespace CommandTree

variable {L : Language} {t : CommandTree L} {layer : NodeId → Nat} {source : L.Source}

/-! ### Layers -/

def IsChild (t : CommandTree L) (id c : NodeId) : Prop := c ∈ (t.node id).children.values

theorem Grown.layer_lt (h : Grown t layer) (id : NodeId) : layer id < t.size := by
  induction h generalizing id with
  | empty => exact Nat.one_pos
  | @attach t layer parent above name kind b _ _ _ _ _ ih =>
    rw [size_update, size_push]
    unfold layerBelow
    split
    · exact Nat.succ_lt_succ (ih parent)
    · exact Nat.lt_succ_of_lt (ih id)
  | merge _ _ _ _ _ ih =>
    rw [size_update]
    exact ih id
  | option _ _ ih =>
    rw [size_update, size_push]
    exact Nat.lt_succ_of_lt (ih id)
  | share hg hl ih => exact Nat.lt_of_lt_of_le (ih id) (hg.filed.share hl).1.size

theorem Filed.layer_child (h : Filed t layer) {id c : NodeId} (hc : t.IsChild id c) :
    layer c = layer id + 1 := by
  obtain ⟨e, he, rfl⟩ := List.mem_map.1 hc
  exact ((h id).child e he).2.1

theorem Grown.child_ne_root (h : Grown t layer) {id c : NodeId} (hc : t.IsChild id c) :
    c ≠ root := by
  intro hroot
  have hlayer := h.filed.layer_child hc
  rw [hroot, h.root_first.2] at hlayer
  cases hlayer

theorem Grown.wellFounded_isChild (h : Grown t layer) :
    WellFounded fun c id => t.IsChild id c := by
  refine Subrelation.wf ?_ (measure fun id => t.size - layer id).wf
  intro c id hc
  have hchild := h.filed.layer_child hc
  have hlt := h.layer_lt c
  show t.size - layer c < t.size - layer id
  omega

/-! ### Walks along children -/

/-- Whether a computation in steps is over by a number of them: any more change nothing. -/
def EndsBy {α : Type} (bound : Nat) (walk : Nat → α) : Prop :=
  ∀ steps, bound ≤ steps → walk steps = walk bound

/-- A walk that asks nothing at a node but what it finds at the children is over when it has passed
all layers below. -/
theorem Grown.walk_eq {α : Type} {walk : Nat → NodeId → α} (h : Grown t layer)
    (hstep : ∀ n n' id, (∀ c, t.IsChild id c → walk n c = walk n' c) →
      walk (n + 1) id = walk (n' + 1) id)
    {n n' : Nat} {id : NodeId} (hn : t.size - layer id ≤ n) (hn' : t.size - layer id ≤ n') :
    walk n id = walk n' id := by
  have hlt := h.layer_lt id
  induction n generalizing n' id with
  | zero => omega
  | succ n ih =>
    obtain ⟨k, rfl⟩ : ∃ k, n' = k + 1 := ⟨n' - 1, by omega⟩
    refine hstep n k id fun c hc => ?_
    have hchild := h.filed.layer_child hc
    exact ih (by omega) (by omega) (h.layer_lt c)

theorem Grown.walk_endsBy {α : Type} {walk : Nat → NodeId → α} (h : Grown t layer)
    (hstep : ∀ n n' id, (∀ c, t.IsChild id c → walk n c = walk n' c) →
      walk (n + 1) id = walk (n' + 1) id) (id : NodeId) : EndsBy t.size fun n => walk n id :=
  fun _ hn => h.walk_eq hstep (Nat.le_trans (Nat.sub_le ..) hn) (Nat.sub_le ..)

theorem pathFrom?_step (target : NodeId) (n n' : Nat) (id : NodeId)
    (h : ∀ c, t.IsChild id c → t.pathFrom? target n c = t.pathFrom? target n' c) :
    t.pathFrom? target (n + 1) id = t.pathFrom? target (n' + 1) id := by
  unfold pathFrom?
  split
  · rfl
  · exact findSome?_congr fun c hc => by rw [h c hc]

theorem usageBelow_step (restricted : Bool) (n n' : Nat) (id : NodeId)
    (h : ∀ c, t.IsChild id c →
      t.usageBelow source restricted n c = t.usageBelow source restricted n' c) :
    t.usageBelow source restricted (n + 1) id = t.usageBelow source restricted (n' + 1) id := by
  funext above lead
  unfold usageBelow
  dsimp only
  split
  · rfl
  · cases (t.node id).forward with
    | some forward => rfl
    | none =>
      dsimp only
      rw [List.flatMap_congr fun c hc => by rw [h c hc]]

theorem shortUsage?_step (n n' : Nat) (id : NodeId)
    (h : ∀ c, t.IsChild id c → t.shortUsage? source n c = t.shortUsage? source n' c) :
    t.shortUsage? source (n + 1) id = t.shortUsage? source (n' + 1) id := by
  funext optional deep above
  unfold shortUsage?
  dsimp only
  split
  · rfl
  · split
    · rfl
    · split
      · rfl
      · -- the children that the source may use are among the children
        have hbelow : ∀ c ∈ (t.node id).children.values.filter fun c =>
            (t.node c).canUse source ((t.node id).gates.console.resolve above),
            t.shortUsage? source n c = t.shortUsage? source n' c :=
          fun c hc => h c (List.mem_filter.1 hc).1
        revert hbelow
        generalize ((t.node id).children.values.filter fun c =>
          (t.node c).canUse source ((t.node id).gates.console.resolve above)) = usable
        intro hbelow
        split
        · rfl
        · next child => rw [hbelow child List.mem_cons_self]
        · next several _ _ =>
          rw [List.filterMap_congr fun c hc => by rw [hbelow c hc]]

/-! ### Every tree that can be built -/

/-- In every tree that can be built, every child is one layer below its parent, with the root on
top; so going down ends, and the walks for paths and for usage lines find in as many steps as there
are nodes all that they would find in any number of steps. -/
theorem walks_end (ht : t.Reachable) :
    (∃ layer : NodeId → Nat, layer root = 0 ∧ (∀ id, layer id < t.size) ∧
      ∀ id c, t.IsChild id c → layer c = layer id + 1) ∧
    (WellFounded fun c id => t.IsChild id c) ∧
    (∀ target id, EndsBy t.size fun steps => t.pathFrom? target steps id) ∧
    (∀ source restricted id, EndsBy t.size fun steps =>
      t.usageBelow source restricted steps id) ∧
    ∀ source id, EndsBy t.size fun steps => t.shortUsage? source steps id := by
  obtain ⟨layer, hg⟩ := ht.grown
  refine ⟨⟨layer, hg.root_first.2, hg.layer_lt, fun id c => hg.filed.layer_child⟩,
    hg.wellFounded_isChild, fun target => ?_, fun source restricted => ?_, fun source => ?_⟩
  · exact hg.walk_endsBy (pathFrom?_step target)
  · exact hg.walk_endsBy (usageBelow_step restricted)
  · exact hg.walk_endsBy shortUsage?_step

theorem walks_end_commandTree :
    (∃ layer : NodeId → Nat, layer root = 0 ∧ (∀ id, layer id < commandTree.size) ∧
      ∀ id c, commandTree.IsChild id c → layer c = layer id + 1) ∧
    (WellFounded fun c id => commandTree.IsChild id c) ∧
    (∀ target id, EndsBy commandTree.size fun steps => commandTree.pathFrom? target steps id) ∧
    (∀ source restricted id, EndsBy commandTree.size fun steps =>
      commandTree.usageBelow source restricted steps id) ∧
    ∀ source id, EndsBy commandTree.size fun steps => commandTree.shortUsage? source steps id :=
  walks_end reachable_commandTree

end CommandTree

end CommandConsole
