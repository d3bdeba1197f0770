import CommandConsole.Proofs.Exported
import CommandConsole.Proofs.Layers
import CommandConsole.Proofs.Shown

/-!
# Usage lines along ways down

A way down goes from a node to its children, past nodes that the source may use and that do not
redirect. The usage lines below a node are those of the ends of such ways, each line behind the
usage texts of its way; and the lines of one end stand together among those of the node.
-/

namespace CommandConsole

variable {L : Language}

theorem NodeKind.name_of_usageText {kind : NodeKind L} (h : kind.usageText = "") :
    kind.name = "" := by
  cases kind with
  | root => rfl
  | literal name => exact h
  | argument name type => simp [usageText] at h
  | option name type => simp [usageText] at h

namespace CommandTree

variable {t : CommandTree L} {layer : NodeId → Nat} {source : L.Source} {id n c : NodeId}
  {above above' policy : ConsolePolicy} {path : List NodeId} {lead line : String}

/-! ### Usage lines in enough steps -/

/-- The usage lines of a node and of what is below it, behind what leads to it, in as many steps as
are enough. -/
def usageFrom (t : CommandTree L) (source : L.Source) (id : NodeId) (above : ConsolePolicy)
    (lead : String) : List String :=
  t.usageBelow source true (t.size + 1) id above lead

def usageHere (t : CommandTree L) (id : NodeId) (lead : String) : List String :=
  if (t.node id).command.isSome then [lead] else []

theorem usageBelow_of_forward (h : (t.node id).canUse source above = true) {f : Forward L}
    (hf : (t.node id).forward = some f) (steps : Nat) :
    t.usageBelow source true (steps + 1) id above lead = t.usageHere id lead ++
      [(if lead.isEmpty then (t.node id).kind.usageText else lead) ++ " " ++
        t.redirectUsage f.target] := by
  unfold usageBelow usageHere
  simp [h, hf]

theorem usageBelow_of_branches (h : (t.node id).canUse source above = true)
    (hf : (t.node id).forward = none) (steps : Nat) :
    t.usageBelow source true (steps + 1) id above lead = t.usageHere id lead ++
      (t.node id).children.values.flatMap fun c =>
        t.usageBelow source true steps c ((t.node id).gates.console.resolve above)
          (joinUsage lead (t.node c).kind.usageText) := by
  rw [usageBelow]
  simp only [h, hf, usageHere, Bool.not_true, Bool.and_false, Bool.false_eq_true, if_false]

theorem Grown.usageFrom_branches (hg : Grown t layer) (h : (t.node id).canUse source above = true)
    (hf : (t.node id).forward = none) :
    t.usageFrom source id above lead = t.usageHere id lead ++
      (t.node id).children.values.flatMap fun c =>
        t.usageFrom source c ((t.node id).gates.console.resolve above)
          (joinUsage lead (t.node c).kind.usageText) := by
  rw [usageFrom, usageBelow_of_branches h hf]
  refine congrArg _ (List.flatMap_congr fun c hc => ?_)
  have hsame : t.usageBelow source true t.size c = t.usageBelow source true (t.size + 1) c :=
    hg.walk_eq (usageBelow_step true) (Nat.sub_le ..) (Nat.le_succ_of_le (Nat.sub_le ..))
  rw [hsame]
  rfl

theorem Grown.canUse_root (hg : Grown t layer) : (t.node root).canUse source .inherited = true := by
  rw [Node.canUse, hg.root_plain.2.2]
  rfl

theorem allUsage_root : t.allUsage root source true = t.usageFrom source root .inherited "" := by
  rw [allUsage, policyAbove_root]
  rfl

/-! ### Ways down -/

/-- A way down from a node under a policy to another node under another: along children, past nodes
that the source may use and that do not redirect. -/
inductive WayDown (t : CommandTree L) (source : L.Source) :
    NodeId → ConsolePolicy → List NodeId → NodeId → ConsolePolicy → Prop
  | here (id : NodeId) (above : ConsolePolicy) : WayDown t source id above [] id above
  | down {id c n : NodeId} {above policy : ConsolePolicy} {path : List NodeId} :
      (t.node id).canUse source above = true → (t.node id).forward = none → t.IsChild id c →
      WayDown t source c ((t.node id).gates.console.resolve above) path n policy →
      WayDown t source id above (c :: path) n policy

/-- The usage texts of nodes behind what leads to them. -/
def leadAlong (t : CommandTree L) (lead : String) (path : List NodeId) : String :=
  path.foldl (fun lead c => joinUsage lead (t.node c).kind.usageText) lead

theorem WayDown.start_canUse (h : t.WayDown source id above path n policy)
    (hn : (t.node n).canUse source policy = true) : (t.node id).canUse source above = true := by
  cases h with
  | here => exact hn
  | down huse _ _ _ => exact huse

/-- The lines of the end of a way down stand together among those of its start. -/
theorem WayDown.usage_infix (hg : Grown t layer) (h : t.WayDown source id above path n policy)
    (lead : String) :
    t.usageFrom source n policy (t.leadAlong lead path) <:+: t.usageFrom source id above lead := by
  induction h generalizing lead with
  | here id above => exact List.infix_refl _
  | @down id c n above policy path huse hforward hchild _ ih =>
    rw [hg.usageFrom_branches huse hforward]
    refine (ih _).trans (List.IsInfix.trans ?_ (List.suffix_append _ _).isInfix)
    rw [List.flatMap_def]
    exact List.infix_of_mem_flatten (List.mem_map_of_mem hchild)

/-- Every line is that of the end of a way down: for ending there, or for its redirect. -/
theorem wayDown_of_mem_usageBelow {steps : Nat}
    (h : line ∈ t.usageBelow source true steps id above lead) :
    ∃ path n policy, t.WayDown source id above path n policy ∧
      (t.node n).canUse source policy = true ∧
      ((t.node n).command.isSome = true ∧ line = t.leadAlong lead path ∨
        (t.node n).forward.isSome = true) := by
  induction steps generalizing id above lead with
  | zero => cases h
  | succ steps ih =>
    cases huse : (t.node id).canUse source above with
    | false =>
      rw [usageBelow_of_not_canUse huse] at h
      cases h
    | true =>
      cases hforward : (t.node id).forward with
      | some f => exact ⟨[], id, above, .here _ _, huse, Or.inr (by rw [hforward]; rfl)⟩
      | none =>
        rw [usageBelow_of_branches huse hforward, List.mem_append, List.mem_flatMap] at h
        rcases h with h | ⟨c, hc, h⟩
        · unfold usageHere at h
          split at h
          · next hcommand =>
            exact ⟨[], id, above, .here _ _, huse, Or.inl ⟨hcommand, List.mem_singleton.1 h⟩⟩
          · cases h
        · obtain ⟨path, n, policy, hway, hn, hline⟩ := ih h
          exact ⟨c :: path, n, policy, .down huse hforward hc hway, hn, hline⟩

/-! ### Texts along a way -/

theorem joinUsage_ne (hlead : lead ≠ "") (usage : String) :
    joinUsage lead usage = lead ++ " " ++ usage := if_neg (by simpa using hlead)

def wayText (t : CommandTree L) (path : List NodeId) : String :=
  " ".intercalate (path.map fun c => (t.node c).kind.usageText)

theorem leadAlong_eq (lead : String) (hlead : lead ≠ "") (path : List NodeId) :
    t.leadAlong lead path =
      " ".intercalate (lead :: path.map fun c => (t.node c).kind.usageText) := by
  induction path generalizing lead with
  | nil => simp [leadAlong]
  | cons c path ih =>
    show t.leadAlong (joinUsage lead (t.node c).kind.usageText) path = _
    rw [joinUsage_ne hlead, ih _ (by simp), String.intercalate_cons_append]
    simp

theorem leadAlong_empty (hc : (t.node c).kind.usageText ≠ "") (path : List NodeId) :
    t.leadAlong "" (c :: path) = t.wayText (c :: path) :=
  leadAlong_eq _ hc path

/-! ### A command with two ways to it -/

/-- Two commands with the same command below them; the console is excluded from the first. -/
def office : CommandTree console := built [
  (Blueprint.literal "desk").console .denied,
  { Blueprint.bare (.literal "desk" ["table"]) with
    children := [(Blueprint.literal "stop").executes ConsoleAction.stop] }]

theorem reachable_office : office.Reachable := reachable_built _

end CommandTree

end CommandConsole
