import CommandConsole.Proofs.UsageLines
import CommandConsole.Proofs.Walks

/-!
# Usage below a node and usage of the root

The lines that a node adds to the usage of the root are those of the node itself, each behind the
way to the node, if the node does not redirect and if the source may use it also on the first way
to it, under the policy of which a node is shown on its own.
-/

namespace CommandConsole

variable {L : Language}

/-- A usage line behind what leads to it, which an empty line stands for. -/
def lineBehind (lead line : String) : String :=
  if line.isEmpty then lead else CommandTree.joinUsage lead line

theorem lineBehind_empty (lead : String) : lineBehind lead "" = lead := rfl

theorem lineBehind_of_empty (line : String) : lineBehind "" line = line := by
  unfold lineBehind
  split
  · next h => exact (String.isEmpty_iff.1 h).symm
  · rfl

theorem lineBehind_of_ne {lead line : String} (hlead : lead ≠ "") (hline : line ≠ "") :
    lineBehind lead line = lead ++ " " ++ line := by
  unfold lineBehind CommandTree.joinUsage
  rw [if_neg (by simpa using hline), if_neg (by simpa using hlead)]

namespace CommandTree

variable {t : CommandTree L} {layer : NodeId → Nat} {source : L.Source} {id n c : NodeId}
  {above above' policy : ConsolePolicy} {path : List NodeId} {lead line text : String}

theorem joinUsage_lineBehind (hlead : lead ≠ "") (htext : text ≠ "") :
    joinUsage (lineBehind lead line) text = lineBehind lead (joinUsage line text) := by
  by_cases hline : line = ""
  · subst hline
    rw [lineBehind_empty, joinUsage_ne hlead]
    exact (lineBehind_of_ne hlead htext).symm
  · have hsome : line ++ " " ++ text ≠ "" := by simp
    have hfront : lead ++ " " ++ line ≠ "" := by simp
    rw [joinUsage_ne hline, lineBehind_of_ne hlead hline, lineBehind_of_ne hlead hsome,
      joinUsage_ne hfront]
    simp only [String.append_assoc]

/-- Whether all nodes but the root have a name. -/
def HasNames (t : CommandTree L) : Prop := ∀ id < t.size, id ≠ root → (t.node id).name ≠ ""

instance (t : CommandTree L) : Decidable t.HasNames :=
  inferInstanceAs (Decidable (∀ id < t.size, id ≠ root → (t.node id).name ≠ ""))

theorem HasNames.usageText_ne (h : t.HasNames) (hg : Grown t layer) (hc : t.IsChild id c) :
    (t.node c).kind.usageText ≠ "" := by
  obtain ⟨e, he, rfl⟩ := List.mem_map.1 hc
  have hlt : e.2 < t.size := ((hg.filed id).child e he).1
  exact fun htext => h e.2 hlt (hg.child_ne_root hc) (NodeKind.name_of_usageText htext)

/-! ### Lines behind a way -/

theorem usageBelow_congr (steps : Nat) (h : (t.node id).canUse source above = true)
    (h' : (t.node id).canUse source above' = true) :
    t.usageBelow source true steps id above lead =
      t.usageBelow source true steps id above' lead := by
  induction steps generalizing id above above' lead with
  | zero => rfl
  | succ steps ih =>
    cases hforward : (t.node id).forward with
    | some f => rw [usageBelow_of_forward h hforward, usageBelow_of_forward h' hforward]
    | none =>
      rw [usageBelow_of_branches h hforward, usageBelow_of_branches h' hforward]
      refine congrArg _ (List.flatMap_congr fun c _ => ?_)
      have hsame : (t.node c).canUse source ((t.node id).gates.console.resolve above) =
          (t.node c).canUse source ((t.node id).gates.console.resolve above') := by
        rw [canUse_of_open (open_of_admits ((canUse_iff_admits ..).1 h)),
          canUse_of_open (open_of_admits ((canUse_iff_admits ..).1 h'))]
      cases hc : (t.node c).canUse source ((t.node id).gates.console.resolve above) with
      | true => exact ih hc (hsame ▸ hc)
      | false => rw [usageBelow_of_not_canUse hc, usageBelow_of_not_canUse (hsame ▸ hc)]

theorem usageHere_lineBehind (lead line : String) :
    t.usageHere id (lineBehind lead line) = (t.usageHere id line).map (lineBehind lead) := by
  unfold usageHere
  split <;> rfl

/-- What leads to a node stands in front of all its lines, but for the line of a redirect that
nothing else leads to. -/
theorem usageBelow_lineBehind (hnamed : t.HasNames) (hg : Grown t layer) (hlead : lead ≠ "")
    (steps : Nat) (hline : (t.node id).forward = none ∨ line ≠ "") :
    t.usageBelow source true steps id above (lineBehind lead line) =
      (t.usageBelow source true steps id above line).map (lineBehind lead) := by
  induction steps generalizing id above line with
  | zero => rfl
  | succ steps ih =>
    cases huse : (t.node id).canUse source above with
    | false => rw [usageBelow_of_not_canUse huse, usageBelow_of_not_canUse huse, List.map_nil]
    | true =>
      cases hforward : (t.node id).forward with
      | some f =>
        have hline' : line ≠ "" := hline.resolve_left (by simp [hforward])
        rw [usageBelow_of_forward huse hforward, usageBelow_of_forward huse hforward,
          usageHere_lineBehind, List.map_append, List.map_singleton, lineBehind_of_ne hlead hline',
          if_neg (by simp), if_neg (by simpa using hline'), lineBehind_of_ne hlead (by simp)]
        simp only [String.append_assoc]
      | none =>
        rw [usageBelow_of_branches huse hforward, usageBelow_of_branches huse hforward,
          usageHere_lineBehind, List.map_append, List.map_flatMap]
        refine congrArg _ (List.flatMap_congr fun c hc => ?_)
        have htext := hnamed.usageText_ne hg hc
        rw [joinUsage_lineBehind hlead htext]
        refine ih (Or.inr ?_)
        unfold joinUsage
        split
        · exact htext
        · simp

/-! ### The end of a way -/

theorem intercalate_ne (htext : text ≠ "") (texts : List String) :
    " ".intercalate (text :: texts) ≠ "" := by
  cases texts with
  | nil => simpa using htext
  | cons next texts => simp

theorem WayDown.leadAlong_empty (h : t.WayDown source id above path n policy) (hnamed : t.HasNames)
    (hg : Grown t layer) : t.leadAlong "" path = t.wayText path := by
  cases h with
  | here => rfl
  | down _ _ hchild _ => exact CommandTree.leadAlong_empty (hnamed.usageText_ne hg hchild) _

theorem WayDown.policyAlong_eq (h : t.WayDown source id above path n policy)
    (hg : Grown t layer) (hsome : path ≠ []) :
    t.policyAlong id ((t.node id).gates.console.resolve above)
      (path.map fun c => (t.node c).name).dropLast = policy := by
  induction h with
  | here => exact absurd rfl hsome
  | @down id c n above policy path _ _ hchild hway ih =>
    cases path with
    | nil =>
      cases hway
      rfl
    | cons c' path =>
      obtain ⟨⟨name, c₁⟩, hentry, heq⟩ := List.mem_map.1 hchild
      obtain rfl : c₁ = c := heq
      have hname : (t.node c₁).name = name := ((hg.filed id).child _ hentry).2.2
      have hfind : (t.node id).child? (t.node c₁).name = some c₁ := by
        rw [hname]
        exact (Keyed.find?_eq_some_iff (hg.tidied id).children).2 hentry
      rw [List.map_cons, List.map_cons, List.dropLast_cons_cons, policyAlong, hfind]
      exact ih (List.cons_ne_nil _ _)

/-- On its first way from the root, a node is under the policy that it is shown under. -/
theorem WayDown.policyAbove_eq (h : t.WayDown source root .inherited path n policy)
    (hg : Grown t layer) (hfirst : t.path? n = some (path.map fun c => (t.node c).name)) :
    t.policyAbove n = policy := by
  cases hpath : path with
  | nil =>
    subst hpath
    cases h
    exact policyAbove_root t
  | cons c rest =>
    have halong := h.policyAlong_eq hg (by simp [hpath])
    rw [hg.root_plain.2.2] at halong
    rw [policyAbove, hfirst]
    exact halong

/-! ### Composition -/

/-- A node that the source may use on its own adds its lines behind what leads to it, unless it
redirects: then its line on its own shows the node once more. -/
theorem map_allUsage_eq_iff (hnamed : t.HasNames) (hg : Grown t layer) (hlead : lead ≠ "")
    (hn : (t.node n).canUse source policy = true)
    (habove : (t.node n).canUse source (t.policyAbove n) = true) :
    (t.allUsage n source true).map (lineBehind lead) = t.usageFrom source n policy lead ↔
      (t.node n).forward = none := by
  unfold allUsage usageFrom
  cases hforward : (t.node n).forward with
  | none =>
    refine iff_of_true ?_ rfl
    rw [usageBelow_congr _ habove hn,
      ← usageBelow_lineBehind hnamed hg hlead _ (Or.inl hforward), lineBehind_empty]
  | some f =>
    refine iff_of_false (fun heq => ?_) (by simp)
    rw [usageBelow_of_forward habove hforward, usageBelow_of_forward hn hforward, List.map_append,
      ← usageHere_lineBehind, lineBehind_empty, List.append_cancel_left_eq] at heq
    have hline : lead ++ " " ++ ((t.node n).kind.usageText ++ " " ++ t.redirectUsage f.target) =
        lead ++ " " ++ t.redirectUsage f.target := by
      rw [← lineBehind_of_ne hlead (by simp)]
      simpa [hlead] using heq
    have hlength := congrArg String.length hline
    simp only [String.length_append] at hlength
    have hsome : " ".length = 1 := rfl
    omega

/-- The lines that a node adds to the usage of the root, at the end of a way that the source may go,
stand together there. They are the lines of the node itself, each behind the usage texts of the way,
if and only if there are none, or the node does not redirect and the source may use it also under
the policy of its first way. -/
theorem usage_composes_iff (ht : t.Reachable) (hnamed : t.HasNames)
    (hway : t.WayDown source root .inherited path n policy)
    (hn : (t.node n).canUse source policy = true) :
    let lead := t.wayText path
    let visited := t.usageFrom source n policy lead
    visited <:+: t.allUsage root source true ∧
      ((t.allUsage n source true).map (lineBehind lead) = visited ↔ visited = [] ∨
        (t.node n).forward = none ∧ (t.node n).canUse source (t.policyAbove n) = true) ∧
      (t.path? n = some (path.map fun c => (t.node c).name) →
        (t.node n).canUse source (t.policyAbove n) = true) := by
  obtain ⟨layer, hg⟩ := ht.grown
  intro lead visited
  refine ⟨?_, ?_, fun hfirst => hway.policyAbove_eq hg hfirst ▸ hn⟩
  · have hinfix := hway.usage_infix hg ""
    rwa [hway.leadAlong_empty hnamed hg, ← allUsage_root] at hinfix
  · cases hway with
    | here =>
      -- the root adds all lines, behind nothing
      have hsame : (t.allUsage root source true).map (lineBehind lead) = visited := by
        have hid : lineBehind lead = id := funext fun line => lineBehind_of_empty line
        rw [hid, List.map_id, allUsage_root]
        rfl
      refine iff_of_true hsame (Or.inr ⟨hg.root_plain.2.1, ?_⟩)
      rw [policyAbove_root]
      exact hn
    | @down _ c _ _ _ path _ _ hchild _ =>
      have hlead : lead ≠ "" := intercalate_ne (hnamed.usageText_ne hg hchild) _
      cases habove : (t.node n).canUse source (t.policyAbove n) with
      | true =>
        rw [map_allUsage_eq_iff hnamed hg hlead hn habove]
        refine ⟨fun hforward => Or.inr ⟨hforward, rfl⟩, fun h => h.elim (fun hnil => ?_) And.left⟩
        cases hforward : (t.node n).forward with
        | none => rfl
        | some f =>
          have hline : visited = _ := usageBelow_of_forward hn hforward t.size
          rw [hnil] at hline
          simp at hline
      | false =>
        have hnone : t.allUsage n source true = [] := usageBelow_of_not_canUse habove _ _
        rw [hnone, List.map_nil]
        exact ⟨fun h => Or.inl h.symm, fun h => h.elim Eq.symm fun hno => absurd hno.2 (by simp)⟩

def tablePolicy : ConsolePolicy :=
  (office.node 2).gates.console.resolve ((office.node root).gates.console.resolve .inherited)

theorem wayDown_office {source : Actor}
    (hroot : (office.node root).canUse source .inherited = true)
    (htable : (office.node 2).canUse source ((office.node root).gates.console.resolve .inherited) =
      true) :
    office.WayDown source root .inherited [2, 3] 3 tablePolicy :=
  .down hroot (Option.isNone_iff_eq_none.1 (by decide +kernel)) (by unfold IsChild; decide +kernel)
    (.down htable (Option.isNone_iff_eq_none.1 (by decide +kernel))
      (by unfold IsChild; decide +kernel) (.here _ _))

/-- The command below the second of the two, for a source that may use both. -/
theorem usage_composes_iff_office :
    let source := Actor.player "Steve" []
    let path := [2, 3]
    let lead := office.wayText path
    let visited := office.usageFrom source 3 tablePolicy lead
    office.Reachable ∧ office.HasNames ∧ office.WayDown source root .inherited path 3 tablePolicy ∧
      (office.node 3).canUse source tablePolicy = true ∧
      visited <:+: office.allUsage root source true ∧
      ((office.allUsage 3 source true).map (lineBehind lead) = visited ↔ visited = [] ∨
        (office.node 3).forward = none ∧
          (office.node 3).canUse source (office.policyAbove 3) = true) ∧
      (office.path? 3 = some (path.map fun c => (office.node c).name) →
        (office.node 3).canUse source (office.policyAbove 3) = true) := by
  intro source path
  have hnamed : office.HasNames := by decide +kernel
  have hway : office.WayDown source root .inherited path 3 tablePolicy :=
    wayDown_office (by decide +kernel) (by decide +kernel)
  have hn : (office.node 3).canUse source tablePolicy = true := by decide +kernel
  exact ⟨reachable_office, hnamed, hway, hn, usage_composes_iff reachable_office hnamed hway hn⟩

/-- The console may use the command below the second of the two, but is shown no usage of it, as
the first way to it is closed; and a node that redirects shows itself in its own usage. -/
theorem usage_not_composed :
    (¬∀ (t : CommandTree console) (source : Actor) (path : List NodeId) (n : NodeId)
      (policy : ConsolePolicy), t.Reachable → t.HasNames →
      t.WayDown source root .inherited path n policy → (t.node n).canUse source policy = true →
      (t.node n).forward = none →
      (t.allUsage n source true).map (lineBehind (t.wayText path)) =
        t.usageFrom source n policy (t.wayText path)) ∧
    ¬∀ (t : CommandTree console) (source : Actor) (path : List NodeId) (n : NodeId)
      (policy : ConsolePolicy), t.Reachable → t.HasNames →
      t.WayDown source root .inherited path n policy → (t.node n).canUse source policy = true →
      t.path? n = some (path.map fun c => (t.node c).name) →
      (t.allUsage n source true).map (lineBehind (t.wayText path)) =
        t.usageFrom source n policy (t.wayText path) := by
  let source := Actor.console "Server"
  constructor
  · intro h
    have heq := h office source [2, 3] 3 tablePolicy reachable_office (by decide +kernel)
      (wayDown_office (by decide +kernel) (by decide +kernel)) (by decide +kernel)
      (Option.isNone_iff_eq_none.1 (by decide +kernel))
    revert heq
    decide +kernel
  · intro h
    let policy := ((relay .allowed).tree.node root).gates.console.resolve .inherited
    have hway : (relay .allowed).tree.WayDown source root .inherited [3] 3 policy :=
      .down (by decide +kernel) (Option.isNone_iff_eq_none.1 (by decide +kernel))
        (by unfold IsChild; decide +kernel) (.here _ _)
    have heq := h (relay .allowed).tree source [3] 3 policy (reachable_relay .allowed)
      (by decide +kernel) hway (by decide +kernel) (by decide +kernel)
    revert heq
    decide +kernel

end CommandTree

end CommandConsole
