import CommandConsole.Views.Ambiguity
import CommandConsole.Proofs.Indexes
import CommandConsole.Proofs.Layers
import CommandConsole.Proofs.Run
import Mathlib.Data.List.Nodup
import Mathlib.Logic.Relation

/-!
# Ambiguities of a tree

Nodes may share children, so there can be several ways to a node, but it is looked at only once.
Looking at a node adds the ambiguities among its own children and looks at all below that were not
looked at; so what is found are, in some order, the ambiguities of the nodes that were looked at,
and these are the nodes that there is a way to from the root. What a child accepts is what the
attempt at it takes.
-/

namespace CommandConsole

open Relation Text

variable {L : Language}

def Ambiguity.nodes (a : Ambiguity) : NodeId × NodeId × NodeId := (a.parent, a.child, a.sibling)

namespace Survey

def visiting (s : Survey) (id : NodeId) : Survey := { s with visited := id :: s.visited }

def finding (s : Survey) (found : List Ambiguity) : Survey := { s with found := s.found ++ found }

end Survey

/-- Going through a list with a state folds the states. -/
theorem run_forIn {σ α : Type} (edit : α → σ → σ) (f : α → StateM σ Unit) (as : List α) (s : σ) :
    (StateT.run (forIn as PUnit.unit fun a _ => do
      modify (edit a)
      (fun _ => ForInStep.yield PUnit.unit) <$> f a) s : Id (PUnit × σ)).2 =
    as.foldl (fun s a => ((f a).run (edit a s) : Id (Unit × σ)).2) s := by
  induction as generalizing s with
  | nil => rfl
  | cons a as ih =>
    rw [List.foldl_cons, ← ih]
    simp
    rfl

namespace CommandTree

variable {t : CommandTree L} {layer : NodeId → Nat} {id : NodeId}

/-! ### The ambiguities of one node -/

def ambiguitiesAt (t : CommandTree L) (id : NodeId) : List Ambiguity :=
  (t.node id).children.values.flatMap (t.ambiguitiesOf id · (t.node id).children.values)

def ambiguity? (t : CommandTree L) (id child sibling : NodeId) : Option Ambiguity :=
  if child = sibling then none
  else if (t.sharedInputs child sibling).isEmpty then none
  else some ⟨id, child, sibling, t.sharedInputs child sibling⟩

theorem ambiguity?_eq_some_iff {child sibling : NodeId} {a : Ambiguity} :
    t.ambiguity? id child sibling = some a ↔
      a.nodes = (id, child, sibling) ∧ child ≠ sibling ∧
        a.inputs = t.sharedInputs child sibling ∧ a.inputs ≠ [] := by
  unfold ambiguity?
  constructor
  · intro h
    split at h
    · cases h
    · next hne =>
      split at h
      · cases h
      · next hinputs =>
        obtain rfl := Option.some.inj h
        exact ⟨rfl, hne, rfl, fun hnil => hinputs (List.isEmpty_iff.2 hnil)⟩
  · obtain ⟨parent, child', sibling', inputs⟩ := a
    rintro ⟨hnodes, hne, hinputs, hsome⟩
    obtain ⟨rfl, rfl, rfl⟩ : parent = id ∧ child' = child ∧ sibling' = sibling := by
      simpa [Ambiguity.nodes] using hnodes
    obtain rfl : inputs = _ := hinputs
    rw [if_neg hne, if_neg fun hnil => hsome (List.isEmpty_iff.1 hnil)]

theorem mem_ambiguitiesOf {child : NodeId} {siblings : List NodeId} {a : Ambiguity} :
    a ∈ t.ambiguitiesOf id child siblings ↔
      ∃ sibling ∈ siblings, t.ambiguity? id child sibling = some a := List.mem_filterMap

theorem mem_ambiguitiesAt {a : Ambiguity} :
    a ∈ t.ambiguitiesAt id ↔
      a.parent = id ∧ t.IsChild id a.child ∧ t.IsChild id a.sibling ∧ a.child ≠ a.sibling ∧
        a.inputs = t.sharedInputs a.child a.sibling ∧ a.inputs ≠ [] := by
  unfold ambiguitiesAt
  rw [List.mem_flatMap]
  constructor
  · rintro ⟨child, hchild, ha⟩
    obtain ⟨sibling, hsibling, hsome⟩ := mem_ambiguitiesOf.1 ha
    obtain ⟨hnodes, hrest⟩ := ambiguity?_eq_some_iff.1 hsome
    obtain ⟨rfl, rfl, rfl⟩ : a.parent = id ∧ a.child = child ∧ a.sibling = sibling := by
      simpa [Ambiguity.nodes] using hnodes
    exact ⟨rfl, hchild, hsibling, hrest⟩
  · rintro ⟨rfl, hchild, hsibling, hrest⟩
    have hsome : t.ambiguity? a.parent a.child a.sibling = some a :=
      ambiguity?_eq_some_iff.2 ⟨rfl, hrest⟩
    exact ⟨a.child, hchild, mem_ambiguitiesOf.2 ⟨a.sibling, hsibling, hsome⟩⟩

theorem nodes_ambiguitiesOf_sublist (id child : NodeId) (siblings : List NodeId) :
    ((t.ambiguitiesOf id child siblings).map Ambiguity.nodes).Sublist
      (siblings.map fun sibling => (id, child, sibling)) := by
  show ((siblings.filterMap (t.ambiguity? id child)).map Ambiguity.nodes).Sublist _
  induction siblings with
  | nil => exact .slnil
  | cons sibling siblings ih =>
    rw [List.filterMap_cons, List.map_cons]
    cases hsome : t.ambiguity? id child sibling with
    | none => exact ih.cons _
    | some a =>
      rw [← (ambiguity?_eq_some_iff.1 hsome).1]
      exact ih.cons_cons _

theorem nodup_ambiguitiesAt (h : (t.node id).children.values.Nodup) :
    ((t.ambiguitiesAt id).map Ambiguity.nodes).Nodup := by
  unfold ambiguitiesAt
  rw [List.map_flatMap, List.nodup_flatMap]
  constructor
  · intro child _
    refine (nodes_ambiguitiesOf_sublist id child _).nodup (h.map fun sibling sibling' heq => ?_)
    exact congrArg (fun nodes : NodeId × NodeId × NodeId => nodes.2.2) heq
  · refine h.imp fun {child child'} hne nodes hnodes hnodes' => hne ?_
    obtain ⟨sibling, -, rfl⟩ := List.mem_map.1 ((nodes_ambiguitiesOf_sublist ..).subset hnodes)
    obtain ⟨sibling', -, heq⟩ := List.mem_map.1 ((nodes_ambiguitiesOf_sublist ..).subset hnodes')
    exact (congrArg (fun nodes : NodeId × NodeId × NodeId => nodes.2.1) heq).symm

/-! ### The survey -/

/-- What is looked at and found when a node is looked at. -/
def surveyed (t : CommandTree L) (steps : Nat) (id : NodeId) (s : Survey) : Survey :=
  ((t.surveyFrom steps id).run s).2

def surveyedAmong (t : CommandTree L) (steps : Nat) (id : NodeId) (children : List NodeId)
    (s : Survey) : Survey :=
  children.foldl (fun s child => t.surveyed steps child
    (s.finding (t.ambiguitiesOf id child (t.node id).children.values))) s

theorem surveyed_of_mem {steps : Nat} {s : Survey} (h : id ∈ s.visited) :
    t.surveyed (steps + 1) id s = s := by
  unfold surveyed surveyFrom
  simp [h]
  rfl

theorem surveyed_of_not_mem {steps : Nat} {s : Survey} (h : id ∉ s.visited) :
    t.surveyed (steps + 1) id s =
      t.surveyedAmong steps id (t.node id).children.values (s.visiting id) := by
  unfold surveyed surveyFrom
  simp only [bind_pure_comp, id_map', StateT.run_bind, StateT.run_get, pure_bind, h, ↓reduceIte,
    StateT.run_modify]
  exact run_forIn (fun child s => s.finding (t.ambiguitiesOf id child (t.node id).children.values))
    (t.surveyFrom steps) _ _

/-- What looking at some nodes does, with some ambiguities found by the way: more nodes are looked
at, all of them below those, their children too, and the ambiguities of each are found. -/
structure Surveys (t : CommandTree L) (tops : List NodeId) (byTheWay : List Ambiguity)
    (more : List NodeId) (s s' : Survey) : Prop where
  visited : s'.visited = more ++ s.visited
  distinct : s'.visited.Nodup
  reached : ∀ id ∈ tops, id ∈ s'.visited
  closed : ∀ id ∈ more, ∀ c, t.IsChild id c → c ∈ s'.visited
  below : ∀ id ∈ more, ∃ top ∈ tops, ReflTransGen t.IsChild top id
  found : s'.found.Perm (s.found ++ byTheWay ++ more.flatMap t.ambiguitiesAt)

section Surveys

variable {s s' s'' : Survey} {tops tops' more more' : List NodeId} {found found' : List Ambiguity}

theorem Surveys.none_new (hs : s.visited.Nodup) (htops : ∀ id ∈ tops, id ∈ s.visited)
    (hvisited : s'.visited = s.visited) (hfound : s'.found = s.found ++ found) :
    t.Surveys tops found [] s s' where
  visited := hvisited
  distinct := hvisited ▸ hs
  reached id hid := hvisited ▸ htops id hid
  closed _ hid := nomatch hid
  below _ hid := nomatch hid
  found := by rw [hfound, List.flatMap_nil, List.append_nil]

theorem Surveys.trans (h : t.Surveys tops found more s s')
    (h' : t.Surveys tops' found' more' s' s'') :
    t.Surveys (tops ++ tops') (found ++ found') (more' ++ more) s s'' := by
  have hkept : ∀ id ∈ s'.visited, id ∈ s''.visited := fun id hid => by
    rw [h'.visited]
    exact List.mem_append_right _ hid
  constructor
  case visited => rw [h'.visited, h.visited, List.append_assoc]
  case distinct => exact h'.distinct
  case reached =>
    intro id hid
    rcases List.mem_append.1 hid with hid | hid
    · exact hkept id (h.reached id hid)
    · exact h'.reached id hid
  case closed =>
    intro id hid c hc
    rcases List.mem_append.1 hid with hid | hid
    · exact h'.closed id hid c hc
    · exact hkept c (h.closed id hid c hc)
  case below =>
    intro id hid
    rcases List.mem_append.1 hid with hid | hid
    · obtain ⟨top, htop, hway⟩ := h'.below id hid
      exact ⟨top, List.mem_append_right _ htop, hway⟩
    · obtain ⟨top, htop, hway⟩ := h.below id hid
      exact ⟨top, List.mem_append_left _ htop, hway⟩
  case found =>
    rw [List.perm_iff_count]
    intro a
    have hfirst := h.found.count_eq a
    have hsecond := h'.found.count_eq a
    simp only [List.flatMap_append, List.count_append] at hfirst hsecond ⊢
    omega

theorem Surveys.node (h : t.Surveys (t.node id).children.values (t.ambiguitiesAt id) more
    (s.visiting id) s') : t.Surveys [id] [] (more ++ [id]) s s' := by
  constructor
  case visited =>
    rw [h.visited, List.append_assoc]
    rfl
  case distinct => exact h.distinct
  case reached =>
    intro top htop
    rw [List.mem_singleton.1 htop, h.visited]
    exact List.mem_append_right _ List.mem_cons_self
  case closed =>
    intro id' hid' c hc
    rcases List.mem_append.1 hid' with hid' | hid'
    · exact h.closed id' hid' c hc
    · rw [List.mem_singleton.1 hid'] at hc
      exact h.reached c hc
  case below =>
    intro id' hid'
    refine ⟨id, List.mem_singleton_self id, ?_⟩
    rcases List.mem_append.1 hid' with hid' | hid'
    · obtain ⟨c, hc, hway⟩ := h.below id' hid'
      exact hway.head hc
    · rw [List.mem_singleton.1 hid']
  case found =>
    rw [List.perm_iff_count]
    intro a
    have hchildren := h.found.count_eq a
    simp only [Survey.visiting, List.flatMap_append, List.flatMap_singleton, List.append_nil,
      List.count_append] at hchildren ⊢
    omega

theorem surveys_among {steps : Nat} {children : List NodeId} (hs : s.visited.Nodup)
    (hvisit : ∀ c ∈ children, ∀ s : Survey, s.visited.Nodup →
      ∃ more, t.Surveys [c] [] more s (t.surveyed steps c s)) :
    ∃ more, t.Surveys children
      (children.flatMap (t.ambiguitiesOf id · (t.node id).children.values)) more s
      (t.surveyedAmong steps id children s) := by
  induction children generalizing s with
  | nil => exact ⟨[], .none_new hs (by simp) rfl (List.append_nil _).symm⟩
  | cons c children ih =>
    have hpairs : t.Surveys [] (t.ambiguitiesOf id c (t.node id).children.values) [] s
        (s.finding (t.ambiguitiesOf id c (t.node id).children.values)) :=
      .none_new hs (by simp) rfl rfl
    obtain ⟨more, hc⟩ := hvisit c List.mem_cons_self _ hpairs.distinct
    obtain ⟨more', hrest⟩ := ih hc.distinct fun c' hc' => hvisit c' (List.mem_cons_of_mem _ hc')
    have hall := (hpairs.trans hc).trans hrest
    rw [List.append_nil] at hall
    exact ⟨_, hall⟩

/-- Looking at a node comes to an end when all layers below it are passed. -/
theorem Grown.surveys (h : Grown t layer) {steps : Nat} (hsteps : t.size - layer id ≤ steps)
    (hs : s.visited.Nodup) : ∃ more, t.Surveys [id] [] more s (t.surveyed steps id s) := by
  have hlt := h.layer_lt id
  induction steps generalizing id s with
  | zero => omega
  | succ steps ih =>
    by_cases hmem : id ∈ s.visited
    · rw [surveyed_of_mem hmem]
      exact ⟨[], .none_new hs (by simpa using hmem) rfl (List.append_nil _).symm⟩
    · rw [surveyed_of_not_mem hmem]
      have hnew : (s.visiting id).visited.Nodup := List.nodup_cons.2 ⟨hmem, hs⟩
      have hchild : ∀ c ∈ (t.node id).children.values, ∀ s : Survey, s.visited.Nodup →
          ∃ more, t.Surveys [c] [] more s (t.surveyed steps c s) := by
        intro c hc s hs
        have hlayer := h.filed.layer_child hc
        exact ih (by omega) hs (h.layer_lt c)
      obtain ⟨more, hmore⟩ := surveys_among hnew hchild
      exact ⟨_, hmore.node⟩

end Surveys

theorem Grown.ambiguities_perm (h : Grown t layer) :
    ∃ ids : List NodeId, ids.Nodup ∧ (∀ id, id ∈ ids ↔ ReflTransGen t.IsChild root id) ∧
      t.ambiguities.Perm (ids.flatMap t.ambiguitiesAt) := by
  have hsteps : t.size - layer root ≤ t.size + 1 := by omega
  have hnone : (⟨[], []⟩ : Survey).visited.Nodup := List.nodup_nil
  obtain ⟨ids, hids⟩ := h.surveys hsteps hnone
  have hvisited : (t.surveyed (t.size + 1) root ⟨[], []⟩).visited = ids := by
    rw [hids.visited, List.append_nil]
  have hclosed := hids.closed
  have hdistinct := hids.distinct
  have hroot := hids.reached root (List.mem_singleton_self _)
  rw [hvisited] at hclosed hdistinct hroot
  refine ⟨ids, hdistinct, fun id => ⟨fun hid => ?_, fun hway => ?_⟩, hids.found⟩
  · obtain ⟨top, htop, hway⟩ := hids.below id hid
    rwa [List.mem_singleton.1 htop] at hway
  · induction hway with
    | refl => exact hroot
    | tail _ hc ih => exact hclosed _ ih _ hc

/-! ### What a child accepts -/

theorem Grown.kind_of_layer (h : Grown t layer) (hid : layer id ≠ 0) :
    id < t.size ∧
      ((t.node id).kind.isLiteral = true ∨ (t.node id).kind.isArgument = true) := by
  induction h generalizing id with
  | empty => exact absurd rfl hid
  | @attach t layer parent above name kind b hg _ _ _ hkind ih =>
    rw [size_update, size_push, update_keeps Node.kind _ _ _ fun n => Node.kind_attach ..,
      node_push]
    split
    · next heq =>
      refine ⟨Nat.lt_succ_of_le (Nat.le_of_eq heq), ?_⟩
      obtain rfl | ⟨_, type, _, rfl⟩ := nodeKind?_eq_ok hkind
      · exact Or.inl rfl
      · exact Or.inr rfl
    · next hne =>
      unfold layerBelow at hid
      rw [if_neg hne] at hid
      exact ⟨Nat.lt_succ_of_lt (ih hid).1, (ih hid).2⟩
  | @merge t layer parent existing above merged name b _ _ _ _ hm ih =>
    rw [size_update, mergeInto?_eq_ok hm]
    rcases node_update_cases t existing _ id with heq | ⟨rfl, heq⟩
    · rw [heq]
      exact ih hid
    · rw [heq]
      exact ih hid
  | @option t layer id' name type gates _ _ ih =>
    have hlt := (ih hid).1
    rw [size_update, size_push, update_keeps Node.kind _ _ (·.giveOption name t.size) fun n => rfl,
      node_push, if_neg (Nat.ne_of_lt hlt)]
    exact ⟨Nat.lt_succ_of_lt hlt, (ih hid).2⟩
  | share hg hl ih =>
    rw [shareAll_keeps Node.kind fun _ _ => rfl]
    exact ⟨Nat.lt_of_lt_of_le (ih hid).1 (hg.filed.share hl).1.size, (ih hid).2⟩

theorem Grown.kind_of_isChild (h : Grown t layer) {c : NodeId} (hc : t.IsChild id c) :
    (t.node c).kind.isLiteral = true ∨ (t.node c).kind.isArgument = true := by
  have hlayer := h.filed.layer_child hc
  exact (h.kind_of_layer (by omega)).2

theorem accepts_iff {n : Node L} (hn : n.kind.isLiteral = true ∨ n.kind.isArgument = true)
    (context : Context L) (input : String) :
    n.kind.accepts input = true ↔ ∃ taken behind,
      takeToken n context (.ofString input) = .ok (taken, behind) ∧
        endsToken behind.rest = true := by
  unfold NodeKind.accepts takeToken
  cases hkind : n.kind with
  | root => simp [hkind, NodeKind.isLiteral, NodeKind.isArgument] at hn
  | option name type => simp [hkind, NodeKind.isLiteral, NodeKind.isArgument] at hn
  | literal name =>
    dsimp only
    by_cases hpeek : (Reader.ofString input).peekToken = name
    · -- behind the token of the text there is a blank or nothing
      have htoken : token (Reader.ofString input).rest = name.toList := by
        simp [← hpeek, Reader.peekToken]
      have hends := endsToken_of_token_eq htoken
      rw [String.length_toList] at hends
      simp [hpeek, Reader.rest_pass, hends]
    · simp [hpeek]
  | argument name type =>
    dsimp only
    rcases Scan.start (L.scan type) (.ofString input) with ⟨value | e, behind⟩ <;> simp

/-- An attempt is refused where the child does not take the token, or takes only part of it. -/
theorem tryChild_ne_refused_iff {source : L.Source} {context : Context L} {r : Reader}
    {c : NodeId} :
    (∀ e, t.tryChild source context r c ≠ .failed (.refused e)) ↔ ∃ taken behind,
      takeToken (t.node c) context r = .ok (taken, behind) ∧ endsToken behind.rest = true := by
  unfold tryChild
  dsimp only
  cases htake : takeToken (t.node c) context r with
  | error e => simp
  | ok pair =>
    obtain ⟨taken, behind⟩ := pair
    dsimp only
    by_cases hends : endsToken behind.rest = true
    · refine iff_of_true (fun e => ?_) ⟨taken, behind, rfl, hends⟩
      rw [if_neg (by simp [hends])]
      split
      · simp
      · intro hfailed
        have htaken := congrArg Attempt.isTaken hfailed
        rw [isTaken_continueAt] at htaken
        cases htaken
    · refine iff_of_false (fun h => ?_) ?_
      · rw [if_pos (by simp [hends])] at h
        exact h _ rfl
      · rintro ⟨taken', behind', heq, hends'⟩
        obtain ⟨rfl, rfl⟩ := Prod.mk.inj (Except.ok.inj heq)
        exact hends hends'

/-! ### The ambiguities that are reported -/

/-- In every tree that can be built, exactly one ambiguity is reported for every node with a way to
it from the root, child of the node, and other child that accepts some of its examples. They are
given in order, and a child accepts a text if the attempt at it takes that text up to a blank. -/
theorem ambiguities_exact (ht : t.Reachable) :
    (∀ a, a ∈ t.ambiguities ↔
      ReflTransGen t.IsChild root a.parent ∧ t.IsChild a.parent a.child ∧
        t.IsChild a.parent a.sibling ∧ a.child ≠ a.sibling ∧
        a.inputs = (t.node a.child).kind.examples.filter (t.node a.sibling).kind.accepts ∧
        a.inputs ≠ []) ∧
    (t.ambiguities.map Ambiguity.nodes).Nodup ∧
    ∀ id c, t.IsChild id c → ∀ (source : L.Source) (context : Context L) (input : String),
      (t.node c).kind.accepts input = true ↔
        ∀ e, t.tryChild source context (.ofString input) c ≠ .failed (.refused e) := by
  obtain ⟨layer, hg⟩ := ht.grown
  obtain ⟨ids, hdistinct, hids, hperm⟩ := hg.ambiguities_perm
  refine ⟨fun a => ?_, ?_, fun id c hc source context input => ?_⟩
  · rw [hperm.mem_iff, List.mem_flatMap]
    constructor
    · rintro ⟨id, hid, ha⟩
      obtain ⟨rfl, hrest⟩ := mem_ambiguitiesAt.1 ha
      exact ⟨(hids _).1 hid, hrest⟩
    · rintro ⟨hway, hrest⟩
      exact ⟨a.parent, (hids _).2 hway, mem_ambiguitiesAt.2 ⟨rfl, hrest⟩⟩
  · rw [(hperm.map Ambiguity.nodes).nodup_iff, List.map_flatMap, List.nodup_flatMap]
    constructor
    · exact fun id _ => nodup_ambiguitiesAt (nodup_values (hg.filed id) (hg.tidied id))
    · -- the ambiguities of different nodes have different parents
      refine hdistinct.imp fun {id id'} hne nodes hnodes hnodes' => hne ?_
      obtain ⟨a, ha, rfl⟩ := List.mem_map.1 hnodes
      obtain ⟨a', ha', heq⟩ := List.mem_map.1 hnodes'
      have hparent : a'.parent = a.parent := congrArg Prod.fst heq
      rw [← (mem_ambiguitiesAt.1 ha).1, ← (mem_ambiguitiesAt.1 ha').1, hparent]
  · rw [accepts_iff (hg.kind_of_isChild hc) context, tryChild_ne_refused_iff]

/-- A word that is a literal is also taken by an argument beside it. -/
theorem ambiguities_exact_lit :
    ⟨1, 2, 4, ["off"]⟩ ∈ (lit (.argument "state" .word)).ambiguities ∧
      (∀ inputs, ⟨1, 4, 2, inputs⟩ ∉ (lit (.argument "state" .word)).ambiguities) ∧
      ((lit (.argument "state" .word)).ambiguities.map Ambiguity.nodes).Nodup ∧
      ∀ e, (lit (.argument "state" .word)).tryChild () (.startAt 1 0 .allowed)
        (.ofString "off") 4 ≠ .failed (.refused e) := by
  have ht : (lit (.argument "state" .word)).Reachable :=
    .add (reachable_built _) (add?_light_argument "state" .word)
  have hlamp : (lit (.argument "state" .word)).IsChild root 1 := by
    unfold IsChild
    decide +kernel
  have hoff : (lit (.argument "state" .word)).IsChild 1 2 := by
    unfold IsChild
    decide +kernel
  have hstate : (lit (.argument "state" .word)).IsChild 1 4 := by
    unfold IsChild
    decide +kernel
  have hshared : (lit (.argument "state" .word)).sharedInputs 2 4 = ["off"] := by decide +kernel
  have hnone : (lit (.argument "state" .word)).sharedInputs 4 2 = [] := by decide +kernel
  have haccepts : ((lit (.argument "state" .word)).node 4).kind.accepts "off" = true := by
    decide +kernel
  obtain ⟨hreported, honce, htried⟩ := ambiguities_exact ht
  refine ⟨(hreported _).2 ⟨.single hlamp, hoff, hstate, by decide, hshared.symm, by decide⟩,
    fun inputs hmem => ?_, honce, (htried 1 4 hstate () _ "off").1 haccepts⟩
  obtain ⟨-, -, -, -, hinputs, hsome⟩ := (hreported _).1 hmem
  exact hsome (hinputs.trans hnone)

end CommandTree

end CommandConsole
