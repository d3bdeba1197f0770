import CommandConsole.Proofs.Edits
import CommandConsole.Proofs.Filing
import Mathlib.Data.List.Nodup

/-!
# The indexes of children

A node has its children in order and, beside that, two indexes: the literals among them by name, and
a list of the arguments among them. Every edit keeps the indexes in step with the children but one:
a node that comes to share the branches of another one stays in step if the names that both have
children under are those of literals on both sides.
-/

namespace CommandConsole

open Relation

variable {L : Language}

/-! ### Keyed lists -/

namespace Keyed

variable {κ α : Type} [DecidableEq κ]

theorem mem_values_of_find? {m : Keyed κ α} {k : κ} {v : α} (h : m.find? k = some v) :
    v ∈ m.values :=
  List.mem_map.2 ⟨(k, v), mem_entries_of_find? h, rfl⟩

theorem values_insert_new {m : Keyed κ α} {k : κ} (h : m.find? k = none) (v : α) :
    (m.insert k v).values = m.values ++ [v] := by
  unfold values
  rw [entries_insert_new h, List.map_append]
  rfl

theorem filter_values_insert {m : Keyed κ α} {k : κ} {v v' : α} {p : α → Bool}
    (h : m.find? k = some v) (hv : p v = false) (hv' : p v' = false) :
    (m.insert k v').values.filter p = m.values.filter p := by
  obtain ⟨es⟩ := m
  simp only [insert, values, find?] at h ⊢
  induction es with
  | nil => cases h
  | cons e es ih =>
    obtain ⟨k₁, v₁⟩ := e
    unfold lookup at h
    unfold put
    split at h
    · next hk =>
      obtain rfl := Option.some.inj h
      simp [hk, hv, hv']
    · next hk =>
      rw [if_neg hk, List.map_cons, List.map_cons, List.filter_cons, List.filter_cons, ih h]

theorem filter_values_extend {m other : Keyed κ α} {p : α → Bool} (hkeys : other.keys.Nodup)
    (h : ∀ k v v', m.find? k = some v → other.find? k = some v' → p v = false ∧ p v' = false) :
    (m.extend other).values.filter p = m.values.filter p ++ other.values.filter p := by
  obtain ⟨es⟩ := other
  unfold extend
  induction es generalizing m with
  | nil => exact (List.append_nil _).symm
  | cons e es ih =>
    obtain ⟨k, v'⟩ := e
    obtain ⟨hfirst, hrest⟩ := List.nodup_cons.1 hkeys
    have hfront : (m.insert k v').values.filter p = m.values.filter p ++ [v'].filter p := by
      cases hm : m.find? k with
      | none => rw [values_insert_new hm, List.filter_append]
      | some v =>
        obtain ⟨hv, hv'⟩ := h k v v' hm (by simp [find?, lookup])
        rw [filter_values_insert hm hv hv', List.filter_cons, hv', List.filter_nil]
        exact (List.append_nil _).symm
    rw [List.foldl_cons, ih hrest, hfront, List.append_assoc]
    · exact congrArg _ (List.filter_append (p := p) [v'] (es.map Prod.snd)).symm
    · intro k' w w' hw hw'
      have hne : k ≠ k' := fun heq =>
        hfirst (heq ▸ List.mem_map.2 ⟨(k', w'), mem_entries_of_find? hw', rfl⟩)
      rw [find?_insert, if_neg hne] at hw
      refine h k' w w' hw ?_
      unfold find? lookup
      rw [if_neg hne]
      exact hw'

end Keyed

def NodeKind.isArgument : NodeKind L → Bool
  | argument _ _ => true
  | _ => false

theorem NodeKind.not_isArgument {kind : NodeKind L} (h : kind.isLiteral = true) :
    kind.isArgument = false := by
  cases kind with
  | literal name => rfl
  | root => rfl
  | argument name type => cases h
  | option name type => rfl

namespace CommandTree

variable {P : CommandTree L → NodeId → List NodeId → Prop} {t t' : CommandTree L}
  {layer : NodeId → Nat} {n shared : Node L} {level : Nat}

/-! ### Nodes -/

/-- Whether every child of a node is a literal or an argument and the indexes are in step: the
literals have their names, and the arguments stand in the order of the children. -/
structure Indexed (t : CommandTree L) (n : Node L) : Prop where
  kind : ∀ c ∈ n.children.values, (t.node c).kind.isLiteral = true ∨
    (t.node c).kind.isArgument = true
  literal : ∀ name c, n.literals.find? name = some c ↔
    n.children.find? name = some c ∧ (t.node c).kind.isLiteral = true
  argument : n.arguments = n.children.values.filter fun c => (t.node c).kind.isArgument

theorem indexed_of_bare (hchildren : n.children = .empty) (hliterals : n.literals = .empty)
    (harguments : n.arguments = []) : Indexed t n where
  kind c hc := by
    rw [hchildren] at hc
    cases hc
  literal name c := by
    rw [hchildren, hliterals]
    simp
  argument := by
    rw [hchildren, harguments]
    rfl

theorem Indexed.keep (h : Indexed t n)
    (hkind : ∀ c ∈ n.children.values, (t'.node c).kind = (t.node c).kind) : Indexed t' n where
  kind c hc := by
    rw [hkind c hc]
    exact h.kind c hc
  literal name c := by
    rw [h.literal]
    refine and_congr_right fun hc => ?_
    rw [hkind c (Keyed.mem_values_of_find? hc)]
  argument := by
    rw [h.argument]
    exact List.filter_congr fun c hc => by rw [hkind c hc]

theorem Indexed.attach (h : Indexed t n) {name : String} (hno : n.children.find? name = none)
    {child : NodeId} {kind : NodeKind L}
    (hkind : kind = .literal name ∨ ∃ type, kind = .argument name type)
    (hc : (t.node child).kind = kind) : Indexed t (n.attach name child kind.isLiteral) where
  kind c hmem := by
    rw [Node.children_attach, Keyed.values_insert_new hno] at hmem
    rcases List.mem_append.1 hmem with hmem | hmem
    · exact h.kind c hmem
    · rw [List.mem_singleton.1 hmem, hc]
      rcases hkind with rfl | ⟨type, rfl⟩
      · exact Or.inl rfl
      · exact Or.inr rfl
  literal name' c := by
    have hold := h.literal name' c
    rcases hkind with rfl | ⟨type, rfl⟩
    · show (n.literals.insert name child).find? name' = some c ↔
        (n.children.insert name child).find? name' = some c ∧ _
      rw [Keyed.find?_insert, Keyed.find?_insert]
      split
      · refine ⟨fun he => ⟨he, ?_⟩, fun he => he.1⟩
        rw [← Option.some.inj he, hc]
        rfl
      · exact hold
    · show n.literals.find? name' = some c ↔
        (n.children.insert name child).find? name' = some c ∧ _
      rw [Keyed.find?_insert, hold]
      split
      · next heq =>
        subst heq
        rw [hno]
        refine iff_of_false (fun he => by cases he.1) fun he => ?_
        rw [← Option.some.inj he.1, hc] at he
        cases he.2
      · exact Iff.rfl
  argument := by
    rw [Node.children_attach, Keyed.values_insert_new hno, List.filter_append, ← h.argument]
    rcases hkind with rfl | ⟨type, rfl⟩
    · have hlone : [child].filter (fun c => (t.node c).kind.isArgument) = [] := by
        rw [List.filter_cons, hc]
        rfl
      rw [hlone, List.append_nil]
      rfl
    · have hlone : [child].filter (fun c => (t.node c).kind.isArgument) = [child] := by
        rw [List.filter_cons, hc]
        rfl
      rw [hlone]
      rfl

/-! ### Sharing -/

/-- Whether the names under which two nodes both have children are those of literals. -/
def MeetInLiterals (t : CommandTree L) (n other : Node L) : Prop :=
  ∀ name c c', n.children.find? name = some c → other.children.find? name = some c' →
    (t.node c).kind.isLiteral = true ∧ (t.node c').kind.isLiteral = true

theorem Indexed.shareBranches (h : Indexed t n) (hs : Indexed t shared) (htidy : Tidy t shared)
    (hmeet : t.MeetInLiterals n shared) : Indexed t (n.shareBranches shared) where
  kind c hc := by
    obtain ⟨e, he, rfl⟩ := List.mem_map.1 hc
    rcases Keyed.mem_entries_extend he with he | he
    · exact h.kind _ (List.mem_map_of_mem he)
    · exact hs.kind _ (List.mem_map_of_mem he)
  literal name c := by
    show (n.literals.extend shared.literals).find? name = some c ↔
      (n.children.extend shared.children).find? name = some c ∧ _
    rw [Keyed.find?_extend htidy.literals, Keyed.find?_extend htidy.children]
    have hmine := h.literal name
    have htheirs := hs.literal name
    cases hchild : shared.children.find? name with
    | none =>
      have hno : shared.literals.find? name = none := by
        rw [Option.eq_none_iff_forall_ne_some]
        intro c' hc'
        rw [((htheirs c').1 hc').1] at hchild
        cases hchild
      rw [hno]
      exact hmine c
    | some c' =>
      cases hlit : (t.node c').kind.isLiteral with
      | true =>
        rw [(htheirs c').2 ⟨hchild, hlit⟩]
        refine ⟨fun he => ⟨he, ?_⟩, fun he => he.1⟩
        rwa [← Option.some.inj he]
      | false =>
        -- an argument shares its name with no child, so neither index has the name
        have hno : shared.literals.find? name = none := by
          rw [Option.eq_none_iff_forall_ne_some]
          intro c'' hc''
          obtain ⟨hc'', hlit''⟩ := (htheirs c'').1 hc''
          rw [hchild] at hc''
          rw [← Option.some.inj hc'', hlit] at hlit''
          cases hlit''
        have hnone : n.literals.find? name = none := by
          rw [Option.eq_none_iff_forall_ne_some]
          intro c'' hc''
          rw [(hmeet name c'' c' ((hmine c'').1 hc'').1 hchild).2] at hlit
          cases hlit
        rw [hno, hnone]
        refine iff_of_false (fun he => by cases he) fun he => ?_
        rw [← Option.some.inj he.1, hlit] at he
        cases he.2
  argument := by
    show n.arguments ++ shared.arguments =
      (n.children.extend shared.children).values.filter _
    rw [Keyed.filter_values_extend htidy.children fun name c c' hc hc' => ?_, h.argument,
      hs.argument]
    obtain ⟨hl, hl'⟩ := hmeet name c c' hc hc'
    exact ⟨NodeKind.not_isArgument hl, NodeKind.not_isArgument hl'⟩

theorem nodup_values (hf : FiledAt t layer level n) (ht : Tidy t n) :
    n.children.values.Nodup := by
  have hnames : n.children.values.map (fun c => (t.node c).name) = n.children.keys := by
    unfold Keyed.values Keyed.keys
    rw [List.map_map]
    exact List.map_congr_left fun e he => (hf.child e he).2.2
  exact List.Nodup.of_map _ (hnames ▸ ht.children)

theorem Indexed.nodup_arguments (h : Indexed t n) (hf : FiledAt t layer level n)
    (ht : Tidy t n) : n.arguments.Nodup := by
  rw [h.argument]
  exact (nodup_values hf ht).filter _

/-! ### Trees -/

def InStep (t : CommandTree L) : Prop := ∀ id, Indexed t (t.node id)

/-- Whether nodes that come to share branches, one after another, each meet the shared node in
literals only. -/
def MeetsAll (t : CommandTree L) (shared : Node L) : List NodeId → Prop
  | [] => True
  | other :: others => t.MeetInLiterals (t.node other) shared ∧
      (t.update other (·.shareBranches shared)).MeetsAll shared others

def SharesInLiterals (t : CommandTree L) (first : NodeId) (others : List NodeId) : Prop :=
  t.MeetsAll (t.node first) others

theorem inStep_empty : (empty : CommandTree L).InStep := by
  intro id
  rw [node_empty]
  exact indexed_of_bare rfl rfl rfl

theorem InStep.update (h : t.InStep) {id : NodeId} {f : Node L → Node L}
    (hkind : (f (t.node id)).kind = (t.node id).kind) (hn : Indexed t (f (t.node id))) :
    (t.update id f).InStep := by
  have hkinds : ∀ c, ((t.update id f).node c).kind = (t.node c).kind := by
    intro c
    rcases node_update_cases t id f c with heq | ⟨rfl, heq⟩
    · rw [heq]
    · rw [heq, hkind]
  intro id'
  rcases node_update_cases t id f id' with heq | ⟨rfl, heq⟩
  · rw [heq]
    exact (h id').keep fun c _ => hkinds c
  · rw [heq]
    exact hn.keep fun c _ => hkinds c

theorem InStep.push (h : t.InStep) (hf : Filed t layer) (hn : Indexed (t.push n).1 n) :
    (t.push n).1.InStep := by
  intro id
  rw [node_push]
  split
  · exact hn
  · refine (h id).keep fun c hc => ?_
    obtain ⟨e, he, rfl⟩ := List.mem_map.1 hc
    rw [node_push, if_neg (Nat.ne_of_lt ((hf id).child e he).1)]

theorem InStep.share (h : t.InStep) {others : List NodeId} (hs : Indexed t shared)
    (htidy : Tidy t shared) (hmeets : t.MeetsAll shared others) :
    (others.foldl (fun t id => t.update id (·.shareBranches shared)) t).InStep := by
  induction others generalizing t with
  | nil => exact h
  | cons other others ih =>
    obtain ⟨hmeet, hmeets⟩ := hmeets
    have hkinds : ∀ c, ((t.update other (·.shareBranches shared)).node c).kind =
        (t.node c).kind :=
      update_keeps Node.kind t other (·.shareBranches shared) fun _ => rfl
    exact ih (h.update rfl ((h other).shareBranches hs htidy hmeet))
      (hs.keep fun c _ => hkinds c)
      (htidy.keep (Nat.le_of_eq (size_update ..).symm) fun _ c _ => hkinds c) hmeets

theorem Edit.inStep (h : Edit SharesInLiterals t t') (ht : t.InStep) : t'.InStep := by
  cases h with
  | @attach layer parent above name kind b hg hp hno _ hk =>
    have hpush := ht.push hg.filed (n := freshNode b kind above) (indexed_of_bare rfl rfl rfl)
    have hparent : (t.push (freshNode b kind above)).1.node parent = above := by
      rw [node_push, if_neg (Nat.ne_of_lt (lt_size_of_node? hp)), node_of_node? hp]
    have hkind : kind = .literal name ∨ ∃ type, kind = .argument name type := by
      rcases nodeKind?_eq_ok hk with hk | ⟨_, type, _, hk⟩
      · exact Or.inl hk
      · exact Or.inr ⟨type, hk⟩
    refine hpush.update (Node.kind_attach ..) ((hpush parent).attach ?_ hkind ?_)
    · rw [hparent]
      exact hno
    · rw [node_push, if_pos rfl]
      rfl
  | merge _ _ _ _ hm =>
    rw [mergeInto?_eq_ok hm]
    exact ht.update rfl { ht _ with }
  | @option layer id name type gates hg _ =>
    have hpush := ht.push hg.filed (n := optionNode name type gates) (indexed_of_bare rfl rfl rfl)
    exact hpush.update rfl { hpush _ with }
  | share hg _ hs => exact ht.share (ht _) (hg.tidied _) hs

/-! ### Trees that are built -/

theorem ReachableBy.inStep
    (h : ReachableBy (fun t parent b => t.Shares SharesInLiterals parent b) t) : t.InStep :=
  edits_invariant h.edits Edit.inStep inStep_empty

/-- In every tree that is built such that nodes come to share branches only where they meet in
literals, the indexes of every node are in step with its children, and list no argument twice. -/
theorem indexes_in_step (h : ReachableBy (fun t parent b => t.Shares SharesInLiterals parent b) t)
    (id : NodeId) : Indexed t (t.node id) ∧ (t.node id).arguments.Nodup := by
  obtain ⟨layer, hg⟩ := h.reachable.grown
  exact ⟨h.inStep id, (h.inStep id).nodup_arguments (hg.filed id) (hg.tidied id)⟩

theorem sharesInLiterals_level {t t' : CommandTree .builtins}
    (hplace : lamp.place? root (light (.argument "level" .word)) = .ok (t, 3, [1]))
    (hb : t.addAll? 3 [.argument "level" Builtin.word] = .ok t') : t'.SharesInLiterals 3 [1] := by
  have hoff : (t'.node 1).children.entries = [("off", 2)] := by
    cases hplace
    cases hb
    rfl
  have hlevel : (t'.node 3).children.entries = [("level", 4)] := by
    cases hplace
    cases hb
    rfl
  unfold SharesInLiterals MeetsAll
  refine ⟨fun name c c' hc hc' => ?_, trivial⟩
  have hmine := Keyed.mem_entries_of_find? hc
  have htheirs := Keyed.mem_entries_of_find? hc'
  rw [hoff, List.mem_singleton] at hmine
  rw [hlevel, List.mem_singleton, (Prod.mk.inj hmine).1] at htheirs
  exact absurd (Prod.mk.inj htheirs).1 (by decide)

theorem reachableBy_lit_level :
    ReachableBy (fun t parent b => t.Shares SharesInLiterals parent b)
      (lit (.argument "level" .word)) := by
  have hlone : ∀ (t : CommandTree .builtins) first, t.SharesInLiterals first [] :=
    fun _ _ => trivial
  have hshares : lamp.Shares SharesInLiterals root (light (.argument "level" .word)) :=
    shares_light hlone (oneName_argument "level" Builtin.word) fun t t' => sharesInLiterals_level
  exact .add (reachableBy_lamp hlone) hshares (add?_light_argument "level" .word)

theorem indexes_in_step_lit :
    ((lit (.argument "level" .word)).node 1).children.values = [2, 4] ∧
      Indexed (lit (.argument "level" .word)) ((lit (.argument "level" .word)).node 1) ∧
      ((lit (.argument "level" .word)).node 1).arguments.Nodup :=
  ⟨by decide +kernel, indexes_in_step reachableBy_lit_level 1⟩

/-- An argument that comes with a second name takes the place of a literal, which stays in the
index of the literals. -/
theorem index_keeps_replaced_literal :
    ¬∀ t : CommandTree .builtins, t.Reachable →
      ∀ id, Indexed t (t.node id) ∧ (t.node id).arguments.Nodup := by
  intro h
  have hreachable : (lit (.argument "off" .word)).Reachable :=
    .add (reachable_built _) (add?_light_argument "off" .word)
  have hkept : ((lit (.argument "off" .word)).node 1).literals.find? "off" = some 2 := by
    decide +kernel
  have hchild := (((h _ hreachable 1).1.literal "off" 2).1 hkept).1
  revert hchild
  decide +kernel

end CommandTree

end CommandConsole
