import CommandConsole.Tree.Registration
import Mathlib.Data.List.Forall2

/-!
# Trees that can be built

A tree that can be built grows from its bare root by four kinds of edits: a new child, an existing
child that takes over a command or a redirect, a new option, and nodes that share the branches of
another one in their layer. What every such tree satisfies is shown edit by edit.
-/

namespace CommandConsole

/-! ### Lists in step -/

theorem forall₂_mem_right {α β : Type} {R : α → β → Prop} {as : List α} {bs : List β}
    (h : List.Forall₂ R as bs) {b : β} (hb : b ∈ bs) : ∃ a ∈ as, R a b := by
  induction h with
  | nil => cases hb
  | cons hR _ ih =>
    rcases List.mem_cons.1 hb with rfl | hb
    · exact ⟨_, List.mem_cons_self, hR⟩
    · obtain ⟨a, ha, hab⟩ := ih hb
      exact ⟨a, List.mem_cons_of_mem _ ha, hab⟩

theorem forall₂_mem_left {α β : Type} {R : α → β → Prop} {as : List α} {bs : List β}
    (h : List.Forall₂ R as bs) {a : α} (ha : a ∈ as) : ∃ b ∈ bs, R a b :=
  forall₂_mem_right h.flip ha

/-! ### Reachable trees -/

namespace CommandTree

variable {L : Language}

/-- The trees that blueprints and options build from a bare root. -/
inductive Reachable : CommandTree L → Prop
  | empty : Reachable empty
  | add {t t' : CommandTree L} {parent first : NodeId} {rest : List NodeId} {b : Blueprint L} :
      Reachable t → t.add? parent b = .ok (t', first, rest) → Reachable t'
  | addOption {t t' : CommandTree L} {id option : NodeId} {b : Blueprint L} :
      Reachable t → t.addOption? id b = .ok (t', option) → Reachable t'

/-! ### Edits -/

def layerBelow (layer : NodeId → Nat) (parent new : NodeId) : NodeId → Nat :=
  fun id => if id = new then layer parent + 1 else layer id

/-- Trees grown by single edits, with the layer that each node is in. -/
inductive Grown : CommandTree L → (NodeId → Nat) → Prop
  | empty : Grown empty (fun _ => 0)
  | attach {t : CommandTree L} {layer : NodeId → Nat} {parent : NodeId} {above : Node L}
      {name : String} {kind : NodeKind L} {b : Blueprint L} :
      Grown t layer → t.node? parent = some above → above.child? name = none →
      t.checkTarget? b.forward = .ok () → nodeKind? b.kind name = .ok kind →
      Grown ((t.push (freshNode b kind above)).1.update parent
        (·.attach name t.size kind.isLiteral)) (layerBelow layer parent t.size)
  | merge {t : CommandTree L} {layer : NodeId → Nat} {parent existing : NodeId}
      {above merged : Node L} {name : String} {b : Blueprint L} :
      Grown t layer → t.node? parent = some above → above.child? name = some existing →
      t.checkTarget? b.forward = .ok () → mergeInto? b name (t.node existing) = .ok merged →
      Grown (t.update existing fun _ => merged) layer
  | option {t : CommandTree L} {layer : NodeId → Nat} {id : NodeId} {name : String}
      {type : L.Argument} {gates : Gates L} :
      Grown t layer → id < t.size →
      Grown ((t.push (optionNode name type gates)).1.update id (·.giveOption name t.size)) layer
  | share {t : CommandTree L} {layer : NodeId → Nat} {first : NodeId} {others : List NodeId} :
      Grown t layer → (∀ other ∈ others, layer other = layer first) →
      Grown (t.shareAll first others) layer

theorem nodeKind?_eq_ok {kind : BlueprintKind L} {name : String} {k : NodeKind L}
    (h : nodeKind? kind name = .ok k) :
    k = .literal name ∨ ∃ n type, kind = .argument n type ∧ k = .argument name type := by
  cases kind with
  | literal n others =>
    simp only [nodeKind?, Except.ok.injEq] at h
    exact Or.inl h.symm
  | argument n type =>
    simp only [nodeKind?, Except.ok.injEq] at h
    exact Or.inr ⟨n, type, rfl, h.symm⟩
  | option n type => simp [nodeKind?] at h

theorem mergeInto?_eq_ok {b : Blueprint L} {name : String} {n merged : Node L}
    (h : mergeInto? b name n = .ok merged) :
    merged = { n with command := b.command <|> n.command, forward := b.forward <|> n.forward } := by
  unfold mergeInto? at h
  split at h
  · cases h
  · split at h
    · cases h
    · exact (Except.ok.inj h).symm

/-! ### Filed nodes -/

/-- Whether the branches of a node on a level are filed under their names and kinds, children one
layer below. -/
structure FiledAt (t : CommandTree L) (layer : NodeId → Nat) (level : Nat) (n : Node L) :
    Prop where
  child : ∀ e ∈ n.children.entries,
    e.2 < t.size ∧ layer e.2 = level + 1 ∧ (t.node e.2).name = e.1
  literal : ∀ e ∈ n.literals.entries,
    e.2 < t.size ∧ layer e.2 = level + 1 ∧ (t.node e.2).kind = .literal e.1
  argument : ∀ c ∈ n.arguments,
    c < t.size ∧ layer c = level + 1 ∧ ∃ name type, (t.node c).kind = .argument name type
  option : ∀ e ∈ n.options.entries, e.2 < t.size ∧ ∃ type, (t.node e.2).kind = .option e.1 type

def Filed (t : CommandTree L) (layer : NodeId → Nat) : Prop :=
  ∀ id, FiledAt t layer (layer id) (t.node id)

/-- Whether the nodes of a tree keep their kinds, gates and layers in a tree that has no fewer. -/
structure Keeps (t : CommandTree L) (layer : NodeId → Nat) (t' : CommandTree L)
    (layer' : NodeId → Nat) : Prop where
  size : t.size ≤ t'.size
  kind : ∀ id < t.size, (t'.node id).kind = (t.node id).kind
  gates : ∀ id < t.size, (t'.node id).gates = (t.node id).gates
  layer : ∀ id < t.size, layer' id = layer id

variable {t t' t'' : CommandTree L} {layer layer' layer'' : NodeId → Nat} {level : Nat}
  {n : Node L}

theorem Keeps.refl : Keeps t layer t layer :=
  ⟨Nat.le_refl _, fun _ _ => rfl, fun _ _ => rfl, fun _ _ => rfl⟩

theorem Keeps.trans (h : Keeps t layer t' layer') (h' : Keeps t' layer' t'' layer'') :
    Keeps t layer t'' layer'' where
  size := Nat.le_trans h.size h'.size
  kind id hid := by rw [h'.kind id (Nat.lt_of_lt_of_le hid h.size), h.kind id hid]
  gates id hid := by rw [h'.gates id (Nat.lt_of_lt_of_le hid h.size), h.gates id hid]
  layer id hid := by rw [h'.layer id (Nat.lt_of_lt_of_le hid h.size), h.layer id hid]

theorem FiledAt.keep (h : FiledAt t layer level n) (hk : Keeps t layer t' layer') :
    FiledAt t' layer' level n where
  child e he := by
    obtain ⟨hlt, hl, hn⟩ := h.child e he
    refine ⟨Nat.lt_of_lt_of_le hlt hk.size, by rw [hk.layer _ hlt, hl], ?_⟩
    rw [← hn]
    exact congrArg NodeKind.name (hk.kind _ hlt)
  literal e he := by
    obtain ⟨hlt, hl, hn⟩ := h.literal e he
    exact ⟨Nat.lt_of_lt_of_le hlt hk.size, by rw [hk.layer _ hlt, hl], by rw [hk.kind _ hlt, hn]⟩
  argument c hc := by
    obtain ⟨hlt, hl, name, type, hn⟩ := h.argument c hc
    exact ⟨Nat.lt_of_lt_of_le hlt hk.size, by rw [hk.layer _ hlt, hl], name, type,
      by rw [hk.kind _ hlt, hn]⟩
  option e he := by
    obtain ⟨hlt, type, hn⟩ := h.option e he
    exact ⟨Nat.lt_of_lt_of_le hlt hk.size, type, by rw [hk.kind _ hlt, hn]⟩

theorem filedAt_bare (kind : NodeKind L) : FiledAt t layer level (.bare kind) := by
  constructor <;> intro e he <;> cases he

theorem FiledAt.shareBranches {other : Node L} (h : FiledAt t layer level n)
    (ho : FiledAt t layer level other) : FiledAt t layer level (n.shareBranches other) where
  child e he := (Keyed.mem_entries_extend he).elim (h.child e) (ho.child e)
  literal e he := (Keyed.mem_entries_extend he).elim (h.literal e) (ho.literal e)
  argument c hc := (List.mem_append.1 hc).elim (h.argument c) (ho.argument c)
  option e he := (Keyed.mem_entries_extend he).elim (h.option e) (ho.option e)

theorem FiledAt.giveOption (h : FiledAt t layer level n) {name : String} {option : NodeId}
    (ho : option < t.size ∧ ∃ type, (t.node option).kind = .option name type) :
    FiledAt t layer level (n.giveOption name option) :=
  { h with
    option := fun e he => by
      rcases Keyed.mem_entries_insert he with rfl | he
      · exact ho
      · exact h.option e he }

theorem FiledAt.attach (h : FiledAt t layer level n) {name : String} {child : NodeId}
    {kind : NodeKind L} (hkind : kind = .literal name ∨ ∃ type, kind = .argument name type)
    (hlt : child < t.size) (hl : layer child = level + 1) (hc : (t.node child).kind = kind) :
    FiledAt t layer level (n.attach name child kind.isLiteral) where
  child e he := by
    rw [Node.children_attach] at he
    rcases Keyed.mem_entries_insert he with rfl | he
    · refine ⟨hlt, hl, ?_⟩
      show NodeKind.name _ = name
      rw [hc]
      rcases hkind with rfl | ⟨type, rfl⟩ <;> rfl
    · exact h.child e he
  literal e he := by
    rcases Node.mem_literals_attach he with ⟨hlit, rfl⟩ | he
    · rcases hkind with rfl | ⟨type, rfl⟩
      · exact ⟨hlt, hl, hc⟩
      · cases hlit
    · exact h.literal e he
  argument c hm := by
    rcases Node.mem_arguments_attach hm with ⟨hlit, rfl⟩ | hm
    · rcases hkind with rfl | ⟨type, rfl⟩
      · cases hlit
      · exact ⟨hlt, hl, name, type, hc⟩
    · exact h.argument c hm
  option e he := by
    rw [Node.options_attach] at he
    exact h.option e he

/-! ### Filed trees -/

theorem node_empty (id : NodeId) : (empty : CommandTree L).node id = .bare .root := by
  cases id with
  | zero => rfl
  | succ id => exact node_of_size_le (by simp [size, empty])

theorem filed_empty : Filed (empty : CommandTree L) (fun _ => 0) := by
  intro id
  rw [node_empty]
  exact filedAt_bare _

theorem node_update_cases (t : CommandTree L) (id : NodeId) (f : Node L → Node L) (id' : NodeId) :
    (t.update id f).node id' = t.node id' ∨
      id' = id ∧ (t.update id f).node id' = f (t.node id) := by
  rcases Nat.lt_or_ge id' t.size with hlt | hge
  · rw [node_update t _ hlt]
    split
    · next he => exact Or.inr ⟨he.symm, by rw [he]⟩
    · exact Or.inl rfl
  · rw [node_of_size_le (by rwa [size_update]), node_of_size_le hge]
    exact Or.inl rfl

theorem Filed.update (h : Filed t layer) (id : NodeId) (f : Node L → Node L)
    (hkind : (f (t.node id)).kind = (t.node id).kind)
    (hgates : (f (t.node id)).gates = (t.node id).gates)
    (hf : FiledAt t layer (layer id) (f (t.node id))) :
    Keeps t layer (t.update id f) layer ∧ Filed (t.update id f) layer := by
  have hnode := node_update_cases t id f
  have hk : Keeps t layer (t.update id f) layer := by
    refine ⟨by simp, fun id' _ => ?_, fun id' _ => ?_, fun _ _ => rfl⟩
    · rcases hnode id' with hn | ⟨rfl, hn⟩
      · rw [hn]
      · rw [hn, hkind]
    · rcases hnode id' with hn | ⟨rfl, hn⟩
      · rw [hn]
      · rw [hn, hgates]
  refine ⟨hk, fun id' => ?_⟩
  rcases hnode id' with hn | ⟨rfl, hn⟩
  · rw [hn]
    exact (h id').keep hk
  · rw [hn]
    exact hf.keep hk

theorem Filed.push (h : Filed t layer) (hl : ∀ id < t.size, layer' id = layer id)
    (hn : FiledAt t layer (layer' t.size) n) :
    Keeps t layer (t.push n).1 layer' ∧ Filed (t.push n).1 layer' := by
  have hk : Keeps t layer (t.push n).1 layer' := by
    have hold : ∀ id < t.size, (t.push n).1.node id = t.node id := fun id hid => by
      rw [node_push, if_neg (Nat.ne_of_lt hid)]
    exact ⟨by simp, fun id hid => by rw [hold id hid], fun id hid => by rw [hold id hid], hl⟩
  refine ⟨hk, fun id => ?_⟩
  rcases Nat.lt_trichotomy id t.size with hlt | rfl | hgt
  · rw [node_push, if_neg (Nat.ne_of_lt hlt), hl id hlt]
    exact (h id).keep hk
  · rw [node_push, if_pos rfl]
    exact hn.keep hk
  · rw [node_of_size_le (by rwa [size_push])]
    exact filedAt_bare _

theorem Filed.attach (h : Filed t layer) {parent : NodeId} {above : Node L} {name : String}
    {kind : NodeKind L} {b : Blueprint L} (hp : t.node? parent = some above)
    (hkind : kind = .literal name ∨ ∃ type, kind = .argument name type) :
    Filed ((t.push (freshNode b kind above)).1.update parent
      (·.attach name t.size kind.isLiteral)) (layerBelow layer parent t.size) := by
  have hlt : parent < t.size := lt_size_of_node? hp
  have hold : ∀ id < t.size, layerBelow layer parent t.size id = layer id :=
    fun id hid => if_neg (Nat.ne_of_lt hid)
  have hfresh : FiledAt t layer (layerBelow layer parent t.size t.size)
      (freshNode b kind above) := by
    have ha := (h parent).option
    rw [node_of_node? hp] at ha
    exact { filedAt_bare kind with option := ha }
  obtain ⟨-, hf⟩ := h.push hold hfresh
  refine (hf.update _ _ (Node.kind_attach ..) (Node.gates_attach ..)
    ((hf parent).attach hkind ?_ ?_ ?_)).2
  · simp
  · rw [hold parent hlt]
    exact if_pos rfl
  · rw [node_push, if_pos rfl]
    rfl

theorem Filed.attachOption (h : Filed t layer) {id : NodeId} {name : String} {type : L.Argument}
    {gates : Gates L} :
    Filed ((t.push (optionNode name type gates)).1.update id (·.giveOption name t.size)) layer := by
  obtain ⟨-, hf⟩ := h.push (n := optionNode name type gates) (fun _ _ => rfl)
    { filedAt_bare (.option name type) with }
  refine (hf.update _ _ ?_ ?_ ((hf id).giveOption ⟨by simp, type, ?_⟩)).2
  · rfl
  · rfl
  · rw [node_push, if_pos rfl]
    rfl

theorem Filed.merge (h : Filed t layer) {existing : NodeId} {command : Option L.Action}
    {forward : Option (Forward L)} :
    Keeps t layer (t.update existing fun _ => { t.node existing with command, forward }) layer ∧
      Filed (t.update existing fun _ => { t.node existing with command, forward }) layer :=
  h.update _ _ rfl rfl { h existing with }

theorem Filed.share (h : Filed t layer) {first : NodeId} {others : List NodeId}
    (hl : ∀ other ∈ others, layer other = layer first) :
    Keeps t layer (t.shareAll first others) layer ∧ Filed (t.shareAll first others) layer := by
  have hs : FiledAt t layer (layer first) (t.node first) := h first
  unfold shareAll
  generalize t.node first = shared at hs ⊢
  induction others generalizing t with
  | nil => exact ⟨.refl, h⟩
  | cons other others ih =>
    have ho : layer other = layer first := hl other (List.mem_cons_self ..)
    obtain ⟨hk, hf⟩ := h.update other (·.shareBranches shared) rfl rfl
      ((h other).shareBranches (by rwa [ho]))
    obtain ⟨hk', hf'⟩ := ih hf (fun o hm => hl o (List.mem_cons_of_mem _ hm)) (hs.keep hk)
    exact ⟨hk.trans hk', hf'⟩

theorem Grown.filed (h : Grown t layer) : Filed t layer := by
  induction h with
  | empty => exact filed_empty
  | attach _ hp _ _ hk ih =>
    refine ih.attach hp ?_
    rcases nodeKind?_eq_ok hk with hk | ⟨_, type, _, hk⟩
    · exact Or.inl hk
    · exact Or.inr ⟨type, hk⟩
  | merge _ _ _ _ hm ih =>
    rw [mergeInto?_eq_ok hm]
    exact ih.merge.2
  | option _ _ ih => exact ih.attachOption
  | share _ hl ih => exact (ih.share hl).2

/-! ### Blueprints grow trees -/

theorem bind_eq_ok {ε α β : Type} {x : Except ε α} {f : α → Except ε β} {r : β} :
    (x >>= f) = .ok r ↔ ∃ a, x = .ok a ∧ f a = .ok r := by
  cases x with
  | error e =>
    refine ⟨fun h => ?_, fun ⟨_, h, _⟩ => ?_⟩ <;> cases h
  | ok a =>
    refine ⟨fun h => ⟨a, rfl, h⟩, fun ⟨_, h, hf⟩ => ?_⟩
    cases h
    exact hf

theorem checkTarget?_mono {forward : Option (Forward L)} (h : t.checkTarget? forward = .ok ())
    (hs : t.size ≤ t'.size) : t'.checkTarget? forward = .ok () := by
  cases forward with
  | none => rfl
  | some f =>
    simp only [checkTarget?] at h ⊢
    split at h
    · next hlt => exact if_pos (Nat.lt_of_lt_of_le hlt hs)
    · cases h

theorem buildName?_eq_ok {parent id : NodeId} {b : Blueprint L} {kind : BlueprintKind L}
    {name : String} (h : t.buildName? parent b kind name = .ok (t', id)) :
    ∃ above, t.node? parent = some above ∧
      ((∃ merged, above.child? name = some id ∧ mergeInto? b name (t.node id) = .ok merged ∧
        t' = t.update id fun _ => merged) ∨
      ∃ k, above.child? name = none ∧ nodeKind? kind name = .ok k ∧ id = t.size ∧
        t' = (t.push (freshNode b k above)).1.update parent
          (·.attach name t.size k.isLiteral)) := by
  unfold buildName? at h
  cases hp : t.node? parent with
  | none =>
    rw [hp] at h
    cases h
  | some above =>
    rw [hp] at h
    simp only at h
    refine ⟨above, rfl, ?_⟩
    cases hn : above.child? name with
    | some existing =>
      rw [hn] at h
      obtain ⟨merged, hm, hr⟩ := bind_eq_ok.1 h
      obtain ⟨rfl, rfl⟩ := Prod.mk.inj (Except.ok.inj hr)
      exact Or.inl ⟨merged, rfl, hm, rfl⟩
    | none =>
      rw [hn] at h
      obtain ⟨k, hk, hr⟩ := bind_eq_ok.1 h
      obtain ⟨rfl, rfl⟩ := Prod.mk.inj (Except.ok.inj hr)
      exact Or.inr ⟨k, rfl, hk, rfl, rfl⟩

theorem grown_buildName? (h : Grown t layer) {parent id : NodeId} {b : Blueprint L} {name : String}
    (hc : t.checkTarget? b.forward = .ok ())
    (hb : t.buildName? parent b b.kind name = .ok (t', id)) :
    ∃ layer', Grown t' layer' ∧ Keeps t layer t' layer' ∧
      parent < t.size ∧ id < t'.size ∧ layer' id = layer parent + 1 := by
  obtain ⟨above, hp, ⟨merged, hn, hm, rfl⟩ | ⟨kind, hn, hk, rfl, rfl⟩⟩ := buildName?_eq_ok hb
  · have hf := h.filed
    have he := (hf parent).child (name, id)
      (by rw [node_of_node? hp]; exact Keyed.mem_entries_of_find? hn)
    refine ⟨layer, h.merge hp hn hc hm, ?_, lt_size_of_node? hp, by simpa using he.1, he.2.1⟩
    rw [mergeInto?_eq_ok hm]
    exact hf.merge.1
  · refine ⟨layerBelow layer parent t.size, h.attach hp hn hc hk, ?_, lt_size_of_node? hp, ?_, ?_⟩
    · have hnode : ∀ i < t.size, ((t.push (freshNode b kind above)).1.update parent
          (·.attach name t.size kind.isLiteral)).node i =
            if parent = i then (t.node i).attach name t.size kind.isLiteral else t.node i := by
        intro i hi
        rw [node_update _ _ (by rw [size_push]; exact Nat.lt_succ_of_lt hi), node_push,
          if_neg (Nat.ne_of_lt hi)]
      refine ⟨by simp, fun i hi => ?_, fun i hi => ?_, fun i hi => if_neg (Nat.ne_of_lt hi)⟩
      · refine (congrArg Node.kind (hnode i hi)).trans ?_
        split
        · exact Node.kind_attach ..
        · rfl
      · refine (congrArg Node.gates (hnode i hi)).trans ?_
        split
        · exact Node.gates_attach ..
        · rfl
    · show t.size < _
      simp
    · exact if_pos rfl

theorem grown_buildNames? (h : Grown t layer) {parent : NodeId} {b : Blueprint L}
    {names : List String} {ids : List NodeId} (hc : t.checkTarget? b.forward = .ok ())
    (hp : parent < t.size) (hb : buildNames? parent b b.kind t names = .ok (t', ids)) :
    ∃ layer', Grown t' layer' ∧ Keeps t layer t' layer' ∧
      ∀ id ∈ ids, id < t'.size ∧ layer' id = layer parent + 1 := by
  induction names generalizing t layer ids with
  | nil =>
    obtain ⟨rfl, rfl⟩ := Prod.mk.inj (Except.ok.inj hb)
    exact ⟨layer, h, .refl, fun id hid => by cases hid⟩
  | cons name names ih =>
    obtain ⟨⟨t₁, id⟩, h₁, hb⟩ := bind_eq_ok.1 hb
    obtain ⟨⟨t₂, others⟩, h₂, hb⟩ := bind_eq_ok.1 hb
    obtain ⟨rfl, rfl⟩ := Prod.mk.inj (Except.ok.inj hb)
    obtain ⟨layer₁, hg₁, hk₁, -, hid, hl₁⟩ := grown_buildName? h hc h₁
    obtain ⟨layer₂, hg₂, hk₂, hl₂⟩ := ih hg₁ (checkTarget?_mono hc hk₁.size)
      (Nat.lt_of_lt_of_le hp hk₁.size) h₂
    refine ⟨layer₂, hg₂, hk₁.trans hk₂, fun id' hid' => ?_⟩
    rcases List.mem_cons.1 hid' with rfl | hid'
    · exact ⟨Nat.lt_of_lt_of_le hid hk₂.size, by rw [hk₂.layer _ hid, hl₁]⟩
    · obtain ⟨hlt, hl⟩ := hl₂ id' hid'
      exact ⟨hlt, by rw [hl, hk₁.layer _ hp]⟩

theorem addOption?_eq_ok {id option : NodeId} {b : Blueprint L}
    (h : t.addOption? id b = .ok (t', option)) : id < t.size ∧ ∃ name type,
      b.kind = .option name type ∧
        t' = (t.push (optionNode name type b.gates)).1.update id (·.giveOption name t.size) := by
  unfold addOption? at h
  split at h
  · next name type hkind =>
    split at h
    · cases h
    · split at h
      · cases h
      · next hid =>
        obtain ⟨rfl, rfl⟩ := Prod.mk.inj (Except.ok.inj h)
        obtain ⟨n, hn⟩ := Option.ne_none_iff_exists'.1 (by simpa using hid)
        exact ⟨lt_size_of_node? hn, name, type, hkind, rfl⟩
  · cases h

theorem grown_addOption? (h : Grown t layer) {id option : NodeId} {b : Blueprint L}
    (hb : t.addOption? id b = .ok (t', option)) : Grown t' layer ∧ Keeps t layer t' layer := by
  obtain ⟨hid, name, type, -, rfl⟩ := addOption?_eq_ok hb
  obtain ⟨hk₁, hf₁⟩ := h.filed.push (n := optionNode name type b.gates) (fun _ _ => rfl)
    { filedAt_bare (.option name type) with }
  have hk₂ := (hf₁.update id (·.giveOption name t.size) rfl rfl
    ((hf₁ id).giveOption ⟨by simp, type, by rw [node_push, if_pos rfl]; rfl⟩)).1
  exact ⟨h.option hid, hk₁.trans hk₂⟩

theorem grown_addOptions? (h : Grown t layer) {id : NodeId} {bs : List (Blueprint L)}
    (hb : t.addOptions? id bs = .ok t') : Grown t' layer ∧ Keeps t layer t' layer := by
  induction bs generalizing t with
  | nil =>
    cases hb
    exact ⟨h, .refl⟩
  | cons b bs ih =>
    obtain ⟨⟨t₁, option⟩, h₁, hb⟩ := bind_eq_ok.1 hb
    obtain ⟨hg₁, hk₁⟩ := grown_addOption? h h₁
    obtain ⟨hg₂, hk₂⟩ := ih hg₁ hb
    exact ⟨hg₂, hk₁.trans hk₂⟩

mutual

theorem grown_add? {t t' : CommandTree L} {layer : NodeId → Nat} (h : Grown t layer)
    {parent first : NodeId} {rest : List NodeId} :
    ∀ {b : Blueprint L}, t.add? parent b = .ok (t', first, rest) →
      ∃ layer', Grown t' layer' ∧ Keeps t layer t' layer'
  | ⟨kind, children, options, command, gates, forward⟩, hb => by
    unfold add? at hb
    obtain ⟨_, hc, hb⟩ := bind_eq_ok.1 hb
    obtain ⟨⟨name, others⟩, hn, hb⟩ := bind_eq_ok.1 hb
    obtain ⟨⟨t₁, id⟩, h₁, hb⟩ := bind_eq_ok.1 hb
    obtain ⟨⟨t₂, ids⟩, h₂, hb⟩ := bind_eq_ok.1 hb
    obtain ⟨t₃, h₃, hb⟩ := bind_eq_ok.1 hb
    obtain ⟨t₄, h₄, hb⟩ := bind_eq_ok.1 hb
    obtain ⟨rfl, -⟩ := Prod.mk.inj (Except.ok.inj hb)
    obtain ⟨layer₁, hg₁, hk₁, hp, hid, hl₁⟩ := grown_buildName? h hc h₁
    obtain ⟨layer₂, hg₂, hk₂, hl₂⟩ := grown_buildNames? hg₁ (checkTarget?_mono hc hk₁.size)
      (Nat.lt_of_lt_of_le hp hk₁.size) h₂
    obtain ⟨hg₃, hk₃⟩ := grown_addOptions? hg₂ h₃
    obtain ⟨layer₄, hg₄, hk₄⟩ := grown_addAll? hg₃ h₄
    have hids : ∀ other ∈ ids, layer₄ other = layer₄ id := by
      intro other hm
      obtain ⟨hlt, hl⟩ := hl₂ other hm
      rw [hk₄.layer other (Nat.lt_of_lt_of_le hlt hk₃.size),
        hk₄.layer id (Nat.lt_of_lt_of_le hid (Nat.le_trans hk₂.size hk₃.size)),
        hl, hk₂.layer id hid, hl₁, hk₁.layer parent hp]
    exact ⟨layer₄, hg₄.share hids, ((hk₁.trans hk₂).trans hk₃).trans
      (hk₄.trans (hg₄.filed.share hids).1)⟩

theorem grown_addAll? {t t' : CommandTree L} {layer : NodeId → Nat} (h : Grown t layer)
    {parent : NodeId} :
    ∀ {bs : List (Blueprint L)}, t.addAll? parent bs = .ok t' →
      ∃ layer', Grown t' layer' ∧ Keeps t layer t' layer'
  | [], hb => by
    unfold addAll? at hb
    cases hb
    exact ⟨layer, h, .refl⟩
  | b :: bs, hb => by
    unfold addAll? at hb
    obtain ⟨⟨t₁, first, rest⟩, h₁, hb⟩ := bind_eq_ok.1 hb
    obtain ⟨layer₁, hg₁, hk₁⟩ := grown_add? h h₁
    obtain ⟨layer₂, hg₂, hk₂⟩ := grown_addAll? hg₁ hb
    exact ⟨layer₂, hg₂, hk₁.trans hk₂⟩

end

/-- Every tree that can be built grows by single edits. -/
theorem Reachable.grown (h : Reachable t) : ∃ layer, Grown t layer := by
  induction h with
  | empty => exact ⟨_, .empty⟩
  | add _ hb ih =>
    obtain ⟨layer, hg⟩ := ih
    obtain ⟨layer', hg', -⟩ := grown_add? hg hb
    exact ⟨layer', hg'⟩
  | addOption _ hb ih =>
    obtain ⟨layer, hg⟩ := ih
    exact ⟨layer, (grown_addOption? hg hb).1⟩

/-! ### Trees from blueprints -/

theorem Reachable.addAll? {parent : NodeId} {bs : List (Blueprint L)} (h : Reachable t)
    (hb : t.addAll? parent bs = .ok t') : Reachable t' := by
  induction bs generalizing t with
  | nil =>
    unfold CommandTree.addAll? at hb
    obtain rfl := Except.ok.inj hb
    exact h
  | cons b bs ih =>
    unfold CommandTree.addAll? at hb
    obtain ⟨⟨t₁, first, rest⟩, h₁, h₂⟩ := bind_eq_ok.1 hb
    exact ih (.add h h₁) h₂

theorem Reachable.addOptions? {id : NodeId} {bs : List (Blueprint L)} (h : Reachable t)
    (hb : t.addOptions? id bs = .ok t') : Reachable t' := by
  induction bs generalizing t with
  | nil =>
    obtain rfl := Except.ok.inj hb
    exact h
  | cons b bs ih =>
    obtain ⟨⟨t₁, option⟩, h₁, h₂⟩ := bind_eq_ok.1 hb
    exact ih (.addOption h h₁) h₂

def built (bs : List (Blueprint L)) : CommandTree L :=
  match (empty : CommandTree L).addAll? root bs with
  | .ok t => t
  | .error _ => .empty

theorem reachable_built (bs : List (Blueprint L)) : (built bs).Reachable := by
  unfold built
  split
  · next t hb => exact Reachable.empty.addAll? hb
  · exact .empty

theorem addAll?_built {bs : List (Blueprint L)}
    (h : ((empty : CommandTree L).addAll? root bs).isOk = true) :
    (empty : CommandTree L).addAll? root bs = .ok (built bs) := by
  unfold built
  cases hb : (empty : CommandTree L).addAll? root bs with
  | ok t => rfl
  | error e =>
    rw [hb] at h
    cases h

def builtUnder (options bs : List (Blueprint L)) : CommandTree L :=
  match (empty : CommandTree L).addOptions? root options >>= (·.addAll? root bs) with
  | .ok t => t
  | .error _ => .empty

theorem reachable_builtUnder (options bs : List (Blueprint L)) :
    (builtUnder options bs).Reachable := by
  unfold builtUnder
  split
  · next t hb =>
    obtain ⟨t₁, h₁, h₂⟩ := bind_eq_ok.1 hb
    exact (Reachable.empty.addOptions? h₁).addAll? h₂
  · exact .empty

end CommandTree

end CommandConsole
