import CommandConsole.Proofs.Confined
import Mathlib.Data.List.Nodup

/-!
# The nodes of one blueprint

Building a blueprint starts with a node for each of its names. If the parent has a child of that
name, it takes over the command and the redirect; else a new node is built, with the options of the
parent. The names are distinct, so these nodes are, and no name changes the node of another.
-/

namespace CommandConsole

variable {L : Language}

theorem forall₂_with_mem {α β : Type} {R : α → β → Prop} {as : List α} {bs : List β}
    (h : List.Forall₂ R as bs) :
    List.Forall₂ (fun a b => a ∈ as ∧ b ∈ bs ∧ R a b) as bs := by
  have hright : List.Forall₂ (fun a b => b ∈ bs ∧ R a b) as bs :=
    List.Forall₂.flip ((List.forall₂_and_left _ _).2 ⟨fun _ hb => hb, h.flip⟩)
  exact (List.forall₂_and_left _ _).2 ⟨fun _ ha => ha, hright⟩

namespace CommandTree

variable {t t' t₁ : CommandTree L} {layer layer' : NodeId → Nat} {parent id n : NodeId}
  {b : Blueprint L} {name : String} {names : List String} {ids : List NodeId}

theorem Filed.child_lt (hf : Filed t layer) (h : (t.node id).child? name = some n) :
    n < t.size ∧ layer n = layer id + 1 := by
  obtain ⟨hlt, hl, -⟩ := (hf id).child _ (Keyed.mem_entries_of_find? h)
  exact ⟨hlt, hl⟩

theorem Filed.child_name (hf : Filed t layer) (h : (t.node id).child? name = some n) :
    (t.node n).name = name :=
  ((hf id).child _ (Keyed.mem_entries_of_find? h)).2.2

theorem Filed.child_ne (hf : Filed t layer) (h : (t.node id).child? name = some n) : n ≠ id := by
  rintro rfl
  have hl := (hf.child_lt h).2
  omega

/-- Every way down to a node is as long as the node is deep. -/
theorem Filed.layer_findFrom? (hf : Filed t layer) {path : List String}
    (h : t.findFrom? id path = some n) : layer n = layer id + path.length := by
  induction path generalizing id with
  | nil =>
    obtain rfl := Option.some.inj h
    rfl
  | cons name names ih =>
    obtain ⟨child, hchild, hrest⟩ := Option.bind_eq_some_iff.1 h
    rw [ih hrest, (hf.child_lt hchild).2, List.length_cons]
    omega

/-! ### Nodes by name -/

def mergedNode (b : Blueprint L) (n : Node L) : Node L :=
  { n with command := b.command <|> n.command, forward := b.forward <|> n.forward }

/-- Whether the node of a name is an old one that a blueprint was merged into. -/
def IsMerged (t : CommandTree L) (parent : NodeId) (b : Blueprint L) (t' : CommandTree L)
    (name : String) (m : NodeId) : Prop :=
  (t.node parent).child? name = some m ∧ t'.node m = mergedNode b (t.node m)

/-- Whether the node of a name is a new one, as a blueprint describes it. -/
def IsFresh (t : CommandTree L) (parent : NodeId) (b : Blueprint L) (t' : CommandTree L)
    (name : String) (m : NodeId) : Prop :=
  t.size ≤ m ∧ m < t'.size ∧ ∃ k, nodeKind? b.kind name = .ok k ∧
    t'.node m = freshNode b k (t.node parent)

/-- What building the nodes of a blueprint under some names comes to. -/
structure Named (t : CommandTree L) (parent : NodeId) (b : Blueprint L) (names : List String)
    (t' : CommandTree L) (ids : List NodeId) : Prop where
  size : t.size ≤ t'.size
  aside : ∀ m < t.size, m ≠ parent → (∀ name ∈ names, (t.node parent).child? name ≠ some m) →
    t'.node m = t.node m
  below : ∀ m, m ≠ parent → ∀ name, (t'.node m).child? name = (t.node m).child? name
  above : (t.node parent).Adopts (t'.node parent)
  child : ∀ name ∉ names, (t'.node parent).child? name = (t.node parent).child? name
  new : ∀ m, t.size ≤ m → m < t'.size → m ∈ ids
  named : List.Forall₂ (fun name m => (t'.node parent).child? name = some m ∧
    (IsMerged t parent b t' name m ∨ IsFresh t parent b t' name m)) names ids

theorem Named.nil : Named t parent b [] t [] :=
  ⟨Nat.le_refl _, fun _ _ _ _ => rfl, fun _ _ _ => rfl, .refl _, fun _ _ => rfl,
    fun _ hge hlt => absurd hlt (Nat.not_lt.2 hge), .nil⟩

theorem named_buildName? (hf : Filed t layer)
    (h : t.buildName? parent b b.kind name = .ok (t', id)) : Named t parent b [name] t' [id] := by
  obtain ⟨above, hp, ⟨merged, hn, hm, rfl⟩ | ⟨kind, hn, hkind, rfl, rfl⟩⟩ := buildName?_eq_ok h
  · rw [← node_of_node? hp] at hn
    have hlt := (hf.child_lt hn).1
    have hparent : parent ≠ id := (hf.child_ne hn).symm
    have hother : ∀ m, m ≠ id → (t.update id fun _ => merged).node m = t.node m := fun m hm' =>
      (node_update_cases t id _ m).resolve_right fun h => hm' h.1
    have hmine : (t.update id fun _ => merged).node id = mergedNode b (t.node id) := by
      rw [node_update t _ hlt, if_pos rfl]
      exact mergeInto?_eq_ok hm
    refine ⟨Nat.le_of_eq (size_update ..).symm, fun m _ _ hno => hother m ?_, fun m _ name' => ?_,
      by rw [hother parent hparent]; exact .refl _, fun name' _ => by rw [hother parent hparent],
      fun m hge hlt => ?_, .cons ⟨by rw [hother parent hparent, hn], Or.inl ⟨hn, hmine⟩⟩ .nil⟩
    · rintro rfl
      exact hno name (List.mem_singleton_self _) hn
    · by_cases hm' : m = id
      · rw [hm', hmine]
        rfl
      · rw [hother m hm']
    · rw [size_update] at hlt
      exact absurd hlt (Nat.not_lt.2 hge)
  · have hlt := lt_size_of_node? hp
    have hnode := node_push_update t (freshNode b kind above)
      (·.attach name t.size kind.isLiteral) hlt
    have hsize : t.size < ((t.push (freshNode b kind above)).1.update parent
        (·.attach name t.size kind.isLiteral)).size := by
      rw [size_update, size_push]
      exact Nat.lt_succ_self _
    refine ⟨Nat.le_of_lt hsize, fun m hm hne _ => ?_, fun m hne name' => ?_, ?_,
      fun name' hname' => ?_, fun m hge hm => ?_,
      .cons ⟨?_, Or.inr ⟨Nat.le_refl _, hsize, kind, hkind, ?_⟩⟩ .nil⟩
    · rw [hnode, if_neg hne, if_neg (Nat.ne_of_lt hm)]
    · rw [hnode, if_neg hne]
      split
      · next heq =>
        rw [heq, node_of_size_le (Nat.le_refl _)]
        rfl
      · rfl
    · rw [hnode, if_pos rfl]
      exact .attach ..
    · have hne : name ≠ name' := fun heq => hname' (heq ▸ List.mem_singleton_self _)
      rw [hnode, if_pos rfl, Node.child?, Node.children_attach, Keyed.find?_insert, if_neg hne]
      rfl
    · rw [size_update, size_push] at hm
      exact List.mem_singleton.2 (Nat.le_antisymm (Nat.le_of_lt_succ hm) hge)
    · rw [hnode, if_pos rfl, Node.child?, Node.children_attach, Keyed.find?_insert, if_pos rfl]
    · rw [hnode, if_neg (Nat.ne_of_lt hlt).symm, if_pos rfl, node_of_node? hp]

theorem Named.cons (hf : Filed t layer) (hf₁ : Filed t₁ layer')
    (h : Named t parent b [name] t₁ [n]) (hname : name ∉ names)
    (h' : Named t₁ parent b names t' ids) : Named t parent b (name :: names) t' (n :: ids) := by
  have hother : ∀ name' ∈ names,
      (t₁.node parent).child? name' = (t.node parent).child? name' := by
    refine fun name' hname' => h.child name' fun hmem => hname ?_
    rwa [← List.mem_singleton.1 hmem]
  obtain ⟨⟨hchild, hnode⟩, -⟩ := List.forall₂_cons.1 h.named
  -- the node of the first name is no child under any of the others
  have hmine : t'.node n = t₁.node n := by
    refine h'.aside n (hf₁.child_lt hchild).1 (hf₁.child_ne hchild) fun name' hname' hchild' =>
      hname ?_
    rwa [← hf₁.child_name hchild, hf₁.child_name hchild']
  refine ⟨Nat.le_trans h.size h'.size, fun m hm hne hno => ?_,
    fun m hne name' => (h'.below m hne name').trans (h.below m hne name'),
    h.above.trans h'.above, fun name' hname' => ?_, fun m hge hlt => ?_, .cons ⟨?_, ?_⟩ ?_⟩
  · obtain ⟨hfirst, hrest⟩ := List.forall_mem_cons.1 hno
    have hfirst' : ∀ name' ∈ [name], (t.node parent).child? name' ≠ some m :=
      fun name' hname' => List.mem_singleton.1 hname' ▸ hfirst
    rw [h'.aside m (Nat.lt_of_lt_of_le hm h.size) hne fun name' hname' =>
      hother name' hname' ▸ hrest name' hname', h.aside m hm hne hfirst']
  · obtain ⟨hne, hrest⟩ := not_or.1 (mt List.mem_cons.2 hname')
    rw [h'.child name' hrest, h.child name' (mt List.mem_singleton.1 hne)]
  · rcases Nat.lt_or_ge m t₁.size with hold | hnew
    · exact List.mem_singleton.1 (h.new m hge hold) ▸ List.mem_cons_self
    · exact List.mem_cons_of_mem _ (h'.new m hnew hlt)
  · rw [h'.child name hname, hchild]
  · unfold IsMerged IsFresh
    rw [hmine]
    exact hnode.imp_right fun hnew => ⟨hnew.1, Nat.lt_of_lt_of_le hnew.2.1 h'.size, hnew.2.2⟩
  · refine (forall₂_with_mem h'.named).imp ?_
    rintro name' m ⟨hname', -, hchild', ⟨hold, hnode'⟩ | ⟨hnew, hlt, k, hk, hnode'⟩⟩
    · rw [hother name' hname'] at hold
      refine ⟨hchild', Or.inl ⟨hold, ?_⟩⟩
      rw [hnode', h.aside m (hf.child_lt hold).1 (hf.child_ne hold)
        fun name'' hname'' hchild'' => ?_]
      rw [List.mem_singleton.1 hname''] at hchild''
      refine hname ?_
      rwa [← hf.child_name hchild'', hf.child_name hold]
    · refine ⟨hchild', Or.inr ⟨Nat.le_trans h.size hnew, hlt, k, hk, ?_⟩⟩
      rw [hnode']
      unfold freshNode
      rw [h.above.options]

theorem named_buildNames? (hg : Grown t layer) (hc : t.checkTarget? b.forward = .ok ())
    (hp : parent < t.size) (hnames : names.Nodup)
    (h : buildNames? parent b b.kind t names = .ok (t', ids)) : Named t parent b names t' ids := by
  induction names generalizing t layer ids with
  | nil =>
    obtain ⟨rfl, rfl⟩ := Prod.mk.inj (Except.ok.inj h)
    exact .nil
  | cons name names ih =>
    obtain ⟨⟨t₁, id⟩, h₁, h⟩ := bind_eq_ok.1 h
    obtain ⟨⟨t₂, others⟩, h₂, h⟩ := bind_eq_ok.1 h
    obtain ⟨rfl, rfl⟩ := Prod.mk.inj (Except.ok.inj h)
    obtain ⟨hname, hnames⟩ := List.nodup_cons.1 hnames
    obtain ⟨layer₁, hg₁, hk₁, -⟩ := grown_buildName? hg hc h₁
    have hrest := ih hg₁ (checkTarget?_mono hc hk₁.size) (Nat.lt_of_lt_of_le hp hk₁.size) hnames h₂
    exact (named_buildName? hg.filed h₁).cons hg.filed hg₁.filed hname hrest

theorem Named.nodup (hf' : Filed t' layer') (hnames : names.Nodup)
    (h : Named t parent b names t' ids) : ids.Nodup := by
  have hnamed := h.named
  clear h
  induction hnamed with
  | nil => exact List.nodup_nil
  | @cons name m names ids hm hrest ih =>
    obtain ⟨hname, hnames⟩ := List.nodup_cons.1 hnames
    refine List.nodup_cons.2 ⟨fun hmem => hname ?_, ih hnames⟩
    obtain ⟨name', hname', hm', -⟩ := forall₂_mem_right hrest hmem
    rwa [← hf'.child_name hm.1, hf'.child_name hm']

theorem named_place? {first : NodeId} {rest : List NodeId} (hg : Grown t layer)
    (hnames : b.names.Nodup) (h : t.place? parent b = .ok (t', first, rest)) :
    ∃ t₁ layer₁, Grown t₁ layer₁ ∧ Keeps t layer t₁ layer₁ ∧ parent < t.size ∧
      Named t parent b b.names t₁ (first :: rest) ∧ t₁.addOptions? first b.options = .ok t' := by
  obtain ⟨t₁, t₂, name, others, hc, hn, h₁, h₂, h₃⟩ := place?_eq_ok h
  obtain ⟨layer₁, hg₁, hk₁, hp, -, -⟩ := grown_buildName? hg hc h₁
  have hp₁ : parent < t₁.size := Nat.lt_of_lt_of_le hp hk₁.size
  obtain ⟨layer₂, hg₂, hk₂, -⟩ := grown_buildNames? hg₁ (checkTarget?_mono hc hk₁.size) hp₁ h₂
  have hall : buildNames? parent b b.kind t (name :: others) = .ok (t₂, first :: rest) :=
    bind_eq_ok.2 ⟨(t₁, first), h₁, bind_eq_ok.2 ⟨(t₂, rest), h₂, rfl⟩⟩
  rw [Blueprint.names_eq hn] at hnames ⊢
  exact ⟨t₂, layer₂, hg₂, hk₁.trans hk₂, hp, named_buildNames? hg hc hp hnames hall, h₃⟩

end CommandTree

end CommandConsole
