import CommandConsole.Proofs.Gaps
import CommandConsole.Proofs.NewNames
import CommandConsole.Proofs.RenamedRuns

/-!
# The order of registration

Two literals are registered, neither of which has a name of the other or of a child that the root
has. Whichever comes first gets the lower numbers, and nothing else depends on the order: each is
built as if the nodes of the other were a gap in the numbers. So one tree is the other under other
numbers, and every line is parsed alike in both.
-/

namespace CommandConsole

variable {L : Language}

theorem optionMap_eq_self {α : Type} {f : α → α} {x : Option α} (h : ∀ a, x = some a → f a = a) :
    x.map f = x := by
  cases x with
  | none => rfl
  | some a => rw [Option.map_some, h a rfl]

namespace CommandTree

/-! ### Two blocks of numbers -/

/-- The number of a node where two blocks of new nodes have changed places. -/
def swapBlocks (k m₁ m₂ id : Nat) : Nat :=
  if id < k then id
  else if id < k + m₁ then id + m₂
  else if id < k + m₁ + m₂ then id - m₁
  else id

section Blocks

variable {k m₁ m₂ id : Nat}

theorem swapBlocks_of_lt (h : id < k) : swapBlocks k m₁ m₂ id = id := if_pos h

theorem swapBlocks_first (h : k ≤ id) (h' : id < k + m₁) : swapBlocks k m₁ m₂ id = id + m₂ := by
  unfold swapBlocks
  rw [if_neg (Nat.not_lt.2 h), if_pos h']

theorem swapBlocks_second (h : k ≤ id) (h' : id < k + m₂) :
    swapBlocks k m₁ m₂ (id + m₁) = id := by
  unfold swapBlocks
  rw [if_neg (by omega), if_neg (by omega), if_pos (by omega), Nat.add_sub_cancel]

theorem swapBlocks_of_le (h : k + m₁ + m₂ ≤ id) : swapBlocks k m₁ m₂ id = id := by
  unfold swapBlocks
  rw [if_neg (by omega), if_neg (by omega), if_neg (by omega)]

theorem swapBlocks_swapBlocks (k m₁ m₂ id : Nat) :
    swapBlocks k m₂ m₁ (swapBlocks k m₁ m₂ id) = id := by
  rcases Nat.lt_or_ge id k with h | h
  · rw [swapBlocks_of_lt h, swapBlocks_of_lt h]
  · rcases Nat.lt_or_ge id (k + m₁) with h₁ | h₁
    · rw [swapBlocks_first h h₁, swapBlocks_second h h₁]
    · rcases Nat.lt_or_ge id (k + m₁ + m₂) with h₂ | h₂
      · obtain ⟨j, rfl⟩ : ∃ j, id = j + m₁ := ⟨id - m₁, by omega⟩
        rw [swapBlocks_second (by omega) (by omega), swapBlocks_first (by omega) (by omega)]
      · rw [swapBlocks_of_le h₂, swapBlocks_of_le (by omega)]

theorem swapBlocks_bijective (k m₁ m₂ : Nat) : Function.Bijective (swapBlocks k m₁ m₂) :=
  Function.bijective_iff_has_inverse.2
    ⟨swapBlocks k m₂ m₁, swapBlocks_swapBlocks k m₁ m₂, swapBlocks_swapBlocks k m₂ m₁⟩

theorem swapBlocks_eq_pastGap (h : id < k + m₁) : swapBlocks k m₁ m₂ id = pastGap k m₂ id := by
  rcases Nat.lt_or_ge id k with hlt | hge
  · rw [swapBlocks_of_lt hlt, pastGap_of_lt hlt]
  · rw [swapBlocks_first hge h, pastGap_of_le hge]

theorem swapBlocks_pastGap (h : id < k + m₂) : swapBlocks k m₁ m₂ (pastGap k m₁ id) = id := by
  rcases Nat.lt_or_ge id k with hlt | hge
  · rw [pastGap_of_lt hlt, swapBlocks_of_lt hlt]
  · rw [pastGap_of_le hge, swapBlocks_second hge h]

end Blocks

variable {t t₁ t₂ t₁₂ t₂₁ : CommandTree L} {layer : NodeId → Nat} {b b₁ b₂ : Blueprint L}
  {name name' : String} {others others' : List String} {first : NodeId} {rest : List NodeId}
  {k m₁ m₂ : Nat}

/-! ### Building a literal next to another one -/

/-- A literal under new names is built next to another one as it is without it. -/
theorem gapped_of_widened (hg : Grown t layer) (hsize : t.size + m₁ = t₁.size)
    (hwide : Widened t root b₁.names t₁) (hdisjoint : b₁.names.Disjoint b₂.names)
    (hnew : ∀ n ∈ b₂.names, (t.node root).child? n = none) :
    Gapped t.size m₁ b₂.names t t₁ where
  root_lt := hg.root_first.1
  base := Nat.le_refl _
  size := hsize.symm
  node id hid := by
    have hid' : t₁.size ≤ id + m₁ := hsize ▸ Nat.add_le_add_right hid m₁
    rw [node_of_size_le hid, node_of_size_le hid']
    rfl
  closed := closed_new t
  into n hn c hc := by
    rw [hnew n hn] at hc
    cases hc
  child n hn := by
    rw [hwide.child n fun hn' => hdisjoint hn' hn, hnew n hn]
    rfl
  options := by
    rw [hwide.options, Keyed.map_eq_self]
    exact fun e he => pastGap_of_lt ((hg.refersTo root).option e he)

/-- What building a literal under new names below the root comes to. -/
structure Adds (t : CommandTree L) (b : Blueprint L) (t' : CommandTree L) : Prop where
  grown : ∃ layer, Grown t' layer
  confined : Confined (t.size ≤ ·) root b.names t t'
  widened : Widened t root b.names t'

theorem adds_add? (hg : Grown t layer) (hkind : b.kind = .literal name others)
    (hnew : ∀ n ∈ b.names, (t.node root).child? n = none)
    (h : t.add? root b = .ok (t₁, first, rest)) : Adds t b t₁ := by
  obtain ⟨layer', hg', -⟩ := grown_add? hg h
  obtain ⟨hconfined, hwide⟩ := widened_add? hg.tidied hkind hg.root_first.1 hnew h
  exact ⟨⟨layer', hg'⟩, hconfined, hwide⟩

theorem Adds.node (h : Adds t b t₁) {id : NodeId} (hid : id < t.size) (hne : id ≠ root) :
    t₁.node id = t.node id := h.confined.node id (Nat.not_le.2 hid) hne

/-- Two literals that are built in either order. -/
structure Orders (t : CommandTree L) (b₁ b₂ : Blueprint L) (t₁ t₂ t₁₂ t₂₁ : CommandTree L)
    (m₁ m₂ : Nat) : Prop where
  grown : ∃ layer, Grown t layer
  disjoint : b₁.names.Disjoint b₂.names
  first : Adds t b₁ t₁
  second : Adds t b₂ t₂
  firstSecond : Adds t₁ b₂ t₁₂
  secondFirst : Adds t₂ b₁ t₂₁
  size₁ : t.size + m₁ = t₁.size
  size₂ : t.size + m₂ = t₂.size
  past₁ : Gapped t.size m₁ b₂.names t₂ t₁₂
  past₂ : Gapped t.size m₂ b₁.names t₁ t₂₁

namespace Orders

variable (h : Orders t b₁ b₂ t₁ t₂ t₁₂ t₂₁ m₁ m₂)

include h

theorem root_literals (n : String) :
    (t₂₁.node root).literals.find? n =
      ((t₁₂.node root).literals.find? n).map (swapBlocks t.size m₁ m₂) := by
  obtain ⟨_, hg⟩ := h.grown
  obtain ⟨_, hg₁⟩ := h.first.grown
  obtain ⟨_, hg₂⟩ := h.second.grown
  by_cases hn₁ : n ∈ b₁.names
  · have hn₂ : n ∉ b₂.names := fun hn₂ => h.disjoint hn₁ hn₂
    rw [h.secondFirst.widened.same n hn₁, h.firstSecond.widened.literal n hn₂,
      h.first.widened.same n hn₁, h.past₂.child n hn₁]
    refine Option.map_congr fun c hc => (swapBlocks_eq_pastGap ?_).symm
    rw [h.size₁]
    exact (hg₁.filed.child_lt hc).1
  · rw [h.secondFirst.widened.literal n hn₁]
    by_cases hn₂ : n ∈ b₂.names
    · rw [h.firstSecond.widened.same n hn₂, h.second.widened.same n hn₂, h.past₁.child n hn₂,
        Option.map_map]
      refine (optionMap_eq_self fun c hc => swapBlocks_pastGap ?_).symm
      rw [h.size₂]
      exact (hg₂.filed.child_lt hc).1
    · rw [h.firstSecond.widened.literal n hn₂, h.second.widened.literal n hn₂,
        h.first.widened.literal n hn₁]
      refine (optionMap_eq_self fun c hc => swapBlocks_of_lt ?_).symm
      exact (hg.refersTo root).literal _ (Keyed.mem_entries_of_find? hc)

theorem root_isRenamed :
    (t₁₂.node root).IsRenamed (swapBlocks t.size m₁ m₂) (t₂₁.node root) := by
  obtain ⟨_, hg⟩ := h.grown
  obtain ⟨_, hg₁⟩ := h.first.grown
  obtain ⟨_, hg₂⟩ := h.second.grown
  have hadopts : (t.node root).Adopts (t₁₂.node root) :=
    (h.first.confined.parent (Nat.not_le.2 hg.root_first.1)).trans
      (h.firstSecond.confined.parent (Nat.not_le.2 hg₁.root_first.1))
  have hadopts' : (t.node root).Adopts (t₂₁.node root) :=
    (h.second.confined.parent (Nat.not_le.2 hg.root_first.1)).trans
      (h.secondFirst.confined.parent (Nat.not_le.2 hg₂.root_first.1))
  have hrefers := hg.refersTo root
  refine ⟨hadopts'.kind.trans hadopts.kind.symm, hadopts'.gates.trans hadopts.gates.symm,
    hadopts'.command.trans hadopts.command.symm, ?_, fun n => ?_, h.root_literals, ?_⟩
  · rw [hadopts'.forward, hadopts.forward, hg.root_plain.2.1]
    rfl
  · rw [hadopts'.options, hadopts.options]
    refine (optionMap_eq_self fun c hc => swapBlocks_of_lt ?_).symm
    exact hrefers.option _ (Keyed.mem_entries_of_find? hc)
  · rw [h.secondFirst.widened.arguments, h.second.widened.arguments,
      h.firstSecond.widened.arguments, h.first.widened.arguments]
    exact (List.map_congr_left fun c hc => swapBlocks_of_lt (hrefers.argument c hc)).trans
      (List.map_id' _) |>.symm

theorem isRenamed (id : NodeId) :
    (t₁₂.node id).IsRenamed (swapBlocks t.size m₁ m₂)
      (t₂₁.node (swapBlocks t.size m₁ m₂ id)) := by
  obtain ⟨_, hg⟩ := h.grown
  obtain ⟨_, hg₁⟩ := h.first.grown
  obtain ⟨_, hg₂⟩ := h.second.grown
  have hsize₁ := h.size₁
  have hsize₂ := h.size₂
  suffices hnode : id = root ∨ t₂₁.node (swapBlocks t.size m₁ m₂ id) =
      (t₁₂.node id).rename (swapBlocks t.size m₁ m₂) by
    rcases hnode with rfl | hnode
    · have hroot : swapBlocks t.size m₁ m₂ root = root := swapBlocks_of_lt hg.root_first.1
      rw [hroot]
      exact h.root_isRenamed
    · rw [hnode]
      exact Node.isRenamed_rename _ _
  rcases eq_or_ne id root with rfl | hne
  · exact Or.inl rfl
  refine Or.inr ?_
  rcases Nat.lt_or_ge id t.size with hold | hnew
  · -- an old node
    rw [swapBlocks_of_lt hold,
      h.firstSecond.node (Nat.lt_of_lt_of_le hold h.first.confined.size) hne,
      h.secondFirst.node (Nat.lt_of_lt_of_le hold h.second.confined.size) hne,
      h.first.node hold hne, h.second.node hold hne]
    exact (Node.rename_eq_self ((hg.refersTo id).mono fun _ => swapBlocks_of_lt)).symm
  · rcases Nat.lt_or_ge id t₁.size with hfirst | hbehind
    · -- a node of the first literal
      rw [swapBlocks_first hnew (hsize₁ ▸ hfirst), h.past₂.node id hnew,
        h.firstSecond.node hfirst hne]
      refine Node.rename_congr ((hg₁.refersTo id).mono fun c hc => ?_)
      exact (swapBlocks_eq_pastGap (hsize₁ ▸ hc)).symm
    · obtain ⟨j, rfl⟩ : ∃ j, id = j + m₁ := ⟨id - m₁, (Nat.sub_add_cancel (by omega)).symm⟩
      have hj : t.size ≤ j := by omega
      rcases Nat.lt_or_ge j t₂.size with hsecond | hend
      · -- a node of the second literal
        rw [swapBlocks_second hj (hsize₂ ▸ hsecond), h.past₁.node j hj, Node.rename_rename,
          h.secondFirst.node hsecond (h.past₁.root_ne hj).symm]
        refine (Node.rename_eq_self ((hg₂.refersTo j).mono fun c hc => ?_)).symm
        exact swapBlocks_pastGap (hsize₂ ▸ hc)
      · have hsize := h.past₁.size
        have hsize' := h.past₂.size
        rw [swapBlocks_of_le (by omega), node_of_size_le (by omega), node_of_size_le (by omega)]
        rfl

end Orders

/-! ### Either order -/

section Literals

variable (hkind₁ : b₁.kind = .literal name others) (hkind₂ : b₂.kind = .literal name' others')
  (hdisjoint : b₁.names.Disjoint b₂.names)

include hkind₁ hkind₂ hdisjoint

theorem orders_add? (hg : Grown t layer)
    (hnew₁ : ∀ n ∈ b₁.names, (t.node root).child? n = none)
    (hnew₂ : ∀ n ∈ b₂.names, (t.node root).child? n = none)
    (haims₁ : b₁.AimsBelow t.size) (haims₂ : b₂.AimsBelow t.size)
    {ids₁ ids₂ : NodeId × List NodeId} (h₁ : t.add? root b₁ = .ok (t₁, ids₁))
    (h₁₂ : t₁.add? root b₂ = .ok (t₁₂, ids₂)) :
    ∃ t₂ t₂₁ ids₂' ids₁' m₁ m₂, t.add? root b₂ = .ok (t₂, ids₂') ∧
      t₂.add? root b₁ = .ok (t₂₁, ids₁') ∧ Orders t b₁ b₂ t₁ t₂ t₁₂ t₂₁ m₁ m₂ := by
  have ha₁ := adds_add? hg hkind₁ hnew₁ h₁
  obtain ⟨_, hg₁⟩ := ha₁.grown
  have hs₁ : t.size + (t₁.size - t.size) = t₁.size := Nat.add_sub_cancel' ha₁.confined.size
  have hgap₁ := gapped_of_widened hg hs₁ ha₁.widened hdisjoint hnew₂
  have hroot : ∀ m, pastGap t.size m root = root := fun m => pastGap_of_lt hg.root_first.1
  -- the second literal is built without the first one too
  have hagree₂ := gapped_add? hgap₁ (Or.inl ⟨rfl, List.Subset.refl _⟩) haims₂
  rw [hroot, h₁₂] at hagree₂
  obtain ⟨⟨t₂, ids₂'⟩, h₂, hpast₁⟩ := hagree₂.of_ok_right
  have ha₂ := adds_add? hg hkind₂ hnew₂ h₂
  obtain ⟨_, hg₂⟩ := ha₂.grown
  have hs₂ : t.size + (t₂.size - t.size) = t₂.size := Nat.add_sub_cancel' ha₂.confined.size
  have hgap₂ := gapped_of_widened hg hs₂ ha₂.widened (List.disjoint_symm hdisjoint) hnew₁
  -- and the first one behind it
  have hagree₁ := gapped_add? hgap₂ (Or.inl ⟨rfl, List.Subset.refl _⟩) haims₁
  rw [hroot, h₁] at hagree₁
  obtain ⟨⟨t₂₁, ids₁'⟩, h₂₁, hpast₂⟩ := hagree₁.of_ok_left
  refine ⟨t₂, t₂₁, ids₂', ids₁', _, _, h₂, h₂₁, ⟨layer, hg⟩, hdisjoint, ha₁, ha₂,
    adds_add? hg₁ hkind₂ (fun n hn => ?_) h₁₂, adds_add? hg₂ hkind₁ (fun n hn => ?_) h₂₁, hs₁, hs₂,
    hpast₁, hpast₂⟩
  · rw [ha₁.widened.child n fun hn' => hdisjoint hn' hn, hnew₂ n hn]
  · rw [ha₂.widened.child n fun hn' => hdisjoint hn hn', hnew₁ n hn]

/-- Two literals with different names, that are new and redirect to old nodes only, may be
registered in either order: the two dispatchers parse every line alike, but for the numbers of the
new nodes. -/
theorem register?_either_order {d d₁ d₁₂ : Dispatcher L} {id₁ id₂ : NodeId}
    (ht : d.tree.Reachable) (hnew₁ : ∀ n ∈ b₁.names, (d.tree.node root).child? n = none)
    (hnew₂ : ∀ n ∈ b₂.names, (d.tree.node root).child? n = none)
    (haims₁ : b₁.AimsBelow d.tree.size) (haims₂ : b₂.AimsBelow d.tree.size)
    (h₁ : d.register? b₁ = .ok (d₁, id₁)) (h₁₂ : d₁.register? b₂ = .ok (d₁₂, id₂)) :
    ∃ (d₂ d₂₁ : Dispatcher L) (id₂' id₁' : NodeId) (h : NodeId → NodeId),
      d.register? b₂ = .ok (d₂, id₂') ∧ d₂.register? b₁ = .ok (d₂₁, id₁') ∧
      Function.Bijective h ∧ (∀ id < d.tree.size, h id = id) ∧
      ∀ line source,
        let p := d₁₂.tree.parse line source
        let p' := d₂₁.tree.parse line source
        p' = p.rename h ∧ p'.isComplete = p.isComplete ∧ p'.reader = p.reader ∧
          p'.chain.last.command = p.chain.last.command ∧ p'.failure = p.failure := by
  obtain ⟨layer, hg⟩ := ht.grown
  obtain ⟨⟨t₁, ids₁⟩, hadd₁, hd₁⟩ := bind_eq_ok.1 h₁
  obtain ⟨rfl, rfl⟩ := Prod.mk.inj (Except.ok.inj hd₁)
  obtain ⟨⟨t₁₂, ids₂⟩, hadd₁₂, hd₁₂⟩ := bind_eq_ok.1 h₁₂
  obtain ⟨rfl, rfl⟩ := Prod.mk.inj (Except.ok.inj hd₁₂)
  obtain ⟨t₂, t₂₁, ids₂', ids₁', m₁, m₂, hadd₂, hadd₂₁, horders⟩ :=
    orders_add? hkind₁ hkind₂ hdisjoint hg hnew₁ hnew₂ haims₁ haims₂ hadd₁ hadd₁₂
  have hbijective := swapBlocks_bijective d.tree.size m₁ m₂
  refine ⟨{ d with tree := t₂ }, { d with tree := t₂₁ }, ids₂'.1, ids₁'.1, _,
    bind_eq_ok.2 ⟨_, hadd₂, rfl⟩, bind_eq_ok.2 ⟨_, hadd₂₁, rfl⟩, hbijective,
    fun id => swapBlocks_of_lt, fun line source => ?_⟩
  have hroot : swapBlocks d.tree.size m₁ m₂ root = root := swapBlocks_of_lt hg.root_first.1
  have houtcomes := outcomes_parse hbijective.injective horders.isRenamed hroot line source
  exact ⟨parse_rename hbijective.injective horders.isRenamed hroot line source,
    houtcomes.isComplete_eq, houtcomes.reader.symm, houtcomes.chain.last_command,
    houtcomes.failure.symm⟩

end Literals

/-- A literal with a second name and a child. -/
def shouting : Blueprint .builtins :=
  { Blueprint.bare (.literal "shout" ["yell"]) with
    children := [(Blueprint.argument "text" Builtin.greedy).executes ()] }

/-- A literal that leads back to the root. -/
def again : Blueprint .builtins :=
  { Blueprint.literal "again" with forward := some ⟨root, none, false⟩ }

def registered (d : Dispatcher .builtins) (b : Blueprint .builtins) : Dispatcher .builtins :=
  match d.register? b with
  | .ok (d, _) => d
  | .error _ => d

theorem aimsBelow_of_leaf (hforward : b.forward = none) (hchildren : b.children = []) :
    b.AimsBelow k := by
  rw [Blueprint.aimsBelow_iff, hforward, hchildren]
  unfold Blueprint.AllAimBelow
  exact ⟨fun _ hf => (by cases hf), trivial⟩

theorem register?_either_order_lamp :
    ∃ (d₂ d₂₁ : Dispatcher .builtins) (id₂' id₁' : NodeId) (h : NodeId → NodeId),
      (⟨lamp, []⟩ : Dispatcher .builtins).register? again = .ok (d₂, id₂') ∧
      d₂.register? shouting = .ok (d₂₁, id₁') ∧
      Function.Bijective h ∧ (∀ id < lamp.size, h id = id) ∧
      ∀ line source,
        let p := (registered (registered ⟨lamp, []⟩ shouting) again).tree.parse line source
        let p' := d₂₁.tree.parse line source
        p' = p.rename h ∧ p'.isComplete = p.isComplete ∧ p'.reader = p.reader ∧
          p'.chain.last.command = p.chain.last.command ∧ p'.failure = p.failure := by
  have ht : lamp.Reachable := reachable_built _
  have haims₁ : shouting.AimsBelow lamp.size := by
    refine Blueprint.aimsBelow_iff.2 ⟨fun _ hf => (by cases hf), ?_⟩
    exact ⟨aimsBelow_of_leaf rfl rfl, trivial⟩
  have haims₂ : again.AimsBelow lamp.size := by
    refine Blueprint.aimsBelow_iff.2 ⟨fun f hf => ?_, trivial⟩
    obtain rfl := Option.some.inj hf
    decide +kernel
  have hnames : ∀ n ∈ shouting.names, n ∉ again.names := by decide
  have h₁ : (⟨lamp, []⟩ : Dispatcher .builtins).register? shouting =
      .ok (registered ⟨lamp, []⟩ shouting, 3) := rfl
  have h₁₂ : (registered ⟨lamp, []⟩ shouting).register? again =
      .ok (registered (registered ⟨lamp, []⟩ shouting) again, 6) := rfl
  exact register?_either_order rfl rfl (fun n h h' => hnames n h h') ht (by decide +kernel)
    (by decide +kernel) haims₁ haims₂ h₁ h₁₂

end CommandTree

end CommandConsole
