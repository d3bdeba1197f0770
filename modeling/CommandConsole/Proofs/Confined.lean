import CommandConsole.Proofs.Edits
import CommandConsole.Proofs.Filing

/-!
# Where building takes effect

Building a blueprint below a node changes that node, by children that it gets, and nodes that it
comes to on the way down under the names of the blueprint. A set of nodes that these names lead
into, and that no child leads out of, holds all other nodes that change.
-/

namespace CommandConsole

variable {L : Language}

/-! ### Nodes and names -/

/-- Whether a node differs from what it was at most in its children. -/
def Node.Adopts (n n' : Node L) : Prop :=
  ∃ children literals arguments,
    n' = { n with children := children, literals := literals, arguments := arguments }

namespace Node.Adopts

theorem refl (n : Node L) : n.Adopts n := ⟨n.children, n.literals, n.arguments, rfl⟩

theorem trans {n n' n'' : Node L} (h : n.Adopts n') (h' : n'.Adopts n'') : n.Adopts n'' := by
  obtain ⟨_, _, _, rfl⟩ := h
  obtain ⟨children, literals, arguments, rfl⟩ := h'
  exact ⟨children, literals, arguments, rfl⟩

theorem attach (n : Node L) (name : String) (child : NodeId) (isLiteral : Bool) :
    n.Adopts (n.attach name child isLiteral) := by
  unfold Node.attach
  split
  · exact ⟨_, _, n.arguments, rfl⟩
  · exact ⟨_, n.literals, _, rfl⟩

variable {n n' : Node L} (h : n.Adopts n')

include h

theorem kind : n'.kind = n.kind := by
  obtain ⟨_, _, _, rfl⟩ := h
  rfl

theorem gates : n'.gates = n.gates := by
  obtain ⟨_, _, _, rfl⟩ := h
  rfl

theorem command : n'.command = n.command := by
  obtain ⟨_, _, _, rfl⟩ := h
  rfl

theorem forward : n'.forward = n.forward := by
  obtain ⟨_, _, _, rfl⟩ := h
  rfl

theorem options : n'.options = n.options := by
  obtain ⟨_, _, _, rfl⟩ := h
  rfl

end Node.Adopts

def Blueprint.names (b : Blueprint L) : List String :=
  match CommandTree.names? b.kind with
  | .ok (name, others) => name :: others
  | .error _ => []

theorem Blueprint.names_eq {b : Blueprint L} {name : String} {others : List String}
    (h : CommandTree.names? b.kind = .ok (name, others)) : b.names = name :: others := by
  unfold names
  rw [h]

namespace CommandTree

variable {t t' t'' : CommandTree L} {S : NodeId → Prop} {parent first id : NodeId}
  {rest : List NodeId} {b : Blueprint L} {bs : List (Blueprint L)} {names : List String}

/-! ### Nodes after an edit -/

theorem node_push_update (t : CommandTree L) (n : Node L) (f : Node L → Node L) {id : NodeId}
    (hid : id < t.size) (m : NodeId) :
    ((t.push n).1.update id f).node m =
      if m = id then f (t.node id) else if m = t.size then n else t.node m := by
  rcases node_update_cases (t.push n).1 id f m with heq | ⟨rfl, heq⟩
  · by_cases hm : m = id
    · rw [hm, node_update _ _ (by rw [size_push]; exact Nat.lt_succ_of_lt hid), if_pos rfl,
        if_pos rfl, node_push, if_neg (Nat.ne_of_lt hid)]
    · rw [heq, if_neg hm, node_push]
  · rw [heq, if_pos rfl, node_push, if_neg (Nat.ne_of_lt hid)]

theorem node_foldl_share_of_not_mem (t : CommandTree L) (shared : Node L) {others : List NodeId}
    (h : id ∉ others) :
    (others.foldl (fun t other => t.update other (·.shareBranches shared)) t).node id =
      t.node id := by
  induction others generalizing t with
  | nil => rfl
  | cons other others ih =>
    obtain ⟨hne, hrest⟩ := not_or.1 (mt List.mem_cons.2 h)
    have hone := (node_update_cases t other (·.shareBranches shared) id).resolve_right
      fun h => hne h.1
    exact (ih _ hrest).trans hone

theorem node_foldl_share_of_mem (t : CommandTree L) (shared : Node L) {others : List NodeId}
    (hothers : others.Nodup) (h : id ∈ others) (hid : id < t.size) :
    (others.foldl (fun t other => t.update other (·.shareBranches shared)) t).node id =
      (t.node id).shareBranches shared := by
  induction others generalizing t with
  | nil => cases h
  | cons other others ih =>
    obtain ⟨hno, hothers⟩ := List.nodup_cons.1 hothers
    rw [List.foldl_cons]
    rcases List.mem_cons.1 h with rfl | h
    · rw [node_foldl_share_of_not_mem _ shared hno, node_update t _ hid, if_pos rfl]
    · have hne : id ≠ other := fun heq => hno (heq ▸ h)
      rw [ih _ hothers h (by rwa [size_update]),
        (node_update_cases t other (·.shareBranches shared) id).resolve_right fun h => hne h.1]

theorem size_shareAll (t : CommandTree L) (first : NodeId) (others : List NodeId) :
    (t.shareAll first others).size = t.size := by
  unfold shareAll
  generalize t.node first = shared
  induction others generalizing t with
  | nil => rfl
  | cons other others ih => exact (ih _).trans (size_update ..)

theorem node_shareAll_of_not_mem (t : CommandTree L) (first : NodeId) {others : List NodeId}
    (h : id ∉ others) : (t.shareAll first others).node id = t.node id :=
  node_foldl_share_of_not_mem t (t.node first) h

theorem node_shareAll_of_mem (t : CommandTree L) (first : NodeId) {others : List NodeId}
    (hothers : others.Nodup) (h : id ∈ others) (hid : id < t.size) :
    (t.shareAll first others).node id = (t.node id).shareBranches (t.node first) :=
  node_foldl_share_of_mem t (t.node first) hothers h hid

theorem addOptions?_frame {os : List (Blueprint L)} (h : t.addOptions? id os = .ok t') :
    t.size ≤ t'.size ∧ (∀ m < t.size, m ≠ id → t'.node m = t.node m) ∧
      (∀ m name, (t'.node m).child? name = (t.node m).child? name) ∧
      ∃ options, t'.node id = { t.node id with options := options } := by
  refine addOptions?_invariant (I := fun s => t.size ≤ s.size ∧
    (∀ m < t.size, m ≠ id → s.node m = t.node m) ∧
    (∀ m name, (s.node m).child? name = (t.node m).child? name) ∧
    ∃ options, s.node id = { t.node id with options := options }) ?_
    ⟨Nat.le_refl _, fun _ _ _ => rfl, fun _ _ => rfl, (t.node id).options, rfl⟩ h
  rintro s s' o option ⟨hsize, hother, hchild, options, hid⟩ ho
  obtain ⟨hlt, name, type, -, rfl⟩ := addOption?_eq_ok ho
  have hnode := node_push_update s (optionNode name type o.gates) (·.giveOption name s.size) hlt
  refine ⟨?_, fun m hm hne => ?_, fun m name' => ?_, options.insert name s.size, ?_⟩
  · rw [size_update, size_push]
    exact Nat.le_succ_of_le hsize
  · rw [hnode, if_neg hne, if_neg (Nat.ne_of_lt (Nat.lt_of_lt_of_le hm hsize)), hother m hm hne]
  · rw [← hchild, hnode]
    split
    · next heq =>
      rw [heq]
      rfl
    · split
      · next heq =>
        rw [heq, node_of_size_le (Nat.le_refl _)]
        rfl
      · rfl
  · rw [hnode, if_pos rfl, hid]
    rfl

/-! ### Sets that building stays in -/

/-- Whether a set has all nodes to come and all children of its nodes. -/
structure Closed (S : NodeId → Prop) (t : CommandTree L) : Prop where
  new : ∀ id, t.size ≤ id → S id
  child : ∀ id, S id → ∀ e ∈ (t.node id).children.entries, S e.2

/-- Whether names lead from a node into a set. -/
def LeadsInto (S : NodeId → Prop) (t : CommandTree L) (parent : NodeId) (names : List String) :
    Prop :=
  ∀ name ∈ names, ∀ c, (t.node parent).child? name = some c → S c

/-- Whether only nodes of a set, and the children of one more node, differ between two trees. -/
structure Confined (S : NodeId → Prop) (parent : NodeId) (names : List String)
    (t t' : CommandTree L) : Prop where
  size : t.size ≤ t'.size
  closed : Closed S t'
  into : LeadsInto S t' parent names
  node : ∀ id, ¬S id → id ≠ parent → t'.node id = t.node id
  parent : ¬S parent → (t.node parent).Adopts (t'.node parent)

theorem Confined.refl (h : Closed S t) (hp : LeadsInto S t parent names) :
    Confined S parent names t t :=
  ⟨Nat.le_refl _, h, hp, fun _ _ _ => rfl, fun _ => .refl _⟩

theorem Confined.trans (h : Confined S parent names t t') (h' : Confined S parent names t' t'') :
    Confined S parent names t t'' where
  size := Nat.le_trans h.size h'.size
  closed := h'.closed
  into := h'.into
  node id hid hne := (h'.node id hid hne).trans (h.node id hid hne)
  parent hp := (h.parent hp).trans (h'.parent hp)

theorem Confined.update (h : Closed S t) (hp : LeadsInto S t parent names) (hid : S id)
    {f : Node L → Node L} (hf : ∀ e ∈ (f (t.node id)).children.entries, S e.2) :
    Confined S parent names t (t.update id f) where
  size := Nat.le_of_eq (size_update t id f).symm
  closed := by
    refine ⟨fun m hm => h.new m (by rwa [size_update] at hm), fun m hm => ?_⟩
    rcases node_update_cases t id f m with heq | ⟨rfl, heq⟩
    · rw [heq]
      exact h.child m hm
    · rw [heq]
      exact hf
  into name hname c hc := by
    rcases node_update_cases t id f parent with heq | ⟨rfl, heq⟩
    · rw [heq] at hc
      exact hp name hname c hc
    · rw [heq] at hc
      exact hf _ (Keyed.mem_entries_of_find? hc)
  node m hm _ := (node_update_cases t id f m).resolve_right fun heq => hm (heq.1 ▸ hid)
  parent hno := by
    rw [(node_update_cases t id f parent).resolve_right fun heq => hno (heq.1 ▸ hid)]
    exact .refl _

theorem Confined.push_update (h : Closed S t) (hp : LeadsInto S t parent names)
    (hid : id < t.size) {n : Node L} (hn : n.children = .empty) {f : Node L → Node L}
    (hf : (f (t.node id)).children = (t.node id).children ∨
      ∃ name, (f (t.node id)).children = (t.node id).children.insert name t.size)
    (hmine : S id ∨ id = parent ∧ (t.node id).Adopts (f (t.node id))) :
    Confined S parent names t ((t.push n).1.update id f) := by
  have hnode := node_push_update t n f hid
  have hsize : t.size ≤ ((t.push n).1.update id f).size := by
    rw [size_update, size_push]
    exact Nat.le_succ _
  have hnew : S t.size := h.new _ (Nat.le_refl _)
  have hentries : ∀ e ∈ (f (t.node id)).children.entries,
      S e.2 ∨ e ∈ (t.node id).children.entries := by
    intro e he
    rcases hf with heq | ⟨name, heq⟩
    · exact Or.inr (heq ▸ he)
    · rw [heq] at he
      exact (Keyed.mem_entries_insert he).imp_left fun heq : e = (name, t.size) => heq ▸ hnew
  have hfound : ∀ name c, (f (t.node id)).child? name = some c →
      S c ∨ (t.node id).child? name = some c := by
    intro name c hc
    unfold Node.child? at hc
    rcases hf with heq | ⟨name', heq⟩
    · rw [heq] at hc
      exact Or.inr hc
    · rw [heq, Keyed.find?_insert] at hc
      split at hc
      · exact Or.inl (Option.some.inj hc ▸ hnew)
      · exact Or.inr hc
  refine ⟨hsize, ⟨fun m hm => h.new m (Nat.le_trans hsize hm), fun m hm e he => ?_⟩,
    fun name hname c hc => ?_, fun m hm hne => ?_, fun hno => ?_⟩
  · rw [hnode] at he
    split at he
    · next heq => exact (hentries e he).elim (·) (h.child id (heq ▸ hm) e)
    · split at he
      · rw [hn] at he
        cases he
      · exact h.child m hm e he
  · rw [hnode] at hc
    split at hc
    · next heq => exact (hfound name c hc).elim (·) fun hc => hp name hname c (heq ▸ hc)
    · split at hc
      · rw [Node.child?, hn] at hc
        cases hc
      · exact hp name hname c hc
  · have hother : m ≠ id := by
      rintro rfl
      exact hmine.elim hm fun heq => hne heq.1
    have hold : m ≠ t.size := by
      rintro rfl
      exact hm hnew
    rw [hnode, if_neg hother, if_neg hold]
  · rw [hnode]
    split
    · next heq =>
      obtain rfl := heq
      exact (hmine.resolve_left hno).2
    · have hold : parent ≠ t.size := by
        rintro rfl
        exact hno hnew
      rw [if_neg hold]
      exact .refl _

/-! ### Building stays in a set -/

theorem confined_buildName? (h : Closed S t) (hp : LeadsInto S t parent names) {name : String}
    (hname : name ∈ names) (hb : t.buildName? parent b b.kind name = .ok (t', id)) :
    Confined S parent names t t' ∧ S id := by
  obtain ⟨above, habove, ⟨merged, hn, hm, rfl⟩ | ⟨kind, hn, hk, rfl, rfl⟩⟩ := buildName?_eq_ok hb
  · rw [← node_of_node? habove] at hn
    have hid : S id := hp name hname id hn
    refine ⟨Confined.update h hp hid ?_, hid⟩
    rw [mergeInto?_eq_ok hm]
    exact h.child id hid
  · exact ⟨Confined.push_update h hp (lt_size_of_node? habove) rfl
      (Or.inr ⟨name, Node.children_attach ..⟩) (Or.inr ⟨rfl, .attach ..⟩),
      h.new _ (Nat.le_refl _)⟩

theorem confined_buildNames? (h : Closed S t) (hp : LeadsInto S t parent names)
    {more : List String} (hmore : more ⊆ names) {ids : List NodeId}
    (hb : buildNames? parent b b.kind t more = .ok (t', ids)) :
    Confined S parent names t t' ∧ ∀ id ∈ ids, S id := by
  induction more generalizing t ids with
  | nil =>
    obtain ⟨rfl, rfl⟩ := Prod.mk.inj (Except.ok.inj hb)
    exact ⟨.refl h hp, fun _ hid => (List.not_mem_nil hid).elim⟩
  | cons name more ih =>
    obtain ⟨⟨t₁, id⟩, h₁, hb⟩ := bind_eq_ok.1 hb
    obtain ⟨⟨t₂, ids⟩, h₂, hb⟩ := bind_eq_ok.1 hb
    obtain ⟨rfl, rfl⟩ := Prod.mk.inj (Except.ok.inj hb)
    obtain ⟨hfirst, hid⟩ := confined_buildName? h hp (hmore List.mem_cons_self) h₁
    obtain ⟨hrest, hids⟩ := ih hfirst.closed hfirst.into
      (fun n hn => hmore (List.mem_cons_of_mem _ hn)) h₂
    exact ⟨hfirst.trans hrest, List.forall_mem_cons.2 ⟨hid, hids⟩⟩

theorem confined_addOptions? (h : Closed S t) (hp : LeadsInto S t parent names) (hid : S id)
    {os : List (Blueprint L)} (hb : t.addOptions? id os = .ok t') :
    Confined S parent names t t' := by
  refine addOptions?_invariant (I := fun s => Confined S parent names t s) ?_ (.refl h hp) hb
  rintro s s' o option hs ho
  obtain ⟨hlt, name, type, -, rfl⟩ := addOption?_eq_ok ho
  exact hs.trans (.push_update hs.closed hs.into hlt rfl (Or.inl rfl) (Or.inl hid))

theorem confined_shareAll (h : Closed S t) (hp : LeadsInto S t parent names) (hfirst : S first)
    (hrest : ∀ id ∈ rest, S id) : Confined S parent names t (t.shareAll first rest) := by
  have hshared : ∀ e ∈ (t.node first).children.entries, S e.2 := h.child first hfirst
  unfold shareAll
  generalize t.node first = shared at hshared
  induction rest generalizing t with
  | nil => exact .refl h hp
  | cons other rest ih =>
    obtain ⟨hother, hrest⟩ := List.forall_mem_cons.1 hrest
    have hone := Confined.update h hp hother (f := (·.shareBranches shared)) fun e he =>
      (Keyed.mem_entries_extend he).elim (h.child other hother e) (hshared e)
    exact hone.trans (ih hone.closed hone.into hrest)

theorem Closed.leadsInto (h : Closed S t) (hid : S id) : LeadsInto S t id names :=
  fun _ _ _ hc => h.child id hid _ (Keyed.mem_entries_of_find? hc)

theorem Confined.of_below (hid : S id) {more : List String} (hp : LeadsInto S t parent names)
    (h : Confined S id more t t') : Confined S parent names t t' := by
  have hnode : ∀ m, ¬S m → t'.node m = t.node m := by
    refine fun m hm => h.node m hm ?_
    rintro rfl
    exact hm hid
  refine ⟨h.size, h.closed, ?_, fun m hm _ => hnode m hm, fun hno => ?_⟩
  · by_cases hparent : S parent
    · exact h.closed.leadsInto hparent
    · unfold LeadsInto
      rw [hnode parent hparent]
      exact hp
  · rw [hnode parent hno]
    exact .refl _

mutual

/-- Building below a node changes nothing outside of a set that the names of the blueprint lead
into, but for the children of the node. -/
theorem confined_add? {t t' : CommandTree L} (h : Closed S t) {parent first : NodeId}
    {rest : List NodeId} {names : List String} (hp : LeadsInto S t parent names) :
    ∀ {b : Blueprint L}, b.names ⊆ names → t.add? parent b = .ok (t', first, rest) →
      Confined S parent names t t' ∧ S first ∧ ∀ id ∈ rest, S id
  | ⟨kind, children, options, command, gates, forward⟩, hnames, hb => by
    obtain ⟨t₃, t₄, hplace, hall, rfl⟩ := add?_eq_ok hb
    obtain ⟨t₁, t₂, name, others, hc, hn, h₁, h₂, h₃⟩ := place?_eq_ok hplace
    rw [Blueprint.names_eq hn] at hnames
    obtain ⟨hc₁, hfirst⟩ := confined_buildName? h hp (hnames List.mem_cons_self) h₁
    obtain ⟨hc₂, hrest⟩ := confined_buildNames? hc₁.closed hc₁.into
      (fun n hn => hnames (List.mem_cons_of_mem _ hn)) h₂
    have hc₃ := confined_addOptions? hc₂.closed hc₂.into hfirst h₃
    have hbelow : Confined S first (children.flatMap Blueprint.names) t₃ t₄ :=
      confined_addAll? hc₃.closed (hc₃.closed.leadsInto hfirst) (List.Subset.refl _) hall
    have hc₄ := hbelow.of_below hfirst hc₃.into
    have hshare := confined_shareAll hc₄.closed hc₄.into hfirst hrest
    exact ⟨(((hc₁.trans hc₂).trans hc₃).trans hc₄).trans hshare, hfirst, hrest⟩

theorem confined_addAll? {t t' : CommandTree L} (h : Closed S t) {parent : NodeId}
    {names : List String} (hp : LeadsInto S t parent names) :
    ∀ {bs : List (Blueprint L)}, bs.flatMap Blueprint.names ⊆ names →
      t.addAll? parent bs = .ok t' → Confined S parent names t t'
  | [], _, hb => by
    unfold addAll? at hb
    obtain rfl := Except.ok.inj hb
    exact .refl h hp
  | b :: bs, hnames, hb => by
    obtain ⟨t₁, first, rest, h₁, h₂⟩ := addAll?_cons_eq_ok hb
    rw [List.flatMap_cons, List.append_subset] at hnames
    obtain ⟨hone, -⟩ := confined_add? h hp hnames.1 h₁
    exact hone.trans (confined_addAll? hone.closed hone.into hnames.2 h₂)

end

end CommandTree

end CommandConsole
