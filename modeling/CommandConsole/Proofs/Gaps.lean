import CommandConsole.Proofs.Alignment
import CommandConsole.Proofs.Confined
import CommandConsole.Proofs.Renaming

/-!
# Building past a gap

A blueprint is built in two trees, one of which has some more nodes behind the first ones: a gap in
the numbers as seen from the other tree. If its redirects go to the first nodes and its names lead
to none of them, it is built the same way in both trees, with the same errors and the same nodes,
but for their numbers, which are past the gap.
-/

namespace CommandConsole

variable {L : Language}

mutual

/-- Whether a blueprint and all below it redirect to nodes with lower numbers only. -/
def Blueprint.AimsBelow (k : Nat) : Blueprint L → Prop
  | ⟨_, children, _, _, _, forward⟩ =>
    (∀ f, forward = some f → f.target < k) ∧ AllAimBelow k children

def Blueprint.AllAimBelow (k : Nat) : List (Blueprint L) → Prop
  | [] => True
  | b :: bs => AimsBelow k b ∧ AllAimBelow k bs

end

theorem Blueprint.aimsBelow_iff {k : Nat} {b : Blueprint L} :
    b.AimsBelow k ↔ (∀ f, b.forward = some f → f.target < k) ∧ AllAimBelow k b.children := by
  obtain ⟨kind, children, options, command, gates, forward⟩ := b
  unfold AimsBelow
  rfl

namespace CommandTree

variable {t u v : CommandTree L} {k m : Nat} {names more : List String} {p id : NodeId}
  {b : Blueprint L} {name : String}

/-! ### Gaps -/

/-- The number of a node in the tree that has a number of nodes more. -/
def pastGap (k m : Nat) (id : NodeId) : NodeId := if id < k then id else id + m

theorem pastGap_of_lt (h : id < k) : pastGap k m id = id := if_pos h

theorem pastGap_of_le (h : k ≤ id) : pastGap k m id = id + m := if_neg (Nat.not_lt.2 h)

/-- Whether two trees are the same from a number on, but for a gap in the numbers, and so are the
children of their roots under some names. -/
structure Gapped (k m : Nat) (names : List String) (u v : CommandTree L) : Prop where
  root_lt : root < k
  base : k ≤ u.size
  size : v.size = u.size + m
  node : ∀ id, k ≤ id → v.node (id + m) = (u.node id).rename (pastGap k m)
  closed : Closed (k ≤ ·) u
  into : LeadsInto (k ≤ ·) u root names
  child : ∀ n ∈ names, (v.node root).child? n = ((u.node root).child? n).map (pastGap k m)
  options : (v.node root).options = (u.node root).options.map (pastGap k m)

/-- Whether a node is a place to build under some names: the root for some of the names that lead to
no old node, or a new node. -/
def IsSite (k : Nat) (names : List String) (p : NodeId) (more : List String) : Prop :=
  p = root ∧ more ⊆ names ∨ k ≤ p

namespace Gapped

variable (h : Gapped k m names u v)

include h

theorem root_ne (hid : k ≤ id) : root ≠ id := Nat.ne_of_lt (Nat.lt_of_lt_of_le h.root_lt hid)

theorem add_lt_iff : id + m < v.size ↔ id < u.size := by
  rw [h.size]
  exact Nat.add_lt_add_iff_right

theorem pastGap_lt_iff : pastGap k m p < v.size ↔ p < u.size := by
  rcases Nat.lt_or_ge p k with hlt | hge
  · rw [pastGap_of_lt hlt, h.size]
    have hbase := h.base
    exact ⟨fun _ => Nat.lt_of_lt_of_le hlt hbase, fun hp => Nat.lt_add_right m hp⟩
  · rw [pastGap_of_le hge, h.add_lt_iff]

theorem pastGap_size : pastGap k m u.size = v.size := by
  rw [pastGap_of_le h.base, h.size]

theorem site_child (hp : IsSite k names p more) {n : String} (hn : n ∈ more) :
    (v.node (pastGap k m p)).child? n = ((u.node p).child? n).map (pastGap k m) ∧
      ∀ c, (u.node p).child? n = some c → k ≤ c := by
  rcases hp with ⟨rfl, hmore⟩ | hp
  · rw [pastGap_of_lt h.root_lt]
    exact ⟨h.child n (hmore hn), h.into n (hmore hn)⟩
  · rw [pastGap_of_le hp, h.node p hp, Node.child?_rename]
    exact ⟨rfl, fun c hc => h.closed.child p hp _ (Keyed.mem_entries_of_find? hc)⟩

theorem site_options (hp : IsSite k names p more) :
    (v.node (pastGap k m p)).options = (u.node p).options.map (pastGap k m) := by
  rcases hp with ⟨rfl, -⟩ | hp
  · rw [pastGap_of_lt h.root_lt]
    exact h.options
  · rw [pastGap_of_le hp, h.node p hp]
    rfl

/-! ### Edits -/

theorem update (hid : k ≤ id) {f g : Node L → Node L}
    (hfg : g ((u.node id).rename (pastGap k m)) = (f (u.node id)).rename (pastGap k m))
    (hf : ∀ e ∈ (f (u.node id)).children.entries, k ≤ e.2) :
    Gapped k m names (u.update id f) (v.update (id + m) g) := by
  have hconfined := Confined.update h.closed h.into hid hf
  have hroot : (u.update id f).node root = u.node root :=
    (node_update_cases u id f root).resolve_right fun heq => h.root_ne hid heq.1
  have hroot' : (v.update (id + m) g).node root = v.node root :=
    (node_update_cases v (id + m) g root).resolve_right fun heq =>
      h.root_ne (Nat.le_add_right_of_le hid) heq.1
  refine ⟨h.root_lt, by rw [size_update]; exact h.base, by rw [size_update, size_update, h.size],
    fun i hi => ?_, hconfined.closed, hconfined.into, ?_, ?_⟩
  · rcases Nat.lt_or_ge i u.size with hlt | hge
    · rw [node_update u f hlt, node_update v g (h.add_lt_iff.2 hlt)]
      by_cases heq : id = i
      · rw [if_pos heq, if_pos (by rw [heq]), ← heq, h.node id hid, hfg]
      · rw [if_neg heq, if_neg (mt Nat.add_right_cancel heq), h.node i hi]
    · have hge' : v.size ≤ i + m := by
        rw [h.size]
        exact Nat.add_le_add_right hge m
      rw [node_of_size_le (by rwa [size_update]), node_of_size_le (by rwa [size_update])]
      rfl
  · rw [hroot, hroot']
    exact h.child
  · rw [hroot, hroot']
    exact h.options

theorem node_push_update {n : Node L} {f g : Node L → Node L} {p' : NodeId} (hp : p < u.size)
    (hp' : p' < v.size) (hsame : ∀ i, k ≤ i → (i = p ↔ i + m = p'))
    (hfg : k ≤ p → g (v.node p') = (f (u.node p)).rename (pastGap k m)) (i : NodeId) (hi : k ≤ i) :
    ((v.push (n.rename (pastGap k m))).1.update p' g).node (i + m) =
      (((u.push n).1.update p f).node i).rename (pastGap k m) := by
  rw [CommandTree.node_push_update u n f hp,
    CommandTree.node_push_update v (n.rename (pastGap k m)) g hp']
  by_cases heq : i = p
  · rw [if_pos heq, if_pos ((hsame i hi).1 heq), hfg (heq ▸ hi)]
  · rw [if_neg heq, if_neg (mt (hsame i hi).2 heq), h.size]
    by_cases hnew : i = u.size
    · rw [if_pos hnew, if_pos (by rw [hnew])]
    · rw [if_neg hnew, if_neg (mt Nat.add_right_cancel hnew), h.node i hi]

theorem push_update (hp : p < u.size) (hk : k ≤ p) {n : Node L} (hn : n.children = .empty)
    {f g : Node L → Node L}
    (hfg : g ((u.node p).rename (pastGap k m)) = (f (u.node p)).rename (pastGap k m))
    (hf : (f (u.node p)).children = (u.node p).children ∨
      ∃ name, (f (u.node p)).children = (u.node p).children.insert name u.size) :
    Gapped k m names ((u.push n).1.update p f)
      ((v.push (n.rename (pastGap k m))).1.update (p + m) g) := by
  have hp' := h.add_lt_iff.2 hp
  have hconfined := Confined.push_update h.closed h.into hp hn hf (Or.inl hk)
  have hroot : ((u.push n).1.update p f).node root = u.node root := by
    rw [CommandTree.node_push_update u n f hp, if_neg (h.root_ne hk), if_neg (h.root_ne h.base)]
  have hroot' : ((v.push (n.rename (pastGap k m))).1.update (p + m) g).node root =
      v.node root := by
    rw [CommandTree.node_push_update v _ g hp', if_neg (h.root_ne (Nat.le_add_right_of_le hk)),
      if_neg (h.root_ne (Nat.le_trans hk (Nat.le_trans (Nat.le_add_right p m) (Nat.le_of_lt hp'))))]
  refine ⟨h.root_lt, Nat.le_trans h.base hconfined.size,
    by rw [size_update, size_update, size_push, size_push, h.size, Nat.add_right_comm],
    h.node_push_update hp hp' (fun i _ => ⟨congrArg (· + m), Nat.add_right_cancel⟩)
      fun hk => by rw [h.node p hk, hfg], hconfined.closed, hconfined.into, ?_, ?_⟩
  · rw [hroot, hroot']
    exact h.child
  · rw [hroot, hroot']
    exact h.options

theorem attach_root {n : Node L} (hn : n.children = .empty) (name : String)
    (isLiteral : Bool) :
    Gapped k m names ((u.push n).1.update root (·.attach name u.size isLiteral))
      ((v.push (n.rename (pastGap k m))).1.update root (·.attach name v.size isLiteral)) := by
  have hp : root < u.size := Nat.lt_of_lt_of_le h.root_lt h.base
  have hp' : root < v.size := by
    rw [h.size]
    exact Nat.lt_add_right m hp
  have hconfined := Confined.push_update h.closed h.into hp hn
    (f := (·.attach name u.size isLiteral)) (Or.inr ⟨name, Node.children_attach ..⟩)
    (Or.inr ⟨rfl, .attach ..⟩)
  have hsame : ∀ i, k ≤ i → (i = root ↔ i + m = root) := fun i hi =>
    iff_of_false (h.root_ne hi).symm (h.root_ne (Nat.le_add_right_of_le hi)).symm
  refine ⟨h.root_lt, Nat.le_trans h.base hconfined.size,
    by rw [size_update, size_update, size_push, size_push, h.size, Nat.add_right_comm],
    h.node_push_update hp hp' hsame fun hk => absurd h.root_lt (Nat.not_lt.2 hk),
    hconfined.closed, hconfined.into, fun n' hn' => ?_, ?_⟩
  · rw [CommandTree.node_push_update u n _ hp, CommandTree.node_push_update v _ _ hp', if_pos rfl,
      if_pos rfl]
    unfold Node.child?
    rw [Node.children_attach, Node.children_attach, Keyed.find?_insert, Keyed.find?_insert]
    split
    · rw [Option.map_some, h.pastGap_size]
    · exact h.child n' hn'
  · rw [CommandTree.node_push_update u n _ hp, CommandTree.node_push_update v _ _ hp', if_pos rfl,
      if_pos rfl, Node.options_attach, Node.options_attach]
    exact h.options

end Gapped

/-! ### Building -/

theorem buildName?_of_lt (hp : p < t.size) (b : Blueprint L) (kind : BlueprintKind L)
    (name : String) :
    t.buildName? p b kind name =
      match (t.node p).child? name with
      | some existing => do
        let merged ← mergeInto? b name (t.node existing)
        return (t.update existing fun _ => merged, existing)
      | none => do
        let kind ← nodeKind? kind name
        return ((t.push (freshNode b kind (t.node p))).1.update p
          (·.attach name t.size kind.isLiteral), t.size) := by
  have hnode : t.node? p = some (t.node p) := by
    obtain ⟨n, hn⟩ : ∃ n, t.node? p = some n := ⟨_, Array.getElem?_eq_getElem hp⟩
    rw [hn, node_of_node? hn]
  unfold buildName?
  rw [hnode]
  rfl

theorem buildName?_of_le (hp : t.size ≤ p) (b : Blueprint L) (kind : BlueprintKind L)
    (name : String) : t.buildName? p b kind name = .error .missingNode := by
  have hnode : t.node? p = none := Array.getElem?_eq_none hp
  unfold buildName?
  rw [hnode]
  rfl

section Steps

variable (hb : ∀ f, b.forward = some f → f.target < k)

include hb

theorem rename_forward_eq : b.forward.map (·.rename (pastGap k m)) = b.forward := by
  cases hf : b.forward with
  | none => rfl
  | some f =>
    unfold Forward.rename
    rw [Option.map_some, pastGap_of_lt (hb f hf)]

theorem mergeInto?_rename (n : Node L) :
    mergeInto? b name (n.rename (pastGap k m)) =
      (mergeInto? b name n).map (·.rename (pastGap k m)) := by
  have hforward : (n.rename (pastGap k m)).forward.isSome = n.forward.isSome :=
    Option.isSome_map
  have hchildren : (n.rename (pastGap k m)).children.entries.isEmpty = n.children.entries.isEmpty :=
    Keyed.isEmpty_map ..
  unfold mergeInto?
  rw [hforward, hchildren]
  split
  · rfl
  · split
    · rfl
    · have hmerged : (b.forward <|> n.forward).map (·.rename (pastGap k m)) =
          (b.forward <|> n.forward.map (·.rename (pastGap k m))) := by
        have hkept := rename_forward_eq (m := m) hb
        cases hf : b.forward with
        | none => rfl
        | some f =>
          rw [hf] at hkept
          exact hkept
      unfold Node.rename
      dsimp only [Except.map]
      rw [hmerged]

theorem freshNode_rename {above above' : Node L}
    (h : above'.options = above.options.map (pastGap k m)) (kind : NodeKind L) :
    freshNode b kind above' = (freshNode b kind above).rename (pastGap k m) := by
  unfold freshNode Node.rename
  dsimp only
  rw [h, rename_forward_eq hb]
  rfl

theorem gapped_buildName? (h : Gapped k m names u v) (hsite : IsSite k names p more)
    (hname : name ∈ more) :
    Agree Eq (fun x y => Gapped k m names x.1 y.1 ∧ k ≤ x.2 ∧ y.2 = x.2 + m)
      (u.buildName? p b b.kind name) (v.buildName? (pastGap k m p) b b.kind name) := by
  rcases Nat.lt_or_ge p u.size with hp | hp
  · obtain ⟨hchild, hold⟩ := h.site_child hsite hname
    rw [buildName?_of_lt hp, buildName?_of_lt (h.pastGap_lt_iff.2 hp), hchild]
    cases hfound : (u.node p).child? name with
    | some existing =>
      have hk := hold existing hfound
      dsimp only [Option.map_some]
      rw [pastGap_of_le hk, h.node existing hk, mergeInto?_rename hb]
      cases hm : mergeInto? b name (u.node existing) with
      | error e => exact .error rfl
      | ok merged =>
        refine .ok ⟨h.update hk rfl ?_, hk, rfl⟩
        rw [mergeInto?_eq_ok hm]
        exact h.closed.child existing hk
    | none =>
      dsimp only [Option.map_none]
      cases nodeKind? b.kind name with
      | error e => exact .error rfl
      | ok kind =>
        refine .ok ⟨?_, h.base, h.size⟩
        dsimp only
        rw [freshNode_rename hb (h.site_options hsite)]
        rcases hsite with ⟨rfl, -⟩ | hk
        · rw [pastGap_of_lt h.root_lt]
          exact h.attach_root rfl name kind.isLiteral
        · rw [pastGap_of_le hk, h.size]
          refine h.push_update hp hk rfl ?_ (Or.inr ⟨name, Node.children_attach ..⟩)
          rw [Node.rename_attach, pastGap_of_le h.base]
  · have hp' : v.size ≤ pastGap k m p := Nat.not_lt.1 (mt h.pastGap_lt_iff.1 (Nat.not_lt.2 hp))
    rw [buildName?_of_le hp, buildName?_of_le hp']
    exact .error rfl

theorem gapped_buildNames? (h : Gapped k m names u v) (hsite : IsSite k names p more)
    {ns : List String} (hns : ns ⊆ more) :
    Agree Eq (fun x y => Gapped k m names x.1 y.1 ∧ (∀ id ∈ x.2, k ≤ id) ∧
        y.2 = x.2.map (· + m))
      (buildNames? p b b.kind u ns) (buildNames? (pastGap k m p) b b.kind v ns) := by
  induction ns generalizing u v with
  | nil => exact .ok ⟨h, fun _ hid => (List.not_mem_nil hid).elim, rfl⟩
  | cons n ns ih =>
    obtain ⟨hn, hns⟩ := List.cons_subset.1 hns
    refine (gapped_buildName? hb h hsite hn).bind ?_
    rintro ⟨u₁, id⟩ ⟨v₁, _⟩ ⟨h₁, hid, rfl⟩
    refine (ih h₁ hns).bind ?_
    rintro ⟨u₂, ids⟩ ⟨v₂, _⟩ ⟨h₂, hids, rfl⟩
    exact .ok ⟨h₂, List.forall_mem_cons.2 ⟨hid, hids⟩, rfl⟩

end Steps

theorem isNone_node?_iff : (t.node? id).isNone = true ↔ t.size ≤ id := by
  rw [Option.isNone_iff_eq_none]
  exact Array.getElem?_eq_none_iff

theorem gapped_addOption? (h : Gapped k m names u v) (hid : k ≤ id) (o : Blueprint L) :
    Agree Eq (fun x y => Gapped k m names x.1 y.1) (u.addOption? id o)
      (v.addOption? (id + m) o) := by
  have hmissing : (v.node? (id + m)).isNone = (u.node? id).isNone := by
    rw [Bool.eq_iff_iff, isNone_node?_iff, isNone_node?_iff, ← Nat.not_lt, ← Nat.not_lt,
      h.add_lt_iff]
  unfold addOption?
  split
  · rw [hmissing]
    split
    · exact .error rfl
    · split
      · exact .error rfl
      · next name type _ _ hsome =>
        rw [isNone_node?_iff, Nat.not_le] at hsome
        refine .ok (h.push_update (n := optionNode name type o.gates) hsome hid rfl
          (f := (·.giveOption name u.size)) (g := (·.giveOption name v.size)) ?_ (Or.inl rfl))
        rw [Node.rename_giveOption, h.pastGap_size]
  · exact .error rfl

theorem gapped_addOptions? (h : Gapped k m names u v) (hid : k ≤ id) (os : List (Blueprint L)) :
    Agree Eq (Gapped k m names) (u.addOptions? id os) (v.addOptions? (id + m) os) := by
  induction os generalizing u v with
  | nil => exact .ok h
  | cons o os ih =>
    refine (gapped_addOption? h hid o).bind ?_
    rintro ⟨u₁, _⟩ ⟨v₁, _⟩ h₁
    exact ih h₁

theorem Gapped.shareAll (h : Gapped k m names u v) {first : NodeId} (hfirst : k ≤ first)
    {rest : List NodeId} (hrest : ∀ id ∈ rest, k ≤ id) :
    Gapped k m names (u.shareAll first rest) (v.shareAll (first + m) (rest.map (· + m))) := by
  have hshared := h.closed.child first hfirst
  unfold CommandTree.shareAll
  rw [h.node first hfirst]
  generalize u.node first = shared at hshared
  induction rest generalizing u v with
  | nil => exact h
  | cons other rest ih =>
    obtain ⟨hother, hrest⟩ := List.forall_mem_cons.1 hrest
    refine ih (h.update hother (Node.rename_shareBranches ..).symm fun e he => ?_) hrest
    exact (Keyed.mem_entries_extend he).elim (h.closed.child other hother e) (hshared e)

mutual

theorem gapped_add? {u v : CommandTree L} (h : Gapped k m names u v) {p : NodeId} :
    ∀ {b : Blueprint L}, IsSite k names p b.names → b.AimsBelow k →
      Agree Eq (fun x y => Gapped k m names x.1 y.1) (u.add? p b) (v.add? (pastGap k m p) b)
  | ⟨kind, children, options, command, gates, forward⟩, hsite, hb => by
    obtain ⟨hforward, hchildren⟩ := Blueprint.aimsBelow_iff.1 hb
    have hcheck : ∀ {t : CommandTree L}, k ≤ t.size → t.checkTarget? forward = .ok () := by
      intro t hk
      cases forward with
      | none => rfl
      | some f => exact if_pos (Nat.lt_of_lt_of_le (hforward f rfl) hk)
    have hv : k ≤ v.size := by
      rw [h.size]
      exact Nat.le_add_right_of_le h.base
    unfold add?
    rw [hcheck h.base, hcheck hv]
    refine Agree.bind (R := fun _ _ => True) (.ok trivial) fun _ _ _ => ?_
    cases hn : names? kind with
    | error e => exact .error rfl
    | ok all =>
      obtain ⟨name, others⟩ := all
      rw [Blueprint.names_eq hn] at hsite
      refine (gapped_buildName? hforward h hsite List.mem_cons_self).bind ?_
      rintro ⟨u₁, first⟩ ⟨v₁, _⟩ ⟨h₁, hfirst, rfl⟩
      refine (gapped_buildNames? hforward h₁ hsite (List.subset_cons_self ..)).bind ?_
      rintro ⟨u₂, rest⟩ ⟨v₂, _⟩ ⟨h₂, hrest, rfl⟩
      refine (gapped_addOptions? h₂ hfirst options).bind fun u₃ v₃ h₃ => ?_
      refine (gapped_addAll? h₃ hfirst hchildren).bind fun u₄ v₄ h₄ => ?_
      exact .ok (h₄.shareAll hfirst hrest)

theorem gapped_addAll? {u v : CommandTree L} (h : Gapped k m names u v) {p : NodeId} (hp : k ≤ p) :
    ∀ {bs : List (Blueprint L)}, Blueprint.AllAimBelow k bs →
      Agree Eq (Gapped k m names) (u.addAll? p bs) (v.addAll? (p + m) bs)
  | [], _ => by
    unfold addAll?
    exact .ok h
  | b :: bs, hb => by
    unfold Blueprint.AllAimBelow at hb
    unfold addAll?
    have hone := gapped_add? h (Or.inr hp) hb.1
    rw [pastGap_of_le hp] at hone
    refine hone.bind ?_
    rintro ⟨u₁, _⟩ ⟨v₁, _⟩ h₁
    exact gapped_addAll? h₁ hp hb.2

end

end CommandTree

end CommandConsole
