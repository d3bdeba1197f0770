import CommandConsole.Proofs.Named
import CommandConsole.Proofs.Paths

/-!
# Literals under new names

A literal is built below a parent that has no child under any of its names. Then every name gets a
node of its own, the parent changes in nothing but its children and literals under these names, and
no other node changes. The nodes of the further names come to have the branches of the first one.
-/

namespace CommandConsole

variable {L : Language}

/-- Whether two nodes have the same branches. -/
structure Node.BranchesAs (n n' : Node L) : Prop where
  options : ∀ name, n.options.find? name = n'.options.find? name
  literals : ∀ name, n.literals.find? name = n'.literals.find? name
  arguments : n.arguments = n'.arguments

namespace Node.BranchesAs

variable {n n' n'' : Node L}

theorem refl (n : Node L) : n.BranchesAs n := ⟨fun _ => rfl, fun _ => rfl, rfl⟩

theorem symm (h : n.BranchesAs n') : n'.BranchesAs n :=
  ⟨fun name => (h.options name).symm, fun name => (h.literals name).symm, h.arguments.symm⟩

theorem trans (h : n.BranchesAs n') (h' : n'.BranchesAs n'') : n.BranchesAs n'' where
  options name := (h.options name).trans (h'.options name)
  literals name := (h.literals name).trans (h'.literals name)
  arguments := h.arguments.trans h'.arguments

end Node.BranchesAs

namespace CommandTree

variable {t t' t₁ : CommandTree L} {layer : NodeId → Nat} {parent first id : NodeId}
  {rest ids : List NodeId} {b : Blueprint L} {name : String} {others names : List String}

/-! ### The parent -/

/-- Whether a node differs from what it was at most in its children and literals under some names,
which are the same. -/
structure Widened (t : CommandTree L) (parent : NodeId) (names : List String)
    (t' : CommandTree L) : Prop where
  child : ∀ n ∉ names, (t'.node parent).child? n = (t.node parent).child? n
  literal : ∀ n ∉ names, (t'.node parent).literals.find? n = (t.node parent).literals.find? n
  same : ∀ n ∈ names, (t'.node parent).literals.find? n = (t'.node parent).child? n
  arguments : (t'.node parent).arguments = (t.node parent).arguments
  options : (t'.node parent).options = (t.node parent).options

theorem Widened.of_node_eq (h : Widened t parent names t₁)
    (hnode : t'.node parent = t₁.node parent) : Widened t parent names t' := by
  constructor <;> rw [hnode]
  exacts [h.child, h.literal, h.same, h.arguments, h.options]

theorem widened_buildName? (hkind : b.kind = .literal name others) (h : Widened t parent names t₁)
    {n : String} (hn : n ∈ names) (hchild : ∀ c, (t₁.node parent).child? n = some c → c ≠ parent)
    (hb : t₁.buildName? parent b b.kind n = .ok (t', id)) : Widened t parent names t' := by
  obtain ⟨above, habove, ⟨merged, hold, hm, rfl⟩ | ⟨kind, hno, hk, rfl, rfl⟩⟩ :=
    buildName?_eq_ok hb
  · rw [← node_of_node? habove] at hold
    exact h.of_node_eq ((node_update_cases t₁ id (fun _ => merged) parent).resolve_right
      fun heq => hchild id hold heq.1.symm)
  · rw [hkind] at hk
    obtain rfl := Except.ok.inj hk
    have hnode := node_push_update t₁ (freshNode b (.literal n) above)
      (·.attach n t₁.size (NodeKind.literal (L := L) n).isLiteral) (lt_size_of_node? habove) parent
    rw [if_pos rfl] at hnode
    have hother : ∀ m ∉ names, n ≠ m := by
      rintro m hm rfl
      exact hm hn
    refine ⟨fun m hm => ?_, fun m hm => ?_, fun m hm => ?_, ?_, ?_⟩
    · rw [hnode, Node.child?, Node.children_attach, Keyed.find?_insert, if_neg (hother m hm)]
      exact h.child m hm
    · rw [hnode]
      refine (Keyed.find?_insert _ _ _ _).trans ?_
      rw [if_neg (hother m hm)]
      exact h.literal m hm
    · rw [hnode, Node.child?, Node.children_attach, Keyed.find?_insert]
      refine (Keyed.find?_insert _ _ _ _).trans ?_
      split
      · rfl
      · exact h.same m hm
    · rw [hnode]
      exact h.arguments
    · rw [hnode, Node.options_attach]
      exact h.options

theorem closed_new (t : CommandTree L) : Closed (t.size ≤ ·) t := by
  refine ⟨fun _ hid => hid, fun id hid e he => ?_⟩
  rw [node_of_size_le hid] at he
  cases he

theorem widened_buildNames? (hkind : b.kind = .literal name others) {S : NodeId → Prop}
    (hS : ¬S parent) (hc : Confined S parent names t t₁) (h : Widened t parent names t₁)
    {more : List String} (hmore : more ⊆ names)
    (hb : buildNames? parent b b.kind t₁ more = .ok (t', ids)) :
    Confined S parent names t t' ∧ Widened t parent names t' ∧ ∀ id ∈ ids, S id := by
  induction more generalizing t₁ ids with
  | nil =>
    obtain ⟨rfl, rfl⟩ := Prod.mk.inj (Except.ok.inj hb)
    exact ⟨hc, h, fun _ hid => (List.not_mem_nil hid).elim⟩
  | cons n more ih =>
    obtain ⟨⟨t₂, id⟩, h₁, hb⟩ := bind_eq_ok.1 hb
    obtain ⟨⟨t₃, ids⟩, h₂, hb⟩ := bind_eq_ok.1 hb
    obtain ⟨rfl, rfl⟩ := Prod.mk.inj (Except.ok.inj hb)
    have hn : n ∈ names := hmore List.mem_cons_self
    obtain ⟨hone, hid⟩ := confined_buildName? hc.closed hc.into hn h₁
    have hwide := widened_buildName? hkind h hn
      (fun c hchild heq => hS (heq ▸ hc.into n hn c hchild)) h₁
    obtain ⟨hc', h', hids⟩ := ih (hc.trans hone) hwide
      (fun m hm => hmore (List.mem_cons_of_mem _ hm)) h₂
    exact ⟨hc', h', List.forall_mem_cons.2 ⟨hid, hids⟩⟩

/-- A literal whose names are new changes no node that was there, but for the children and literals
of its parent under these names. -/
theorem widened_add? (ht : Tidied t) (hkind : b.kind = .literal name others) (hp : parent < t.size)
    (hnew : ∀ n ∈ b.names, (t.node parent).child? n = none)
    (h : t.add? parent b = .ok (t', first, rest)) :
    Confined (t.size ≤ ·) parent b.names t t' ∧ Widened t parent b.names t' := by
  obtain ⟨t₃, t₄, hplace, hall, rfl⟩ := add?_eq_ok h
  obtain ⟨t₁, t₂, name', others', -, hn, h₁, h₂, h₃⟩ := place?_eq_ok hplace
  have hb : buildNames? parent b b.kind t (name' :: others') = .ok (t₂, first :: rest) :=
    bind_eq_ok.2 ⟨(t₁, first), h₁, bind_eq_ok.2 ⟨(t₂, rest), h₂, rfl⟩⟩
  rw [← Blueprint.names_eq hn] at hb
  have hS : ¬t.size ≤ parent := Nat.not_le.2 hp
  have hinto : LeadsInto (t.size ≤ ·) t parent b.names := by
    intro n hmem c hchild
    rw [hnew n hmem] at hchild
    cases hchild
  have hstart : Widened t parent b.names t := by
    refine ⟨fun _ _ => rfl, fun _ _ => rfl, fun n hmem => ?_, rfl, rfl⟩
    rw [hnew n hmem, Option.eq_none_iff_forall_ne_some]
    exact fun c hc => (ht parent).child n c hc (hnew n hmem)
  obtain ⟨hc₂, hwide, hids⟩ := widened_buildNames? hkind hS (.refl (closed_new t) hinto) hstart
    (List.Subset.refl _) hb
  obtain ⟨hfirst, hrest⟩ := List.forall_mem_cons.1 hids
  have hne : parent ≠ first := by
    rintro rfl
    exact hS hfirst
  have hc₃ := hc₂.trans (confined_addOptions? hc₂.closed hc₂.into hfirst h₃)
  have hbelow : Confined (t.size ≤ ·) first (b.children.flatMap Blueprint.names) t₃ t₄ :=
    confined_addAll? hc₃.closed (hc₃.closed.leadsInto hfirst) (List.Subset.refl _) hall
  have hc₄ := hc₃.trans (hbelow.of_below hfirst hc₃.into)
  have hshare := hc₄.trans (confined_shareAll hc₄.closed hc₄.into hfirst hrest)
  -- behind the names the parent does not change any more
  have hparent : (t₄.shareAll first rest).node parent = t₂.node parent := by
    rw [node_shareAll_of_not_mem t₄ first fun hmem => hS (hrest parent hmem),
      hbelow.node parent hS hne]
    exact (addOptions?_frame h₃).2.1 parent (Nat.lt_of_lt_of_le hp hc₂.size) hne
  exact ⟨hshare, hwide.of_node_eq hparent⟩

/-! ### The nodes of the names -/

theorem Grown.options_nodup (h : Grown t layer) (id : NodeId) :
    (t.node id).options.keys.Nodup := by
  induction h generalizing id with
  | empty =>
    rw [node_empty]
    exact List.nodup_nil
  | @attach t layer parent above name kind b _ hp _ _ _ ih =>
    rw [node_push_update t _ _ (lt_size_of_node? hp)]
    split
    · rw [Node.options_attach]
      exact ih parent
    · split
      · rw [← node_of_node? hp]
        exact ih parent
      · exact ih id
  | @merge t layer parent existing above merged name b _ _ _ _ hm ih =>
    rcases node_update_cases t existing (fun _ => merged) id with heq | ⟨rfl, heq⟩
    · rw [heq]
      exact ih id
    · rw [heq, mergeInto?_eq_ok hm]
      exact ih id
  | @option t layer id' name type gates _ hid ih =>
    rw [node_push_update t _ _ hid]
    split
    · exact Keyed.nodup_keys_insert (ih id') _ _
    · split
      · exact List.nodup_nil
      · exact ih id
  | @share t layer first others hg hl ih =>
    clear hg hl
    unfold shareAll
    generalize t.node first = shared
    induction others generalizing t with
    | nil => exact ih id
    | cons other others ih' =>
      refine ih' fun m => ?_
      rcases node_update_cases t other (·.shareBranches shared) m with heq | ⟨rfl, heq⟩
      · rw [heq]
        exact ih m
      · rw [heq]
        exact Keyed.nodup_keys_extend (ih m) _

/-- Whether a node is the one that a literal has under a name: as the literal declares it, with the
branches of the node of its first name. -/
structure IsNameOf (t : CommandTree L) (parent first : NodeId) (b : Blueprint L) (name : String)
    (m : NodeId) : Prop where
  child : (t.node parent).child? name = some m
  kind : (t.node m).kind = .literal name
  gates : (t.node m).gates = b.gates
  command : (t.node m).command = b.command
  forward : (t.node m).forward = b.forward
  branches : Node.BranchesAs (t.node m) (t.node first)

/-- Whether a node is a new one that a literal has got under a name, in front of its branches. -/
structure IsNew (t : CommandTree L) (parent : NodeId) (b : Blueprint L) (t₁ : CommandTree L)
    (name : String) (m : NodeId) : Prop where
  child : (t₁.node parent).child? name = some m
  new : t.size ≤ m
  lt : m < t₁.size
  node : t₁.node m = freshNode b (.literal name) (t.node parent)

theorem IsFresh.isNew {n : String} {m : NodeId} (h : IsFresh t parent b t₁ n m)
    (hkind : b.kind = .literal name others) (hchild : (t₁.node parent).child? n = some m) :
    IsNew t parent b t₁ n m := by
  obtain ⟨hm, hlt, k, hk, hnode⟩ := h
  rw [hkind] at hk
  obtain rfl := Except.ok.inj hk
  exact ⟨hchild, hm, hlt, hnode⟩

/-- What building a blueprint under new names comes to, node by node: every name gets a new node,
the first of them gets the options and the children, and the others share them. -/
structure Raised (t : CommandTree L) (parent : NodeId) (b : Blueprint L)
    (t₁ t₂ t₃ t' : CommandTree L) (first : NodeId) (rest : List NodeId) : Prop where
  named : List.Forall₂ (fun name m => (t₁.node parent).child? name = some m ∧
    IsFresh t parent b t₁ name m) b.names (first :: rest)
  new : ∀ m, t.size ≤ m → m < t₁.size → m ∈ first :: rest
  adopts : (t.node parent).Adopts (t₁.node parent)
  options : t₁.addOptions? first b.options = .ok t₂
  children : t₂.addAll? first b.children = .ok t₃
  below : Confined (t₂.size ≤ ·) first (b.children.flatMap Blueprint.names) t₂ t₃
  above : t'.node parent = t₁.node parent
  apart : first ∉ rest
  other : ∀ m ∈ rest, t'.node m = (t₁.node m).shareBranches (t₃.node first)
  aside : ∀ m ∉ rest, t'.node m = t₃.node m
  size : t'.size = t₃.size
  retains : t₃.Retains t'

theorem raised_add? (hg : Grown t layer) (hnames : b.names.Nodup)
    (hnew : ∀ n ∈ b.names, (t.node parent).child? n = none)
    (h : t.add? parent b = .ok (t', first, rest)) :
    ∃ t₁ layer₁ t₂ t₃, Grown t₁ layer₁ ∧ Keeps t layer t₁ layer₁ ∧ parent < t.size ∧
      Raised t parent b t₁ t₂ t₃ t' first rest := by
  obtain ⟨t₂, t₃, hplace, hall, rfl⟩ := add?_eq_ok h
  obtain ⟨t₁, layer₁, hg₁, hk₁, hp, hnamed, ho⟩ := named_place? hg hnames hplace
  obtain ⟨hfirst_rest, hrest⟩ := List.nodup_cons.1 (hnamed.nodup hg₁.filed hnames)
  have hfresh : List.Forall₂ (fun n m => (t₁.node parent).child? n = some m ∧
      IsFresh t parent b t₁ n m) b.names (first :: rest) := by
    refine (forall₂_with_mem hnamed.named).imp ?_
    rintro n m ⟨hn, -, hchild, hnode⟩
    refine ⟨hchild, hnode.resolve_left fun hold => ?_⟩
    have hnone := hnew n hn
    rw [hold.1] at hnone
    cases hnone
  have hlt : ∀ m ∈ first :: rest, t.size ≤ m ∧ m < t₁.size ∧ (t₁.node m).children = .empty := by
    intro m hm
    obtain ⟨_, -, -, hge, hlt, k, -, hnode⟩ := forall₂_mem_right hfresh hm
    exact ⟨hge, hlt, by rw [hnode]; rfl⟩
  have hparent : parent ∉ first :: rest := fun hmem =>
    absurd hp (Nat.not_lt.2 (hlt parent hmem).1)
  obtain ⟨hparent_first, hparent_rest⟩ := not_or.1 (mt List.mem_cons.2 hparent)
  -- the children of the first node are new, so that building them changes no other node
  obtain ⟨hsize₂, hother₂, hchild₂, -⟩ := addOptions?_frame ho
  have hno : LeadsInto (t₂.size ≤ ·) t₂ first (b.children.flatMap Blueprint.names) := by
    intro n _ c hc
    rw [hchild₂, Node.child?, (hlt first List.mem_cons_self).2.2] at hc
    cases hc
  have hbelow := confined_addAll? (closed_new t₂) hno (List.Subset.refl _) hall
  have hsame : ∀ m < t₁.size, m ≠ first → t₃.node m = t₁.node m := fun m hm hne => by
    rw [hbelow.node m (Nat.not_le.2 (Nat.lt_of_lt_of_le hm hsize₂)) hne, hother₂ m hm hne]
  have haside : ∀ m ∉ rest, (t₃.shareAll first rest).node m = t₃.node m := fun m hm =>
    node_shareAll_of_not_mem t₃ first hm
  refine ⟨t₁, layer₁, t₂, t₃, hg₁, hk₁, hp, hfresh, hnamed.new, hnamed.above, ho, hall, hbelow, ?_,
    hfirst_rest, fun m hm => ?_, haside, size_shareAll t₃ first rest, .share t₃ first rest⟩
  · rw [haside parent hparent_rest, hsame parent (Nat.lt_of_lt_of_le hp hk₁.size) hparent_first]
  · have hm₁ := (hlt m (List.mem_cons_of_mem _ hm)).2.1
    have hne : m ≠ first := fun heq => hfirst_rest (heq ▸ hm)
    have hm₃ : m < t₃.size := Nat.lt_of_lt_of_le hm₁ (Nat.le_trans hsize₂ hbelow.size)
    rw [node_shareAll_of_mem t₃ first hrest hm hm₃, hsame m hm₁ hne]

theorem IsNew.isNameOf_first {t₂ : CommandTree L} (h : IsNew t parent b t₁ name first)
    (hchild : (t'.node parent).child? name = some first)
    (hoptions : ∃ options, t₂.node first = { t₁.node first with options := options })
    (hadopts : (t₂.node first).Adopts (t'.node first)) : IsNameOf t' parent first b name first := by
  obtain ⟨options, hnode⟩ := hoptions
  rw [h.node] at hnode
  refine ⟨hchild, ?_, ?_, ?_, ?_, .refl _⟩
  · rw [hadopts.kind, hnode]
    rfl
  · rw [hadopts.gates, hnode]
    rfl
  · rw [hadopts.command, hnode]
    rfl
  · rw [hadopts.forward, hnode]
    rfl

theorem IsNew.isNameOf_other {m : NodeId} (h : IsNew t parent b t₁ name m)
    (hchild : (t'.node parent).child? name = some m)
    (hnode : t'.node m = (t₁.node m).shareBranches (t'.node first))
    (hliterals : (t'.node first).literals.keys.Nodup) (hkeys : (t'.node first).options.keys.Nodup)
    (hoptions : ∀ o, ((t.node parent).options.find? o).isSome = true →
      ((t'.node first).options.find? o).isSome = true) : IsNameOf t' parent first b name m := by
  rw [h.node] at hnode
  refine ⟨hchild, by rw [hnode]; rfl, by rw [hnode]; rfl, by rw [hnode]; rfl,
    by rw [hnode]; rfl, ?_⟩
  rw [hnode]
  refine ⟨fun o => ?_, fun n => ?_, rfl⟩
  · refine (Keyed.find?_extend hkeys o).trans ?_
    cases hfound : (t'.node first).options.find? o with
    | some _ => rfl
    | none =>
      refine Option.not_isSome_iff_eq_none.1 fun hold => ?_
      have hkept := hoptions o hold
      rw [hfound] at hkept
      cases hkept
  · exact (Keyed.find?_extend hliterals n).trans Option.or_none

/-- The names of a literal are interchangeable: their nodes differ in nothing but the name, if the
names are new and distinct. -/
theorem names_add? (hg : Grown t layer) (hkind : b.kind = .literal name others)
    (hnames : b.names.Nodup) (hnew : ∀ n ∈ b.names, (t.node parent).child? n = none)
    (h : t.add? parent b = .ok (t', first, rest)) :
    List.Forall₂ (IsNameOf t' parent first b) b.names (first :: rest) := by
  obtain ⟨t₁, layer₁, t₂, t₃, hg₁, -, -, hr⟩ := raised_add? hg hnames hnew h
  obtain ⟨hsize₂, -, -, hfirst₂⟩ := addOptions?_frame hr.options
  obtain ⟨hg₂, -⟩ := grown_addOptions? hg₁ hr.options
  obtain ⟨layer₃, hg₃, -⟩ := grown_addAll? hg₂ hr.children
  have hfresh : List.Forall₂ (IsNew t parent b t₁) b.names (first :: rest) :=
    hr.named.imp fun _ _ hm => hm.2.isNew hkind hm.1
  obtain ⟨name₁, -, hfirst⟩ := forall₂_mem_right hfresh List.mem_cons_self
  have hadopts := hr.below.parent (Nat.not_le.2 (Nat.lt_of_lt_of_le hfirst.lt hsize₂))
  refine (forall₂_with_mem hfresh).imp ?_
  rintro n m ⟨-, hmem, hm⟩
  have hchild := hm.child
  rw [← hr.above] at hchild
  have hlead := hr.aside first hr.apart
  rcases List.mem_cons.1 hmem with rfl | hother
  · exact hm.isNameOf_first hchild hfirst₂ (by rwa [hlead])
  · refine hm.isNameOf_other hchild (by rw [hr.other m hother, hlead]) ?_ ?_ fun o hold => ?_ <;>
      rw [hlead]
    · exact (hg₃.tidied first).literals
    · exact hg₃.options_nodup first
    · rw [hadopts.options]
      refine ((retains_of_edits (P := Always) (edits_addOptions? hg₁ hr.options)).node first
        hfirst.lt).option o ?_
      rw [hfirst.node]
      exact hold

end CommandTree

end CommandConsole
