import CommandConsole.Proofs.NewNames
import CommandConsole.Proofs.Registered

/-!
# Options of what was built

A new node starts with the options of its parent, and those given to its blueprint take the place of
the ones of the same name, the last of them for good. The nodes of further names are new nodes, too,
and take the options of the first one over in the end. So at every depth the options of a node are
those of its parent but for the ones given to its own blueprint, and a name stands for the option of
the nearest blueprint around that gives one.
-/

namespace CommandConsole

variable {L : Language}

/-! ### Options that are given -/

namespace Blueprint

def optionName? (b : Blueprint L) : Option String :=
  match b.kind with
  | .option name _ => some name
  | _ => none

/-- The last of some options that has a name. -/
def lastNamed? (name : String) (os : List (Blueprint L)) : Option (Blueprint L) :=
  os.reverse.find? fun o => o.optionName? = some name

theorem lastNamed?_append (name : String) (os os' : List (Blueprint L)) :
    lastNamed? name (os ++ os') = (lastNamed? name os').or (lastNamed? name os) := by
  unfold lastNamed?
  rw [List.reverse_append, List.find?_append]

theorem lastNamed?_singleton (name : String) (o : Blueprint L) :
    lastNamed? name [o] = if o.optionName? = some name then some o else none := by
  unfold lastNamed?
  rw [List.reverse_singleton, List.find?_singleton]
  simp

/-- Whether names lead down through blueprints, the outermost of them first. -/
inductive LeadsThrough : List (Blueprint L) → List String → List (Blueprint L) → Prop
  | here {bs : List (Blueprint L)} {b : Blueprint L} {name : String} :
      b ∈ bs → name ∈ b.names → LeadsThrough bs [name] [b]
  | down {bs cs : List (Blueprint L)} {b : Blueprint L} {name : String} {names : List String} :
      b ∈ bs → name ∈ b.names → LeadsThrough b.children names cs →
      LeadsThrough bs (name :: names) (b :: cs)

theorem LeadsThrough.ne_nil {bs around : List (Blueprint L)} {names : List String}
    (h : LeadsThrough bs names around) : names ≠ [] := by
  cases h <;> exact List.cons_ne_nil _ _

theorem LeadsThrough.mono {bs bs' around : List (Blueprint L)} {names : List String}
    (h : LeadsThrough bs names around) (hs : bs ⊆ bs') : LeadsThrough bs' names around := by
  cases h with
  | here hb hname => exact .here (hs hb) hname
  | down hb hname hrest => exact .down (hs hb) hname hrest

end Blueprint

namespace CommandTree

open Blueprint

variable {t t' : CommandTree L} {layer layer' : NodeId → Nat}
  {id id' parent first m k k' : NodeId} {rest : List NodeId} {b o : Blueprint L}
  {bs os os' : List (Blueprint L)}
  {above above' mid own own' : Keyed String NodeId} {name : String} {names : List String}

structure IsOptionOf (t : CommandTree L) (o : Blueprint L) (id : NodeId) : Prop where
  lt : id < t.size
  kind : ∃ name type, o.kind = .option name type ∧ (t.node id).kind = .option name type
  gates : (t.node id).gates = o.gates

/-- Whether options are those of a node above, but for some that are given, the last one of a name:
for these there are new nodes. -/
structure Overrides (t : CommandTree L) (k : NodeId) (above : Keyed String NodeId)
    (os : List (Blueprint L)) (own : Keyed String NodeId) : Prop where
  given : ∀ name o, lastNamed? name os = some o →
    ∃ id, own.find? name = some id ∧ k ≤ id ∧ t.IsOptionOf o id
  inherited : ∀ name, lastNamed? name os = none → own.find? name = above.find? name

theorem IsOptionOf.keep (h : t.IsOptionOf o id) (hk : Keeps t layer t' layer') :
    t'.IsOptionOf o id := by
  obtain ⟨hlt, ⟨name, type, hkind, hnode⟩, hgates⟩ := h
  exact ⟨Nat.lt_of_lt_of_le hlt hk.size, ⟨name, type, hkind, (hk.kind id hlt).trans hnode⟩,
    (hk.gates id hlt).trans hgates⟩

namespace Overrides

theorem refl (t : CommandTree L) (k : NodeId) (above : Keyed String NodeId) :
    t.Overrides k above [] above where
  given _ _ ho := nomatch ho
  inherited _ _ := rfl

theorem keep (h : t.Overrides k above os own) (hk : Keeps t layer t' layer') :
    t'.Overrides k above os own := by
  refine ⟨fun name o ho => ?_, h.inherited⟩
  obtain ⟨id, hid, hnew, hoption⟩ := h.given name o ho
  exact ⟨id, hid, hnew, hoption.keep hk⟩

theorem since (h : t.Overrides k above os own) (hle : k' ≤ k) :
    t.Overrides k' above os own := by
  refine ⟨fun name o ho => ?_, h.inherited⟩
  obtain ⟨id, hid, hnew, hoption⟩ := h.given name o ho
  exact ⟨id, hid, Nat.le_trans hle hnew, hoption⟩

theorem congr (h : t.Overrides k above os own)
    (habove : ∀ name, above'.find? name = above.find? name)
    (hown : ∀ name, own'.find? name = own.find? name) : t.Overrides k above' os own' where
  given name o ho := by
    rw [hown]
    exact h.given name o ho
  inherited name ho := by
    rw [hown, habove]
    exact h.inherited name ho

theorem trans (h : t.Overrides k above os mid) (h' : t.Overrides k mid os' own) :
    t.Overrides k above (os ++ os') own := by
  constructor
  case given =>
    intro name o ho
    rw [lastNamed?_append] at ho
    cases hlast : lastNamed? name os' with
    | some o' =>
      rw [hlast] at ho
      obtain rfl := Option.some.inj ho
      exact h'.given name o' hlast
    | none =>
      rw [hlast, Option.none_or] at ho
      rw [h'.inherited name hlast]
      exact h.given name o ho
  case inherited =>
    intro name ho
    rw [lastNamed?_append] at ho
    obtain ⟨hlast', hlast⟩ := Option.or_eq_none_iff.1 ho
    rw [h'.inherited name hlast', h.inherited name hlast]

theorem find?_extend (h : t.Overrides k above os own) (hkeys : own.keys.Nodup) (name : String) :
    (above.extend own).find? name = own.find? name := by
  rw [Keyed.find?_extend hkeys]
  cases hlast : lastNamed? name os with
  | some o =>
    obtain ⟨id, hid, -⟩ := h.given name o hlast
    rw [hid]
    rfl
  | none =>
    rw [h.inherited name hlast]
    exact Option.or_self

end Overrides

theorem overrides_addOption? {option : NodeId} (h : t.addOption? id o = .ok (t', option)) :
    t'.Overrides t.size (t.node id).options [o] (t'.node id).options := by
  obtain ⟨hlt, name, type, hkind, rfl⟩ := addOption?_eq_ok h
  have hnode := node_push_update t (optionNode name type o.gates) (·.giveOption name t.size) hlt
  have hname : o.optionName? = some name := by
    unfold optionName?
    rw [hkind]
  have hoption : ((t.push (optionNode name type o.gates)).1.update id
      (·.giveOption name t.size)).IsOptionOf o t.size := by
    have hnew := hnode t.size
    rw [if_neg (Nat.ne_of_gt hlt), if_pos rfl] at hnew
    refine ⟨?_, ⟨name, type, hkind, by rw [hnew]; rfl⟩, by rw [hnew]; rfl⟩
    rw [size_update, size_push]
    exact Nat.lt_succ_self _
  have hfind : ∀ name', (((t.push (optionNode name type o.gates)).1.update id
      (·.giveOption name t.size)).node id).options.find? name' =
        if name = name' then some t.size else (t.node id).options.find? name' := by
    intro name'
    rw [hnode, if_pos rfl]
    exact Keyed.find?_insert ..
  constructor
  case given =>
    intro name' o' ho'
    rw [lastNamed?_singleton, hname] at ho'
    split at ho'
    · next heq =>
      obtain rfl := Option.some.inj ho'
      rw [hfind, if_pos (Option.some.inj heq)]
      exact ⟨t.size, rfl, Nat.le_refl _, hoption⟩
    · cases ho'
  case inherited =>
    intro name' hno
    rw [lastNamed?_singleton, hname] at hno
    rw [hfind, if_neg]
    rintro rfl
    rw [if_pos rfl] at hno
    cases hno

theorem overrides_addOptions? (hg : Grown t layer) (h : t.addOptions? id os = .ok t') :
    t'.Overrides t.size (t.node id).options os (t'.node id).options := by
  induction os generalizing t with
  | nil =>
    obtain rfl := Except.ok.inj h
    exact .refl ..
  | cons o os ih =>
    obtain ⟨⟨t₁, option⟩, h₁, h₂⟩ := bind_eq_ok.1 h
    obtain ⟨hg₁, hk₁⟩ := grown_addOption? hg h₁
    obtain ⟨-, hk₂⟩ := grown_addOptions? hg₁ h₂
    exact ((overrides_addOption? h₁).keep hk₂).trans ((ih hg₁ h₂).since hk₁.size)

/-! ### Nodes that are left alone -/

/-- Whether nodes that were there stay what they were, but for children of one of them under some
names. -/
structure AddsUnder (t : CommandTree L) (parent : NodeId) (names : List String)
    (t' : CommandTree L) : Prop where
  node : ∀ m < t.size, m ≠ parent → t'.node m = t.node m
  options : (t'.node parent).options = (t.node parent).options
  child : ∀ name ∉ names, (t'.node parent).child? name = (t.node parent).child? name

theorem addsUnder_of_built (hp : parent < t.size)
    (hnew : ∀ name ∈ bs.flatMap Blueprint.names, (t.node parent).child? name = none)
    (hc : Confined (t.size ≤ ·) parent names t t') (hb : Built t parent bs t') :
    t.AddsUnder parent (bs.flatMap Blueprint.names) t' where
  node m hm hne := hb.aside m hm hne (not_meets_of_new hnew)
  options := (hc.parent (Nat.not_le.2 hp)).options
  child := hb.child

theorem addsUnder_add? (hg : Grown t layer) (hp : parent < t.size) (hd : Blueprint.Distinct [b])
    (hnew : ∀ name ∈ [b].flatMap Blueprint.names, (t.node parent).child? name = none)
    (h : t.add? parent b = .ok (t', first, rest)) :
    t.AddsUnder parent ([b].flatMap Blueprint.names) t' := by
  have hinto : LeadsInto (t.size ≤ ·) t parent b.names := by
    intro name hname c hc
    rw [hnew name (by rwa [List.flatMap_singleton])] at hc
    cases hc
  exact addsUnder_of_built hp hnew (confined_add? (closed_new t) hinto (List.Subset.refl _) h).1
    (built_add? hg hd (apart_of_new hnew) h)

theorem addsUnder_addAll? (hg : Grown t layer) (hp : parent < t.size) (hd : Blueprint.Distinct bs)
    (hnew : ∀ name ∈ bs.flatMap Blueprint.names, (t.node parent).child? name = none)
    (h : t.addAll? parent bs = .ok t') : t.AddsUnder parent (bs.flatMap Blueprint.names) t' := by
  have hinto : LeadsInto (t.size ≤ ·) t parent (bs.flatMap Blueprint.names) := by
    intro name hname c hc
    rw [hnew name hname] at hc
    cases hc
  exact addsUnder_of_built hp hnew (confined_addAll? (closed_new t) hinto (List.Subset.refl _) h)
    (built_addAll? hg hp hd (apart_of_new hnew) h)

theorem AddsUnder.keepsChildren (h : t.AddsUnder parent names t')
    (hnew : ∀ name ∈ names, (t.node parent).child? name = none) : t.KeepsChildren t' := by
  intro n name c hc
  have hn : n < t.size := by
    refine Nat.lt_of_not_le fun hge => ?_
    rw [node_of_size_le hge] at hc
    cases hc
  by_cases hp : n = parent
  · obtain rfl := hp
    rw [h.child name fun hname => ?_, hc]
    rw [hnew name hname] at hc
    cases hc
  · rw [h.node n hn hp, hc]

/-! ### Heirs -/

/-- Whether a node is a new one below another, has its options but for those given to a blueprint,
and has children only under the names of those of the blueprint. -/
structure IsHeir (t : CommandTree L) (k : NodeId) (id : NodeId) (b : Blueprint L) (m : NodeId) :
    Prop where
  new : k ≤ m
  lt : m < t.size
  options : t.Overrides k (t.node id).options b.options (t.node m).options
  only : ∀ name ∉ b.children.flatMap Blueprint.names, (t.node m).child? name = none

/-- Whether there are heirs of a node under all names of some blueprints, and so on below them. -/
inductive Bequeaths (t : CommandTree L) (k : NodeId) : NodeId → List (Blueprint L) → Prop
  | intro {id : NodeId} {bs : List (Blueprint L)} :
      (∀ b ∈ bs, ∀ name ∈ b.names, ∃ m, (t.node id).child? name = some m ∧ t.IsHeir k id b m) →
      (∀ b ∈ bs, ∀ name ∈ b.names, ∀ m, (t.node id).child? name = some m →
        Bequeaths t k m b.children) → Bequeaths t k id bs

namespace Bequeaths

theorem nil : t.Bequeaths k id [] :=
  ⟨fun _ hb => (List.not_mem_nil hb).elim, fun _ hb => (List.not_mem_nil hb).elim⟩

theorem cons (h : t.Bequeaths k id [b]) (h' : t.Bequeaths k id bs) :
    t.Bequeaths k id (b :: bs) := by
  obtain ⟨hheirs, hbelow⟩ := h
  obtain ⟨hheirs', hbelow'⟩ := h'
  exact ⟨List.forall_mem_cons.2 ⟨hheirs b (List.mem_singleton_self b), hheirs'⟩,
    List.forall_mem_cons.2 ⟨hbelow b (List.mem_singleton_self b), hbelow'⟩⟩

/-- What is below a node depends on no other nodes that were there before. A node with the same
options and children has the same heirs. -/
theorem keep (h : t.Bequeaths k id bs) (hk : Keeps t layer t' layer') (hle : k' ≤ k)
    (hnew : ∀ m, k ≤ m → m < t.size → t'.node m = t.node m)
    (hoptions : ∀ name, (t'.node id').options.find? name = (t.node id).options.find? name)
    (hchild : ∀ name ∈ bs.flatMap Blueprint.names,
      (t'.node id').child? name = (t.node id).child? name) : t'.Bequeaths k' id' bs := by
  induction h generalizing id' with
  | @intro id bs hheirs _ ih =>
    have hfound : ∀ b ∈ bs, ∀ name ∈ b.names,
        (t'.node id').child? name = (t.node id).child? name :=
      fun b hb name hname => hchild name (List.mem_flatMap.2 ⟨b, hb, hname⟩)
    refine ⟨fun b hb name hname => ?_, fun b hb name hname m hm => ?_⟩
    · obtain ⟨m, hm, hheir⟩ := hheirs b hb name hname
      have hsame := hnew m hheir.new hheir.lt
      have hown : ∀ name, (t'.node m).options.find? name = (t.node m).options.find? name :=
        fun _ => by rw [hsame]
      refine ⟨m, (hfound b hb name hname).trans hm, Nat.le_trans hle hheir.new,
        Nat.lt_of_lt_of_le hheir.lt hk.size,
        ((hheir.options.keep hk).since hle).congr hoptions hown, ?_⟩
      rw [hsame]
      exact hheir.only
    · rw [hfound b hb name hname] at hm
      obtain ⟨m', hm', hheir⟩ := hheirs b hb name hname
      obtain rfl := Option.some.inj (hm'.symm.trans hm)
      have hsame := hnew m' hheir.new hheir.lt
      exact ih b hb name hname m' hm (fun _ => by rw [hsame]) fun _ _ => by rw [hsame]

end Bequeaths

/-! ### New nodes -/

/-- Whether all nodes from a number on are options, or found under names that lead through some
blueprints. -/
def Accounts (t : CommandTree L) (k : NodeId) (id : NodeId) (bs : List (Blueprint L)) : Prop :=
  ∀ n, k ≤ n → n < t.size → (∃ name type, (t.node n).kind = .option name type) ∨
    ∃ names around, LeadsThrough bs names around ∧ t.findFrom? id names = some n

theorem kind_of_addOptions? (h : t.addOptions? id os = .ok t') {n : NodeId} (hge : t.size ≤ n)
    (hlt : n < t'.size) : ∃ name type, (t'.node n).kind = .option name type := by
  refine (addOptions?_invariant (I := fun s => t.size ≤ s.size ∧ ∀ n, t.size ≤ n → n < s.size →
    ∃ name type, (s.node n).kind = .option name type) ?_
    ⟨Nat.le_refl _, fun n hge hlt => absurd hlt (Nat.not_lt.2 hge)⟩ h).2 n hge hlt
  rintro s s' o option ⟨hsize, hkinds⟩ ho
  obtain ⟨-, name, type, -, rfl⟩ := addOption?_eq_ok ho
  rw [size_update, size_push]
  refine ⟨Nat.le_succ_of_le hsize, fun n hge hlt => ?_⟩
  rw [update_keeps Node.kind _ _ (·.giveOption name s.size) fun _ => rfl, node_push]
  split
  · exact ⟨name, type, rfl⟩
  · next hne => exact hkinds n hge (Nat.lt_of_le_of_ne (Nat.le_of_lt_succ hlt) hne)

theorem Accounts.keep (h : t.Accounts k id bs) (hk : Keeps t layer t' layer')
    (hchildren : t.KeepsChildren t') {n : NodeId} (hge : k ≤ n) (hlt : n < t.size) :
    (∃ name type, (t'.node n).kind = .option name type) ∨
      ∃ names around, LeadsThrough bs names around ∧ t'.findFrom? id names = some n := by
  rw [hk.kind n hlt]
  rcases h n hge hlt with hoption | ⟨names, around, hleads, hn⟩
  · exact Or.inl hoption
  · exact Or.inr ⟨names, around, hleads, hchildren.findFrom? hn⟩

theorem Accounts.cons (h : t.Accounts k id [b]) (hk : Keeps t layer t' layer')
    (hchildren : t.KeepsChildren t') (h' : t'.Accounts t.size id bs) :
    t'.Accounts k id (b :: bs) := by
  have hfirst : [b] ⊆ b :: bs := List.cons_subset.2 ⟨List.mem_cons_self, List.nil_subset _⟩
  intro n hge hlt
  rcases Nat.lt_or_ge n t.size with hn | hn
  · rcases h.keep hk hchildren hge hn with hoption | ⟨names, around, hleads, hfound⟩
    · exact Or.inl hoption
    · exact Or.inr ⟨names, around, hleads.mono hfirst, hfound⟩
  · rcases h' n hn hlt with hoption | ⟨names, around, hleads, hfound⟩
    · exact Or.inl hoption
    · exact Or.inr ⟨names, around, hleads.mono (List.subset_cons_self ..), hfound⟩

/-! ### One blueprint -/

section Raised

variable {t₁ t₂ t₃ : CommandTree L} {layer₁ : NodeId → Nat}

theorem Raised.overrides (hr : Raised t parent b t₁ t₂ t₃ t' first rest) (hg₁ : Grown t₁ layer₁)
    (hk₁ : Keeps t layer t₁ layer₁)
    (hadds : t₂.AddsUnder first (b.children.flatMap Blueprint.names) t₃) :
    t'.Overrides t.size (t.node parent).options b.options (t₃.node first).options := by
  obtain ⟨_, -, -, -, -, kind, -, hnode⟩ := forall₂_mem_right hr.named List.mem_cons_self
  obtain ⟨hg₂, -⟩ := grown_addOptions? hg₁ hr.options
  obtain ⟨layer₃, -, hk₃⟩ := grown_addAll? hg₂ hr.children
  have hown := overrides_addOptions? hg₁ hr.options
  rw [hnode, ← hadds.options] at hown
  exact (hown.since hk₁.size).keep (hk₃.trans (hr.retains.keeps layer₃))

theorem Raised.branches (hr : Raised t parent b t₁ t₂ t₃ t' first rest) (hg₁ : Grown t₁ layer₁)
    (hk₁ : Keeps t layer t₁ layer₁)
    (hadds : t₂.AddsUnder first (b.children.flatMap Blueprint.names) t₃) (hm : m ∈ first :: rest) :
    (∀ name, (t'.node m).options.find? name = (t₃.node first).options.find? name) ∧
      ∀ name, (t'.node m).child? name = (t₃.node first).child? name := by
  rcases List.mem_cons.1 hm with rfl | hm
  · rw [hr.aside m hr.apart]
    exact ⟨fun _ => rfl, fun _ => rfl⟩
  · obtain ⟨hg₂, -⟩ := grown_addOptions? hg₁ hr.options
    obtain ⟨layer₃, hg₃, -⟩ := grown_addAll? hg₂ hr.children
    obtain ⟨_, -, -, -, -, kind, -, hnode⟩ :=
      forall₂_mem_right hr.named (List.mem_cons_of_mem _ hm)
    rw [hr.other m hm, hnode]
    exact ⟨(hr.overrides hg₁ hk₁ hadds).find?_extend (hg₃.options_nodup first),
      fun name => (Keyed.find?_extend (hg₃.tidied first).children name).trans Option.or_none⟩

theorem Raised.bequeaths (hr : Raised t parent b t₁ t₂ t₃ t' first rest) (hg₁ : Grown t₁ layer₁)
    (hk₁ : Keeps t layer t₁ layer₁)
    (hadds : t₂.AddsUnder first (b.children.flatMap Blueprint.names) t₃)
    (hbelow : t₃.Bequeaths t₂.size first b.children) : t'.Bequeaths t.size parent [b] := by
  obtain ⟨hsize₂, -, hchild₂, -⟩ := addOptions?_frame hr.options
  have hsize₃ := hr.below.size
  have hnew : ∀ m ∈ first :: rest,
      t.size ≤ m ∧ m < t₁.size ∧ ∀ name, (t₁.node m).child? name = none := by
    intro m hm
    obtain ⟨_, -, -, hge, hlt, kind, -, hnode⟩ := forall₂_mem_right hr.named hm
    exact ⟨hge, hlt, fun _ => by rw [hnode]; rfl⟩
  have hparent : (t'.node parent).options = (t.node parent).options := by
    rw [hr.above, hr.adopts.options]
  have hfound : ∀ c ∈ [b], ∀ name ∈ c.names, c = b ∧
      ∃ m ∈ first :: rest, (t'.node parent).child? name = some m := by
    intro c hc name hname
    obtain rfl := List.mem_singleton.1 hc
    obtain ⟨m, hm, hchild, -⟩ := forall₂_mem_left hr.named hname
    exact ⟨rfl, m, hm, by rw [hr.above, hchild]⟩
  refine ⟨fun c hc name hname => ?_, fun c hc name hname m hchild => ?_⟩
  · obtain ⟨rfl, m, hm, hchild⟩ := hfound c hc name hname
    obtain ⟨hge, hlt, -⟩ := hnew m hm
    obtain ⟨hoptions, hchildren⟩ := hr.branches hg₁ hk₁ hadds hm
    refine ⟨m, hchild, hge, ?_, ?_, fun name' hname' => ?_⟩
    · exact Nat.lt_of_lt_of_le hlt (Nat.le_trans hsize₂ (Nat.le_trans hsize₃ hr.retains.size))
    · exact (hr.overrides hg₁ hk₁ hadds).congr (fun _ => by rw [hparent]) hoptions
    · rw [hchildren, hadds.child name' hname', hchild₂]
      exact (hnew first List.mem_cons_self).2.2 name'
  · obtain ⟨rfl, m', hm, hchild'⟩ := hfound c hc name hname
    obtain rfl := Option.some.inj (hchild'.symm.trans hchild)
    obtain ⟨hoptions, hchildren⟩ := hr.branches hg₁ hk₁ hadds hm
    -- the nodes of further names are older than the children
    have hstays : ∀ n, t₂.size ≤ n → n < t₃.size → t'.node n = t₃.node n := fun n hn _ =>
      hr.aside n fun hrest => absurd (hnew n (List.mem_cons_of_mem _ hrest)).2.1
        (Nat.not_lt.2 (Nat.le_trans hsize₂ hn))
    exact hbelow.keep (hr.retains.keeps layer) (Nat.le_trans hk₁.size hsize₂) hstays hoptions
      fun name _ => hchildren name

theorem Raised.keepsChildren (hr : Raised t parent b t₁ t₂ t₃ t' first rest)
    (hadds : t₂.AddsUnder first (b.children.flatMap Blueprint.names) t₃) :
    t₃.KeepsChildren t' := by
  intro m name c hc
  by_cases hm : m ∈ rest
  · -- the node of a further name has no children before it shares those of the first
    obtain ⟨hsize₂, hother₂, -, -⟩ := addOptions?_frame hr.options
    obtain ⟨_, -, -, -, hlt, kind, -, hnode⟩ :=
      forall₂_mem_right hr.named (List.mem_cons_of_mem _ hm)
    have hne : m ≠ first := fun heq => hr.apart (heq ▸ hm)
    rw [hadds.node m (Nat.lt_of_lt_of_le hlt hsize₂) hne, hother₂ m hlt hne, hnode] at hc
    cases hc
  · rwa [hr.aside m hm]

theorem Raised.accounts (hr : Raised t parent b t₁ t₂ t₃ t' first rest) (hg₁ : Grown t₁ layer₁)
    (hadds : t₂.AddsUnder first (b.children.flatMap Blueprint.names) t₃)
    (hbelow : t₃.Accounts t₂.size first b.children) : t'.Accounts t.size parent [b] := by
  obtain ⟨hg₂, -⟩ := grown_addOptions? hg₁ hr.options
  obtain ⟨layer₃, -, hk₃⟩ := grown_addAll? hg₂ hr.children
  have hk' := hr.retains.keeps layer₃
  have hnamed : ∀ m ∈ first :: rest, ∃ name ∈ b.names, (t'.node parent).child? name = some m := by
    intro m hm
    obtain ⟨name, hname, hchild, -⟩ := forall₂_mem_right hr.named hm
    exact ⟨name, hname, by rw [hr.above, hchild]⟩
  intro n hge hlt
  rw [hr.size] at hlt
  rcases Nat.lt_or_ge n t₁.size with h₁ | h₁
  · obtain ⟨name, hname, hchild⟩ := hnamed n (hr.new n hge h₁)
    exact Or.inr ⟨[name], [b], .here (List.mem_singleton_self _) hname,
      Option.bind_eq_some_iff.2 ⟨n, hchild, rfl⟩⟩
  rcases Nat.lt_or_ge n t₂.size with h₂ | h₂
  · obtain ⟨name, type, hkind⟩ := kind_of_addOptions? hr.options h₁ h₂
    exact Or.inl ⟨name, type, ((hk₃.trans hk').kind n h₂).trans hkind⟩
  have hchildren := hr.keepsChildren hadds
  rcases hbelow.keep hk' hchildren h₂ hlt with hoption | ⟨names, around, hleads, hn⟩
  · exact Or.inl hoption
  · obtain ⟨name, hname, hchild⟩ := hnamed first List.mem_cons_self
    exact Or.inr ⟨name :: names, b :: around, .down (List.mem_singleton_self _) hname hleads,
      Option.bind_eq_some_iff.2 ⟨first, hchild, hn⟩⟩

end Raised

mutual

theorem heirs_add? {t t' : CommandTree L} {layer : NodeId → Nat} (hg : Grown t layer)
    {parent first : NodeId} {rest : List NodeId} :
    ∀ {b : Blueprint L}, Blueprint.Distinct [b] →
      (∀ name ∈ [b].flatMap Blueprint.names, (t.node parent).child? name = none) →
      t.add? parent b = .ok (t', first, rest) →
      t'.Bequeaths t.size parent [b] ∧ t'.Accounts t.size parent [b]
  | ⟨kind, children, options, command, gates, forward⟩, hd, hnew, hb => by
    have hnames := hd.names
    rw [List.flatMap_singleton] at hnames hnew
    obtain ⟨t₁, layer₁, t₂, t₃, hg₁, hk₁, -, hr⟩ := raised_add? hg hnames hnew hb
    obtain ⟨hsize₂, -, hchild₂, -⟩ := addOptions?_frame hr.options
    obtain ⟨hg₂, -⟩ := grown_addOptions? hg₁ hr.options
    obtain ⟨_, -, -, -, hlt, _, -, hnode⟩ := forall₂_mem_right hr.named List.mem_cons_self
    have hfirst : first < t₂.size := Nat.lt_of_lt_of_le hlt hsize₂
    have hbelow := hd.children (List.mem_singleton_self _)
    have hno : ∀ name ∈ children.flatMap Blueprint.names, (t₂.node first).child? name = none := by
      intro name _
      rw [hchild₂, hnode]
      rfl
    have hadds := addsUnder_addAll? hg₂ hfirst hbelow hno hr.children
    have hchildren : t₃.Bequeaths t₂.size first children ∧ t₃.Accounts t₂.size first children :=
      heirs_addAll? hg₂ hfirst hbelow hno hr.children
    exact ⟨hr.bequeaths hg₁ hk₁ hadds hchildren.1, hr.accounts hg₁ hadds hchildren.2⟩

theorem heirs_addAll? {t t' : CommandTree L} {layer : NodeId → Nat} (hg : Grown t layer)
    {parent : NodeId} (hp : parent < t.size) :
    ∀ {bs : List (Blueprint L)}, Blueprint.Distinct bs →
      (∀ name ∈ bs.flatMap Blueprint.names, (t.node parent).child? name = none) →
      t.addAll? parent bs = .ok t' →
      t'.Bequeaths t.size parent bs ∧ t'.Accounts t.size parent bs
  | [], _, _, hb => by
    unfold addAll? at hb
    obtain rfl := Except.ok.inj hb
    exact ⟨.nil, fun n hge hlt => absurd hlt (Nat.not_lt.2 hge)⟩
  | b :: bs, hd, hnew, hb => by
    obtain ⟨t₁, first, rest, h₁, h₂⟩ := addAll?_cons_eq_ok hb
    obtain ⟨layer₁, hg₁, hk₁⟩ := grown_add? hg h₁
    obtain ⟨layer₂, -, hk₂⟩ := grown_addAll? hg₁ h₂
    have hp₁ : parent < t₁.size := Nat.lt_of_lt_of_le hp hk₁.size
    have hapart : ∀ name ∈ bs.flatMap Blueprint.names, name ∉ [b].flatMap Blueprint.names := by
      intro name hname hmine
      rw [List.flatMap_singleton] at hmine
      exact hd.not_mem hmine hname
    rw [List.flatMap_cons, List.forall_mem_append] at hnew
    obtain ⟨hnew, hnew'⟩ := hnew
    rw [← List.flatMap_singleton Blueprint.names b] at hnew
    have hadds := addsUnder_add? hg hp hd.head hnew h₁
    have hnew₁ : ∀ name ∈ bs.flatMap Blueprint.names, (t₁.node parent).child? name = none :=
      fun name hname => (hadds.child name (hapart name hname)).trans (hnew' name hname)
    have hadds₁ := addsUnder_addAll? hg₁ hp₁ hd.tail hnew₁ h₂
    obtain ⟨hmine, hfirst⟩ := heirs_add? hg hd.head hnew h₁
    obtain ⟨hothers, hmore⟩ := heirs_addAll? hg₁ hp₁ hd.tail hnew₁ h₂
    have hsame : Keeps t' layer₂ t' layer₂ := .refl
    have hmine' : t'.Bequeaths t.size parent [b] := hmine.keep hk₂ (Nat.le_refl _)
      (fun m hge hlt => hadds₁.node m hlt fun heq => absurd hp (Nat.not_lt.2 (heq ▸ hge)))
      (fun _ => by rw [hadds₁.options])
      fun name hname => hadds₁.child name fun hmore => hapart name hmore hname
    have hothers' : t'.Bequeaths t.size parent bs := hothers.keep hsame hk₁.size
      (fun _ _ _ => rfl) (fun _ => rfl) fun _ _ => rfl
    exact ⟨hmine'.cons hothers', hfirst.cons hk₂ (hadds₁.keepsChildren hnew₁) hmore⟩

end

/-! ### The options of everything that is built -/

theorem Bequeaths.leadsThrough (h : t.Bequeaths k id bs) {n : NodeId}
    (hfound : t.findFrom? id (name :: names) = some n)
    (hname : name ∈ bs.flatMap Blueprint.names) :
    ∃ around, LeadsThrough bs (name :: names) around := by
  induction names generalizing id bs name with
  | nil =>
    obtain ⟨b, hb, hmine⟩ := List.mem_flatMap.1 hname
    exact ⟨[b], .here hb hmine⟩
  | cons name' names ih =>
    obtain ⟨hheirs, hbelow⟩ := h
    obtain ⟨b, hb, hmine⟩ := List.mem_flatMap.1 hname
    obtain ⟨m, hm, hheir⟩ := hheirs b hb name hmine
    obtain ⟨m', hm', hrest⟩ := Option.bind_eq_some_iff.1 hfound
    obtain rfl := Option.some.inj (hm.symm.trans hm')
    have hname' : name' ∈ b.children.flatMap Blueprint.names := by
      by_contra hno
      obtain ⟨c, hc, -⟩ := Option.bind_eq_some_iff.1 hrest
      rw [hheir.only name' hno] at hc
      cases hc
    obtain ⟨around, haround⟩ := ih (hbelow b hb name hmine m hm) hrest hname'
    exact ⟨b :: around, .down hb hmine haround⟩

theorem Bequeaths.overrides (h : t.Bequeaths k id bs) {around : List (Blueprint L)}
    (hnames : LeadsThrough bs names around) :
    ∃ p n own, around.getLast? = some own ∧ t.findFrom? id names.dropLast = some p ∧
      t.findFrom? id names = some n ∧ k ≤ n ∧
      t.Overrides k (t.node p).options own.options (t.node n).options ∧
      t.Overrides k (t.node id).options (around.flatMap Blueprint.options) (t.node n).options := by
  induction hnames generalizing id with
  | @here bs b name hb hname =>
    obtain ⟨hheirs, -⟩ := h
    obtain ⟨m, hm, hheir⟩ := hheirs b hb name hname
    refine ⟨id, m, b, rfl, rfl, Option.bind_eq_some_iff.2 ⟨m, hm, rfl⟩, hheir.new,
      hheir.options, ?_⟩
    rw [List.flatMap_singleton]
    exact hheir.options
  | @down bs cs b name names hb hname hrest ih =>
    obtain ⟨hheirs, hbelow⟩ := h
    obtain ⟨m, hm, hheir⟩ := hheirs b hb name hname
    obtain ⟨p, n, own, hown, hp, hn, hnew, hlast, hall⟩ := ih (hbelow b hb name hname m hm)
    refine ⟨p, n, own, ?_, ?_, Option.bind_eq_some_iff.2 ⟨m, hm, hn⟩, hnew, hlast, ?_⟩
    · rw [List.getLast?_cons, hown]
      rfl
    · rw [List.dropLast_cons_of_ne_nil hrest.ne_nil]
      exact Option.bind_eq_some_iff.2 ⟨m, hm, hp⟩
    · rw [List.flatMap_cons]
      exact hheir.options.trans hall

/-- Whatever is built under new names has, at every depth and under every name, the options of its
parent but for those given to its own blueprint, the last one of a name. So a name stands for the
option of the nearest blueprint around that gives one, and else for that of the parent of all. No
new node is left out: one that is not itself an option stands under names of the blueprint. -/
theorem add?_overrides_options (ht : t.Reachable) (hd : Blueprint.Distinct [b])
    (hnew : ∀ name ∈ b.names, (t.node parent).child? name = none)
    (hb : t.add? parent b = .ok (t', first, rest)) :
    t'.Accounts t.size parent [b] ∧
    (∀ name ∈ b.names, ∀ names n, t'.findFrom? parent (name :: names) = some n →
      ∃ around, LeadsThrough [b] (name :: names) around) ∧
    ∀ names around, LeadsThrough [b] names around → ∃ p n own, around.getLast? = some own ∧
      t'.findFrom? parent names.dropLast = some p ∧ t'.findFrom? parent names = some n ∧
      t.size ≤ n ∧
      t'.Overrides t.size (t'.node p).options own.options (t'.node n).options ∧
      t'.Overrides t.size (t.node parent).options (around.flatMap Blueprint.options)
        (t'.node n).options := by
  obtain ⟨layer, hg⟩ := ht.grown
  have hnames := hd.names
  rw [List.flatMap_singleton] at hnames
  obtain ⟨_, _, _, _, -, -, hp, -⟩ := raised_add? hg hnames hnew hb
  rw [← List.flatMap_singleton Blueprint.names b] at hnew
  have hadds := addsUnder_add? hg hp hd hnew hb
  obtain ⟨hheirs, hall⟩ := heirs_add? hg hd hnew hb
  refine ⟨hall, fun name hname names n hn => hheirs.leadsThrough hn ?_,
    fun names around haround => ?_⟩
  · rwa [List.flatMap_singleton]
  · rw [← hadds.options]
    exact hheirs.overrides haround

/-- A bare root with an option. -/
def house : CommandTree .builtins := builtUnder [.option "level" .bool] []

/-- A literal of two names that gives the option of the house twice, with a child that gives
another one. -/
def boiler : Blueprint .builtins :=
  { Blueprint.bare (.literal "boiler" ["heater"]) with
    options := [.option "level" .intRange, .option "level" .word]
    children := [{ Blueprint.literal "off" with options := [.option "mode" .bool] }] }

def heated : CommandTree .builtins := builtUnder [.option "level" .bool] [boiler]

theorem add?_overrides_options_heated :
    ∃ n, heated.findFrom? root ["heater", "off"] = some n ∧
      (∃ id, (heated.node n).options.find? "level" = some id ∧
        heated.IsOptionOf (.option "level" .word) id) ∧
      ∃ id, (heated.node n).options.find? "mode" = some id ∧ house.size ≤ id ∧
        heated.IsOptionOf (.option "mode" .bool) id := by
  have hb : house.add? root boiler = .ok (heated, 2, [3]) := rfl
  have hd : Blueprint.Distinct [boiler] := .cons (by decide) (.cons (by decide) .nil .nil) .nil
  have hnew : ∀ name ∈ boiler.names, (house.node root).child? name = none := fun _ _ => rfl
  obtain ⟨-, -, hall⟩ := add?_overrides_options (reachable_builtUnder _ _) hd hnew hb
  obtain ⟨p, n, own, -, -, hn, -, -, hoptions⟩ := hall ["heater", "off"] _
    (.down (List.mem_singleton_self _) (by decide) (.here (List.mem_singleton_self _) (by decide)))
  obtain ⟨level, hlevel, -, hword⟩ := hoptions.given "level" (.option "level" .word) rfl
  obtain ⟨mode, hmode, hlate, hbool⟩ := hoptions.given "mode" (.option "mode" .bool) rfl
  exact ⟨n, hn, ⟨level, hlevel, hword⟩, mode, hmode, hlate, hbool⟩

end CommandTree

end CommandConsole
