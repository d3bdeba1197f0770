import CommandConsole.Proofs.Named
import CommandConsole.Proofs.Paths

/-!
# Finding what was built

A blueprint is built along its names: into the nodes that are there under these names, and else into
new ones. It touches no other nodes. So whatever a blueprint describes is found under its names
afterwards, unless two of its parts are merged into one node, as they may be where nodes share
children: then the later part takes the place of the earlier.
-/

namespace CommandConsole

variable {L : Language}

/-! ### Names of blueprints -/

/-- Whether a node of a kind is what a blueprint of a kind describes. -/
def BlueprintKind.Fits : BlueprintKind L → NodeKind L → Prop
  | .literal _ _, .literal _ => True
  | .argument _ type, .argument _ type' => type = type'
  | _, _ => False

theorem CommandTree.nodeKind?_fits {kind : BlueprintKind L} {name : String} {k : NodeKind L}
    (h : nodeKind? kind name = .ok k) : kind.Fits k := by
  cases kind with
  | literal n others =>
    obtain rfl := Except.ok.inj h
    trivial
  | argument n type =>
    obtain rfl := Except.ok.inj h
    rfl
  | option n type => cases h

namespace Blueprint

/-- Whether names of blueprints next to each other are distinct, and so on below them. -/
inductive Distinct : List (Blueprint L) → Prop
  | intro {bs : List (Blueprint L)} : (bs.flatMap names).Nodup →
      (∀ b ∈ bs, Distinct b.children) → Distinct bs

/-- Whether names lead to a blueprint, from some blueprints down. -/
inductive Leads : List (Blueprint L) → List String → Blueprint L → Prop
  | here {bs : List (Blueprint L)} {b : Blueprint L} {name : String} :
      b ∈ bs → name ∈ b.names → Leads bs [name] b
  | down {bs : List (Blueprint L)} {b c : Blueprint L} {name : String} {names : List String} :
      b ∈ bs → name ∈ b.names → Leads b.children names c → Leads bs (name :: names) c

theorem Leads.cons_iff {bs : List (Blueprint L)} {b c : Blueprint L} {names : List String} :
    Leads (b :: bs) names c ↔ Leads [b] names c ∨ Leads bs names c := by
  constructor
  · rintro (⟨hb, hname⟩ | ⟨hb, hname, hbelow⟩)
    · rcases List.mem_cons.1 hb with rfl | hb
      · exact Or.inl (.here (List.mem_singleton_self _) hname)
      · exact Or.inr (.here hb hname)
    · rcases List.mem_cons.1 hb with rfl | hb
      · exact Or.inl (.down (List.mem_singleton_self _) hname hbelow)
      · exact Or.inr (.down hb hname hbelow)
  · rintro ((⟨hb, hname⟩ | ⟨hb, hname, hbelow⟩) | (⟨hb, hname⟩ | ⟨hb, hname, hbelow⟩))
    · exact .here (List.mem_singleton.1 hb ▸ List.mem_cons_self) hname
    · exact .down (List.mem_singleton.1 hb ▸ List.mem_cons_self) hname hbelow
    · exact .here (List.mem_cons_of_mem _ hb) hname
    · exact .down (List.mem_cons_of_mem _ hb) hname hbelow

theorem Leads.ne_nil {bs : List (Blueprint L)} {c : Blueprint L} {names : List String}
    (h : Leads bs names c) : names ≠ [] := by
  cases h <;> exact List.cons_ne_nil _ _

theorem Leads.head_mem {bs : List (Blueprint L)} {c : Blueprint L} {names : List String}
    (h : Leads bs names c) {name : String} (hname : name ∈ names.head?) :
    ∃ b ∈ bs, name ∈ b.names := by
  cases h with
  | here hb hmem => exact ⟨_, hb, Option.some.inj hname ▸ hmem⟩
  | down hb hmem _ => exact ⟨_, hb, Option.some.inj hname ▸ hmem⟩

theorem Distinct.names {bs : List (Blueprint L)} (h : Distinct bs) :
    (bs.flatMap Blueprint.names).Nodup := by
  cases h with
  | intro hnames _ => exact hnames

theorem Distinct.children {bs : List (Blueprint L)} (h : Distinct bs) {b : Blueprint L}
    (hb : b ∈ bs) : Distinct b.children := by
  cases h with
  | intro _ hbelow => exact hbelow b hb

theorem Distinct.nil : Distinct ([] : List (Blueprint L)) :=
  ⟨List.nodup_nil, fun _ hb => (List.not_mem_nil hb).elim⟩

theorem Distinct.cons {bs : List (Blueprint L)} {b : Blueprint L}
    (hnames : (b.names ++ bs.flatMap Blueprint.names).Nodup) (hb : Distinct b.children)
    (h : Distinct bs) : Distinct (b :: bs) := by
  refine ⟨hnames, fun c hc => ?_⟩
  rcases List.mem_cons.1 hc with rfl | hc
  · exact hb
  · exact h.children hc

theorem Distinct.head {bs : List (Blueprint L)} {b : Blueprint L} (h : Distinct (b :: bs)) :
    Distinct [b] := by
  refine ⟨?_, fun c hc => h.children (List.mem_singleton.1 hc ▸ List.mem_cons_self)⟩
  have hnames := h.names
  rw [List.flatMap_cons] at hnames
  rw [List.flatMap_singleton]
  exact hnames.of_append_left

theorem Distinct.tail {bs : List (Blueprint L)} {b : Blueprint L} (h : Distinct (b :: bs)) :
    Distinct bs := by
  refine ⟨?_, fun c hc => h.children (List.mem_cons_of_mem _ hc)⟩
  have hnames := h.names
  rw [List.flatMap_cons] at hnames
  exact hnames.of_append_right

theorem Distinct.not_mem {bs : List (Blueprint L)} {b : Blueprint L} (h : Distinct (b :: bs))
    {name : String} (hname : name ∈ b.names) : name ∉ bs.flatMap Blueprint.names := by
  have hnames := h.names
  rw [List.flatMap_cons] at hnames
  exact fun hmem => List.disjoint_of_nodup_append hnames hname hmem

end Blueprint

namespace CommandTree

variable {t t' t₁ : CommandTree L} {layer layer' : NodeId → Nat} {id parent first n : NodeId}
  {rest ids : List NodeId} {b c : Blueprint L} {bs : List (Blueprint L)} {names : List String}

/-! ### Nodes that blueprints are merged into -/

/-- Whether a node is one that blueprints are merged into when they are built below another: it is
found under their names, on the way down under first names. -/
inductive Meets (t : CommandTree L) : NodeId → List (Blueprint L) → NodeId → Prop
  | here {id n : NodeId} {bs : List (Blueprint L)} {b : Blueprint L} {name : String} :
      b ∈ bs → name ∈ b.names → (t.node id).child? name = some n → Meets t id bs n
  | down {id f n : NodeId} {bs : List (Blueprint L)} {b : Blueprint L} {name : String}
      {others : List String} : b ∈ bs → names? b.kind = .ok (name, others) →
      (t.node id).child? name = some f → Meets t f b.children n → Meets t id bs n

/-- Whether no two of some blueprints, and of those below one of them, are merged into one node. -/
inductive Apart (t : CommandTree L) : NodeId → List (Blueprint L) → Prop
  | intro {id : NodeId} {bs : List (Blueprint L)} :
      bs.Pairwise (fun b b' => ∀ n, Meets t id [b] n → ¬Meets t id [b'] n) →
      (∀ b ∈ bs, ∀ name others f, names? b.kind = .ok (name, others) →
        (t.node id).child? name = some f → Apart t f b.children) → Apart t id bs

theorem Meets.mono {bs' : List (Blueprint L)} (h : Meets t id bs n) (hs : bs ⊆ bs') :
    Meets t id bs' n := by
  cases h with
  | here hb hname hchild => exact .here (hs hb) hname hchild
  | down hb hname hchild hbelow => exact .down (hs hb) hname hchild hbelow

theorem Meets.deeper (hf : Filed t layer) (h : Meets t id bs n) :
    n < t.size ∧ layer id < layer n := by
  induction h with
  | here _ _ hchild =>
    obtain ⟨hlt, hl⟩ := hf.child_lt hchild
    exact ⟨hlt, by omega⟩
  | down _ _ hchild _ ih =>
    obtain ⟨-, hl⟩ := hf.child_lt hchild
    exact ⟨ih.1, by omega⟩

theorem Meets.ne (hf : Filed t layer) (h : Meets t id bs n) : n ≠ id := by
  rintro rfl
  exact Nat.lt_irrefl _ (h.deeper hf).2

theorem Meets.congr (h : Meets t' id bs n)
    (hid : ∀ b ∈ bs, ∀ name ∈ b.names, (t'.node id).child? name = (t.node id).child? name)
    (hmet : ∀ m, Meets t id bs m → ∀ name, (t'.node m).child? name = (t.node m).child? name) :
    Meets t id bs n := by
  induction h with
  | here hb hname hchild =>
    rw [hid _ hb _ hname] at hchild
    exact .here hb hname hchild
  | @down id f n bs b name others hb hname hchild _ ih =>
    have hmem : name ∈ b.names := Blueprint.names_eq hname ▸ List.mem_cons_self
    rw [hid b hb name hmem] at hchild
    have hf : Meets t id bs f := .here hb hmem hchild
    refine .down hb hname hchild (ih (fun _ _ name' _ => hmet f hf name') fun m hm => ?_)
    exact hmet m (.down hb hname hchild hm)

theorem Apart.congr (h : Apart t id bs)
    (hid : ∀ b ∈ bs, ∀ name ∈ b.names, (t'.node id).child? name = (t.node id).child? name)
    (hmet : ∀ m, Meets t id bs m → ∀ name, (t'.node m).child? name = (t.node m).child? name) :
    Apart t' id bs := by
  induction h with
  | @intro id bs hpairs _ ih =>
    have hone : ∀ b ∈ bs, ∀ n, Meets t' id [b] n → Meets t id [b] n := by
      intro b hb n h
      have hsub : [b] ⊆ bs := List.cons_subset.2 ⟨hb, List.nil_subset _⟩
      exact h.congr (fun c hc => hid c (hsub hc)) fun m hm => hmet m (hm.mono hsub)
    refine ⟨hpairs.imp_of_mem fun hb hb' hapart n h h' => ?_,
      fun b hb name others f hname hchild => ?_⟩
    · exact hapart n (hone _ hb n h) (hone _ hb' n h')
    · have hmem : name ∈ b.names := Blueprint.names_eq hname ▸ List.mem_cons_self
      rw [hid b hb name hmem] at hchild
      have hf : Meets t id bs f := .here hb hmem hchild
      exact ih b hb name others f hname hchild (fun _ _ name' _ => hmet f hf name')
        fun m hm => hmet m (.down hb hname hchild hm)

theorem not_meets_of_new (h : ∀ name ∈ bs.flatMap Blueprint.names, (t.node id).child? name = none) :
    ¬Meets t id bs n := by
  rintro (⟨hb, hname, hchild⟩ | ⟨hb, hname, hchild, -⟩)
  · rw [h _ (List.mem_flatMap.2 ⟨_, hb, hname⟩)] at hchild
    cases hchild
  · have hmem := Blueprint.names_eq hname ▸ List.mem_cons_self
    rw [h _ (List.mem_flatMap.2 ⟨_, hb, hmem⟩)] at hchild
    cases hchild

theorem apart_of_new (h : ∀ name ∈ bs.flatMap Blueprint.names, (t.node id).child? name = none) :
    Apart t id bs := by
  refine ⟨(List.pairwise_of_forall fun _ _ => trivial).imp_of_mem fun {b b'} hb _ _ n hn _ => ?_,
    fun b hb name others f hname hchild => ?_⟩
  · exact not_meets_of_new h (hn.mono (List.cons_subset.2 ⟨hb, List.nil_subset _⟩))
  · have hmem := Blueprint.names_eq hname ▸ List.mem_cons_self
    rw [h name (List.mem_flatMap.2 ⟨b, hb, hmem⟩)] at hchild
    cases hchild

/-! ### What is found -/

/-- Whether a node is what a blueprint describes, and has the command and the redirect that the
blueprint declares. A node that was there before keeps its kind. -/
structure Stands (t t' : CommandTree L) (n : NodeId) (c : Blueprint L) : Prop where
  kind : (n < t.size → c.kind.Fits (t.node n).kind) → c.kind.Fits (t'.node n).kind
  command : ∀ action, c.command = some action → (t'.node n).command = some action
  forward : ∀ f, c.forward = some f → (t'.node n).forward = some f

theorem Stands.after {t₂ : CommandTree L} (h : Stands t t₁ n c)
    (hkind : (t₂.node n).kind = (t₁.node n).kind)
    (hcommand : (t₂.node n).command = (t₁.node n).command)
    (hforward : (t₂.node n).forward = (t₁.node n).forward) : Stands t t₂ n c where
  kind hfits := by
    rw [hkind]
    exact h.kind hfits
  command action ha := by
    rw [hcommand]
    exact h.command action ha
  forward f hf := by
    rw [hforward]
    exact h.forward f hf

theorem Stands.before (h : Stands t₁ t' n c)
    (hmine : n < t₁.size → n < t.size ∧ (t₁.node n).kind = (t.node n).kind) : Stands t t' n c where
  kind hfits := h.kind fun hlt => by
    rw [(hmine hlt).2]
    exact hfits (hmine hlt).1
  command := h.command
  forward := h.forward

/-- A way down from a node along names, through nodes of some sort. -/
inductive Trail (t : CommandTree L) (P : NodeId → Prop) : NodeId → List String → NodeId → Prop
  | nil {id : NodeId} : Trail t P id [] id
  | cons {id m n : NodeId} {name : String} {names : List String} :
      (t.node id).child? name = some m → P m → Trail t P m names n →
      Trail t P id (name :: names) n

theorem Trail.congr {P Q : NodeId → Prop} {names : List String} (h : Trail t P id names n)
    (hid : ∀ name ∈ names.head?, (t'.node id).child? name = (t.node id).child? name)
    (hP : ∀ m, P m → Q m ∧ ∀ name, (t'.node m).child? name = (t.node m).child? name) :
    Trail t' Q id names n := by
  induction h with
  | nil => exact .nil
  | cons hchild hm _ ih =>
    rw [← hid _ rfl] at hchild
    exact .cons hchild (hP _ hm).1 (ih fun name _ => (hP _ hm).2 name)

theorem Trail.end_of_ne_nil {P : NodeId → Prop} {names : List String} (h : Trail t P id names n)
    (hne : names ≠ []) : P n := by
  induction h with
  | nil => exact absurd rfl hne
  | cons _ hm hrest ih =>
    cases hrest with
    | nil => exact hm
    | cons => exact ih (List.cons_ne_nil _ _)

theorem Trail.findFrom? {P : NodeId → Prop} {names : List String} (h : Trail t P id names n) :
    t.findFrom? id names = some n := by
  induction h with
  | nil => rfl
  | cons hchild _ _ ih => exact Option.bind_eq_some_iff.2 ⟨_, hchild, ih⟩

def Touched (t : CommandTree L) (id : NodeId) (bs : List (Blueprint L)) (t' : CommandTree L)
    (n : NodeId) : Prop :=
  Meets t id bs n ∨ t.size ≤ n ∧ n < t'.size

/-- What building blueprints below a node comes to: other nodes stay what they are, the node itself
gets children under the names of the blueprints, and all that these describe is found. -/
structure Built (t : CommandTree L) (id : NodeId) (bs : List (Blueprint L)) (t' : CommandTree L) :
    Prop where
  aside : ∀ n < t.size, n ≠ id → ¬Meets t id bs n → t'.node n = t.node n
  command : (t'.node id).command = (t.node id).command
  forward : (t'.node id).forward = (t.node id).forward
  child : ∀ name ∉ bs.flatMap Blueprint.names,
    (t'.node id).child? name = (t.node id).child? name
  found : ∀ names c, Blueprint.Leads bs names c →
    ∃ n, Trail t' (Touched t id bs t') id names n ∧ Stands t t' n c

theorem built_nil : Built t id [] t where
  aside _ _ _ _ := rfl
  command := rfl
  forward := rfl
  child _ _ := rfl
  found names c hc := by
    rcases hc with ⟨hb, -⟩ | ⟨hb, -, -⟩ <;> cases hb

theorem Apart.disjoint (ha : Apart t id (b :: bs)) (h : Meets t id [b] n) : ¬Meets t id bs n := by
  cases ha with
  | intro hpairs _ =>
    intro h'
    have hone := (List.pairwise_cons.1 hpairs).1
    cases h' with
    | here hb hname hchild => exact hone _ hb n h (.here (List.mem_singleton_self _) hname hchild)
    | down hb hname hchild hbelow =>
      exact hone _ hb n h (.down (List.mem_singleton_self _) hname hchild hbelow)

theorem Apart.head (ha : Apart t id (b :: bs)) : Apart t id [b] := by
  cases ha with
  | intro _ hbelow =>
    exact ⟨List.pairwise_singleton _ _, fun c hc =>
      hbelow c (List.mem_singleton.1 hc ▸ List.mem_cons_self)⟩

theorem Apart.tail (ha : Apart t id (b :: bs)) : Apart t id bs := by
  cases ha with
  | intro hpairs hbelow =>
    exact ⟨(List.pairwise_cons.1 hpairs).2, fun c hc => hbelow c (List.mem_cons_of_mem _ hc)⟩

section Siblings

variable (hf : Filed t layer) (hnames : Blueprint.Distinct (b :: bs)) (ha : Apart t id (b :: bs))
  (h : Built t id [b] t₁)

include hf hnames ha h

omit hnames in
theorem Built.met (hn : Meets t id bs n) : t₁.node n = t.node n :=
  h.aside n (hn.deeper hf).1 (hn.ne hf) fun hmine => ha.disjoint hmine hn

omit hf ha in
theorem Built.child_next : ∀ c ∈ bs, ∀ name ∈ c.names,
    (t₁.node id).child? name = (t.node id).child? name := by
  intro c hc name hname
  refine h.child name fun hmine => ?_
  rw [List.flatMap_singleton] at hmine
  exact hnames.not_mem hmine (List.mem_flatMap.2 ⟨c, hc, hname⟩)

theorem Built.meets_next (hn : Meets t₁ id bs n) : Meets t id bs n :=
  hn.congr (h.child_next hnames) fun m hm name => by rw [h.met hf ha hm]

theorem Built.apart_next : Apart t₁ id bs :=
  ha.tail.congr (h.child_next hnames) fun m hm name => by rw [h.met hf ha hm]

/-- Blueprints next to each other do not get in each other's way. -/
theorem Built.cons (hid : id < t.size) (hk : Keeps t layer t₁ layer') (hsize : t₁.size ≤ t'.size)
    (h' : Built t₁ id bs t') : Built t id (b :: bs) t' := by
  have hfirst : [b] ⊆ b :: bs := List.cons_subset.2 ⟨List.mem_cons_self, List.nil_subset _⟩
  have hnext : ∀ m, Meets t₁ id bs m → Meets t id bs m := fun m => h.meets_next hf hnames ha
  -- a node that the first blueprint touched is not touched by the others
  have hstays : ∀ m, Touched t id [b] t₁ m → t'.node m = t₁.node m := by
    rintro m (hm | hm)
    · exact h'.aside m (Nat.lt_of_lt_of_le (hm.deeper hf).1 hk.size) (hm.ne hf) fun hmore =>
        ha.disjoint hm (hnext m hmore)
    · refine h'.aside m hm.2 (fun heq => ?_) fun hmore => ?_
      · exact absurd hid (Nat.not_lt.2 (heq ▸ hm.1))
      · exact absurd ((hnext m hmore).deeper hf).1 (Nat.not_lt.2 hm.1)
  refine ⟨fun n hlt hne hn => ?_, h'.command.trans h.command, h'.forward.trans h.forward,
    fun name hname => ?_, fun names c hc => ?_⟩
  · rw [h'.aside n (Nat.lt_of_lt_of_le hlt hk.size) hne fun hmore =>
        hn ((hnext n hmore).mono (List.subset_cons_self ..)),
      h.aside n hlt hne fun hmine => hn (hmine.mono hfirst)]
  · rw [List.flatMap_cons, List.mem_append, not_or] at hname
    rw [h'.child name hname.2, h.child name (by rw [List.flatMap_singleton]; exact hname.1)]
  · rcases Blueprint.Leads.cons_iff.1 hc with hc | hc
    · obtain ⟨n, htrail, hstands⟩ := h.found names c hc
      have hend := hstays n (htrail.end_of_ne_nil hc.ne_nil)
      refine ⟨n, htrail.congr (fun name hname => h'.child name ?_) fun m hm => ⟨?_, fun name => ?_⟩,
        hstands.after (by rw [hend]) (by rw [hend]) (by rw [hend])⟩
      · obtain ⟨d, hd, hmem⟩ := hc.head_mem hname
        exact hnames.not_mem (List.mem_singleton.1 hd ▸ hmem)
      · exact hm.imp (·.mono hfirst) (·.imp_right (Nat.lt_of_lt_of_le · hsize))
      · rw [hstays m hm]
    · obtain ⟨n, htrail, hstands⟩ := h'.found names c hc
      refine ⟨n, htrail.congr (fun _ _ => rfl) fun m hm => ⟨?_, fun _ => rfl⟩,
        hstands.before fun hlt => ?_⟩
      · exact hm.imp (fun hmore => (hnext m hmore).mono (List.subset_cons_self ..))
          (·.imp_left (Nat.le_trans hk.size))
      · rcases htrail.end_of_ne_nil hc.ne_nil with hmore | hnew
        · have hold := ((hnext n hmore).deeper hf).1
          exact ⟨hold, hk.kind n hold⟩
        · exact absurd hlt (Nat.not_lt.2 hnew.1)

end Siblings

/-! ### The nodes of one blueprint -/

/-- What building the nodes of a blueprint comes to, with their options. -/
structure Placed (t : CommandTree L) (parent : NodeId) (b : Blueprint L) (t' : CommandTree L)
    (ids : List NodeId) : Prop where
  aside : ∀ m < t.size, m ≠ parent → (∀ name ∈ b.names, (t.node parent).child? name ≠ some m) →
    t'.node m = t.node m
  below : ∀ m, m ≠ parent → ∀ name, (t'.node m).child? name = (t.node m).child? name
  command : (t'.node parent).command = (t.node parent).command
  forward : (t'.node parent).forward = (t.node parent).forward
  child : ∀ name ∉ b.names, (t'.node parent).child? name = (t.node parent).child? name
  nodup : ids.Nodup
  placed : List.Forall₂ (fun name m => (t'.node parent).child? name = some m ∧
    ((t.node parent).child? name = some m ∨ t.size ≤ m) ∧ Stands t t' m b) b.names ids

theorem Stands.merged (hlt : n < t.size) (hn : t'.node n = mergedNode b (t.node n)) :
    Stands t t' n b := by
  rw [mergedNode] at hn
  refine ⟨fun hfits => ?_, fun action ha => ?_, fun f hf => ?_⟩
  · rw [hn]
    exact hfits hlt
  · rw [hn, show (b.command <|> (t.node n).command) = some action by simp [ha]]
  · rw [hn, show (b.forward <|> (t.node n).forward) = some f by simp [hf]]

theorem Stands.fresh {name : String} {k : NodeKind L} {above : Node L}
    (hk : nodeKind? b.kind name = .ok k) (hn : t'.node n = freshNode b k above) :
    Stands t t' n b := by
  refine ⟨fun _ => ?_, fun action ha => ?_, fun f hf => ?_⟩
  · rw [hn]
    exact nodeKind?_fits hk
  · rw [hn]
    exact ha
  · rw [hn]
    exact hf

theorem Named.stands (hf : Filed t layer) (h : Named t parent b names t₁ ids) :
    List.Forall₂ (fun name m => (t₁.node parent).child? name = some m ∧
      ((t.node parent).child? name = some m ∨ t.size ≤ m) ∧ Stands t t₁ m b) names ids := by
  refine h.named.imp ?_
  rintro name m ⟨hchild, ⟨hold, hn⟩ | ⟨hnew, -, k, hk, hn⟩⟩
  · exact ⟨hchild, Or.inl hold, .merged (hf.child_lt hold).1 hn⟩
  · exact ⟨hchild, Or.inr hnew, .fresh hk hn⟩

theorem placed_place? (hg : Grown t layer) (hnames : b.names.Nodup)
    (h : t.place? parent b = .ok (t', first, rest)) : Placed t parent b t' (first :: rest) := by
  obtain ⟨t₁, layer₁, hg₁, -, hp, hnamed, ho⟩ := named_place? hg hnames h
  obtain ⟨-, hother, hchild, options, hfirst⟩ := addOptions?_frame ho
  have hstands := hnamed.stands hg.filed
  obtain ⟨name, hname, hmine, hold, -⟩ := forall₂_mem_right hstands List.mem_cons_self
  have hne : parent ≠ first := (hg₁.filed.child_ne hmine).symm
  have hparent : t'.node parent = t₁.node parent :=
    hother parent (Nat.lt_of_lt_of_le hp hnamed.size) hne
  refine ⟨fun m hm hm' hno => ?_,
    fun m hm' name' => (hchild m name').trans (hnamed.below m hm' name'),
    by rw [hparent, hnamed.above.command], by rw [hparent, hnamed.above.forward],
    fun name' hname' => by rw [hparent, hnamed.child name' hname'], hnamed.nodup hg₁.filed hnames,
    hstands.imp ?_⟩
  · have hm'' : m ≠ first := by
      rintro rfl
      exact hold.elim (hno name hname) (Nat.not_le.2 hm)
    rw [hother m (Nat.lt_of_lt_of_le hm hnamed.size) hm'', hnamed.aside m hm hm' hno]
  · rintro name' m ⟨hm, hold', hmine'⟩
    refine ⟨by rw [hparent, hm], hold', ?_⟩
    by_cases hm' : m = first
    · rw [hm'] at hmine' ⊢
      exact hmine'.after (by rw [hfirst]) (by rw [hfirst]) (by rw [hfirst])
    · have hsame := hother m (hg₁.filed.child_lt hm).1 hm'
      exact hmine'.after (by rw [hsame]) (by rw [hsame]) (by rw [hsame])

/-! ### Blueprints with all below them -/

section Below

variable (hf : Filed t layer) (hk : Keeps t layer t₁ layer') (hf₁ : Filed t₁ layer')
  {name : String} {others : List String} (hn : names? b.kind = .ok (name, others))
  (hd : Blueprint.Distinct [b]) (h : Placed t parent b t₁ (first :: rest))
  {t₂ : CommandTree L} {layer₂ : NodeId → Nat} (hg₂ : Grown t₂ layer₂)
  (hk₂ : Keeps t₁ layer' t₂ layer₂) (hbelow : Built t₁ first b.children t₂)

section

include hf₁ hn h

theorem Placed.head : (t₁.node parent).child? name = some first ∧ first ≠ parent ∧
    ((t.node parent).child? name = some first ∨
      t.size ≤ first ∧ ∀ name, (t₁.node first).child? name = none) := by
  have hplaced := h.placed
  rw [Blueprint.names_eq hn] at hplaced
  obtain ⟨⟨hchild, hold, -⟩, -⟩ := List.forall₂_cons.1 hplaced
  have hne : first ≠ parent := by
    rintro rfl
    have hl := (hf₁.child_lt hchild).2
    omega
  refine ⟨hchild, hne, hold.imp_right fun hnew => ⟨hnew, fun name' => ?_⟩⟩
  rw [h.below first hne, node_of_size_le hnew]
  rfl

include hf

theorem Placed.meets_below (hm : Meets t₁ first b.children n) : Meets t parent [b] n := by
  obtain ⟨-, hne, hold | ⟨-, hnew⟩⟩ := h.head hf₁ hn
  · refine .down (List.mem_singleton_self _) hn hold (hm.congr (fun _ _ name' _ =>
      h.below first hne name') fun m hm name' => h.below m (fun heq => ?_) name')
    have hl := (hm.deeper hf).2
    rw [heq, (hf.child_lt hold).2] at hl
    omega
  · exact absurd hm (not_meets_of_new fun name' _ => hnew name')

theorem Placed.apart_below (ha : Apart t parent [b]) : Apart t₁ first b.children := by
  obtain ⟨-, hne, hold | ⟨-, hnew⟩⟩ := h.head hf₁ hn
  · obtain ⟨-, hbelow⟩ := ha
    refine (hbelow b (List.mem_singleton_self _) name others first hn hold).congr
      (fun _ _ name' _ => h.below first hne name') fun m hm name' => h.below m (fun heq => ?_) name'
    have hl := (hm.deeper hf).2
    rw [heq, (hf.child_lt hold).2] at hl
    omega
  · exact apart_of_new fun name' _ => hnew name'

end

include hf₁ hn hd h

theorem Placed.beside : ∀ m ∈ rest, m < t₁.size ∧
    layer' m = layer' first ∧ m ≠ first ∧ (Meets t parent [b] m ∨ t.size ≤ m) := by
  have hnames := hd.names
  rw [List.flatMap_singleton, Blueprint.names_eq hn] at hnames
  have hplaced := h.placed
  rw [Blueprint.names_eq hn] at hplaced
  obtain ⟨⟨hfirst, -⟩, hothers⟩ := List.forall₂_cons.1 hplaced
  intro m hm
  obtain ⟨name', hname', hchild, hold, -⟩ := forall₂_mem_right hothers hm
  obtain ⟨hlt, hl⟩ := hf₁.child_lt hchild
  refine ⟨hlt, by rw [hl, (hf₁.child_lt hfirst).2], ?_, hold.imp_left fun hold => ?_⟩
  · rintro rfl
    have hsame : name' = name := by rw [← hf₁.child_name hchild, hf₁.child_name hfirst]
    exact (List.nodup_cons.1 hnames).1 (hsame ▸ hname')
  · refine .here (List.mem_singleton_self _) ?_ hold
    rw [Blueprint.names_eq hn]
    exact List.mem_cons_of_mem _ hname'

include hbelow

theorem Placed.rest_node : ∀ m ∈ rest, t₂.node m = t₁.node m := by
  intro m hm
  obtain ⟨hlt, hl, hne, -⟩ := h.beside hf₁ hn hd m hm
  refine hbelow.aside m hlt hne fun hmeets => ?_
  exact Nat.ne_of_gt (hmeets.deeper hf₁).2 hl

theorem Placed.parent_node : (t₂.shareAll first rest).node parent = t₁.node parent := by
  obtain ⟨hfirst, hne, -⟩ := h.head hf₁ hn
  have hl := (hf₁.child_lt hfirst).2
  have hp : parent < t₁.size := by
    refine Nat.lt_of_not_le fun hge => ?_
    rw [node_of_size_le hge] at hfirst
    cases hfirst
  rw [node_shareAll_of_not_mem t₂ first fun hmem => by
    have hsame := (h.beside hf₁ hn hd parent hmem).2.1
    omega]
  refine hbelow.aside parent hp hne.symm fun hmeets => ?_
  have hdeeper := (hmeets.deeper hf₁).2
  omega

include hk₂

theorem Placed.found_here {name' : String} (hname' : name' ∈ b.names) :
    ∃ m ∈ first :: rest, ((t₂.shareAll first rest).node parent).child? name' = some m ∧
      Touched t parent [b] (t₂.shareAll first rest) m ∧ Stands t (t₂.shareAll first rest) m b := by
  obtain ⟨m, hm, hchild, hold, hstands⟩ := forall₂_mem_left h.placed hname'
  have hlt : m < (t₂.shareAll first rest).size := Nat.lt_of_lt_of_le (hf₁.child_lt hchild).1
    (Nat.le_trans hk₂.size (Retains.share t₂ first rest).size)
  have hstands₂ : Stands t t₂ m b := by
    rcases List.mem_cons.1 hm with rfl | hm
    · exact hstands.after (hk₂.kind m (hf₁.child_lt hchild).1) hbelow.command hbelow.forward
    · have hsame := h.rest_node hf₁ hn hd hbelow m hm
      exact hstands.after (by rw [hsame]) (by rw [hsame]) (by rw [hsame])
  refine ⟨m, hm, by rw [h.parent_node hf₁ hn hd hbelow, hchild], ?_, hstands₂.after
    (shareAll_keeps Node.kind (fun _ _ => rfl) t₂ first rest m)
    (shareAll_keeps Node.command (fun _ _ => rfl) t₂ first rest m)
    (shareAll_keeps Node.forward (fun _ _ => rfl) t₂ first rest m)⟩
  exact hold.imp (fun hold => .here (List.mem_singleton_self _) hname' hold) fun hnew => ⟨hnew, hlt⟩

include hf hk hg₂

theorem Placed.found_below {names : List String} {c : Blueprint L}
    (hc : Blueprint.Leads b.children names c) {m : NodeId} (hm : m ∈ first :: rest) :
    ∃ n, Trail (t₂.shareAll first rest) (Touched t parent [b] (t₂.shareAll first rest)) m names n ∧
      Stands t (t₂.shareAll first rest) n c := by
  have hrest := h.beside hf₁ hn hd
  obtain ⟨n, htrail, hstands⟩ := hbelow.found names c hc
  have hmeets : ∀ x, Meets t₁ first b.children x → Meets t parent [b] x :=
    fun x => h.meets_below hf hf₁ hn
  -- on the way below the first node there is none that comes to share its children
  have hway : ∀ x, Touched t₁ first b.children t₂ x →
      Touched t parent [b] (t₂.shareAll first rest) x ∧
        (t₂.shareAll first rest).node x = t₂.node x := by
    intro x hx
    refine ⟨hx.imp (hmeets x) fun hnew => ⟨Nat.le_trans hk.size hnew.1,
      Nat.lt_of_lt_of_le hnew.2 (Retains.share t₂ first rest).size⟩,
      node_shareAll_of_not_mem t₂ first fun hmem => ?_⟩
    obtain ⟨hlt, hl, -, -⟩ := hrest x hmem
    rcases hx with hx | hx
    · exact Nat.ne_of_gt (hx.deeper hf₁).2 hl
    · exact absurd hlt (Nat.not_lt.2 hx.1)
  have hend : Touched t₁ first b.children t₂ n := htrail.end_of_ne_nil hc.ne_nil
  have hsame := (hway n hend).2
  refine ⟨n, ?_, (hstands.before fun hlt => ?_).after (by rw [hsame]) (by rw [hsame])
    (by rw [hsame])⟩
  · cases htrail with
    | nil => exact absurd rfl hc.ne_nil
    | cons hchild hx htrail =>
      refine .cons ?_ (hway _ hx).1 (htrail.congr (fun _ _ => by rw [(hway _ hx).2]) fun x hx =>
        ⟨(hway x hx).1, fun _ => by rw [(hway x hx).2]⟩)
      rcases List.mem_cons.1 hm with rfl | hm
      · rw [node_shareAll_of_not_mem t₂ m fun hmem => (hrest m hmem).2.2.1 rfl, hchild]
      · rw [node_shareAll_of_mem t₂ first (List.nodup_cons.1 h.nodup).2 hm
          (Nat.lt_of_lt_of_le (hrest m hm).1 hk₂.size)]
        refine (Keyed.find?_extend (hg₂.tidied first).children _).trans ?_
        rw [show (t₂.node first).children.find? _ = _ from hchild]
        rfl
  · rcases hend with hend | hend
    · have hold := ((hmeets n hend).deeper hf).1
      exact ⟨hold, hk.kind n hold⟩
    · exact absurd hlt (Nat.not_lt.2 hend.1)

theorem Placed.built : Built t parent [b] (t₂.shareAll first rest) := by
  obtain ⟨-, hne, hold⟩ := h.head hf₁ hn
  have hparent := h.parent_node hf₁ hn hd hbelow
  refine ⟨fun m hm hm' hno => ?_, by rw [hparent, h.command], by rw [hparent, h.forward],
    fun name' hname' => ?_, fun names c hc => ?_⟩
  · have hmem : m ∉ rest := fun hmem =>
      (h.beside hf₁ hn hd m hmem).2.2.2.elim hno (Nat.not_le.2 hm)
    have hfirst : m ≠ first := by
      rintro rfl
      refine hold.elim (fun hold => hno (.here (List.mem_singleton_self _) ?_ hold)) fun hnew =>
        Nat.not_le.2 hm hnew.1
      exact Blueprint.names_eq hn ▸ List.mem_cons_self
    rw [node_shareAll_of_not_mem t₂ first hmem, hbelow.aside m (Nat.lt_of_lt_of_le hm hk.size)
      hfirst fun hmeets => hno (h.meets_below hf hf₁ hn hmeets)]
    exact h.aside m hm hm' fun name' hname' hchild =>
      hno (.here (List.mem_singleton_self _) hname' hchild)
  · rw [List.flatMap_singleton] at hname'
    rw [hparent, h.child name' hname']
  · rcases hc with ⟨hb, hname'⟩ | ⟨hb, hname', hc⟩
    · obtain rfl := List.mem_singleton.1 hb
      obtain ⟨m, -, hchild, htouched, hstands⟩ := h.found_here hf₁ hn hd hk₂ hbelow hname'
      exact ⟨m, .cons hchild htouched .nil, hstands⟩
    · obtain rfl := List.mem_singleton.1 hb
      obtain ⟨m, hm, hchild, htouched, -⟩ := h.found_here hf₁ hn hd hk₂ hbelow hname'
      obtain ⟨n, htrail, hstands⟩ := h.found_below hf hk hf₁ hn hd hg₂ hk₂ hbelow hc hm
      exact ⟨n, .cons hchild htouched htrail, hstands⟩

end Below

mutual

theorem built_add? {t t' : CommandTree L} {layer : NodeId → Nat} (hg : Grown t layer)
    {parent first : NodeId} {rest : List NodeId} :
    ∀ {b : Blueprint L}, Blueprint.Distinct [b] → Apart t parent [b] →
      t.add? parent b = .ok (t', first, rest) → Built t parent [b] t'
  | ⟨kind, children, options, command, gates, forward⟩, hd, ha, hb => by
    obtain ⟨t₁, t₂, h₁, h₂, rfl⟩ := add?_eq_ok hb
    have hnames := hd.names
    rw [List.flatMap_singleton] at hnames
    obtain ⟨_, _, name, others, -, hn, -⟩ := place?_eq_ok h₁
    obtain ⟨layer₁, hg₁, hk₁, hfirst, -⟩ := grown_place? hg h₁
    have hplaced := placed_place? hg hnames h₁
    have hbelow : Built t₁ first children t₂ :=
      built_addAll? hg₁ hfirst (hd.children (List.mem_singleton_self _))
        (hplaced.apart_below hg.filed hg₁.filed hn ha) h₂
    obtain ⟨_, hg₂, hk₂⟩ := grown_addAll? hg₁ h₂
    exact hplaced.built hg.filed hk₁ hg₁.filed hn hd hg₂ hk₂ hbelow

theorem built_addAll? {t t' : CommandTree L} {layer : NodeId → Nat} (hg : Grown t layer)
    {parent : NodeId} (hp : parent < t.size) :
    ∀ {bs : List (Blueprint L)}, Blueprint.Distinct bs → Apart t parent bs →
      t.addAll? parent bs = .ok t' → Built t parent bs t'
  | [], _, _, hb => by
    unfold addAll? at hb
    obtain rfl := Except.ok.inj hb
    exact built_nil
  | b :: bs, hd, ha, hb => by
    obtain ⟨t₁, first, rest, h₁, h₂⟩ := addAll?_cons_eq_ok hb
    obtain ⟨layer₁, hg₁, hk₁⟩ := grown_add? hg h₁
    obtain ⟨_, _, hk₂⟩ := grown_addAll? hg₁ h₂
    have hone := built_add? hg hd.head ha.head h₁
    have hmore := built_addAll? hg₁ (Nat.lt_of_lt_of_le hp hk₁.size) hd.tail
      (hone.apart_next hg.filed hd ha) h₂
    exact hone.cons hg.filed hd ha hp hk₁ hk₂.size hmore

end

/-! ### Everything registered is found -/

theorem Built.findFrom? (h : Built t parent bs t') (hf : Filed t layer) {path : List String}
    (hp : t.findFrom? id path = some parent) : t'.findFrom? id path = some parent := by
  induction path generalizing id with
  | nil => exact hp
  | cons name names ih =>
    have habove := hf.layer_findFrom? hp
    rw [List.length_cons] at habove
    obtain ⟨child, hchild, hrest⟩ := Option.bind_eq_some_iff.1 hp
    have hlt : id < t.size := by
      refine Nat.lt_of_not_le fun hge => ?_
      rw [node_of_size_le hge] at hchild
      cases hchild
    have hsame : t'.node id = t.node id := by
      refine h.aside id hlt (fun heq => ?_) fun hmeets => ?_
      · rw [heq] at habove
        omega
      · have hdeeper := (hmeets.deeper hf).2
        omega
    exact Option.bind_eq_some_iff.2 ⟨child, by rw [hsame, hchild], ih hrest⟩

/-- Whatever a blueprint describes is found under its names once the blueprint is built, and has the
command and the redirect that the blueprint declares, if no two parts of the blueprint are merged
into one node. It is of the kind described, unless it was there before and is of another. -/
theorem add?_registers (ht : t.Reachable) {path : List String} (hp : t.find? path = some parent)
    (hd : Blueprint.Distinct [b]) (ha : t.Apart parent [b])
    (hb : t.add? parent b = .ok (t', first, rest)) {names : List String} {c : Blueprint L}
    (hc : Blueprint.Leads [b] names c) :
    ∃ n, t'.find? (path ++ names) = some n ∧ Stands t t' n c := by
  obtain ⟨layer, hg⟩ := ht.grown
  have hbuilt := built_add? hg hd ha hb
  obtain ⟨n, htrail, hstands⟩ := hbuilt.found names c hc
  refine ⟨n, ?_, hstands⟩
  unfold find?
  rw [findFrom?_append, hbuilt.findFrom? hg.filed hp]
  exact htrail.findFrom?

theorem distinct_light : Blueprint.Distinct [light (.literal "on" [])] :=
  .cons (by decide) (.cons (by decide) .nil .nil) .nil

theorem apart_light (child : BlueprintKind .builtins) : lamp.Apart root [light child] := by
  have hnew : (lamp.node root).child? "light" = none := by decide +kernel
  refine ⟨List.pairwise_singleton _ _, fun b hb name others f hn hchild => ?_⟩
  rw [List.mem_singleton.1 hb] at hn
  cases hn
  rw [hnew] at hchild
  cases hchild

theorem add?_registers_lamp :
    lamp.find? [] = some root ∧ Blueprint.Distinct [light (.literal "on" [])] ∧
      lamp.Apart root [light (.literal "on" [])] ∧ ∃ n,
      (lit (.literal "on" [])).find? ["lamp", "on"] = some n ∧
        Stands lamp (lit (.literal "on" [])) n (.bare (.literal "on" [])) :=
  have hroot : lamp.find? [] = some root := rfl
  ⟨hroot, distinct_light, apart_light _, add?_registers (reachable_built _) hroot
    distinct_light (apart_light _) (add?_light_literal "on")
    (.down (List.mem_singleton_self _) (by decide) (.here (List.mem_singleton_self _) (by decide)))⟩

/-- A literal with two children that share a child of their own. -/
def panel : CommandTree .builtins :=
  built [{ Blueprint.literal "panel" with children :=
    [{ Blueprint.bare (.literal "up" ["on"]) with children := [.literal "go"] }] }]

/-- Redirects for the child, a different one under each of the two names. -/
def wiring : Blueprint .builtins :=
  { Blueprint.literal "panel" with children :=
    [{ Blueprint.literal "up" with children :=
        [{ Blueprint.literal "go" with forward := some ⟨0, none, false⟩ }] },
      { Blueprint.literal "on" with children :=
        [{ Blueprint.literal "go" with forward := some ⟨1, none, false⟩ }] }] }

def wired : CommandTree .builtins :=
  match panel.add? root wiring with
  | .ok (t, _) => t
  | .error _ => panel

theorem add?_wiring : panel.add? root wiring = .ok (wired, 1, []) := rfl

theorem distinct_wiring : Blueprint.Distinct [wiring] :=
  have hgo : ∀ f, Blueprint.Distinct [{ (Blueprint.literal "go" : Blueprint .builtins) with
      forward := f }] := fun _ => .cons (List.nodup_singleton _) .nil .nil
  .cons (by decide) (.cons (by decide) (hgo _) (.cons (by decide) (hgo _) .nil)) .nil

/-- A child that nodes share keeps only the last redirect that is declared for it. -/
theorem shared_child_redirected_twice :
    ¬∀ (t t' : CommandTree .builtins) (path names : List String) (parent first : NodeId)
        (rest : List NodeId) (b c : Blueprint .builtins), t.Reachable →
      t.find? path = some parent → Blueprint.Distinct [b] →
      t.add? parent b = .ok (t', first, rest) → Blueprint.Leads [b] names c →
      ∃ n, t'.find? (path ++ names) = some n ∧ c.kind.Fits (t'.node n).kind ∧
        (∀ action, c.command = some action → (t'.node n).command = some action) ∧
        ∀ f, c.forward = some f → (t'.node n).forward.map (·.target) = some f.target := by
  intro h
  have hleads : Blueprint.Leads [wiring] ["panel", "up", "go"]
      { Blueprint.literal "go" with forward := some ⟨0, none, false⟩ } :=
    .down (List.mem_singleton_self _) (by decide) (.down List.mem_cons_self (by decide)
      (.here (List.mem_singleton_self _) (by decide)))
  obtain ⟨n, hn, -, -, hforward⟩ := h panel wired [] _ root 1 [] wiring _ (reachable_built _) rfl
    distinct_wiring add?_wiring hleads
  have hfound : wired.find? ["panel", "up", "go"] = some 4 := by decide +kernel
  obtain rfl := Option.some.inj (hfound.symm.trans hn)
  have htarget := hforward _ rfl
  revert htarget
  decide +kernel

end CommandTree

end CommandConsole
