import CommandConsole.Proofs.BlueprintGates
import Mathlib.Logic.Relation

/-!
# Building by edits

Building a blueprint below a parent is a run of single edits: a new child, a child that is there and
takes over a command or a redirect, a new option, and nodes that come to share the branches of
another. What every edit keeps, building keeps. A condition may be asked of the places where nodes
come to share branches; it is asked of the tree as it stands there, in the midst of building.
-/

namespace CommandConsole

open Relation

variable {L : Language}

/-! ### Conditions on sharing -/

mutual

/-- Whether a blueprint has one name only, and so have all below it. -/
def Blueprint.OneName : Blueprint L → Prop
  | ⟨kind, children, _, _, _, _⟩ =>
    (∀ name others, CommandTree.names? kind = .ok (name, others) → others = []) ∧
      OneNames children

def Blueprint.OneNames : List (Blueprint L) → Prop
  | [] => True
  | b :: bs => OneName b ∧ OneNames bs

end

namespace CommandTree

mutual

/-- Whether a condition holds wherever names of a blueprint come to share branches while it is built
below a parent: on the tree, the node of the first name, and the nodes of the others. -/
def Shares (P : CommandTree L → NodeId → List NodeId → Prop) (t : CommandTree L)
    (parent : NodeId) : Blueprint L → Prop
  | ⟨kind, children, options, command, gates, forward⟩ =>
    ∀ t' first rest,
      t.place? parent ⟨kind, children, options, command, gates, forward⟩ = .ok (t', first, rest) →
      SharesAll P t' first children ∧
      ∀ t'', t'.addAll? first children = .ok t'' → P t'' first rest

def SharesAll (P : CommandTree L → NodeId → List NodeId → Prop) (t : CommandTree L)
    (parent : NodeId) : List (Blueprint L) → Prop
  | [] => True
  | b :: bs => Shares P t parent b ∧
      ∀ t' ids, t.add? parent b = .ok (t', ids) → SharesAll P t' parent bs

end

/-- The trees that are built from a bare root, each blueprint under a condition. -/
inductive ReachableBy (P : CommandTree L → NodeId → Blueprint L → Prop) : CommandTree L → Prop
  | empty : ReachableBy P empty
  | add {t t' : CommandTree L} {parent first : NodeId} {rest : List NodeId} {b : Blueprint L} :
      ReachableBy P t → P t parent b → t.add? parent b = .ok (t', first, rest) → ReachableBy P t'
  | addOption {t t' : CommandTree L} {id option : NodeId} {b : Blueprint L} :
      ReachableBy P t → t.addOption? id b = .ok (t', option) → ReachableBy P t'

/-- The edits that building consists of, with a condition on nodes that come to share branches. -/
inductive Edit (P : CommandTree L → NodeId → List NodeId → Prop) :
    CommandTree L → CommandTree L → Prop
  | attach {t : CommandTree L} {layer : NodeId → Nat} {parent : NodeId} {above : Node L}
      {name : String} {kind : NodeKind L} {b : Blueprint L} :
      Grown t layer → t.node? parent = some above → above.child? name = none →
      t.checkTarget? b.forward = .ok () → nodeKind? b.kind name = .ok kind →
      Edit P t ((t.push (freshNode b kind above)).1.update parent
        (·.attach name t.size kind.isLiteral))
  | merge {t : CommandTree L} {layer : NodeId → Nat} {parent existing : NodeId}
      {above merged : Node L} {name : String} {b : Blueprint L} :
      Grown t layer → t.node? parent = some above → above.child? name = some existing →
      t.checkTarget? b.forward = .ok () → mergeInto? b name (t.node existing) = .ok merged →
      Edit P t (t.update existing fun _ => merged)
  | option {t : CommandTree L} {layer : NodeId → Nat} {id : NodeId} {name : String}
      {type : L.Argument} {gates : Gates L} :
      Grown t layer → id < t.size →
      Edit P t ((t.push (optionNode name type gates)).1.update id (·.giveOption name t.size))
  | share {t : CommandTree L} {layer : NodeId → Nat} {first : NodeId} {others : List NodeId} :
      Grown t layer → (∀ other ∈ others, layer other = layer first) → P t first others →
      Edit P t (t.shareAll first others)

variable {P : CommandTree L → NodeId → List NodeId → Prop} {t t' t'' : CommandTree L}
  {layer : NodeId → Nat} {parent first : NodeId} {rest : List NodeId} {b : Blueprint L}

theorem edits_invariant {I : CommandTree L → Prop} (h : ReflTransGen (Edit P) t t')
    (hstep : ∀ {s s'}, Edit P s s' → I s → I s') (hI : I t) : I t' := by
  induction h with
  | refl => exact hI
  | tail _ hs ih => exact hstep hs ih

/-! ### Steps of building -/

theorem place?_eq_ok (h : t.place? parent b = .ok (t', first, rest)) :
    ∃ t₁ t₂ name others, t.checkTarget? b.forward = .ok () ∧ names? b.kind = .ok (name, others) ∧
      t.buildName? parent b b.kind name = .ok (t₁, first) ∧
      buildNames? parent b b.kind t₁ others = .ok (t₂, rest) ∧
      t₂.addOptions? first b.options = .ok t' := by
  unfold place? at h
  obtain ⟨_, hc, h⟩ := bind_eq_ok.1 h
  obtain ⟨⟨name, others⟩, hn, h⟩ := bind_eq_ok.1 h
  obtain ⟨⟨t₁, id⟩, h₁, h⟩ := bind_eq_ok.1 h
  obtain ⟨⟨t₂, ids⟩, h₂, h⟩ := bind_eq_ok.1 h
  obtain ⟨t₃, h₃, h⟩ := bind_eq_ok.1 h
  obtain ⟨rfl, hids⟩ := Prod.mk.inj (Except.ok.inj h)
  obtain ⟨rfl, rfl⟩ := Prod.mk.inj hids
  exact ⟨t₁, t₂, name, others, hc, hn, h₁, h₂, h₃⟩

theorem add?_eq_ok (h : t.add? parent b = .ok (t', first, rest)) :
    ∃ t₁ t₂, t.place? parent b = .ok (t₁, first, rest) ∧
      t₁.addAll? first b.children = .ok t₂ ∧ t' = t₂.shareAll first rest := by
  rw [add?_eq] at h
  obtain ⟨⟨t₁, id, ids⟩, h₁, h⟩ := bind_eq_ok.1 h
  obtain ⟨t₂, h₂, h⟩ := bind_eq_ok.1 h
  obtain ⟨rfl, hids⟩ := Prod.mk.inj (Except.ok.inj h)
  obtain ⟨rfl, rfl⟩ := Prod.mk.inj hids
  exact ⟨t₁, t₂, h₁, h₂, rfl⟩

theorem addAll?_cons_eq_ok {bs : List (Blueprint L)} (h : t.addAll? parent (b :: bs) = .ok t') :
    ∃ t₁ first rest, t.add? parent b = .ok (t₁, first, rest) ∧ t₁.addAll? parent bs = .ok t' := by
  unfold addAll? at h
  obtain ⟨⟨t₁, first, rest⟩, h₁, h₂⟩ := bind_eq_ok.1 h
  exact ⟨t₁, first, rest, h₁, h₂⟩

theorem grown_place? (hg : Grown t layer) (h : t.place? parent b = .ok (t', first, rest)) :
    ∃ layer', Grown t' layer' ∧ Keeps t layer t' layer' ∧ first < t'.size ∧
      ∀ other ∈ rest, other < t'.size ∧ layer' other = layer' first := by
  obtain ⟨t₁, t₂, name, others, hc, -, h₁, h₂, h₃⟩ := place?_eq_ok h
  obtain ⟨layer₁, hg₁, hk₁, hp, hfirst, hl₁⟩ := grown_buildName? hg hc h₁
  obtain ⟨layer₂, hg₂, hk₂, hl₂⟩ := grown_buildNames? hg₁ (checkTarget?_mono hc hk₁.size)
    (Nat.lt_of_lt_of_le hp hk₁.size) h₂
  obtain ⟨hg₃, hk₃⟩ := grown_addOptions? hg₂ h₃
  refine ⟨layer₂, hg₃, (hk₁.trans hk₂).trans hk₃,
    Nat.lt_of_lt_of_le hfirst (Nat.le_trans hk₂.size hk₃.size), fun other hother => ?_⟩
  obtain ⟨hlt, hl⟩ := hl₂ other hother
  exact ⟨Nat.lt_of_lt_of_le hlt hk₃.size, by rw [hl, hk₂.layer _ hfirst, hl₁, hk₁.layer _ hp]⟩

theorem buildNames?_invariant {I : CommandTree L → Prop}
    (hstep : ∀ {s s' name id}, I s → s.buildName? parent b b.kind name = .ok (s', id) → I s')
    (hI : I t) {names : List String} {ids : List NodeId}
    (h : buildNames? parent b b.kind t names = .ok (t', ids)) : I t' := by
  induction names generalizing t ids with
  | nil =>
    obtain ⟨rfl, -⟩ := Prod.mk.inj (Except.ok.inj h)
    exact hI
  | cons name names ih =>
    obtain ⟨⟨t₁, id⟩, h₁, h⟩ := bind_eq_ok.1 h
    obtain ⟨⟨t₂, others⟩, h₂, h⟩ := bind_eq_ok.1 h
    obtain ⟨rfl, -⟩ := Prod.mk.inj (Except.ok.inj h)
    exact ih (hstep hI h₁) h₂

theorem addOptions?_invariant {I : CommandTree L → Prop} {id : NodeId}
    (hstep : ∀ {s s' o option}, I s → s.addOption? id o = .ok (s', option) → I s')
    (hI : I t) {bs : List (Blueprint L)} (h : t.addOptions? id bs = .ok t') : I t' := by
  induction bs generalizing t with
  | nil =>
    obtain rfl := Except.ok.inj h
    exact hI
  | cons b bs ih =>
    obtain ⟨⟨t₁, option⟩, h₁, h⟩ := bind_eq_ok.1 h
    exact ih (hstep hI h₁) h

/-! ### Building is a run of edits -/

theorem edit_buildName? (hg : Grown t layer) (hc : t.checkTarget? b.forward = .ok ())
    {name : String} {id : NodeId} (h : t.buildName? parent b b.kind name = .ok (t', id)) :
    Edit P t t' := by
  obtain ⟨above, hp, ⟨merged, hn, hm, rfl⟩ | ⟨kind, hn, hk, rfl, rfl⟩⟩ := buildName?_eq_ok h
  · exact .merge hg hp hn hc hm
  · exact .attach hg hp hn hc hk

theorem edits_buildNames? (hg : Grown t layer) (hc : t.checkTarget? b.forward = .ok ())
    {names : List String} {ids : List NodeId}
    (h : buildNames? parent b b.kind t names = .ok (t', ids)) : ReflTransGen (Edit P) t t' := by
  let I (s : CommandTree L) : Prop := ∃ layer', Grown s layer' ∧
    s.checkTarget? b.forward = .ok () ∧ ReflTransGen (Edit P) t s
  have hend : I t' := by
    refine buildNames?_invariant (I := I) ?_ ⟨layer, hg, hc, .refl⟩ h
    rintro s s' name id ⟨layer₁, hg₁, hc₁, hs⟩ h₁
    obtain ⟨layer₂, hg₂, hk₂, -⟩ := grown_buildName? hg₁ hc₁ h₁
    exact ⟨layer₂, hg₂, checkTarget?_mono hc₁ hk₂.size, hs.tail (edit_buildName? hg₁ hc₁ h₁)⟩
  obtain ⟨-, -, -, hs⟩ := hend
  exact hs

theorem edit_addOption? (hg : Grown t layer) {id option : NodeId}
    (h : t.addOption? id b = .ok (t', option)) : Edit P t t' := by
  obtain ⟨hid, name, type, -, rfl⟩ := addOption?_eq_ok h
  exact .option hg hid

theorem edits_addOptions? (hg : Grown t layer) {id : NodeId} {bs : List (Blueprint L)}
    (h : t.addOptions? id bs = .ok t') : ReflTransGen (Edit P) t t' := by
  refine (addOptions?_invariant (I := fun s => Grown s layer ∧ ReflTransGen (Edit P) t s) ?_
    ⟨hg, .refl⟩ h).2
  rintro s s' o option ⟨hg₁, hs⟩ h₁
  exact ⟨(grown_addOption? hg₁ h₁).1, hs.tail (edit_addOption? hg₁ h₁)⟩

theorem edits_place? (hg : Grown t layer) (h : t.place? parent b = .ok (t', first, rest)) :
    ReflTransGen (Edit P) t t' := by
  obtain ⟨t₁, t₂, name, others, hc, -, h₁, h₂, h₃⟩ := place?_eq_ok h
  obtain ⟨layer₁, hg₁, hk₁, hp, -, -⟩ := grown_buildName? hg hc h₁
  have hc₁ := checkTarget?_mono hc hk₁.size
  obtain ⟨layer₂, hg₂, -⟩ := grown_buildNames? hg₁ hc₁ (Nat.lt_of_lt_of_le hp hk₁.size) h₂
  exact .head (edit_buildName? hg hc h₁) ((edits_buildNames? hg₁ hc₁ h₂).trans
    (edits_addOptions? hg₂ h₃))

mutual

theorem edits_add? {t t' : CommandTree L} {layer : NodeId → Nat} (hg : Grown t layer)
    {parent first : NodeId} {rest : List NodeId} :
    ∀ {b : Blueprint L}, t.Shares P parent b → t.add? parent b = .ok (t', first, rest) →
      ReflTransGen (Edit P) t t'
  | ⟨kind, children, options, command, gates, forward⟩, hs, hb => by
    obtain ⟨t₁, t₂, h₁, h₂, rfl⟩ := add?_eq_ok hb
    unfold Shares at hs
    obtain ⟨hbelow, hshare⟩ := hs t₁ first rest h₁
    obtain ⟨layer₁, hg₁, -, hfirst, hrest⟩ := grown_place? hg h₁
    obtain ⟨layer₂, hg₂, hk₂⟩ := grown_addAll? hg₁ h₂
    -- nodes that share branches have to be in one layer, or a node could come to be below itself
    have hlayers : ∀ other ∈ rest, layer₂ other = layer₂ first := by
      intro other hother
      obtain ⟨hlt, hl⟩ := hrest other hother
      rw [hk₂.layer _ hlt, hk₂.layer _ hfirst, hl]
    exact ((edits_place? hg h₁).trans (edits_addAll? hg₁ hbelow h₂)).tail
      (.share hg₂ hlayers (hshare t₂ h₂))

theorem edits_addAll? {t t' : CommandTree L} {layer : NodeId → Nat} (hg : Grown t layer)
    {parent : NodeId} :
    ∀ {bs : List (Blueprint L)}, t.SharesAll P parent bs → t.addAll? parent bs = .ok t' →
      ReflTransGen (Edit P) t t'
  | [], _, hb => by
    unfold addAll? at hb
    obtain rfl := Except.ok.inj hb
    exact .refl
  | b :: bs, hs, hb => by
    obtain ⟨t₁, first, rest, h₁, h₂⟩ := addAll?_cons_eq_ok hb
    unfold SharesAll at hs
    obtain ⟨hmine, hothers⟩ := hs
    obtain ⟨layer₁, hg₁, -⟩ := grown_add? hg h₁
    exact (edits_add? hg hmine h₁).trans (edits_addAll? hg₁ (hothers t₁ _ h₁) h₂)

end

def Always (_ : CommandTree L) (_ : NodeId) (_ : List NodeId) : Prop := True

theorem always (t : CommandTree L) (first : NodeId) (rest : List NodeId) : Always t first rest :=
  trivial

mutual

theorem shares_of_forall (hP : ∀ t first rest, P t first rest) (t : CommandTree L)
    (parent : NodeId) : ∀ b : Blueprint L, t.Shares P parent b
  | ⟨kind, children, options, command, gates, forward⟩ => by
    unfold Shares
    exact fun t' first rest _ =>
      ⟨sharesAll_of_forall hP t' first children, fun t'' _ => hP t'' first rest⟩

theorem sharesAll_of_forall (hP : ∀ t first rest, P t first rest) (t : CommandTree L)
    (parent : NodeId) : ∀ bs : List (Blueprint L), t.SharesAll P parent bs
  | [] => by
    unfold SharesAll
    trivial
  | b :: bs => by
    unfold SharesAll
    exact ⟨shares_of_forall hP t parent b, fun t' _ _ => sharesAll_of_forall hP t' parent bs⟩

end

mutual

/-- A condition is asked only where a blueprint has further names. -/
theorem shares_of_oneName (hP : ∀ t first, P t first []) (t : CommandTree L) (parent : NodeId) :
    ∀ {b : Blueprint L}, b.OneName → t.Shares P parent b
  | ⟨kind, children, options, command, gates, forward⟩, h => by
    unfold Blueprint.OneName at h
    obtain ⟨hname, hchildren⟩ := h
    unfold Shares
    intro t' first rest hb
    obtain ⟨t₁, t₂, name, others, -, hn, -, h₂, -⟩ := place?_eq_ok hb
    obtain rfl := hname name others hn
    obtain ⟨-, rfl⟩ := Prod.mk.inj (Except.ok.inj h₂)
    exact ⟨sharesAll_of_oneNames hP t' first hchildren, fun t'' _ => hP t'' first⟩

theorem sharesAll_of_oneNames (hP : ∀ t first, P t first []) (t : CommandTree L)
    (parent : NodeId) : ∀ {bs : List (Blueprint L)}, Blueprint.OneNames bs → t.SharesAll P parent bs
  | [], _ => by
    unfold SharesAll
    trivial
  | b :: bs, h => by
    unfold Blueprint.OneNames at h
    unfold SharesAll
    exact ⟨shares_of_oneName hP t parent h.1, fun t' _ _ => sharesAll_of_oneNames hP t' parent h.2⟩

end

/-! ### Trees built under a condition -/

variable {Q : CommandTree L → NodeId → Blueprint L → Prop}

theorem ReachableBy.reachable (h : ReachableBy Q t) : Reachable t := by
  induction h with
  | empty => exact .empty
  | add _ _ hb ih => exact .add ih hb
  | addOption _ hb ih => exact .addOption ih hb

theorem ReachableBy.edits (h : ReachableBy (fun t parent b => t.Shares P parent b) t) :
    ReflTransGen (Edit P) CommandTree.empty t := by
  induction h with
  | empty => exact .refl
  | add hr hs hb ih =>
    obtain ⟨layer, hg⟩ := hr.reachable.grown
    exact ih.trans (edits_add? hg hs hb)
  | addOption hr hb ih =>
    obtain ⟨layer, hg⟩ := hr.reachable.grown
    exact ih.tail (edit_addOption? hg hb)

theorem ReachableBy.addAll? (h : ReachableBy (fun t parent b => t.Shares P parent b) t)
    {bs : List (Blueprint L)} (hs : t.SharesAll P parent bs) (hb : t.addAll? parent bs = .ok t') :
    ReachableBy (fun t parent b => t.Shares P parent b) t' := by
  induction bs generalizing t with
  | nil =>
    unfold CommandTree.addAll? at hb
    obtain rfl := Except.ok.inj hb
    exact h
  | cons b bs ih =>
    obtain ⟨t₁, first, rest, h₁, h₂⟩ := addAll?_cons_eq_ok hb
    unfold SharesAll at hs
    obtain ⟨hmine, hothers⟩ := hs
    exact ih (.add h hmine h₁) (hothers t₁ _ h₁) h₂

/-! ### Gates come from blueprints -/

end CommandTree

mutual

/-- The gates that a blueprint declares: its own, those of its options, and those of what is below
it. -/
def Blueprint.declaredGates : Blueprint L → List (Gates L)
  | ⟨_, children, options, _, gates, _⟩ =>
    gates :: (options.map (·.gates) ++ declaredGatesIn children)

def Blueprint.declaredGatesIn : List (Blueprint L) → List (Gates L)
  | [] => []
  | b :: bs => declaredGates b ++ declaredGatesIn bs

end

theorem Blueprint.mem_declaredGatesIn {g : Gates L} {bs : List (Blueprint L)} {b : Blueprint L}
    (hb : b ∈ bs) (hg : g ∈ b.declaredGates) : g ∈ declaredGatesIn bs := by
  induction hb with
  | head bs => exact List.mem_append_left _ hg
  | tail c _ ih => exact List.mem_append_right _ ih

namespace CommandTree

/-- Whether a condition holds of the gates of all nodes. -/
def AllGates (Q : Gates L → Prop) (t : CommandTree L) : Prop := ∀ id, Q (t.node id).gates

variable {Q : Gates L → Prop}

theorem allGates_empty (hnone : Q .none) : AllGates Q (empty : CommandTree L) := by
  intro id
  rw [node_empty]
  exact hnone

theorem AllGates.update (h : AllGates Q t) (id : NodeId) {f : Node L → Node L}
    (hf : (f (t.node id)).gates = (t.node id).gates) : AllGates Q (t.update id f) := by
  intro id'
  rcases node_update_cases t id f id' with hn | ⟨-, hn⟩
  · rw [hn]
    exact h id'
  · rw [hn, hf]
    exact h id

theorem AllGates.push (h : AllGates Q t) {n : Node L} (hn : Q n.gates) :
    AllGates Q (t.push n).1 := by
  intro id
  rw [node_push]
  split
  · exact hn
  · exact h id

theorem AllGates.buildName? (h : AllGates Q t) (hb : Q b.gates) {name : String} {id : NodeId}
    (hbuild : t.buildName? parent b b.kind name = .ok (t', id)) : AllGates Q t' := by
  obtain ⟨above, -, ⟨merged, -, hmerge, rfl⟩ | ⟨kind, -, -, -, rfl⟩⟩ := buildName?_eq_ok hbuild
  · exact h.update id (by rw [mergeInto?_eq_ok hmerge])
  · exact (h.push hb).update parent (Node.gates_attach ..)

theorem AllGates.addOptions? {id : NodeId} {bs : List (Blueprint L)} (h : AllGates Q t)
    (hbs : ∀ o ∈ bs, Q o.gates) (hadd : t.addOptions? id bs = .ok t') : AllGates Q t' := by
  induction bs generalizing t with
  | nil =>
    obtain rfl := Except.ok.inj hadd
    exact h
  | cons o bs ih =>
    obtain ⟨⟨t₁, option⟩, h₁, h₂⟩ := bind_eq_ok.1 hadd
    obtain ⟨-, name, type, -, rfl⟩ := addOption?_eq_ok h₁
    obtain ⟨ho, hbs⟩ := List.forall_mem_cons.1 hbs
    exact ih ((h.push ho).update id rfl) hbs h₂

theorem AllGates.shareAll (h : AllGates Q t) (first : NodeId) (others : List NodeId) :
    AllGates Q (t.shareAll first others) := by
  unfold CommandTree.shareAll
  generalize t.node first = shared
  induction others generalizing t with
  | nil => exact h
  | cons other others ih => exact ih (h.update other rfl)

mutual

/-- The gates in a tree are those that were there, and those that blueprints declare. -/
theorem AllGates.add? {t t' : CommandTree L} {parent first : NodeId} {rest : List NodeId}
    (h : AllGates Q t) : ∀ {b : Blueprint L}, (∀ g ∈ b.declaredGates, Q g) →
      t.add? parent b = .ok (t', first, rest) → AllGates Q t'
  | ⟨kind, children, options, command, gates, forward⟩, hb, hadd => by
    obtain ⟨t₁, t₂, h₁, h₂, rfl⟩ := add?_eq_ok hadd
    obtain ⟨u, v, name, others, -, -, hname, hnames, hoptions⟩ := place?_eq_ok h₁
    unfold Blueprint.declaredGates at hb
    obtain ⟨hmine, hmore⟩ := List.forall_mem_cons.1 hb
    obtain ⟨hopts, hbelow⟩ := List.forall_mem_append.1 hmore
    rw [List.forall_mem_map] at hopts
    have hu : AllGates Q u := h.buildName? hmine hname
    have hv : AllGates Q v := buildNames?_invariant (fun hs h => hs.buildName? hmine h) hu hnames
    exact ((hv.addOptions? hopts hoptions).addAll? hbelow h₂).shareAll first rest

theorem AllGates.addAll? {t t' : CommandTree L} {parent : NodeId} (h : AllGates Q t) :
    ∀ {bs : List (Blueprint L)}, (∀ g ∈ Blueprint.declaredGatesIn bs, Q g) →
      t.addAll? parent bs = .ok t' → AllGates Q t'
  | [], _, hadd => by
    unfold CommandTree.addAll? at hadd
    obtain rfl := Except.ok.inj hadd
    exact h
  | b :: bs, hbs, hadd => by
    obtain ⟨t₁, first, rest, h₁, h₂⟩ := addAll?_cons_eq_ok hadd
    unfold Blueprint.declaredGatesIn at hbs
    obtain ⟨hb, hbs⟩ := List.forall_mem_append.1 hbs
    exact (h.add? hb h₁).addAll? hbs h₂

end

/-! ### A literal with a second name -/

theorem oneName_bare {kind : BlueprintKind L}
    (h : ∀ name others, names? kind = .ok (name, others) → others = []) :
    (Blueprint.bare kind).OneName := by
  unfold Blueprint.bare Blueprint.OneName Blueprint.OneNames
  exact ⟨h, trivial⟩

theorem oneName_literal (name : String) : (Blueprint.literal name : Blueprint L).OneName := by
  refine oneName_bare fun name' others h => ?_
  cases h
  rfl

theorem oneName_argument (name : String) (type : L.Argument) :
    (Blueprint.argument name type).OneName := by
  refine oneName_bare fun name' others h => ?_
  cases h
  rfl

/-- A literal with a command below it. -/
def lamp : CommandTree .builtins :=
  built [{ Blueprint.literal "lamp" with children := [(Blueprint.literal "off").executes ()] }]

/-- A second name for the literal, with a child of its own. -/
def light (child : BlueprintKind .builtins) : Blueprint .builtins :=
  { Blueprint.bare (.literal "light" ["lamp"]) with children := [.bare child] }

def lit (child : BlueprintKind .builtins) : CommandTree .builtins :=
  match lamp.add? root (light child) with
  | .ok (t, _) => t
  | .error _ => lamp

theorem add?_light_literal (name : String) :
    lamp.add? root (light (.literal name [])) = .ok (lit (.literal name []), 3, [1]) := rfl

theorem add?_light_argument (name : String) (type : Builtin) :
    lamp.add? root (light (.argument name type)) = .ok (lit (.argument name type), 3, [1]) := rfl

section Lamp

variable {P : CommandTree .builtins → NodeId → List NodeId → Prop}
  (hP : ∀ t first, P t first [])

include hP

theorem reachableBy_lamp : ReachableBy (fun t parent b => t.Shares P parent b) lamp := by
  refine ReachableBy.empty.addAll? (sharesAll_of_oneNames hP _ root ?_) (addAll?_built rfl)
  have hoff : ((Blueprint.literal "off").executes () : Blueprint .builtins).OneName :=
    oneName_literal "off"
  have hname := (oneName_literal (L := .builtins) "lamp").1
  exact ⟨⟨hname, hoff, trivial⟩, trivial⟩

theorem shares_light {child : BlueprintKind .builtins} (hchild : (Blueprint.bare child).OneName)
    (h : ∀ t t', lamp.place? root (light child) = .ok (t, 3, [1]) →
      t.addAll? 3 [.bare child] = .ok t' → P t' 3 [1]) :
    lamp.Shares P root (light child) := by
  unfold light Shares
  intro t first rest hplace
  cases hplace
  exact ⟨sharesAll_of_oneNames hP _ _ ⟨hchild, trivial⟩, fun t' hb => h _ t' rfl hb⟩

end Lamp

end CommandTree

end CommandConsole
