import CommandConsole.Proofs.Paths

/-!
# Redirects and children

A blueprint either has children or redirects, and building one into a node that is there is refused
where the node would come to have both. Two ways in are not watched: building below a node that
redirects, and a node that redirects and comes to share the branches of another. A tree has children
at nodes that redirect exactly if one of the two was taken; the node that a node redirects to is
there in any case.
-/

namespace CommandConsole

open Relation

variable {L : Language}

/-! ### Blueprints -/

/-- The blueprints that can be described, step by step. -/
inductive Blueprint.Made : Blueprint L → Prop
  | bare (kind : BlueprintKind L) : Made (.bare kind)
  | child {b c b' : Blueprint L} : Made b → Made c → b.child? c = .ok b' → Made b'
  | option {b o b' : Blueprint L} : Made b → Made o → b.option? o = .ok b' → Made b'
  | redirect {b b' : Blueprint L} {forward : Forward L} :
      Made b → b.redirect? forward = .ok b' → Made b'
  | executes {b : Blueprint L} (action : L.Action) : Made b → Made (b.executes action)
  | requires {b : Blueprint L} (requirement : L.Source → Bool) :
      Made b → Made (b.requires requirement)
  | needs {b : Blueprint L} (permission : String) : Made b → Made (b.needs permission)
  | console {b : Blueprint L} (policy : ConsolePolicy) : Made b → Made (b.console policy)

/-- A blueprint that can be described has children or redirects, but not both, and so do its
children. -/
theorem Blueprint.Made.apart {b : Blueprint L} (h : b.Made) :
    (b.children = [] ∨ b.forward = none) ∧ ∀ c ∈ b.children, c.Made := by
  induction h with
  | bare kind => exact ⟨Or.inl rfl, fun c hc => by cases hc⟩
  | @child b c b' _ hc hchild ihb _ =>
    unfold child? at hchild
    split at hchild
    · cases hchild
    · next hno =>
      obtain rfl := Except.ok.inj hchild
      refine ⟨Or.inr (by simpa using hno), fun d hd => ?_⟩
      rcases List.mem_append.1 hd with hd | hd
      · exact ihb.2 d hd
      · rwa [List.mem_singleton.1 hd]
  | option _ _ hoption ihb _ =>
    unfold option? at hoption
    split at hoption
    · obtain rfl := Except.ok.inj hoption
      exact ihb
    · cases hoption
  | redirect _ hredirect ih =>
    unfold redirect? at hredirect
    split at hredirect
    · next hno =>
      obtain rfl := Except.ok.inj hredirect
      exact ⟨Or.inl (by simpa using hno), ih.2⟩
    · cases hredirect
  | executes _ _ ih => exact ih
  | requires _ _ ih => exact ih
  | needs _ _ ih => exact ih
  | console _ _ ih => exact ih

theorem Node.no_children_iff {n : Node L} :
    n.children.entries = [] ↔ ∀ name, n.child? name = none := by
  have hkeys : n.children.entries = [] ↔ n.children.keys = [] := List.map_eq_nil_iff.symm
  rw [hkeys, List.eq_nil_iff_forall_not_mem]
  exact forall_congr' fun name => Keyed.find?_eq_none_iff.symm

namespace CommandTree

variable {t t' : CommandTree L}
  {layer : NodeId → Nat} {parent first : NodeId} {rest : List NodeId} {b : Blueprint L}

/-! ### Nodes that redirect -/

/-- Whether no node that redirects has children. -/
def EndsAtRedirects (t : CommandTree L) : Prop :=
  ∀ id, (t.node id).forward = none ∨ (t.node id).children.entries = []

/-- Whether nodes that come to share branches do not redirect, if there are any to share. -/
def SharesBehindNone (t : CommandTree L) (first : NodeId) (others : List NodeId) : Prop :=
  ∀ other ∈ others, (t.node other).forward = none ∨ (t.node first).children.entries = []

theorem mergeInto?_apart {name : String} {n merged : Node L}
    (h : mergeInto? b name n = .ok merged) :
    (n.forward = none ∨ b.children = []) ∧ (b.forward = none ∨ n.children.entries = []) := by
  unfold mergeInto? at h
  split at h
  · cases h
  · next hchildren =>
    split at h
    · cases h
    · next hforward =>
      constructor
      · cases hn : n.forward <;> simp_all
      · cases hb : b.forward <;> simp_all

theorem EndsAtRedirects.forward (h : t.EndsAtRedirects) {id : NodeId} {name : String}
    (hchild : ((t.node id).child? name).isSome = true) : (t.node id).forward = none := by
  rcases h id with hno | hno
  · exact hno
  · rw [Node.no_children_iff.1 hno] at hchild
    cases hchild

theorem endsAtRedirects_empty : (empty : CommandTree L).EndsAtRedirects := by
  intro id
  rw [node_empty]
  exact Or.inl rfl

theorem EndsAtRedirects.update (h : t.EndsAtRedirects) (id : NodeId) (f : Node L → Node L)
    (hf : (f (t.node id)).forward = none ∨ (f (t.node id)).children.entries = []) :
    (t.update id f).EndsAtRedirects := by
  intro id'
  rcases node_update_cases t id f id' with heq | ⟨rfl, heq⟩
  · rw [heq]
    exact h id'
  · rw [heq]
    exact hf

theorem EndsAtRedirects.push (h : t.EndsAtRedirects) {n : Node L}
    (hn : n.forward = none ∨ n.children.entries = []) : (t.push n).1.EndsAtRedirects := by
  intro id
  rw [node_push]
  split
  · exact hn
  · exact h id

theorem EndsAtRedirects.share (h : t.EndsAtRedirects) {others : List NodeId}
    (hs : t.SharesBehindNone first others) : (t.shareAll first others).EndsAtRedirects := by
  unfold SharesBehindNone at hs
  -- the first node is read once, in front of the sharing, also if it is among the others
  unfold shareAll
  generalize t.node first = shared at hs
  induction others generalizing t with
  | nil => exact h
  | cons other others ih =>
    have hforwards : ∀ id, ((t.update other (·.shareBranches shared)).node id).forward =
        (t.node id).forward :=
      update_keeps Node.forward t other (·.shareBranches shared) fun _ => rfl
    refine ih (h.update other _ ?_) fun o ho => ?_
    · rcases hs other (List.mem_cons_self ..) with hno | hno
      · exact Or.inl hno
      · rcases h other with hforward | hmine
        · exact Or.inl hforward
        · refine Or.inr ?_
          show ((t.node other).children.extend shared.children).entries = []
          unfold Keyed.extend
          rw [hno]
          exact hmine
    · rw [hforwards]
      exact hs o (List.mem_cons_of_mem _ ho)

/-! ### Building -/

theorem buildName?_child {id : NodeId} {name : String}
    (h : t.buildName? parent b b.kind name = .ok (t', id)) :
    ((t'.node parent).child? name).isSome = true := by
  obtain ⟨above, hp, ⟨merged, hn, hm, rfl⟩ | ⟨kind, hn, hk, rfl, rfl⟩⟩ := buildName?_eq_ok h
  · have hchild : ((t.node parent).child? name).isSome = true := by
      rw [node_of_node? hp, hn]
      rfl
    exact ((Retains.update t id _ (.merge hm)).node parent (lt_size_of_node? hp)).child name hchild
  · have hlt : parent < (t.push (freshNode b kind above)).1.size := by
      rw [size_push]
      exact Nat.lt_succ_of_lt (lt_size_of_node? hp)
    rw [node_update _ _ hlt, if_pos rfl, Node.child?, Node.children_attach, Keyed.find?_insert,
      if_pos rfl]
    rfl

theorem add?_child (hg : Grown t layer) (h : t.add? parent b = .ok (t', first, rest)) :
    ∃ name, ((t'.node parent).child? name).isSome = true := by
  obtain ⟨t₃, t₄, hplace, hall, rfl⟩ := add?_eq_ok h
  obtain ⟨t₁, t₂, name, others, hc, -, h₁, h₂, h₃⟩ := place?_eq_ok hplace
  obtain ⟨layer₁, hg₁, hk₁, hp, -, -⟩ := grown_buildName? hg hc h₁
  have hp₁ : parent < t₁.size := Nat.lt_of_lt_of_le hp hk₁.size
  have hc₁ := checkTarget?_mono hc hk₁.size
  obtain ⟨layer₂, hg₂, -⟩ := grown_buildNames? hg₁ hc₁ hp₁ h₂
  obtain ⟨layer₃, hg₃, -⟩ := grown_place? hg hplace
  have hnames : t₁.Retains t₂ := retains_of_edits (P := Always) (edits_buildNames? hg₁ hc₁ h₂)
  have hoptions : t₂.Retains t₃ := retains_of_edits (P := Always) (edits_addOptions? hg₂ h₃)
  have hrest := ((hnames.trans hoptions).trans (retains_addAll? hg₃ hall)).trans
    (.share t₄ first rest)
  exact ⟨name, (hrest.node parent hp₁).child name (buildName?_child h₁)⟩

theorem endsAtRedirects_buildName? (h : t.EndsAtRedirects) (hp : (t.node parent).forward = none)
    {id : NodeId} {name : String} (hbuild : t.buildName? parent b b.kind name = .ok (t', id)) :
    t'.EndsAtRedirects := by
  obtain ⟨above, habove, ⟨merged, hn, hm, rfl⟩ | ⟨kind, hn, hk, rfl, rfl⟩⟩ :=
    buildName?_eq_ok hbuild
  · refine h.update id _ ?_
    rw [mergeInto?_eq_ok hm]
    rcases (mergeInto?_apart hm).2 with hno | hnil
    · rw [hno]
      exact h id
    · exact Or.inr hnil
  · refine EndsAtRedirects.update (h.push (Or.inr rfl)) parent _ (Or.inl ?_)
    rw [Node.forward_attach, node_push, if_neg (Nat.ne_of_lt (lt_size_of_node? habove))]
    exact hp

/-- A blueprint with children that does not redirect lets no node redirect. -/
theorem forward_buildName? (hb : b.forward = none) (hchildren : b.children ≠ []) {id : NodeId}
    {name : String} (hbuild : t.buildName? parent b b.kind name = .ok (t', id)) :
    (t'.node id).forward = none ∧ ∀ x, x < t.size ∧ (t.node x).forward = none →
      x < t'.size ∧ (t'.node x).forward = none := by
  obtain ⟨above, habove, ⟨merged, hn, hm, rfl⟩ | ⟨kind, hn, hk, rfl, rfl⟩⟩ :=
    buildName?_eq_ok hbuild
  · have hmine : (t.node id).forward = none := (mergeInto?_apart hm).1.resolve_right hchildren
    have hmerged : merged.forward = none := by
      rw [mergeInto?_eq_ok hm, hb, hmine]
      rfl
    have hnone : ∀ x, (t.node x).forward = none →
        ((t.update id fun _ => merged).node x).forward = none := by
      intro x hx
      rcases node_update_cases t id (fun _ => merged) x with heq | ⟨-, heq⟩
      · rw [heq]
        exact hx
      · rw [heq]
        exact hmerged
    exact ⟨hnone id hmine, fun x hx => ⟨by simpa using hx.1, hnone x hx.2⟩⟩
  · have hforwards := update_keeps Node.forward (t.push (freshNode b kind above)).1 parent
      (·.attach name t.size kind.isLiteral) fun n => Node.forward_attach ..
    refine ⟨?_, fun x ⟨hx, hno⟩ => ⟨?_, ?_⟩⟩
    · rw [hforwards, node_push, if_pos rfl]
      exact hb
    · rw [size_update, size_push]
      exact Nat.lt_succ_of_lt hx
    · rw [hforwards, node_push, if_neg (Nat.ne_of_lt hx)]
      exact hno

theorem endsAtRedirects_buildNames? (h : t.EndsAtRedirects) (hp : (t.node parent).forward = none)
    {names : List String} {ids : List NodeId}
    (hbuild : buildNames? parent b b.kind t names = .ok (t', ids)) : t'.EndsAtRedirects := by
  refine (buildNames?_invariant
    (I := fun s => s.EndsAtRedirects ∧ (s.node parent).forward = none) ?_ ⟨h, hp⟩ hbuild).1
  rintro s s' name id ⟨hs, hps⟩ h₁
  have hends := endsAtRedirects_buildName? hs hps h₁
  exact ⟨hends, hends.forward (buildName?_child h₁)⟩

theorem endsAtRedirects_addOption? (h : t.EndsAtRedirects) {id option : NodeId}
    (hb : t.addOption? id b = .ok (t', option)) : t'.EndsAtRedirects := by
  obtain ⟨-, name, type, -, rfl⟩ := addOption?_eq_ok hb
  have hpush := h.push (n := optionNode name type b.gates) (Or.inl rfl)
  exact hpush.update id _ (hpush id)

theorem forward_addOption? {id option : NodeId} (hb : t.addOption? id b = .ok (t', option))
    {x : NodeId} (hx : x < t.size ∧ (t.node x).forward = none) :
    x < t'.size ∧ (t'.node x).forward = none := by
  obtain ⟨-, name, type, -, rfl⟩ := addOption?_eq_ok hb
  rw [update_keeps Node.forward _ id (·.giveOption name t.size) fun _ => rfl, node_push,
    if_neg (Nat.ne_of_lt hx.1), size_update, size_push]
  exact ⟨Nat.lt_succ_of_lt hx.1, hx.2⟩

theorem endsAtRedirects_place? (hg : Grown t layer) (h : t.EndsAtRedirects)
    (hp : (t.node parent).forward = none) (hb : b.children = [] ∨ b.forward = none)
    (hplace : t.place? parent b = .ok (t', first, rest)) :
    t'.EndsAtRedirects ∧ (b.children = [] ∨ (t'.node first).forward = none) := by
  obtain ⟨t₁, t₂, name, others, hc, -, h₁, h₂, h₃⟩ := place?_eq_ok hplace
  have hends₁ := endsAtRedirects_buildName? h hp h₁
  have hends₂ := endsAtRedirects_buildNames? hends₁ (hends₁.forward (buildName?_child h₁)) h₂
  have hends₃ : t'.EndsAtRedirects :=
    addOptions?_invariant (fun hends hadd => endsAtRedirects_addOption? hends hadd) hends₂ h₃
  refine ⟨hends₃, ?_⟩
  by_cases hnil : b.children = []
  · exact Or.inl hnil
  · -- with children the blueprint does not redirect, and later names and options let no node do so
    have hno := hb.resolve_left hnil
    obtain ⟨layer₁, -, -, -, hfirst, -⟩ := grown_buildName? hg hc h₁
    let I (s : CommandTree L) : Prop := first < s.size ∧ (s.node first).forward = none
    have hI₁ : I t₁ := ⟨hfirst, (forward_buildName? hno hnil h₁).1⟩
    have hI₂ : I t₂ := buildNames?_invariant (I := I)
      (fun hI hbuild => (forward_buildName? hno hnil hbuild).2 first hI) hI₁ h₂
    exact Or.inr (addOptions?_invariant (I := I) (fun hI hadd => forward_addOption? hadd hI)
      hI₂ h₃).2

mutual

theorem endsAtRedirects_add? {t t' : CommandTree L} {layer : NodeId → Nat} (hg : Grown t layer)
    (h : t.EndsAtRedirects) {parent first : NodeId} {rest : List NodeId}
    (hp : (t.node parent).forward = none) :
    ∀ {b : Blueprint L}, b.Made → t.Shares SharesBehindNone parent b →
      t.add? parent b = .ok (t', first, rest) → t'.EndsAtRedirects
  | ⟨kind, children, options, command, gates, forward⟩, hmade, hs, hb => by
    obtain ⟨t₁, t₂, h₁, h₂, rfl⟩ := add?_eq_ok hb
    unfold Shares at hs
    obtain ⟨hbelow, hshare⟩ := hs t₁ first rest h₁
    obtain ⟨hapart, hmade'⟩ := hmade.apart
    obtain ⟨layer₁, hg₁, -⟩ := grown_place? hg h₁
    obtain ⟨hends, hfirst⟩ := endsAtRedirects_place? hg h hp hapart h₁
    refine EndsAtRedirects.share ?_ (hshare t₂ h₂)
    exact endsAtRedirects_addAll? hg₁ hends hfirst hmade' hbelow h₂

theorem endsAtRedirects_addAll? {t t' : CommandTree L} {layer : NodeId → Nat}
    (hg : Grown t layer) (h : t.EndsAtRedirects) {parent : NodeId} :
    ∀ {bs : List (Blueprint L)}, bs = [] ∨ (t.node parent).forward = none → (∀ b ∈ bs, b.Made) →
      t.SharesAll SharesBehindNone parent bs → t.addAll? parent bs = .ok t' → t'.EndsAtRedirects
  | [], _, _, _, hb => by
    unfold addAll? at hb
    obtain rfl := Except.ok.inj hb
    exact h
  | b :: bs, hp, hmade, hs, hb => by
    obtain ⟨t₁, first, rest, h₁, h₂⟩ := addAll?_cons_eq_ok hb
    unfold SharesAll at hs
    obtain ⟨hmine, hothers⟩ := hs
    have hno : (t.node parent).forward = none := hp.resolve_left (List.cons_ne_nil b bs)
    have hends := endsAtRedirects_add? hg h hno (hmade b (List.mem_cons_self ..)) hmine h₁
    obtain ⟨layer₁, hg₁, -⟩ := grown_add? hg h₁
    -- something was built below the parent, so it has a child and does not redirect
    obtain ⟨name, hchild⟩ := add?_child hg h₁
    exact endsAtRedirects_addAll? hg₁ hends (Or.inr (hends.forward hchild))
      (fun c hc => hmade c (List.mem_cons_of_mem _ hc)) (hothers t₁ _ h₁) h₂

end

/-! ### What a tree without such a node was built from -/

theorem Retains.forward_none (h : t.Retains t') {id : NodeId} (hno : (t'.node id).forward = none) :
    (t.node id).forward = none := by
  rcases Nat.lt_or_ge id t.size with hlt | hge
  · rw [← Option.not_isSome_iff_eq_none] at hno ⊢
    exact mt (h.node id hlt).forward hno
  · rw [node_of_size_le hge]
    rfl

theorem Retains.no_children (h : t.Retains t') {id : NodeId}
    (hnil : (t'.node id).children.entries = []) : (t.node id).children.entries = [] := by
  rcases Nat.lt_or_ge id t.size with hlt | hge
  · refine Node.no_children_iff.2 fun name => ?_
    have hno := Node.no_children_iff.1 hnil name
    rw [← Option.not_isSome_iff_eq_none] at hno ⊢
    exact mt ((h.node id hlt).child name) hno
  · rw [node_of_size_le hge]
    rfl

theorem EndsAtRedirects.of_retains (h : t'.EndsAtRedirects) (hr : t.Retains t') :
    t.EndsAtRedirects :=
  fun id => (h id).imp hr.forward_none hr.no_children

theorem no_children_of_share {others : List NodeId} (hkeys : (t.node first).children.keys.Nodup)
    {other : NodeId} (hother : other ∈ others) (hlt : other < t.size)
    (hnil : ((t.shareAll first others).node other).children.entries = []) :
    (t.node first).children.entries = [] := by
  unfold shareAll at hnil
  generalize t.node first = shared at hkeys hnil ⊢
  induction others generalizing t with
  | nil => cases hother
  | cons o os ih =>
    rcases List.mem_cons.1 hother with rfl | hother
    · have hshared := (Retains.foldl_share (t.update other _) shared os).no_children hnil
      rw [node_update _ _ hlt, if_pos rfl] at hshared
      refine Node.no_children_iff.2 fun name => ?_
      have hnone := Node.no_children_iff.1 hshared name
      rw [show (((t.node other).shareBranches shared).child? name) = _ from
        Keyed.find?_extend hkeys name] at hnone
      exact (Option.or_eq_none_iff.1 hnone).1
    · exact ih hother (by rwa [size_update]) hnil

theorem SharesBehindNone.of_share {others : List NodeId}
    (hkeys : (t.node first).children.keys.Nodup) (h : (t.shareAll first others).EndsAtRedirects) :
    t.SharesBehindNone first others := by
  intro other hother
  rcases Nat.lt_or_ge other t.size with hlt | hge
  · exact (h other).imp (Retains.share t first others).forward_none
      (no_children_of_share hkeys hother hlt)
  · rw [node_of_size_le hge]
    exact Or.inl rfl

mutual

theorem sharesBehindNone_add? {t t' : CommandTree L} {layer : NodeId → Nat} (hg : Grown t layer)
    (h : t'.EndsAtRedirects) {parent first : NodeId} {rest : List NodeId} :
    ∀ {b : Blueprint L}, t.add? parent b = .ok (t', first, rest) →
      t.Shares SharesBehindNone parent b
  | ⟨kind, children, options, command, gates, forward⟩, hb => by
    obtain ⟨t₁, t₂, h₁, h₂, rfl⟩ := add?_eq_ok hb
    obtain ⟨layer₁, hg₁, -⟩ := grown_place? hg h₁
    obtain ⟨layer₂, hg₂, -⟩ := grown_addAll? hg₁ h₂
    unfold Shares
    intro s first' rest' hplace
    -- the condition is on whatever building answers, and it answers once
    obtain ⟨rfl, hids⟩ := Prod.mk.inj (Except.ok.inj (h₁.symm.trans hplace))
    obtain ⟨rfl, rfl⟩ := Prod.mk.inj hids
    refine ⟨sharesBehindNone_addAll? hg₁ (h.of_retains (.share t₂ first rest)) h₂, fun s' hs' => ?_⟩
    obtain rfl := Except.ok.inj (h₂.symm.trans hs')
    exact .of_share (hg₂.tidied first).children h

theorem sharesBehindNone_addAll? {t t' : CommandTree L} {layer : NodeId → Nat}
    (hg : Grown t layer) (h : t'.EndsAtRedirects) {parent : NodeId} :
    ∀ {bs : List (Blueprint L)}, t.addAll? parent bs = .ok t' →
      t.SharesAll SharesBehindNone parent bs
  | [], _ => by
    unfold SharesAll
    trivial
  | b :: bs, hb => by
    obtain ⟨t₁, first, rest, h₁, h₂⟩ := addAll?_cons_eq_ok hb
    obtain ⟨layer₁, hg₁, -⟩ := grown_add? hg h₁
    unfold SharesAll
    refine ⟨sharesBehindNone_add? hg (h.of_retains (retains_addAll? hg₁ h₂)) h₁, fun s ids hs => ?_⟩
    obtain ⟨rfl, -⟩ := Prod.mk.inj (Except.ok.inj (h₁.symm.trans hs))
    exact sharesBehindNone_addAll? hg₁ h h₂

end

/-! ### Trees that are built -/

/-- Whether a blueprint that can be described is built below a node that does not redirect, such
that nodes that redirect come to share no branches. -/
structure Watched (t : CommandTree L) (parent : NodeId) (b : Blueprint L) : Prop where
  made : b.Made
  above : (t.node parent).forward = none
  shares : t.Shares SharesBehindNone parent b

theorem endsAtRedirects_of_watched (h : ReachableBy Watched t) : t.EndsAtRedirects := by
  induction h with
  | empty => exact endsAtRedirects_empty
  | add hr hw hb ih =>
    obtain ⟨layer, hg⟩ := hr.reachable.grown
    exact endsAtRedirects_add? hg ih hw.above hw.made hw.shares hb
  | addOption _ hb ih => exact endsAtRedirects_addOption? ih hb

theorem watched_of_endsAtRedirects (hg : Grown t layer) (hmade : b.Made)
    (hb : t.add? parent b = .ok (t', first, rest)) (h : t'.EndsAtRedirects) :
    t.Watched parent b where
  made := hmade
  above := by
    obtain ⟨name, hchild⟩ := add?_child hg hb
    exact (retains_add? hg hb).forward_none (h.forward hchild)
  shares := sharesBehindNone_add? hg h hb

/-- A tree built from blueprints that can be described has no children at nodes that redirect
exactly if everything was built into it with both ways in watched. -/
theorem reachableBy_watched_iff (h : ReachableBy (fun _ _ b => b.Made) t) :
    ReachableBy Watched t ↔ t.EndsAtRedirects := by
  refine ⟨endsAtRedirects_of_watched, fun hends => ?_⟩
  induction h with
  | empty => exact .empty
  | add hr hmade hb ih =>
    obtain ⟨layer, hg⟩ := hr.reachable.grown
    have hw := watched_of_endsAtRedirects hg hmade hb hends
    exact .add (ih (hends.of_retains (retains_add? hg hb))) hw hb
  | addOption hr hb ih =>
    obtain ⟨layer, hg⟩ := hr.reachable.grown
    exact .addOption (ih (hends.of_retains (edit_addOption? (P := Always) hg hb).retains)) hb

/-- In every tree that is built such that nothing comes below a node that redirects unwatched, a
node that redirects has no children, and redirects to a node that is there. -/
theorem redirects_end (h : ReachableBy Watched t) {id : NodeId} {forward : Forward L}
    (hf : (t.node id).forward = some forward) :
    (t.node id).children.entries = [] ∧ forward.target < t.size := by
  obtain ⟨layer, hg⟩ := h.reachable.grown
  refine ⟨(endsAtRedirects_of_watched h id).resolve_left ?_, (hg.tidied id).forward forward hf⟩
  rw [hf]
  exact Option.some_ne_none _

/-! ### A way to a literal -/

/-- A literal that redirects. -/
def shortcut (target : NodeId) : Blueprint .builtins :=
  { Blueprint.literal "l" with forward := some ⟨target, none, false⟩ }

theorem made_shortcut (target : NodeId) : (shortcut target).Made := .redirect (.bare _) rfl

def litShortcut : CommandTree .builtins :=
  match (lit (.literal "on" [])).add? root (shortcut 1) with
  | .ok (t, _) => t
  | .error _ => lamp

theorem watched_litShortcut : ReachableBy Watched litShortcut := by
  have hlone : ∀ (t : CommandTree .builtins) first, t.SharesBehindNone first [] :=
    fun _ _ other hother => (List.not_mem_nil hother).elim
  have hlamp : ReachableBy Watched lamp := by
    have hname := (oneName_literal (L := .builtins) "lamp").1
    have hone : Blueprint.OneName { (Blueprint.literal "lamp" : Blueprint .builtins) with
        children := [(Blueprint.literal "off").executes ()] } :=
      ⟨hname, oneName_literal "off", trivial⟩
    have hmade : Blueprint.Made { (Blueprint.literal "lamp" : Blueprint .builtins) with
        children := [(Blueprint.literal "off").executes ()] } :=
      .child (.bare _) (.executes () (.bare _)) rfl
    have hadd : (empty : CommandTree .builtins).add? root { Blueprint.literal "lamp" with
        children := [(Blueprint.literal "off").executes ()] } = .ok (lamp, 1, []) := rfl
    exact .add .empty ⟨hmade, rfl, shares_of_oneName hlone _ _ hone⟩ hadd
  have hlit : ReachableBy Watched (lit (.literal "on" [])) := by
    have hshares : lamp.Shares SharesBehindNone root (light (.literal "on" [])) := by
      refine shares_light hlone (oneName_literal "on") fun t t' hplace hadd other hother => ?_
      cases hplace
      cases hadd
      cases List.mem_singleton.1 hother
      exact Or.inl rfl
    exact .add hlamp ⟨.child (.bare _) (.bare _) rfl, rfl, hshares⟩ (add?_light_literal "on")
  have hone : (shortcut 1).OneName := oneName_literal "l"
  have hadd : (lit (.literal "on" [])).add? root (shortcut 1) = .ok (litShortcut, 5, []) := rfl
  exact .add hlit ⟨made_shortcut 1, rfl, shares_of_oneName hlone _ _ hone⟩ hadd

theorem redirects_end_litShortcut :
    (litShortcut.node 5).forward = some ⟨1, none, false⟩ ∧
      (litShortcut.node 5).children.entries = [] ∧ 1 < litShortcut.size := by
  have hforward : (litShortcut.node 5).forward = some ⟨1, none, false⟩ := rfl
  exact ⟨hforward, redirects_end watched_litShortcut hforward⟩

/-- Something can be built below a node that redirects. -/
theorem redirect_with_child :
    ¬∀ t : CommandTree .builtins, ReachableBy (fun _ _ b => b.Made) t →
      ∀ id forward, (t.node id).forward = some forward →
        (t.node id).children.entries = [] ∧ forward.target < t.size := by
  intro h
  let far : CommandTree .builtins := built [shortcut root]
  let farther : CommandTree .builtins :=
    match far.add? 1 (.literal "on") with
    | .ok (t, _) => t
    | .error _ => far
  have hfar : empty.add? root (shortcut root) = .ok (far, 1, []) := rfl
  have hfarther : far.add? 1 (.literal "on") = .ok (farther, 2, []) := rfl
  have hbuilt : ReachableBy (fun _ _ b => b.Made) farther :=
    .add (.add .empty (made_shortcut root) hfar) (.bare _) hfarther
  have hforward : (farther.node 1).forward = some ⟨root, none, false⟩ := rfl
  cases (h farther hbuilt 1 _ hforward).1

end CommandTree

end CommandConsole
