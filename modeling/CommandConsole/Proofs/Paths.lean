import CommandConsole.Proofs.Edits
import CommandConsole.Proofs.Filing

/-!
# Paths that stay

Building never takes anything from a node that is there but its way in: the node keeps its kind and
gates, has a command or a redirect if it had one, and has an option under every name it had one
under. The ways down to it stay as well, unless nodes come to share the branches of another one that
has a different child under a name they have a child under.
-/

namespace CommandConsole

open Relation

variable {L : Language}

/-! ### Nodes -/

/-- What a node keeps of what it was before. -/
structure Node.Retains (n n' : Node L) : Prop where
  kind : n'.kind = n.kind
  gates : n'.gates = n.gates
  command : n.command.isSome = true → n'.command.isSome = true
  forward : n.forward.isSome = true → n'.forward.isSome = true
  option : ∀ name, (n.options.find? name).isSome = true → (n'.options.find? name).isSome = true
  child : ∀ name, (n.child? name).isSome = true → (n'.child? name).isSome = true

theorem Keyed.isSome_find?_insert {κ α : Type} [DecidableEq κ] (m : Keyed κ α) (k k' : κ) (v : α)
    (h : (m.find? k').isSome = true) : ((m.insert k v).find? k').isSome = true := by
  rw [find?_insert]
  split
  · rfl
  · exact h

theorem Keyed.isSome_find?_extend {κ α : Type} [DecidableEq κ] (m other : Keyed κ α) (k : κ)
    (h : (m.find? k).isSome = true) : ((m.extend other).find? k).isSome = true := by
  obtain ⟨es⟩ := other
  unfold extend
  induction es generalizing m with
  | nil => exact h
  | cons e es ih => exact ih _ (isSome_find?_insert m e.1 k e.2 h)

namespace Node.Retains

theorem refl (n : Node L) : n.Retains n :=
  ⟨rfl, rfl, id, id, fun _ => id, fun _ => id⟩

theorem trans {n n' n'' : Node L} (h : n.Retains n') (h' : n'.Retains n'') : n.Retains n'' where
  kind := h'.kind.trans h.kind
  gates := h'.gates.trans h.gates
  command := h'.command ∘ h.command
  forward := h'.forward ∘ h.forward
  option name := h'.option name ∘ h.option name
  child name := h'.child name ∘ h.child name

theorem attach (n : Node L) (name : String) (child : NodeId) (isLiteral : Bool) :
    n.Retains (n.attach name child isLiteral) where
  kind := kind_attach ..
  gates := gates_attach ..
  command h := by rwa [command_attach]
  forward h := by rwa [forward_attach]
  option name' h := by rwa [options_attach]
  child name' h := by
    unfold child?
    rw [children_attach]
    exact Keyed.isSome_find?_insert _ _ _ _ h

theorem merge {b : Blueprint L} {name : String} {n merged : Node L}
    (h : CommandTree.mergeInto? b name n = .ok merged) : n.Retains merged := by
  rw [CommandTree.mergeInto?_eq_ok h]
  refine ⟨rfl, rfl, fun hc => ?_, fun hf => ?_, fun _ => id, fun _ => id⟩
  · show (b.command <|> n.command).isSome = true
    rw [Option.orElse_eq_orElse, Option.orElse_eq_or, Option.isSome_or, hc, Bool.or_true]
  · show (b.forward <|> n.forward).isSome = true
    rw [Option.orElse_eq_orElse, Option.orElse_eq_or, Option.isSome_or, hf, Bool.or_true]

theorem giveOption (n : Node L) (name : String) (option : NodeId) :
    n.Retains (n.giveOption name option) :=
  { refl n with option := fun name' => Keyed.isSome_find?_insert n.options name name' option }

theorem shareBranches (n other : Node L) : n.Retains (n.shareBranches other) :=
  { refl n with
    option := fun name => Keyed.isSome_find?_extend n.options other.options name
    child := fun name => Keyed.isSome_find?_extend n.children other.children name }

end Node.Retains

namespace CommandTree

variable {P : CommandTree L → NodeId → List NodeId → Prop} {t t' t'' : CommandTree L}
  {layer : NodeId → Nat} {parent first : NodeId} {rest : List NodeId} {b : Blueprint L}

/-! ### Trees -/

/-- Whether every node of a tree is still there, with what it had. -/
structure Retains (t t' : CommandTree L) : Prop where
  size : t.size ≤ t'.size
  node : ∀ id < t.size, (t.node id).Retains (t'.node id)

theorem Retains.refl (t : CommandTree L) : t.Retains t := ⟨Nat.le_refl _, fun _ _ => .refl _⟩

theorem Retains.trans (h : t.Retains t') (h' : t'.Retains t'') : t.Retains t'' where
  size := Nat.le_trans h.size h'.size
  node id hid := (h.node id hid).trans (h'.node id (Nat.lt_of_lt_of_le hid h.size))

theorem Retains.keeps (h : t.Retains t') (layer : NodeId → Nat) : Keeps t layer t' layer :=
  ⟨h.size, fun id hid => (h.node id hid).kind, fun id hid => (h.node id hid).gates, fun _ _ => rfl⟩

theorem Retains.push (t : CommandTree L) (n : Node L) : t.Retains (t.push n).1 where
  size := by simp
  node id hid := by
    rw [node_push, if_neg (Nat.ne_of_lt hid)]
    exact .refl _

theorem Retains.update (t : CommandTree L) (id : NodeId) (f : Node L → Node L)
    (hf : (t.node id).Retains (f (t.node id))) : t.Retains (t.update id f) where
  size := by simp
  node id' _ := by
    rcases node_update_cases t id f id' with heq | ⟨rfl, heq⟩
    · rw [heq]
      exact .refl _
    · rw [heq]
      exact hf

theorem Retains.foldl_share (t : CommandTree L) (shared : Node L) (others : List NodeId) :
    t.Retains (others.foldl (fun t id => t.update id (·.shareBranches shared)) t) := by
  induction others generalizing t with
  | nil => exact .refl t
  | cons other others ih =>
    exact (Retains.update t other (·.shareBranches shared) (.shareBranches _ _)).trans (ih _)

theorem Retains.share (t : CommandTree L) (first : NodeId) (others : List NodeId) :
    t.Retains (t.shareAll first others) :=
  .foldl_share t (t.node first) others

theorem Edit.retains (h : Edit P t t') : t.Retains t' := by
  cases h with
  | attach => exact (Retains.push _ _).trans (.update _ _ _ (.attach ..))
  | merge _ _ _ _ hm => exact .update _ _ _ (.merge hm)
  | option => exact (Retains.push _ _).trans (.update _ _ _ (.giveOption ..))
  | share => exact .share _ _ _

theorem retains_of_edits (h : ReflTransGen (Edit P) t t') : t.Retains t' :=
  edits_invariant h (fun hs ih => ih.trans hs.retains) (.refl t)

theorem retains_add? (hg : Grown t layer) (hb : t.add? parent b = .ok (t', first, rest)) :
    t.Retains t' :=
  retains_of_edits (P := Always) (edits_add? hg (shares_of_forall always t parent b) hb)

theorem retains_addAll? (hg : Grown t layer) {bs : List (Blueprint L)}
    (hb : t.addAll? parent bs = .ok t') : t.Retains t' :=
  retains_of_edits (P := Always) (edits_addAll? hg (sharesAll_of_forall always t parent bs) hb)

/-! ### Ways down -/

/-- Whether nodes that come to share the branches of another one have no different child under its
names, among the children they had in an earlier tree. -/
def Spares (earlier t : CommandTree L) (first : NodeId) (others : List NodeId) : Prop :=
  ∀ other ∈ others, ∀ name c c', (earlier.node other).child? name = some c →
    (t.node first).child? name = some c' → c' = c

def KeepsChildren (earlier t : CommandTree L) : Prop :=
  ∀ id name c, (earlier.node id).child? name = some c → (t.node id).child? name = some c

theorem KeepsChildren.update {earlier : CommandTree L} (h : earlier.KeepsChildren t) (id : NodeId)
    (f : Node L → Node L) (hf : ∀ name c, (earlier.node id).child? name = some c →
      (f (t.node id)).child? name = some c) : earlier.KeepsChildren (t.update id f) := by
  intro id' name c hc
  rcases node_update_cases t id f id' with heq | ⟨rfl, heq⟩
  · rw [heq]
    exact h id' name c hc
  · rw [heq]
    exact hf name c hc

theorem KeepsChildren.push {earlier : CommandTree L} (h : earlier.KeepsChildren t) (n : Node L) :
    earlier.KeepsChildren (t.push n).1 := by
  intro id name c hc
  have hmine := h id name c hc
  rcases Nat.lt_or_ge id t.size with hlt | hge
  · rwa [node_push, if_neg (Nat.ne_of_lt hlt)]
  · rw [node_of_size_le hge] at hmine
    cases hmine

theorem KeepsChildren.share {earlier : CommandTree L} (h : earlier.KeepsChildren t)
    (hkeys : (t.node first).children.keys.Nodup) {others : List NodeId}
    (hs : earlier.Spares t first others) : earlier.KeepsChildren (t.shareAll first others) := by
  unfold Spares at hs
  unfold shareAll
  generalize t.node first = shared at hkeys hs
  induction others generalizing t with
  | nil => exact h
  | cons other others ih =>
    refine ih (h.update other _ fun name c hc => ?_) fun o ho => hs o (List.mem_cons_of_mem _ ho)
    have hmine : (t.node other).children.find? name = some c := h other name c hc
    refine (Keyed.find?_extend hkeys name).trans ?_
    cases hshared : shared.children.find? name with
    | none => exact hmine
    | some c' =>
      obtain rfl := hs other (List.mem_cons_self ..) name c c' hc hshared
      rfl

theorem Edit.keepsChildren {earlier : CommandTree L} (h : Edit earlier.Spares t t')
    (hk : earlier.KeepsChildren t) : earlier.KeepsChildren t' := by
  cases h with
  | @attach layer parent above name kind b hg hp hno _ _ =>
    refine (hk.push _).update parent _ fun name' c hc => ?_
    have hmine := hk.push (freshNode b kind above) parent name' c hc
    -- the name was free, so the new child takes no other one's place
    have hne : name ≠ name' := by
      rintro rfl
      have hold := hk parent name c hc
      rw [node_of_node? hp, hno] at hold
      cases hold
    unfold Node.child? at hmine ⊢
    rw [Node.children_attach, Keyed.find?_insert, if_neg hne]
    exact hmine
  | @merge layer parent existing above merged name b _ _ _ _ hm =>
    refine hk.update existing _ fun name' c hc => ?_
    rw [mergeInto?_eq_ok hm]
    exact hk existing name' c hc
  | option => exact (hk.push _).update _ _ fun name c hc => hk.push _ _ name c hc
  | share hg _ hs => exact hk.share (hg.tidied _).children hs

theorem KeepsChildren.findFrom? {earlier : CommandTree L} (h : earlier.KeepsChildren t)
    {id c : NodeId} {path : List String} (hp : earlier.findFrom? id path = some c) :
    t.findFrom? id path = some c := by
  induction path generalizing id with
  | nil => exact hp
  | cons name names ih =>
    obtain ⟨child, hchild, hrest⟩ := Option.bind_eq_some_iff.1 hp
    exact Option.bind_eq_some_iff.2 ⟨child, h id name child hchild, ih hrest⟩

theorem Filed.findFrom?_lt (hf : Filed t layer) {id c : NodeId} {path : List String}
    (hid : id < t.size) (hp : t.findFrom? id path = some c) : c < t.size := by
  induction path generalizing id with
  | nil =>
    obtain rfl := Option.some.inj hp
    exact hid
  | cons name names ih =>
    obtain ⟨child, hchild, hrest⟩ := Option.bind_eq_some_iff.1 hp
    exact ih ((hf id).child _ (Keyed.mem_entries_of_find? hchild)).1 hrest

/-! ### Paths -/

/-- Building a blueprint below a parent loses no path: a node is still found where it was, and has
kept its kind and gates and all that it had, if no node that comes to share branches has a different
child under a name of theirs. -/
theorem add?_keeps_paths (ht : t.Reachable) (hs : t.Shares t.Spares parent b)
    (hb : t.add? parent b = .ok (t', first, rest)) {path : List String} {id : NodeId}
    (hp : t.find? path = some id) :
    t'.find? path = some id ∧ (t.node id).Retains (t'.node id) := by
  obtain ⟨layer, hg⟩ := ht.grown
  have hkeeps : t.KeepsChildren t' :=
    edits_invariant (edits_add? hg hs hb) Edit.keepsChildren fun _ _ _ hc => hc
  have hlt : id < t.size := hg.filed.findFrom?_lt hg.root_first.1 hp
  exact ⟨hkeeps.findFrom? hp, (retains_add? hg hb).node id hlt⟩

theorem shares_light_on : lamp.Shares lamp.Spares root (light (.literal "on" [])) := by
  refine shares_light (fun _ _ other hother => (List.not_mem_nil hother).elim)
    (oneName_literal "on") fun t t' hplace hb => ?_
  cases hplace
  cases hb
  intro other hother name c c' hc hc'
  obtain rfl := List.mem_singleton.1 hother
  have hoff : (name, c) ∈ [("off", 2)] := Keyed.mem_entries_of_find? hc
  have hon : (name, c') ∈ [("on", 4)] := Keyed.mem_entries_of_find? hc'
  have hname := (Prod.mk.inj (List.mem_singleton.1 hoff)).1
  rw [hname] at hon
  exact absurd (Prod.mk.inj (List.mem_singleton.1 hon)).1 (by decide)

theorem add?_keeps_paths_lamp :
    lamp.find? ["lamp", "off"] = some 2 ∧
      (lit (.literal "on" [])).find? ["lamp", "off"] = some 2 ∧
      (lamp.node 2).Retains ((lit (.literal "on" [])).node 2) := by
  have hfound : lamp.find? ["lamp", "off"] = some 2 := by decide +kernel
  exact ⟨hfound, add?_keeps_paths (reachable_built _) shares_light_on (add?_light_literal "on")
    hfound⟩

/-- A child that comes with a second name takes the place of the one that was there. -/
theorem add?_replaces_child :
    ¬∀ (t t' : CommandTree .builtins) (parent first : NodeId) (rest : List NodeId)
        (b : Blueprint .builtins) (path : List String) (id : NodeId), t.Reachable →
      t.add? parent b = .ok (t', first, rest) → t.find? path = some id →
      t'.find? path = some id := by
  intro h
  have hfound := h lamp _ root 3 [1] _ ["lamp", "off"] 2 (reachable_built _)
    (add?_light_literal "off") (by decide +kernel)
  revert hfound
  decide +kernel

end CommandTree

end CommandConsole
