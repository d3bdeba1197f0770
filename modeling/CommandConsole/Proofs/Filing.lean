import CommandConsole.Proofs.Growth

/-!
# Literals among the children

In every tree that can be built, a child that is a literal is also found among the literals of its
parent, under the same name. The converse holds edit by edit but for one: nodes that share the
branches of another may lose a child to it, and keep the literal.
-/

namespace CommandConsole

variable {L : Language}

namespace CommandTree

variable {t t' : CommandTree L} {layer : NodeId → Nat} {n : Node L}

/-- Whether the children that are literals are found among the literals, and the targets of
redirects are there. -/
structure Tidy (t : CommandTree L) (n : Node L) : Prop where
  children : n.children.keys.Nodup
  literals : n.literals.keys.Nodup
  literal : ∀ name c, n.children.find? name = some c → (t.node c).kind.isLiteral = true →
    n.literals.find? name = some c
  child : ∀ name c, n.literals.find? name = some c → n.children.find? name ≠ none
  forward : ∀ f, n.forward = some f → f.target < t.size

theorem tidy_of_bare (hchildren : n.children = .empty)
    (hliterals : n.literals = .empty) (hforward : ∀ f, n.forward = some f → f.target < t.size) :
    Tidy t n where
  children := by
    rw [hchildren]
    exact .nil
  literals := by
    rw [hliterals]
    exact .nil
  literal name c h := by
    rw [hchildren] at h
    cases h
  child name c h := by
    rw [hliterals] at h
    cases h
  forward := hforward

theorem Tidy.keep (h : Tidy t n) (hsize : t.size ≤ t'.size)
    (hkind : ∀ name c, n.children.find? name = some c → (t'.node c).kind = (t.node c).kind) :
    Tidy t' n where
  children := h.children
  literals := h.literals
  literal name c hc hlit := by
    rw [hkind name c hc] at hlit
    exact h.literal name c hc hlit
  child := h.child
  forward f hf := Nat.lt_of_lt_of_le (h.forward f hf) hsize

theorem Tidy.attach (h : Tidy t n) {name : String} {child : NodeId} {kind : NodeKind L}
    (hc : (t.node child).kind = kind) : Tidy t (n.attach name child kind.isLiteral) := by
  have hchildren : (n.children.insert name child).keys.Nodup :=
    Keyed.nodup_keys_insert h.children name child
  unfold Node.attach
  split
  · refine ⟨hchildren, Keyed.nodup_keys_insert h.literals name child, fun name' c hn hkind => ?_,
      fun name' c hn => ?_, h.forward⟩
    · rw [Keyed.find?_insert] at hn ⊢
      split
      · next heq => rwa [if_pos heq] at hn
      · next hne =>
        rw [if_neg hne] at hn
        exact h.literal name' c hn hkind
    · rw [Keyed.find?_insert] at hn ⊢
      split
      · exact Option.some_ne_none _
      · next hne =>
        rw [if_neg hne] at hn
        exact h.child name' c hn
  · next hno =>
    refine ⟨hchildren, h.literals, fun name' c hn hkind => ?_, fun name' c hn => ?_, h.forward⟩
    · rw [Keyed.find?_insert] at hn
      split at hn
      · obtain rfl := Option.some.inj hn
        rw [hc] at hkind
        exact absurd hkind hno
      · exact h.literal name' c hn hkind
    · rw [Keyed.find?_insert]
      split
      · exact Option.some_ne_none _
      · exact h.child name' c hn

theorem Tidy.shareBranches {other : Node L} (h : Tidy t n) (ho : Tidy t other) :
    Tidy t (n.shareBranches other) where
  children := Keyed.nodup_keys_extend h.children _
  literals := Keyed.nodup_keys_extend h.literals _
  literal name c hc hkind := by
    have hfound : (other.children.find? name).or (n.children.find? name) = some c :=
      (Keyed.find?_extend ho.children name).symm.trans hc
    refine (Keyed.find?_extend ho.literals name).trans ?_
    cases hother : other.children.find? name with
    | some c' =>
      rw [hother] at hfound
      obtain rfl := Option.some.inj hfound
      rw [ho.literal name c' hother hkind]
      rfl
    | none =>
      have hnone : other.literals.find? name = none := by
        rw [Option.eq_none_iff_forall_ne_some]
        intro c' hc'
        exact ho.child name c' hc' hother
      rw [hother, Option.none_or] at hfound
      rw [hnone, Option.none_or]
      exact h.literal name c hfound hkind
  child name c hc := by
    have hfound : (other.literals.find? name).or (n.literals.find? name) = some c :=
      (Keyed.find?_extend ho.literals name).symm.trans hc
    have hchild : (n.shareBranches other).children.find? name =
        (other.children.find? name).or (n.children.find? name) :=
      Keyed.find?_extend ho.children name
    rw [hchild]
    intro hno
    obtain ⟨hother, hmine⟩ := Option.or_eq_none_iff.1 hno
    rcases Option.or_eq_some_iff.1 hfound with hc' | ⟨-, hc'⟩
    · exact ho.child name c hc' hother
    · exact h.child name c hc' hmine
  forward := h.forward

/-! ### Tidy trees -/

def Tidied (t : CommandTree L) : Prop := ∀ id, Tidy t (t.node id)

theorem tidied_empty : Tidied (empty : CommandTree L) := by
  intro id
  rw [node_empty]
  exact tidy_of_bare rfl rfl fun f hf => by cases hf

theorem Tidied.update (h : Tidied t) {id : NodeId} {f : Node L → Node L}
    (hkind : (f (t.node id)).kind = (t.node id).kind) (hn : Tidy t (f (t.node id))) :
    Tidied (t.update id f) := by
  have hsize : t.size ≤ (t.update id f).size := Nat.le_of_eq (size_update t id f).symm
  have hkinds : ∀ c, ((t.update id f).node c).kind = (t.node c).kind := by
    intro c
    rcases node_update_cases t id f c with heq | ⟨rfl, heq⟩
    · rw [heq]
    · rw [heq, hkind]
  intro id'
  rcases node_update_cases t id f id' with heq | ⟨rfl, heq⟩
  · rw [heq]
    exact (h id').keep hsize fun _ c _ => hkinds c
  · rw [heq]
    exact hn.keep hsize fun _ c _ => hkinds c

theorem Tidied.push (h : Tidied t) (hf : Filed t layer) (hn : Tidy (t.push n).1 n) :
    Tidied (t.push n).1 := by
  have hsize : t.size ≤ (t.push n).1.size := by rw [size_push]; exact Nat.le_succ _
  intro id
  rw [node_push]
  split
  · exact hn
  · refine (h id).keep hsize fun name c hc => ?_
    have hlt : c < t.size := ((hf id).child _ (Keyed.mem_entries_of_find? hc)).1
    rw [node_push, if_neg (Nat.ne_of_lt hlt)]

theorem checkTarget?_eq_ok {forward : Option (Forward L)} (h : t.checkTarget? forward = .ok ()) :
    ∀ f, forward = some f → f.target < t.size := by
  rintro f rfl
  unfold checkTarget? at h
  split at h
  · next heq =>
    obtain rfl := Option.some.inj heq
    split at h
    · assumption
    · cases h
  · next heq => cases heq

theorem Tidied.share (h : Tidied t) (first : NodeId) (others : List NodeId) :
    Tidied (t.shareAll first others) := by
  have hshared : Tidy t (t.node first) := h first
  unfold shareAll
  generalize t.node first = shared at hshared
  induction others generalizing t with
  | nil => exact h
  | cons other others ih =>
    have hkinds : ∀ c, ((t.update other (·.shareBranches shared)).node c).kind =
        (t.node c).kind := by
      intro c
      rcases node_update_cases t other (·.shareBranches shared) c with heq | ⟨rfl, heq⟩
      · rw [heq]
      · rw [heq]
        rfl
    have hmine : Tidy t ((t.node other).shareBranches shared) := (h other).shareBranches hshared
    exact ih (h.update rfl hmine)
      (hshared.keep (Nat.le_of_eq (size_update ..).symm) fun _ c _ => hkinds c)

theorem Grown.tidied (h : Grown t layer) : Tidied t := by
  induction h with
  | empty => exact tidied_empty
  | @attach t layer parent above name kind b hg hp hno htarget hkind ih =>
    have hsize : t.size ≤ (t.push (freshNode b kind above)).1.size := by
      rw [size_push]
      exact Nat.le_succ _
    have hnew : Tidy (t.push (freshNode b kind above)).1 (freshNode b kind above) :=
      tidy_of_bare rfl rfl fun f hf =>
        Nat.lt_of_lt_of_le (checkTarget?_eq_ok htarget f hf) hsize
    have hpush := ih.push hg.filed hnew
    have hmine : ((t.push (freshNode b kind above)).1.node t.size).kind = kind := by
      rw [node_push, if_pos rfl]
      rfl
    exact hpush.update (Node.kind_attach ..) ((hpush parent).attach hmine)
  | @merge t layer parent existing above merged name b hg hp hchild htarget hm ih =>
    have hforward : ∀ f, (b.forward <|> (t.node existing).forward) = some f →
        f.target < t.size := by
      intro f hf
      rw [Option.orElse_eq_orElse, Option.orElse_eq_or] at hf
      rcases Option.or_eq_some_iff.1 hf with hf | ⟨-, hf⟩
      · exact checkTarget?_eq_ok htarget f hf
      · exact (ih existing).forward f hf
    rw [mergeInto?_eq_ok hm]
    exact ih.update rfl { ih existing with forward := hforward }
  | @option t layer id name type gates hg hid ih =>
    have hnew : Tidy (t.push (optionNode name type gates)).1 (optionNode name type gates) :=
      tidy_of_bare rfl rfl fun f hf => by cases hf
    have hpush := ih.push hg.filed hnew
    exact hpush.update rfl { hpush id with }
  | share _ _ ih => exact ih.share _ _

theorem forall_node {P : Node L → Prop} {k : Nat} (hsize : t.size ≤ k) (hbare : P (.bare .root))
    (hfew : ∀ id < k, P (t.node id)) (id : NodeId) : P (t.node id) := by
  rcases Nat.lt_or_ge id k with hlt | hge
  · exact hfew id hlt
  · rw [node_of_size_le (Nat.le_trans hsize hge)]
    exact hbare

def Attached (t : CommandTree L) : Prop := ∀ id name c,
  (t.node id).literals.find? name = some c → (t.node id).children.find? name = some c

/-! ### The root -/

theorem Grown.root_first (h : Grown t layer) : 0 < t.size ∧ layer root = 0 := by
  induction h with
  | empty => exact ⟨Nat.one_pos, rfl⟩
  | attach _ _ _ _ _ ih =>
    obtain ⟨hsize, hlayer⟩ := ih
    have hne : root ≠ (_ : CommandTree L).size := Nat.ne_of_lt hsize
    exact ⟨by simp, (if_neg hne).trans hlayer⟩
  | merge _ _ _ _ _ ih => exact ⟨by simpa using ih.1, ih.2⟩
  | option _ _ ih => exact ⟨by simp, ih.2⟩
  | share hg hl ih => exact ⟨Nat.lt_of_lt_of_le ih.1 (hg.filed.share hl).1.size, ih.2⟩

/-- What an edit of a node leaves alone stays at every node. -/
theorem update_keeps {α : Type} (g : Node L → α) (t : CommandTree L) (id : NodeId)
    (f : Node L → Node L) (hf : ∀ n, g (f n) = g n) (id' : NodeId) :
    g ((t.update id f).node id') = g (t.node id') := by
  rcases node_update_cases t id f id' with heq | ⟨rfl, heq⟩
  · rw [heq]
  · rw [heq, hf]

theorem shareAll_keeps {α : Type} (g : Node L → α)
    (hg : ∀ n shared : Node L, g (n.shareBranches shared) = g n) (t : CommandTree L)
    (first : NodeId) (others : List NodeId) (id : NodeId) :
    g ((t.shareAll first others).node id) = g (t.node id) := by
  unfold shareAll
  generalize t.node first = shared
  induction others generalizing t with
  | nil => rfl
  | cons other others ih =>
    have hone := update_keeps g t other (·.shareBranches shared) (fun n => hg n shared) id
    exact (ih (t.update other (·.shareBranches shared))).trans hone

/-- The root has no gates and does not redirect, as it is no child of any node. -/
theorem Grown.root_plain (h : Grown t layer) : (t.node root).kind = .root ∧
    (t.node root).forward = none ∧ (t.node root).gates = .none := by
  induction h with
  | empty => exact ⟨rfl, rfl, rfl⟩
  | @attach t layer parent above name kind b hg _ _ _ _ ih =>
    have hne : root ≠ t.size := Nat.ne_of_lt hg.root_first.1
    have hpush : (t.push (freshNode b kind above)).1.node root = t.node root := by
      rw [node_push, if_neg hne]
    rw [update_keeps Node.kind _ _ _ fun n => Node.kind_attach ..,
      update_keeps Node.forward _ _ _ fun n => Node.forward_attach ..,
      update_keeps Node.gates _ _ _ fun n => Node.gates_attach .., hpush]
    exact ih
  | @merge t layer parent existing above merged name b hg hp hchild _ _ ih =>
    obtain ⟨-, hroot⟩ := hg.root_first
    have hmem : (name, existing) ∈ (t.node parent).children.entries := by
      rw [node_of_node? hp]
      exact Keyed.mem_entries_of_find? hchild
    have hlayer : layer existing = layer parent + 1 := ((hg.filed parent).child _ hmem).2.1
    rcases node_update_cases t existing (fun _ => merged) root with heq | ⟨heq, -⟩
    · rw [heq]
      exact ih
    · rw [← heq, hroot] at hlayer
      cases hlayer
  | @option t layer id name type gates hg _ ih =>
    have hne : root ≠ t.size := Nat.ne_of_lt hg.root_first.1
    have hpush : (t.push (optionNode name type gates)).1.node root = t.node root := by
      rw [node_push, if_neg hne]
    rw [update_keeps Node.kind _ _ (·.giveOption name t.size) fun n => rfl,
      update_keeps Node.forward _ _ (·.giveOption name t.size) fun n => rfl,
      update_keeps Node.gates _ _ (·.giveOption name t.size) fun n => rfl, hpush]
    exact ih
  | share _ _ ih =>
    rw [shareAll_keeps Node.kind fun _ _ => rfl, shareAll_keeps Node.forward fun _ _ => rfl,
      shareAll_keeps Node.gates fun _ _ => rfl]
    exact ih

end CommandTree

end CommandConsole
