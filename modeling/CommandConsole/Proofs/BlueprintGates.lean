import CommandConsole.Proofs.Cursor
import Mathlib.Data.List.Forall2

/-!
# Gates that blueprints declare

A blueprint is built into nodes of its own, or into nodes that are there already and keep their
gates. Where a node that is there demands at least what the blueprint declares, and all nodes of one
blueprint demand the same, every way down to a command passes what was declared on the blueprint
of the command and on all blueprints around it.
-/

namespace CommandConsole

variable {L : Language} {W : Type}

/-! ### Comparing gates -/

namespace Gates

/-- Whether gates let nobody through that other gates stop. -/
structure AtLeast (g g' : Gates L) : Prop where
  requirement : ∀ demands', g'.requirement = some demands' →
    ∃ demands, g.requirement = some demands ∧ ∀ s, demands s = true → demands' s = true
  permission : ∀ name, g'.permission = some name → g.permission = some name
  console : g'.console = .allowed ∨ g.console = .denied ∨ g.console = g'.console

def Alike (g g' : Gates L) : Prop := g.AtLeast g' ∧ g'.AtLeast g

theorem AtLeast.refl (g : Gates L) : g.AtLeast g where
  requirement demands h := ⟨demands, h, fun _ hs => hs⟩
  permission _ h := h
  console := Or.inr (Or.inr rfl)

theorem AtLeast.trans {a b c : Gates L} (hab : a.AtLeast b) (hbc : b.AtLeast c) :
    a.AtLeast c where
  requirement demands' h := by
    obtain ⟨demands, hb, hle⟩ := hbc.requirement demands' h
    obtain ⟨demands₀, ha, hle₀⟩ := hab.requirement demands hb
    exact ⟨demands₀, ha, fun s hs => hle s (hle₀ s hs)⟩
  permission name h := hab.permission name (hbc.permission name h)
  console := by
    rcases hbc.console with hc | hb | hb
    · exact Or.inl hc
    · rcases hab.console with ha | ha | ha
      · rw [ha] at hb
        cases hb
      · exact Or.inr (Or.inl ha)
      · exact Or.inr (Or.inl (ha.trans hb))
    · rw [← hb]
      exact hab.console

theorem Alike.refl (g : Gates L) : g.Alike g := ⟨.refl g, .refl g⟩

theorem Alike.symm {g g' : Gates L} (h : g.Alike g') : g'.Alike g := ⟨h.2, h.1⟩

theorem Alike.trans {a b c : Gates L} (hab : a.Alike b) (hbc : b.Alike c) : a.Alike c :=
  ⟨hab.1.trans hbc.1, hbc.2.trans hab.2⟩

/-- The policy in effect behind gates, the innermost first. -/
def policyBehind : List (Gates L) → ConsolePolicy
  | [] => .inherited
  | g :: above => g.console.resolve (policyBehind above)

/-- Whether a source passes all gates on a way, the innermost first. -/
def AllAdmit (source : L.Source) : List (Gates L) → Prop
  | [] => True
  | g :: above => g.Admits source (policyBehind (g :: above)) ∧ AllAdmit source above

theorem AtLeast.denied {g g' : Gates L} (h : g.AtLeast g') {policy policy' : ConsolePolicy}
    (hpolicy : policy' = .denied → policy = .denied)
    (hdenied : g'.console.resolve policy' = .denied) : g.console.resolve policy = .denied := by
  rcases h.console with hc | hc | hc
  · rw [hc] at hdenied
    cases hdenied
  · rw [hc]
    rfl
  · rw [hc]
    cases hg : g'.console with
    | allowed =>
      rw [hg] at hdenied
      cases hdenied
    | denied => rfl
    | inherited =>
      rw [hg] at hdenied
      exact hpolicy hdenied

theorem AtLeast.admits {g g' : Gates L} (h : g.AtLeast g') {source : L.Source}
    {policy policy' : ConsolePolicy} (hpolicy : policy' = .denied → policy = .denied)
    (ha : g.Admits source policy) : g'.Admits source policy' := by
  obtain ⟨hrequirement, hpermission, hconsole⟩ := ha
  refine ⟨fun demands' hd => ?_, fun name hn => ?_, fun hno => ?_⟩
  · obtain ⟨demands, hg, hle⟩ := h.requirement demands' hd
    exact hle source (hrequirement demands hg)
  · exact hpermission name (h.permission name hn)
  · exact hconsole ⟨hpolicy hno.1, hno.2⟩

/-- Whether the gates on one way demand at least what those on another do, step by step. -/
def AllAtLeast : List (Gates L) → List (Gates L) → Prop := List.Forall₂ AtLeast

def AllAlike : List (Gates L) → List (Gates L) → Prop := List.Forall₂ Alike

theorem AllAtLeast.trans {as bs cs : List (Gates L)} (h : AllAtLeast as bs)
    (h' : AllAtLeast bs cs) : AllAtLeast as cs := by
  induction h generalizing cs with
  | nil => exact h'
  | cons hab _ ih =>
    cases h' with
    | cons hbc hrest => exact .cons (hab.trans hbc) (ih hrest)

theorem AllAlike.refl (gs : List (Gates L)) : AllAlike gs gs := by
  induction gs with
  | nil => exact .nil
  | cons g gs ih => exact .cons (.refl g) ih

theorem AllAlike.symm {as bs : List (Gates L)} (h : AllAlike as bs) : AllAlike bs as := by
  induction h with
  | nil => exact .nil
  | cons hab _ ih => exact .cons hab.symm ih

theorem AllAlike.trans {as bs cs : List (Gates L)} (h : AllAlike as bs) (h' : AllAlike bs cs) :
    AllAlike as cs := by
  induction h generalizing cs with
  | nil => exact h'
  | cons hab _ ih =>
    cases h' with
    | cons hbc hrest => exact .cons (hab.trans hbc) (ih hrest)

theorem AllAlike.allAtLeast {as bs : List (Gates L)} (h : AllAlike as bs) : AllAtLeast as bs :=
  List.Forall₂.imp (fun _ _ hab => hab.1) h

theorem AllAtLeast.denied {gs gs' : List (Gates L)} (h : AllAtLeast gs gs')
    (hdenied : policyBehind gs' = .denied) : policyBehind gs = .denied := by
  induction h with
  | nil => exact hdenied
  | cons hg _ ih => exact hg.denied ih hdenied

theorem AllAdmit.mono {gs gs' : List (Gates L)} {source : L.Source} (h : AllAdmit source gs)
    (hle : AllAtLeast gs gs') : AllAdmit source gs' := by
  induction hle with
  | nil => exact h
  | @cons g g' gs gs' hg hrest ih =>
    obtain ⟨ha, hmore⟩ := h
    have hpolicy := AllAtLeast.denied (List.Forall₂.cons hg hrest)
    exact ⟨hg.admits hpolicy ha, ih hmore⟩

end Gates

/-! ### Blueprints within blueprints -/

/-- Whether a blueprint is one of some blueprints or below one of them, with the blueprints around
it, the innermost first. -/
inductive Nested (bs : List (Blueprint L)) : List (Blueprint L) → Blueprint L → Prop
  | top {b : Blueprint L} : b ∈ bs → Nested bs [] b
  | child {around : List (Blueprint L)} {b c : Blueprint L} :
      Nested bs around b → c ∈ b.children → Nested bs (b :: around) c

def gatesOf (bs : List (Blueprint L)) : List (Gates L) := bs.map (·.gates)

/-- Whether a command was declared by a blueprint whose gates, with those around it, demand no more
than the gates on a way. -/
def Declares (bs : List (Blueprint L)) (way : List (Gates L)) (action : L.Action) : Prop :=
  ∃ around b, Nested bs around b ∧ b.command = some action ∧
    Gates.AllAtLeast way (gatesOf (b :: around))

def Node.HasBranch (n : Node L) (c : NodeId) : Prop :=
  (∃ name, (name, c) ∈ n.children.entries) ∨ (∃ name, (name, c) ∈ n.literals.entries) ∨
    c ∈ n.arguments

theorem Node.not_hasBranch_bare (kind : NodeKind L) (c : NodeId) :
    ¬(Node.bare kind).HasBranch c := by
  rintro (⟨name, h⟩ | ⟨name, h⟩ | h) <;> cases h

theorem Node.HasBranch.of_attach {n : Node L} {name : String} {child c : NodeId}
    {isLiteral : Bool} (h : (n.attach name child isLiteral).HasBranch c) :
    c = child ∨ n.HasBranch c := by
  rcases h with ⟨name', h⟩ | ⟨name', h⟩ | h
  · rw [children_attach] at h
    rcases Keyed.mem_entries_insert h with h | h
    · exact Or.inl (Prod.mk.inj h).2
    · exact Or.inr (Or.inl ⟨name', h⟩)
  · rcases mem_literals_attach h with ⟨-, h⟩ | h
    · exact Or.inl (Prod.mk.inj h).2
    · exact Or.inr (Or.inr (Or.inl ⟨name', h⟩))
  · rcases mem_arguments_attach h with ⟨-, h⟩ | h
    · exact Or.inl h
    · exact Or.inr (Or.inr (Or.inr h))

theorem Node.HasBranch.of_shareBranches {n other : Node L} {c : NodeId}
    (h : (n.shareBranches other).HasBranch c) : n.HasBranch c ∨ other.HasBranch c := by
  rcases h with ⟨name, h⟩ | ⟨name, h⟩ | h
  · rcases Keyed.mem_entries_extend h with h | h
    · exact Or.inl (Or.inl ⟨name, h⟩)
    · exact Or.inr (Or.inl ⟨name, h⟩)
  · rcases Keyed.mem_entries_extend h with h | h
    · exact Or.inl (Or.inr (Or.inl ⟨name, h⟩))
    · exact Or.inr (Or.inr (Or.inl ⟨name, h⟩))
  · rcases List.mem_append.1 h with h | h
    · exact Or.inl (Or.inr (Or.inr h))
    · exact Or.inr (Or.inr (Or.inr h))

namespace CommandTree

/-- Builds the nodes of a blueprint with their options, but nothing below them. -/
def place? (t : CommandTree L) (parent : NodeId) (b : Blueprint L) :
    Except Misuse (CommandTree L × NodeId × List NodeId) := do
  t.checkTarget? b.forward
  let (name, others) ← names? b.kind
  let (t, first) ← t.buildName? parent b b.kind name
  let (t, rest) ← buildNames? parent b b.kind t others
  let t ← t.addOptions? first b.options
  return (t, first, rest)

theorem add?_eq (t : CommandTree L) (parent : NodeId) (b : Blueprint L) :
    t.add? parent b = do
      let (t, first, rest) ← t.place? parent b
      let t ← t.addAll? first b.children
      return (t.shareAll first rest, first, rest) := by
  obtain ⟨kind, children, options, command, gates, forward⟩ := b
  simp only [add?, place?, bind_assoc, pure_bind]

mutual

/-- Whether building a blueprint below a parent drops none of the gates that it declares: its nodes
demand at least as much, all of them the same, and so on below it. -/
def KeepsGates (t : CommandTree L) (parent : NodeId) : Blueprint L → Prop
  | ⟨kind, children, options, command, gates, forward⟩ =>
    ∀ t' first rest,
      t.place? parent ⟨kind, children, options, command, gates, forward⟩ = .ok (t', first, rest) →
      (∀ id ∈ first :: rest, (t'.node id).gates.AtLeast gates) ∧
      (∀ id ∈ rest, (t'.node id).gates.Alike (t'.node first).gates) ∧
      KeepsGatesAll t' first children

def KeepsGatesAll (t : CommandTree L) (parent : NodeId) : List (Blueprint L) → Prop
  | [] => True
  | b :: bs => KeepsGates t parent b ∧
      ∀ t' ids, t.add? parent b = .ok (t', ids) → KeepsGatesAll t' parent bs

end

variable {t t' t'' : CommandTree L} {bs around : List (Blueprint L)}
  {way way' way'' : NodeId → List (Gates L)} {parent : NodeId} {b : Blueprint L}
  {layer : NodeId → Nat}

/-! ### Ways down -/

/-- Whether the ways down to the nodes of a tree, each with the gates on it, lead along its
branches, and end at commands that demand no more. -/
structure Traced (bs : List (Blueprint L)) (t : CommandTree L) (way : NodeId → List (Gates L)) :
    Prop where
  top : way root = []
  inside : ∀ id c, (t.node id).HasBranch c → c < t.size
  branch : ∀ id c, (t.node id).HasBranch c → Gates.AllAlike (way c) ((t.node c).gates :: way id)
  command : ∀ id action, (t.node id).command = some action → Declares bs (way id) action
  forward : ∀ id, (t.node id).forward = none

structure KeepsWays (t : CommandTree L) (way : NodeId → List (Gates L)) (t' : CommandTree L)
    (way' : NodeId → List (Gates L)) : Prop where
  size : t.size ≤ t'.size
  gates : ∀ id < t.size, (t'.node id).gates = (t.node id).gates
  way : ∀ id < t.size, way' id = way id

theorem KeepsWays.refl : KeepsWays t way t way := ⟨Nat.le_refl _, fun _ _ => rfl, fun _ _ => rfl⟩

theorem KeepsWays.trans (h : KeepsWays t way t' way') (h' : KeepsWays t' way' t'' way'') :
    KeepsWays t way t'' way'' where
  size := Nat.le_trans h.size h'.size
  gates id hid := by rw [h'.gates id (Nat.lt_of_lt_of_le hid h.size), h.gates id hid]
  way id hid := by rw [h'.way id (Nat.lt_of_lt_of_le hid h.size), h.way id hid]

theorem traced_empty : Traced bs (empty : CommandTree L) fun _ => [] := by
  refine ⟨rfl, fun id c h => ?_, fun id c h => ?_, fun id action h => ?_, fun id => ?_⟩
  · rw [node_empty] at h
    exact absurd h (Node.not_hasBranch_bare _ _)
  · rw [node_empty] at h
    exact absurd h (Node.not_hasBranch_bare _ _)
  · rw [node_empty] at h
    cases h
  · rw [node_empty]
    rfl

theorem Traced.update (h : Traced bs t way) (id : NodeId) (f : Node L → Node L)
    (hgates : (f (t.node id)).gates = (t.node id).gates)
    (hforward : (f (t.node id)).forward = none)
    (hbranch : ∀ c, (f (t.node id)).HasBranch c →
      c < t.size ∧ Gates.AllAlike (way c) ((t.node c).gates :: way id))
    (hcommand : ∀ action, (f (t.node id)).command = some action →
      Declares bs (way id) action) :
    Traced bs (t.update id f) way ∧ KeepsWays t way (t.update id f) way := by
  have hnode := node_update_cases t id f
  have hsame : ∀ c, ((t.update id f).node c).gates = (t.node c).gates := by
    intro c
    rcases hnode c with hc | ⟨rfl, hc⟩
    · rw [hc]
    · rw [hc, hgates]
  have hbelow : ∀ id' c, ((t.update id f).node id').HasBranch c →
      c < t.size ∧ Gates.AllAlike (way c) ((t.node c).gates :: way id') := by
    intro id' c hc
    rcases hnode id' with hn | ⟨rfl, hn⟩
    · rw [hn] at hc
      exact ⟨h.inside id' c hc, h.branch id' c hc⟩
    · rw [hn] at hc
      exact hbranch c hc
  refine ⟨⟨h.top, fun id' c hc => ?_, fun id' c hc => ?_, fun id' action ha => ?_,
    fun id' => ?_⟩, ⟨by simp, fun c _ => hsame c, fun _ _ => rfl⟩⟩
  · rw [size_update]
    exact (hbelow id' c hc).1
  · rw [hsame]
    exact (hbelow id' c hc).2
  · rcases hnode id' with hn | ⟨rfl, hn⟩
    · rw [hn] at ha
      exact h.command id' action ha
    · rw [hn] at ha
      exact hcommand action ha
  · rcases hnode id' with hn | ⟨rfl, hn⟩
    · rw [hn]
      exact h.forward id'
    · rw [hn]
      exact hforward

def withWay (way : NodeId → List (Gates L)) (new : NodeId) (gs : List (Gates L)) :
    NodeId → List (Gates L) :=
  fun id => if id = new then gs else way id

theorem Traced.push (h : Traced bs t way) (hsize : 0 < t.size) {n : Node L}
    (hforward : n.forward = none) (hbranch : ∀ c, ¬n.HasBranch c) {gs : List (Gates L)}
    (hcommand : ∀ action, n.command = some action → Declares bs gs action) :
    Traced bs (t.push n).1 (withWay way t.size gs) ∧
      KeepsWays t way (t.push n).1 (withWay way t.size gs) := by
  have hold : ∀ id < t.size, withWay way t.size gs id = way id :=
    fun id hid => if_neg (Nat.ne_of_lt hid)
  have hnode : ∀ id < t.size, (t.push n).1.node id = t.node id := by
    intro id hid
    rw [node_push, if_neg (Nat.ne_of_lt hid)]
  have hbelow : ∀ id c, ((t.push n).1.node id).HasBranch c →
      id < t.size ∧ (t.node id).HasBranch c ∧ c < t.size := by
    intro id c hc
    rw [node_push] at hc
    split at hc
    · exact absurd hc (hbranch c)
    · have hid : id < t.size := by
        refine Nat.lt_of_not_le fun hge => ?_
        rw [node_of_size_le hge] at hc
        exact Node.not_hasBranch_bare _ _ hc
      exact ⟨hid, hc, h.inside id c hc⟩
  refine ⟨⟨?_, fun id c hc => ?_, fun id c hc => ?_, fun id action ha => ?_, fun id => ?_⟩,
    ⟨by simp, fun id hid => by rw [hnode id hid], hold⟩⟩
  · rw [hold root hsize]
    exact h.top
  · obtain ⟨-, -, hlt⟩ := hbelow id c hc
    rw [size_push]
    exact Nat.lt_succ_of_lt hlt
  · obtain ⟨hid, hc, hlt⟩ := hbelow id c hc
    rw [hold id hid, hold c hlt, hnode c hlt]
    exact h.branch id c hc
  · rw [node_push] at ha
    unfold withWay
    split at ha
    · next hid =>
      rw [if_pos hid]
      exact hcommand action ha
    · next hid =>
      rw [if_neg hid]
      exact h.command id action ha
  · rw [node_push]
    split
    · exact hforward
    · exact h.forward id

/-! ### Blueprints keep to the ways -/

/-- Whether a node demands what a blueprint declares that is built into it, on the way down through
its parent. -/
structure BuiltInto (t : CommandTree L) (way : NodeId → List (Gates L)) (parent id : NodeId)
    (b : Blueprint L) : Prop where
  lt_size : id < t.size
  gates : (t.node id).gates.AtLeast b.gates
  way : Gates.AllAlike (way id) ((t.node id).gates :: way parent)

theorem BuiltInto.keep {id : NodeId} (h : BuiltInto t way parent id b) (hp : parent < t.size)
    (hk : KeepsWays t way t' way') : BuiltInto t' way' parent id b where
  lt_size := Nat.lt_of_lt_of_le h.lt_size hk.size
  gates := by
    rw [hk.gates id h.lt_size]
    exact h.gates
  way := by
    rw [hk.gates id h.lt_size, hk.way id h.lt_size, hk.way parent hp]
    exact h.way

theorem BuiltInto.within {id : NodeId} (h : BuiltInto t way parent id b)
    (haround : Gates.AllAtLeast (way parent) (gatesOf around)) :
    Gates.AllAtLeast (way id) (gatesOf (b :: around)) := by
  have hdown : Gates.AllAtLeast ((t.node id).gates :: way parent) (gatesOf (b :: around)) :=
    .cons h.gates haround
  exact h.way.allAtLeast.trans hdown

theorem declares_command (hn : Nested bs around b) {gs : List (Gates L)}
    (hgs : Gates.AllAtLeast gs (gatesOf (b :: around))) :
    ∀ action, b.command = some action → Declares bs gs action :=
  fun _ ha => ⟨around, b, hn, ha, hgs⟩

theorem Traced.merge (h : Traced bs t way) (hn : Nested bs around b)
    (haround : Gates.AllAtLeast (way parent) (gatesOf around)) (hstays : b.forward = none)
    {existing : NodeId} {name : String} {merged : Node L}
    (hbranch : (t.node parent).HasBranch existing)
    (hm : mergeInto? b name (t.node existing) = .ok merged)
    (hgates : merged.gates.AtLeast b.gates) :
    Traced bs (t.update existing fun _ => merged) way ∧
      KeepsWays t way (t.update existing fun _ => merged) way ∧
      BuiltInto t way parent existing b := by
  obtain rfl := mergeInto?_eq_ok hm
  have hinto : BuiltInto t way parent existing b :=
    ⟨h.inside parent existing hbranch, hgates, h.branch parent existing hbranch⟩
  have hdeclares := declares_command hn (hinto.within haround)
  have hcommand : ∀ action, (b.command <|> (t.node existing).command) = some action →
      Declares bs (way existing) action := by
    intro action ha
    rw [Option.orElse_eq_orElse, Option.orElse_eq_or] at ha
    rcases Option.or_eq_some_iff.1 ha with ha | ⟨-, ha⟩
    · exact hdeclares action ha
    · exact h.command existing action ha
  obtain ⟨htraced, hk⟩ := h.update existing (fun _ => { t.node existing with
      command := b.command <|> (t.node existing).command
      forward := b.forward <|> (t.node existing).forward }) rfl
    (by simp [hstays, h.forward existing])
    (fun c hc => ⟨h.inside existing c hc, h.branch existing c hc⟩) hcommand
  exact ⟨htraced, hk, hinto⟩

theorem Traced.attach (h : Traced bs t way) (hn : Nested bs around b)
    (haround : Gates.AllAtLeast (way parent) (gatesOf around)) (hstays : b.forward = none)
    (hlt : parent < t.size) (above : Node L) (kind : NodeKind L) (name : String) :
    let grown := (t.push (freshNode b kind above)).1.update parent
      (·.attach name t.size kind.isLiteral)
    ∃ way', Traced bs grown way' ∧ KeepsWays t way grown way' ∧
      BuiltInto grown way' parent t.size b := by
  have hsize : 0 < t.size := Nat.lt_of_le_of_lt (Nat.zero_le _) hlt
  have hwithin : Gates.AllAtLeast (b.gates :: way parent) (gatesOf (b :: around)) :=
    .cons (.refl _) haround
  obtain ⟨htraced, hk⟩ := h.push hsize (n := freshNode b kind above) hstays
    (fun c hc => Node.not_hasBranch_bare kind c hc) (declares_command hn hwithin)
  let way' := withWay way t.size (b.gates :: way parent)
  have hnew : way' t.size = b.gates :: way parent := if_pos rfl
  have hparent : way' parent = way parent := hk.way parent hlt
  have hfresh : ((t.push (freshNode b kind above)).1.node t.size).gates = b.gates := by
    rw [node_push, if_pos rfl]
    rfl
  have hinto : BuiltInto (t.push (freshNode b kind above)).1 way' parent t.size b := by
    refine ⟨by simp, by rw [hfresh]; exact .refl _, ?_⟩
    rw [hnew, hparent, hfresh]
    exact .refl _
  have hbelow : ∀ c, (((t.push (freshNode b kind above)).1.node parent).attach name t.size
      kind.isLiteral).HasBranch c → c < (t.push (freshNode b kind above)).1.size ∧
        Gates.AllAlike (way' c)
          (((t.push (freshNode b kind above)).1.node c).gates :: way' parent) := by
    intro c hc
    rcases hc.of_attach with rfl | hc
    · exact ⟨hinto.lt_size, hinto.way⟩
    · exact ⟨htraced.inside parent c hc, htraced.branch parent c hc⟩
  obtain ⟨htraced', hk'⟩ := htraced.update parent (·.attach name t.size kind.isLiteral)
    (Node.gates_attach ..) ((Node.forward_attach ..).trans (htraced.forward parent)) hbelow
    (fun action ha => htraced.command parent action ((Node.command_attach ..).symm.trans ha))
  exact ⟨way', htraced', hk.trans hk', hinto.keep (Nat.lt_of_lt_of_le hlt hk.size) hk'⟩

theorem traced_buildName? (h : Traced bs t way) (hn : Nested bs around b)
    (haround : Gates.AllAtLeast (way parent) (gatesOf around)) (hstays : b.forward = none)
    {name : String} {id : NodeId} (hb : t.buildName? parent b b.kind name = .ok (t', id))
    (hgates : (t'.node id).gates.AtLeast b.gates) :
    ∃ way', Traced bs t' way' ∧ KeepsWays t way t' way' ∧ parent < t.size ∧
      BuiltInto t' way' parent id b := by
  obtain ⟨above, hp, ⟨merged, hchild, hm, rfl⟩ | ⟨kind, -, -, rfl, rfl⟩⟩ := buildName?_eq_ok hb
  · have hbranch : (t.node parent).HasBranch id := by
      rw [node_of_node? hp]
      exact Or.inl ⟨name, Keyed.mem_entries_of_find? hchild⟩
    rw [node_update t _ (h.inside parent id hbranch), if_pos rfl] at hgates
    obtain ⟨htraced, hk, hinto⟩ := h.merge hn haround hstays hbranch hm hgates
    exact ⟨way, htraced, hk, lt_size_of_node? hp, hinto.keep (lt_size_of_node? hp) hk⟩
  · obtain ⟨way', htraced, hk, hinto⟩ :=
      h.attach hn haround hstays (lt_size_of_node? hp) above kind name
    exact ⟨way', htraced, hk, lt_size_of_node? hp, hinto⟩

theorem checkTarget?_of_stays (hstays : b.forward = none) : t.checkTarget? b.forward = .ok () := by
  rw [hstays]
  rfl

theorem traced_buildNames? (h : Traced bs t way) (hg : Grown t layer) (hn : Nested bs around b)
    (haround : Gates.AllAtLeast (way parent) (gatesOf around)) (hstays : b.forward = none)
    (hp : parent < t.size) {names : List String} {ids : List NodeId}
    (hb : buildNames? parent b b.kind t names = .ok (t', ids))
    (hgates : ∀ id ∈ ids, (t'.node id).gates.AtLeast b.gates) :
    ∃ way', Traced bs t' way' ∧ KeepsWays t way t' way' ∧
      ∀ id ∈ ids, BuiltInto t' way' parent id b := by
  induction names generalizing t way layer ids with
  | nil =>
    obtain ⟨rfl, rfl⟩ := Prod.mk.inj (Except.ok.inj hb)
    exact ⟨way, h, .refl, fun id hid => by cases hid⟩
  | cons name names ih =>
    obtain ⟨⟨t₁, id⟩, h₁, hb⟩ := bind_eq_ok.1 hb
    obtain ⟨⟨t₂, others⟩, h₂, hb⟩ := bind_eq_ok.1 hb
    obtain ⟨rfl, rfl⟩ := Prod.mk.inj (Except.ok.inj hb)
    obtain ⟨layer₁, hg₁, hk₁, -, hid, -⟩ := grown_buildName? hg (checkTarget?_of_stays hstays) h₁
    have hp₁ : parent < t₁.size := Nat.lt_of_lt_of_le hp hk₁.size
    obtain ⟨layer₂, hg₂, hk₂, -⟩ := grown_buildNames? hg₁ (checkTarget?_of_stays hstays) hp₁ h₂
    have hfirst : (t₁.node id).gates.AtLeast b.gates := by
      rw [← hk₂.gates id hid]
      exact hgates id (List.mem_cons_self ..)
    obtain ⟨way₁, htraced₁, hw₁, -, hinto⟩ := traced_buildName? h hn haround hstays h₁ hfirst
    have haround₁ : Gates.AllAtLeast (way₁ parent) (gatesOf around) := by
      rw [hw₁.way parent hp]
      exact haround
    obtain ⟨way₂, htraced₂, hw₂, hothers⟩ := ih htraced₁ hg₁ haround₁ hp₁ h₂
      fun id' hid' => hgates id' (List.mem_cons_of_mem _ hid')
    refine ⟨way₂, htraced₂, hw₁.trans hw₂, fun id' hid' => ?_⟩
    rcases List.mem_cons.1 hid' with rfl | hid'
    · exact hinto.keep hp₁ hw₂
    · exact hothers id' hid'

theorem traced_addOption? (h : Traced bs t way) {id option : NodeId} {o : Blueprint L}
    (hb : t.addOption? id o = .ok (t', option)) :
    ∃ way', Traced bs t' way' ∧ KeepsWays t way t' way' := by
  obtain ⟨hid, name, type, -, rfl⟩ := addOption?_eq_ok hb
  have hsize : 0 < t.size := Nat.lt_of_le_of_lt (Nat.zero_le _) hid
  have hno : ∀ action, (optionNode name type o.gates).command = some action →
      Declares bs [] action := fun action ha => by cases ha
  obtain ⟨hpush, hw⟩ := h.push hsize (n := optionNode name type o.gates) rfl
    (fun c hc => Node.not_hasBranch_bare (.option name type) c hc) hno
  obtain ⟨hupdate, hw'⟩ := hpush.update id (·.giveOption name t.size) rfl (hpush.forward id)
    (fun c hc => ⟨hpush.inside id c hc, hpush.branch id c hc⟩) (hpush.command id)
  exact ⟨_, hupdate, hw.trans hw'⟩

theorem traced_addOptions? (h : Traced bs t way) {id : NodeId} {os : List (Blueprint L)}
    (hb : t.addOptions? id os = .ok t') : ∃ way', Traced bs t' way' ∧ KeepsWays t way t' way' := by
  induction os generalizing t way with
  | nil =>
    obtain rfl := Except.ok.inj hb
    exact ⟨way, h, .refl⟩
  | cons o os ih =>
    obtain ⟨⟨t₁, option⟩, h₁, hb⟩ := bind_eq_ok.1 hb
    obtain ⟨way₁, htraced₁, hw₁⟩ := traced_addOption? h h₁
    obtain ⟨way₂, htraced₂, hw₂⟩ := ih htraced₁ hb
    exact ⟨way₂, htraced₂, hw₁.trans hw₂⟩

theorem traced_shareAll (h : Traced bs t way) {first : NodeId} {others : List NodeId}
    (hl : ∀ other ∈ others, Gates.AllAlike (way other) (way first)) :
    Traced bs (t.shareAll first others) way ∧ KeepsWays t way (t.shareAll first others) way := by
  have hshared : ∀ c, (t.node first).HasBranch c →
      c < t.size ∧ Gates.AllAlike (way c) ((t.node c).gates :: way first) :=
    fun c hc => ⟨h.inside first c hc, h.branch first c hc⟩
  unfold shareAll
  generalize t.node first = shared at hshared
  induction others generalizing t with
  | nil => exact ⟨h, .refl⟩
  | cons other others ih =>
    have hother : Gates.AllAlike (way first) (way other) := (hl other (List.mem_cons_self ..)).symm
    obtain ⟨htraced, hw⟩ := h.update other (·.shareBranches shared) rfl (h.forward other)
      (fun c hc => by
        rcases hc.of_shareBranches with hc | hc
        · exact ⟨h.inside other c hc, h.branch other c hc⟩
        · obtain ⟨hlt, hway⟩ := hshared c hc
          exact ⟨hlt, hway.trans (.cons (.refl _) hother)⟩)
      (h.command other)
    obtain ⟨htraced', hw'⟩ := ih htraced (fun o ho => hl o (List.mem_cons_of_mem _ ho))
      (fun c hc => by
        obtain ⟨hlt, hway⟩ := hshared c hc
        rw [hw.gates c hlt]
        exact ⟨Nat.lt_of_lt_of_le hlt hw.size, hway⟩)
    exact ⟨htraced', hw.trans hw'⟩

theorem traced_place? (h : Traced bs t way) (hg : Grown t layer) (hn : Nested bs around b)
    (haround : Gates.AllAtLeast (way parent) (gatesOf around)) (hstays : b.forward = none)
    {first : NodeId} {rest : List NodeId} (hb : t.place? parent b = .ok (t', first, rest))
    (hgates : ∀ id ∈ first :: rest, (t'.node id).gates.AtLeast b.gates) :
    ∃ layer' way', Grown t' layer' ∧ Traced bs t' way' ∧ KeepsWays t way t' way' ∧
      parent < t.size ∧ ∀ id ∈ first :: rest, BuiltInto t' way' parent id b := by
  unfold place? at hb
  obtain ⟨_, hc, hb⟩ := bind_eq_ok.1 hb
  obtain ⟨⟨name, others⟩, -, hb⟩ := bind_eq_ok.1 hb
  obtain ⟨⟨t₁, id⟩, h₁, hb⟩ := bind_eq_ok.1 hb
  obtain ⟨⟨t₂, ids⟩, h₂, hb⟩ := bind_eq_ok.1 hb
  obtain ⟨t₃, h₃, hb⟩ := bind_eq_ok.1 hb
  obtain ⟨rfl, hids⟩ := Prod.mk.inj (Except.ok.inj hb)
  obtain ⟨rfl, rfl⟩ := Prod.mk.inj hids
  obtain ⟨layer₁, hg₁, hk₁, hp, hid, -⟩ := grown_buildName? hg hc h₁
  have hp₁ : parent < t₁.size := Nat.lt_of_lt_of_le hp hk₁.size
  obtain ⟨layer₂, hg₂, hk₂, hids⟩ := grown_buildNames? hg₁ (checkTarget?_of_stays hstays) hp₁ h₂
  have hp₂ : parent < t₂.size := Nat.lt_of_lt_of_le hp₁ hk₂.size
  obtain ⟨hg₃, hk₃⟩ := grown_addOptions? hg₂ h₃
  -- gates do not change any more once a node is there
  have hfirst : (t₁.node id).gates.AtLeast b.gates := by
    rw [← (hk₂.trans hk₃).gates id hid]
    exact hgates id (List.mem_cons_self ..)
  have hrest : ∀ other ∈ ids, (t₂.node other).gates.AtLeast b.gates := by
    intro other hother
    rw [← hk₃.gates other (hids other hother).1]
    exact hgates other (List.mem_cons_of_mem _ hother)
  obtain ⟨way₁, htraced₁, hw₁, -, hinto₁⟩ := traced_buildName? h hn haround hstays h₁ hfirst
  have haround₁ : Gates.AllAtLeast (way₁ parent) (gatesOf around) := by
    rw [hw₁.way parent hp]
    exact haround
  obtain ⟨way₂, htraced₂, hw₂, hinto₂⟩ :=
    traced_buildNames? htraced₁ hg₁ hn haround₁ hstays hp₁ h₂ hrest
  obtain ⟨way₃, htraced₃, hw₃⟩ := traced_addOptions? htraced₂ h₃
  refine ⟨layer₂, way₃, hg₃, htraced₃, (hw₁.trans hw₂).trans hw₃, hp, fun other hother => ?_⟩
  rcases List.mem_cons.1 hother with rfl | hother
  · exact hinto₁.keep hp₁ (hw₂.trans hw₃)
  · exact (hinto₂ other hother).keep hp₂ hw₃

mutual

theorem traced_add? {t t' : CommandTree L} {layer : NodeId → Nat} {way : NodeId → List (Gates L)}
    {around : List (Blueprint L)} {parent first : NodeId} {rest : List NodeId}
    (h : Traced bs t way) (hg : Grown t layer)
    (hstays : ∀ around b, Nested bs around b → b.forward = none)
    (haround : Gates.AllAtLeast (way parent) (gatesOf around)) :
    ∀ {b : Blueprint L}, Nested bs around b → t.KeepsGates parent b →
      t.add? parent b = .ok (t', first, rest) →
      parent < t.size ∧ ∃ way', Traced bs t' way' ∧ KeepsWays t way t' way'
  | ⟨kind, children, options, command, gates, forward⟩, hn, hkeep, hb => by
    rw [add?_eq] at hb
    obtain ⟨⟨t₁, first₁, rest₁⟩, h₁, hb⟩ := bind_eq_ok.1 hb
    obtain ⟨t₂, h₂, hb⟩ := bind_eq_ok.1 hb
    obtain ⟨rfl, hids⟩ := Prod.mk.inj (Except.ok.inj hb)
    obtain ⟨rfl, rfl⟩ := Prod.mk.inj hids
    unfold KeepsGates at hkeep
    obtain ⟨hgates, halike, hbelow⟩ := hkeep t₁ first₁ rest₁ h₁
    obtain ⟨layer₁, way₁, hg₁, htraced₁, hw₁, hp, hinto⟩ :=
      traced_place? h hg hn haround (hstays _ _ hn) h₁ hgates
    have hfirst := hinto first₁ (List.mem_cons_self ..)
    have haround₁ : Gates.AllAtLeast (way₁ parent) (gatesOf around) := by
      rw [hw₁.way parent hp]
      exact haround
    obtain ⟨way₂, htraced₂, hw₂⟩ := traced_addAll? htraced₁ hg₁ hstays (hfirst.within haround₁)
      (fun c hc => hn.child hc) hbelow h₂
    have hshare : ∀ other ∈ rest₁, Gates.AllAlike (way₂ other) (way₂ first₁) := by
      intro other hother
      have hmine := hinto other (List.mem_cons_of_mem _ hother)
      rw [hw₂.way other hmine.lt_size, hw₂.way first₁ hfirst.lt_size]
      have hsame : Gates.AllAlike ((t₁.node other).gates :: way₁ parent)
          ((t₁.node first₁).gates :: way₁ parent) :=
        .cons (halike other hother) (Gates.AllAlike.refl _)
      exact (hmine.way.trans hsame).trans hfirst.way.symm
    obtain ⟨htraced₃, hw₃⟩ := traced_shareAll htraced₂ hshare
    exact ⟨hp, way₂, htraced₃, (hw₁.trans hw₂).trans hw₃⟩

theorem traced_addAll? {t t' : CommandTree L} {layer : NodeId → Nat}
    {way : NodeId → List (Gates L)} {around : List (Blueprint L)} {parent : NodeId}
    (h : Traced bs t way) (hg : Grown t layer)
    (hstays : ∀ around b, Nested bs around b → b.forward = none)
    (haround : Gates.AllAtLeast (way parent) (gatesOf around)) :
    ∀ {cs : List (Blueprint L)}, (∀ c ∈ cs, Nested bs around c) → t.KeepsGatesAll parent cs →
      t.addAll? parent cs = .ok t' → ∃ way', Traced bs t' way' ∧ KeepsWays t way t' way'
  | [], _, _, hb => by
    unfold addAll? at hb
    obtain rfl := Except.ok.inj hb
    exact ⟨way, h, .refl⟩
  | c :: cs, hn, hkeep, hb => by
    unfold addAll? at hb
    obtain ⟨⟨t₁, ids⟩, h₁, hb⟩ := bind_eq_ok.1 hb
    unfold KeepsGatesAll at hkeep
    obtain ⟨hfirst, hothers⟩ := hkeep
    obtain ⟨layer₁, hg₁, -⟩ := grown_add? hg h₁
    obtain ⟨hp, way₁, htraced₁, hw₁⟩ :=
      traced_add? h hg hstays haround (hn c (List.mem_cons_self ..)) hfirst h₁
    have haround₁ : Gates.AllAtLeast (way₁ parent) (gatesOf around) := by
      rw [hw₁.way parent hp]
      exact haround
    obtain ⟨way₂, htraced₂, hw₂⟩ := traced_addAll? htraced₁ hg₁ hstays haround₁
      (fun d hd => hn d (List.mem_cons_of_mem _ hd)) (hothers t₁ ids h₁) hb
    exact ⟨way₂, htraced₂, hw₁.trans hw₂⟩

end

/-! ### Lines keep to the ways -/

variable {source : L.Source} {p q : Position L}

/-- Whether a source passes the gates on the way down to where a line stands. -/
structure Follows (t : CommandTree L) (way : NodeId → List (Gates L)) (source : L.Source)
    (p : Position L) : Prop where
  admits : Gates.AllAdmit source (way p.node)
  denied : Gates.policyBehind (way p.node) = .denied → p.context.console = .denied
  command : ∀ action, p.context.command = some action → (t.node p.node).command = some action

theorem hasBranch_of_tried {child : NodeId}
    (h : t.NamesLiteral p child ∨ child ∈ (t.node p.node).arguments) :
    (t.node p.node).HasBranch child := by
  rcases h with h | h
  · exact Or.inr (Or.inl ⟨_, Keyed.mem_entries_of_find? h⟩)
  · exact Or.inr (Or.inr h)

theorem Follows.enters (h : t.Follows way source p) (htraced : Traced bs t way) {child : NodeId}
    (hbranch : (t.node p.node).HasBranch child) (he : t.Enters source p child q) :
    t.Follows way source q := by
  obtain ⟨taken, behind, -, ha, rfl⟩ := he
  let n := t.node child
  have hdenied : Gates.policyBehind (n.gates :: way p.node) = .denied →
      n.gates.console.resolve p.context.console = .denied :=
    (Gates.AtLeast.refl n.gates).denied h.denied
  have hdown : Gates.AllAdmit source (n.gates :: way p.node) :=
    ⟨(Gates.AtLeast.refl n.gates).admits hdenied ha, h.admits⟩
  have hway : Gates.AllAlike (way child) (n.gates :: way p.node) := htraced.branch _ _ hbranch
  have hbeyond : t.beyond p child taken behind = ⟨p.closed, child, taken.enter child n
      ⟨p.reader.cursor, behind.cursor⟩ (n.gates.console.resolve p.context.console),
      behind.skipBlank⟩ := by
    unfold beyond
    rw [htraced.forward child]
  rw [hbeyond]
  refine ⟨hdown.mono hway.symm.allAtLeast, fun hno => ?_, fun action ha => ha⟩
  exact hdenied (hway.symm.allAtLeast.denied hno)

theorem Follows.step (h : t.Follows way source p) (htraced : Traced bs t way)
    {i : Nat} (hs : Step t source p i q) : t.Follows way source q := by
  rcases hs.gives_or_enters with ⟨name, option, -, hg⟩ | ⟨child, hchild, he⟩
  · cases hg with
    | intro => exact ⟨h.admits, h.denied, h.command⟩
  · exact h.enters htraced (hasBranch_of_tried hchild) he

/-! ### One literal registered twice -/

/-- A literal with a requirement, and a command that is merged into it with one of its own. -/
def stopTwice (demands demands' : Unit → Bool) : List (Blueprint .builtins) :=
  [(Blueprint.literal "stop").requires demands,
    ((Blueprint.literal "stop").requires demands').executes ()]

theorem addAll?_stopTwice (demands demands' : Unit → Bool) :
    (empty : CommandTree .builtins).addAll? root (stopTwice demands demands') =
      .ok (built (stopTwice demands demands')) :=
  addAll?_built rfl

theorem nested_stopTwice {demands demands' : Unit → Bool}
    {around : List (Blueprint .builtins)} {b : Blueprint .builtins}
    (h : Nested (stopTwice demands demands') around b) :
    around = [] ∧ b ∈ stopTwice demands demands' ∧ b.children = [] ∧ b.forward = none := by
  induction h with
  | top hb =>
    refine ⟨rfl, hb, ?_⟩
    rcases List.mem_cons.1 hb with rfl | hb
    · exact ⟨rfl, rfl⟩
    · obtain rfl := List.mem_singleton.1 hb
      exact ⟨rfl, rfl⟩
  | child _ hc ih =>
    obtain ⟨-, -, hnil, -⟩ := ih
    rw [hnil] at hc
    cases hc

theorem keepsGatesAll_stopTwice (demands : Unit → Bool) :
    (empty : CommandTree .builtins).KeepsGatesAll root (stopTwice demands demands) := by
  have hone : ∀ {n : NodeId} {id : NodeId}, id ∈ [n] → id = n := fun h => List.mem_singleton.1 h
  unfold KeepsGatesAll
  refine ⟨?_, fun t' ids h => ?_⟩
  · unfold KeepsGates
    intro t' first rest h
    cases h
    refine ⟨fun id hid => ?_, fun id hid => (List.not_mem_nil hid).elim, trivial⟩
    rw [hone hid]
    exact .refl _
  · cases h
    unfold KeepsGatesAll
    refine ⟨?_, fun _ _ _ => trivial⟩
    unfold KeepsGates
    intro t' first rest h
    cases h
    refine ⟨fun id hid => ?_, fun id hid => (List.not_mem_nil hid).elim, trivial⟩
    rw [hone hid]
    exact .refl _

/-! ### Commands that run -/

/-- A command that runs was declared by a blueprint such that the source passes the gates declared
there and on all blueprints around it, if registering them drops no gates. -/
theorem run_admits_declared {t : CommandTree L} {bs : List (Blueprint L)}
    (hb : (empty : CommandTree L).addAll? root bs = .ok t)
    (hstays : ∀ around b, Nested bs around b → b.forward = none)
    (hkeep : (empty : CommandTree L).KeepsGatesAll root bs) (line : String) (source : L.Source)
    (I : Interpreter L W) (w : W) :
    ∀ run ∈ I.commandsRun (t.parse line source) w, ∃ around b, Nested bs around b ∧
      b.command = some run.1 ∧ Gates.AllAdmit source (gatesOf (b :: around)) := by
  intro run hrun
  obtain ⟨layer, hg, -⟩ := grown_addAll? .empty hb
  have htop : Gates.AllAtLeast (L := L) [] (gatesOf []) := .nil
  obtain ⟨way, htraced, -⟩ :=
    traced_addAll? traced_empty .empty hstays htop (fun b hb => .top hb) hkeep hb
  have hstart : t.Follows way source (Position.start (Reader.ofString line).skipBlank) := by
    have hroot : way root = [] := htraced.top
    refine ⟨?_, fun hno => ?_, fun action ha => by cases ha⟩
    · show Gates.AllAdmit source (way root)
      rw [hroot]
      trivial
    · rw [show way (Position.node _) = way root from rfl, hroot] at hno
      cases hno
  obtain ⟨q, hq, hchain, -⟩ := hg.filed.parseFrom_invariant (P := t.Follows way source) source
    (.ofString line) hstart fun p i q h hs => h.step htraced hs
  obtain ⟨hcommand, -⟩ := hg.filed.commandsRun_eq (.ofString line) I w run hrun
  have hlast : (t.parse line source).chain.last = q.context := by
    rw [show (t.parse line source).chain = q.chain from hchain, Position.last_chain]
  have hmine : q.context.command = some run.1 := by
    rw [← hlast]
    exact hcommand
  obtain ⟨around, b, hn, ha, hle⟩ := htraced.command q.node run.1 (hq.command run.1 hmine)
  exact ⟨around, b, hn, ha, hq.admits.mono hle⟩

theorem run_admits_declared_stop :
    let bs := stopTwice (fun _ => true) fun _ => true
    let I : Interpreter .builtins Unit := ⟨fun _ _ => pure (), fun _ _ => pure []⟩
    (I.commandsRun ((built bs).parse "stop" ()) ()).isEmpty = false ∧
      ∀ run ∈ I.commandsRun ((built bs).parse "stop" ()) (), ∃ around b, Nested bs around b ∧
        b.command = some run.1 ∧
          Gates.AllAdmit (L := .builtins) () (gatesOf (b :: around)) := by
  intro bs I
  exact ⟨by decide +kernel, run_admits_declared (addAll?_stopTwice _ _)
    (fun _ _ hn => (nested_stopTwice hn).2.2.2) (keepsGatesAll_stopTwice _) "stop" () I ()⟩

/-- A node that is there does not take over the gates of a blueprint that is merged into it. -/
theorem merged_gates_dropped :
    ¬∀ (bs : List (Blueprint .builtins)) (t : CommandTree .builtins) (line : String)
        (source : Unit) (I : Interpreter .builtins Unit) (w : Unit),
      (empty : CommandTree .builtins).addAll? root bs = .ok t →
      (∀ around b, Nested bs around b → b.forward = none) →
      ∀ run ∈ I.commandsRun (t.parse line source) w, ∃ around b, Nested bs around b ∧
        b.command = some run.1 ∧
          Gates.AllAdmit (L := .builtins) source (gatesOf (b :: around)) := by
  intro h
  let I : Interpreter .builtins Unit := ⟨fun _ _ => pure (), fun _ _ => pure []⟩
  let bs := stopTwice (fun _ => true) (fun _ => false)
  have hsome : (I.commandsRun ((built bs).parse "stop" ()) ()).isEmpty = false := by
    decide +kernel
  obtain ⟨run, hrun⟩ : ∃ run, run ∈ I.commandsRun ((built bs).parse "stop" ()) () :=
    List.exists_mem_of_ne_nil _ fun hnil => by
      rw [hnil] at hsome
      cases hsome
  obtain ⟨around, b, hn, hcommand, hadmit⟩ := h bs _ "stop" () I ()
    (addAll?_stopTwice _ _) (fun _ _ hn => (nested_stopTwice hn).2.2.2) run hrun
  obtain ⟨rfl, hb, -⟩ := nested_stopTwice hn
  rcases List.mem_cons.1 hb with rfl | hb
  · cases hcommand
  · obtain rfl := List.mem_singleton.1 hb
    have hstopped := hadmit.1.1 (fun _ => false) rfl
    cases hstopped

end CommandTree

end CommandConsole
