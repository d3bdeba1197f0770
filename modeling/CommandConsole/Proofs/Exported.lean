import CommandConsole.Proofs.Linked

/-!
# The exported tree

The entry of a node points to the entries of the branches that the source may use on the first way
to the node. Which branches these are does not depend on the way, as long as the console is not
excluded on any.
-/

namespace CommandConsole

variable {L : Language}

/-- Whether a policy does not exclude a source. -/
def ConsolePolicy.Open (policy : ConsolePolicy) (source : L.Source) : Prop :=
  ¬(policy = .denied ∧ L.isConsole source = true)

namespace CommandTree

variable {t : CommandTree L} {source : L.Source} {id : NodeId} {above policy : ConsolePolicy}

theorem admits_iff_of_open (h : above.Open source) (id : NodeId) :
    t.Admits source id above ↔ t.Admits source id .allowed := by
  have hsame : ((t.node id).gates.console.resolve above).Open source ↔
      ((t.node id).gates.console.resolve .allowed).Open source := by
    cases (t.node id).gates.console with
    | allowed => exact Iff.rfl
    | denied => exact Iff.rfl
    | inherited =>
      have hallowed : ConsolePolicy.allowed.Open source := fun hno => by cases hno.1
      exact ⟨fun _ => hallowed, fun _ => h⟩
  exact and_congr_right fun _ => and_congr_right fun _ => hsame

theorem canUse_of_open (h : above.Open source) (id : NodeId) :
    (t.node id).canUse source above = (t.node id).canUse source .allowed := by
  rw [Bool.eq_iff_iff, canUse_iff_admits, canUse_iff_admits]
  exact admits_iff_of_open h id

theorem open_of_admits (h : t.Admits source id above) :
    ((t.node id).gates.console.resolve above).Open source := h.2.2

/-- The nodes among some that a source may use, on any way that does not exclude it. -/
def usable (t : CommandTree L) (source : L.Source) (ids : List NodeId) : List NodeId :=
  ids.filter fun id => (t.node id).canUse source .allowed

theorem filter_canUse (h : above.Open source) (ids : List NodeId) :
    ids.filter (fun id => (t.node id).canUse source above) = t.usable source ids :=
  List.filter_congr fun id _ => canUse_of_open h id

/-! ### Targets -/

/-- Whether no redirect leads to a node that excludes the source for being the console. -/
def OpenTargets (t : CommandTree L) (source : L.Source) : Prop :=
  L.isConsole source = true → ∀ id f, (t.node id).forward = some f →
    (t.node f.target).gates.console ≠ .denied

theorem OpenTargets.open (h : t.OpenTargets source) (habove : above.Open source)
    {f : Forward L} (hf : (t.node id).forward = some f) :
    ((t.node f.target).gates.console.resolve above).Open source := by
  rintro ⟨hdenied, hconsole⟩
  have htarget := h hconsole id f hf
  cases hown : (t.node f.target).gates.console with
  | allowed =>
    rw [hown] at hdenied
    cases hdenied
  | denied => exact htarget hown
  | inherited =>
    rw [hown] at hdenied
    exact habove ⟨hdenied, hconsole⟩

theorem GetsTo.open {layer : NodeId → Nat} (h : t.GetsTo source id policy) (hg : Grown t layer)
    (hopen : t.OpenTargets source) : policy.Open source := by
  induction h with
  | root =>
    rw [hg.root_plain.2.2]
    exact fun hno => by cases hno.1
  | branch _ _ huse _ => exact open_of_admits ((canUse_iff_admits ..).1 huse)
  | target _ hforward ih => exact hopen.open ih hforward

/-! ### All entries -/

/-- Whether entries are those of a tree, at the places of its nodes: each with the kind and the name
of its node, and with the places of the branches that the source may use and of the target. -/
structure Exports (t : CommandTree L) (source : L.Source) (es : List Entry)
    (place? : NodeId → Option Nat) : Prop where
  root : place? root = some 0
  entry : ∀ id j, place? id = some j → id < t.size ∧ ∃ e, es[j]? = some e ∧
    e.shape = (t.node id).kind.shape ∧ e.name = (t.node id).entry.name ∧
    List.Forall₂ (fun c j => place? c = some j)
      (t.usable source (t.node id).children.values) e.children ∧
    List.Forall₂ (fun f j => place? f.target = some j) (t.node id).forward.toList e.redirect.toList

theorem Grown.exports {layer : NodeId → Nat} (h : Grown t layer) (hopen : t.OpenTargets source)
    {d : Dispatcher L} (htree : d.tree = t) (haliases : d.aliases = []) :
    ∃ place?, Exports t source (d.declare source) place? := by
  subst htree
  obtain ⟨declared, -, hexplores, hroot, heq⟩ := Dispatcher.declare_eq h source
  have hlaid := Dispatcher.laidOut_withAliases hexplores hroot
  rw [← heq] at hlaid
  refine ⟨declared.places.find?, hlaid.root, fun id i hi => ?_⟩
  obtain ⟨hid, -, e, he, hbare, -⟩ := hlaid.own id i hi
  obtain ⟨e', policy, children, more, he', hgets, hsplit, hchildren, -, hredirect, hmore⟩ :=
    hlaid.branches id i hi
  obtain rfl := Option.some.inj (he.symm.trans he')
  have hnone : more = [] := by
    -- an entry behind those of the nodes would be that of an alias
    rw [hmore]
    split
    · rw [List.range'_eq_nil_iff, Nat.sub_eq_zero_iff_le]
      refine Nat.le_of_not_lt fun hlt => ?_
      obtain ⟨a, ha, -⟩ := hlaid.shortcut _ _ (Nat.le_refl _) (List.getElem?_eq_getElem hlt)
      rw [haliases] at ha
      cases ha
    · rfl
  rw [hnone, List.append_nil] at hsplit
  have hname : e.bare.name = (d.tree.node id).entry.name := congrArg Entry.name hbare
  refine ⟨hid, e, he, congrArg Entry.shape hbare, hname, ?_, hredirect⟩
  rw [hsplit, ← filter_canUse (hgets.open h hopen)]
  exact hchildren

end CommandTree

end CommandConsole
