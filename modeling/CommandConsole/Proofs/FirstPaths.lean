import CommandConsole.Proofs.Indexes
import CommandConsole.Proofs.Layers
import CommandConsole.Proofs.Named

/-!
# First paths

A path is a list of names that leads from the root down to a node, and a node may have several of
them. The first one that a walk down the tree comes upon leads back to the node, it is found
whenever there is any, and no path to the node is longer or shorter.
-/

namespace CommandConsole

namespace CommandTree

variable {L : Language} {t : CommandTree L} {layer : NodeId → Nat} {id c target : NodeId}
  {path : List String} {steps : Nat}

theorem Grown.child?_name (hg : Grown t layer) (hc : t.IsChild id c) :
    (t.node id).child? (t.node c).name = some c := by
  obtain ⟨e, he, rfl⟩ := List.mem_map.1 hc
  rw [((hg.filed id).child e he).2.2]
  exact (Keyed.find?_eq_some_iff (hg.tidied id).children).2 he

theorem Grown.findFrom?_of_pathFrom? (hg : Grown t layer)
    (h : t.pathFrom? target steps id = some path) : t.findFrom? id path = some target := by
  induction steps generalizing id path with
  | zero =>
    unfold pathFrom? at h
    split at h
    · next heq =>
      obtain rfl := Option.some.inj h
      exact congrArg some heq
    · cases h
  | succ steps ih =>
    unfold pathFrom? at h
    split at h
    · next heq =>
      obtain rfl := Option.some.inj h
      exact congrArg some heq
    · obtain ⟨c, hc, h⟩ := List.exists_of_findSome?_eq_some h
      obtain ⟨names, hnames, rfl⟩ := Option.map_eq_some_iff.1 h
      exact Option.bind_eq_some_iff.2 ⟨c, hg.child?_name hc, ih hnames⟩

/-- The walk finds its target if any names lead there, in as many steps as there are names. -/
theorem isSome_pathFrom? (h : t.findFrom? id path = some target) (hsteps : path.length ≤ steps) :
    (t.pathFrom? target steps id).isSome = true := by
  induction path generalizing id steps with
  | nil =>
    obtain rfl := Option.some.inj h
    cases steps <;> simp [pathFrom?]
  | cons name names ih =>
    obtain ⟨c, hc, hrest⟩ := Option.bind_eq_some_iff.1 h
    obtain ⟨k, rfl⟩ : ∃ k, steps = k + 1 := ⟨steps - 1, by rw [List.length_cons] at hsteps; omega⟩
    have hbelow := ih hrest (Nat.le_of_succ_le_succ hsteps)
    unfold pathFrom?
    split
    · rfl
    · refine List.findSome?_isSome_iff.2 ⟨c, Keyed.mem_values_of_find? hc, ?_⟩
      rw [Option.isSome_map]
      exact hbelow

/-- Looking a path up and taking the first path to a node undo each other, up to the choice among
the paths to the node, which all have the same length; and every child is found under its own
name. -/
theorem find?_path?_inverse (ht : t.Reachable) :
    (∀ id, ∀ e ∈ (t.node id).children.entries, e.2 < t.size ∧ (t.node e.2).name = e.1) ∧
    (∀ id path, t.path? id = some path → t.find? path = some id) ∧
    ∀ path id, t.find? path = some id →
      ∃ first, t.path? id = some first ∧ first.length = path.length ∧ t.find? first = some id := by
  obtain ⟨layer, hg⟩ := ht.grown
  refine ⟨fun id e he => ?_, fun id path h => hg.findFrom?_of_pathFrom? h, fun path id h => ?_⟩
  · obtain ⟨hlt, -, hname⟩ := (hg.filed id).child e he
    exact ⟨hlt, hname⟩
  · have hlength : layer id = layer root + path.length := hg.filed.layer_findFrom? h
    -- there are no more layers than nodes, and the walk takes as many steps as there are nodes
    have hsteps : path.length ≤ t.size := by
      have hlt := hg.layer_lt id
      omega
    obtain ⟨first, hfirst⟩ := Option.isSome_iff_exists.1 (isSome_pathFrom? h hsteps)
    have hfound : t.findFrom? root first = some id := hg.findFrom?_of_pathFrom? hfirst
    have hsame := hg.filed.layer_findFrom? hfound
    exact ⟨first, hfirst, by omega, hfound⟩

/-- A child of two names has two paths, and a child that it took the place of has none. -/
theorem find?_path?_inverse_lit :
    ((lit (.argument "off" .word)).node 1).children.entries = [("off", 4)] ∧
      ((lit (.argument "off" .word)).node 4).name = "off" ∧
      (lit (.argument "off" .word)).find? ["light", "off"] = some 4 ∧
      (∃ first, (lit (.argument "off" .word)).path? 4 = some first ∧ first.length = 2 ∧
        (lit (.argument "off" .word)).find? first = some 4) ∧
      ∀ path, (lit (.argument "off" .word)).find? path ≠ some 2 := by
  have ht : (lit (.argument "off" .word)).Reachable :=
    .add (reachable_built _) (add?_light_argument "off" .word)
  have hentries : ((lit (.argument "off" .word)).node 1).children.entries = [("off", 4)] := by
    decide +kernel
  have hfound : (lit (.argument "off" .word)).find? ["light", "off"] = some 4 := by decide +kernel
  have hnone : (lit (.argument "off" .word)).path? 2 = none := by decide +kernel
  obtain ⟨hchild, -, hpath⟩ := find?_path?_inverse ht
  refine ⟨hentries, (hchild 1 ("off", 4) (by rw [hentries]; exact List.mem_singleton_self _)).2,
    hfound, hpath _ _ hfound, fun path h => ?_⟩
  obtain ⟨first, hfirst, -⟩ := hpath path 2 h
  rw [hnone] at hfirst
  cases hfirst

end CommandTree

end CommandConsole
