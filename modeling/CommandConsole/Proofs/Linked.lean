import CommandConsole.Proofs.Entries

/-!
# The exported tree is closed

The exported list is a graph that is closed under all that its entries point to. The entries of the
nodes come first, one for each node that the source gets to, with the root in front; behind them
come those of the aliases, below the root. Every entry can be reached from the first one, and what
an entry points to is what the source may use of the node.
-/

namespace CommandConsole

open Relation

variable {L : Language}

/-! ### Flags -/

theorem Entry.testBit_flags (e : Entry) :
    e.flags.testBit 2 = e.executable ∧ e.flags.testBit 3 = e.redirects := by
  have hbits : ∀ (shape : EntryShape) (executable redirects : Bool),
      let flags := shape.bits + (if executable then 4 else 0) + if redirects then 8 else 0
      flags.testBit 2 = executable ∧ flags.testBit 3 = redirects := by
    intro shape
    cases shape <;> decide
  exact hbits e.shape e.executable e.redirects

/-! ### Entries of aliases -/

/-- The entry with more children behind those it has. -/
def Entry.withMore (e : Entry) (more : List Nat) : Entry :=
  { e with children := e.children ++ more }

namespace Dispatcher

variable {d : Dispatcher L} {source : L.Source}

def aliasTarget? (d : Dispatcher L) (source : L.Source) (place? : NodeId → Option Nat) (a : Alias) :
    Option Nat :=
  (d.tree.leadsTo? source a.front).bind place?

def aliasEntries (d : Dispatcher L) (source : L.Source) (place? : NodeId → Option Nat)
    (aliases : List Alias) : List Entry :=
  aliases.filterMap fun a => (d.aliasTarget? source place? a).map a.entry

/-- The entries of a tree, and those of the aliases behind them and below the first. -/
def withAliases (d : Dispatcher L) (source : L.Source) (declared : Declared)
    (aliases : List Alias) : List Entry :=
  let more := d.aliasEntries source declared.places.find? aliases
  declared.entries.toList.modify 0 (·.withMore (List.range' declared.entries.size more.length)) ++
    more

theorem toList_foldl_declareAlias (aliases : List Alias) {declared : Declared}
    (hsome : 0 < declared.entries.size) :
    (aliases.foldl (d.declareAlias source) declared).entries.toList =
      d.withAliases source declared aliases := by
  induction aliases generalizing declared with
  | nil =>
    have hsame : (fun e : Entry => e.withMore []) = id := by
      funext e
      simp [Entry.withMore]
    simp [withAliases, aliasEntries, hsame]
  | cons a aliases ih =>
    rw [List.foldl_cons]
    cases htarget : d.aliasTarget? source declared.places.find? a with
    | none =>
      have hstep : d.declareAlias source declared a = declared := by
        unfold declareAlias
        rw [show (d.tree.leadsTo? source a.front).bind _ = _ from htarget]
      have hmore : d.aliasEntries source declared.places.find? (a :: aliases) =
          d.aliasEntries source declared.places.find? aliases :=
        List.filterMap_cons_none (by rw [htarget, Option.map_none])
      rw [hstep, ih hsome, withAliases, withAliases, hmore]
    | some target =>
      have hstep : d.declareAlias source declared a =
          ⟨(declared.entries.push (a.entry target)).modify 0
            (·.withMore [declared.entries.size]), declared.places⟩ := by
        unfold declareAlias
        rw [show (d.tree.leadsTo? source a.front).bind _ = _ from htarget]
        rfl
      have hmore : d.aliasEntries source declared.places.find? (a :: aliases) =
          a.entry target :: d.aliasEntries source declared.places.find? aliases :=
        List.filterMap_cons_some (by rw [htarget, Option.map_some])
      obtain ⟨first, rest, hentries⟩ : ∃ first rest, declared.entries.toList = first :: rest :=
        List.exists_cons_of_ne_nil fun hnil => by
          rw [← Array.length_toList, hnil] at hsome
          cases hsome
      rw [hstep, ih (by simp), withAliases, withAliases, hmore]
      simp [hentries, Entry.withMore, List.range'_succ]

/-- Exporting a dispatcher visits the root, in as many steps as are enough, and adds the aliases. -/
theorem declare_eq {layer : NodeId → Nat} (h : CommandTree.Grown d.tree layer)
    (source : L.Source) : ∃ declared,
      d.tree.Finishes (fun steps => d.tree.declareNode source steps CommandTree.root .inherited)
        ⟨#[], .empty⟩ (0, declared) ∧
      CommandTree.Explores d.tree source [0] ⟨#[], .empty⟩ declared ∧
      declared.places.find? CommandTree.root = some 0 ∧
      d.declare source = d.withAliases source declared d.aliases := by
  have hstart : CommandTree.Listed d.tree ⟨#[], .empty⟩ :=
    ⟨.nil, fun id hid => (by cases hid), rfl, fun id place hp => (by cases hp)⟩
  have hvisits : d.tree.Visiting source (d.tree.size + 1) := h.filed.visiting h.tidied _
  obtain ⟨j, declared, hfinishes, hexplores, hroot⟩ := hvisits CommandTree.root .inherited _ hstart
    h.root_first.1 .root (Nat.lt_succ_self _)
  have hrun := hfinishes (d.tree.size + 1) (Nat.lt_succ_self _)
  have hsome : 0 < declared.entries.size :=
    Nat.lt_of_le_of_lt (Nat.zero_le _) (hexplores.listed.lt_size hroot)
  obtain rfl : j = 0 := by
    rcases hexplores.linked 0 (Nat.le_refl _) hsome with hmem | ⟨p, -, hp, -⟩
    · exact (List.mem_singleton.1 hmem).symm
    · exact absurd hp (Nat.not_lt_zero p)
  refine ⟨declared, hfinishes, hexplores, hroot, ?_⟩
  rw [← toList_foldl_declareAlias d.aliases hsome]
  unfold declare
  exact congrArg (fun r : Nat × Declared =>
    (d.aliases.foldl (d.declareAlias source) r.2).entries.toList) hrun

section Lists

variable {declared : Declared} {aliases : List Alias} {i : Nat}

theorem length_withAliases : (d.withAliases source declared aliases).length =
    declared.entries.size + (d.aliasEntries source declared.places.find? aliases).length := by
  simp [withAliases]

theorem getElem?_withAliases_front (hi : i < declared.entries.size) :
    (d.withAliases source declared aliases)[i]? = declared.entries[i]?.map fun e =>
      if 0 = i then e.withMore (List.range' declared.entries.size
        (d.aliasEntries source declared.places.find? aliases).length) else e := by
  unfold withAliases
  rw [List.getElem?_append_left (by simpa using hi), List.getElem?_modify, Array.getElem?_toList]
  rfl

theorem getElem?_withAliases_behind (hi : declared.entries.size ≤ i) :
    (d.withAliases source declared aliases)[i]? =
      (d.aliasEntries source declared.places.find? aliases)[i - declared.entries.size]? := by
  unfold withAliases
  rw [List.getElem?_append_right (by simpa using hi)]
  simp

/-- The aliases leave the entries as they are, but for more children of the first. -/
theorem entry_withAliases (d : Dispatcher L) (source : L.Source) (aliases : List Alias) {e : Entry}
    (he : declared.entries[i]? = some e) :
    ∃ more, (d.withAliases source declared aliases)[i]? = some (e.withMore more) ∧
      more = if i = 0 then List.range' declared.entries.size
        ((d.withAliases source declared aliases).length - declared.entries.size) else [] := by
  have hlt : i < declared.entries.size := (Array.getElem?_eq_some_iff.1 he).1
  refine ⟨_, ?_, rfl⟩
  rw [getElem?_withAliases_front hlt, he, length_withAliases, Nat.add_sub_cancel_left,
    Option.map_some]
  by_cases hzero : i = 0
  · rw [if_pos hzero, if_pos hzero.symm]
  · rw [if_neg hzero, if_neg (Ne.symm hzero)]
    simp [Entry.withMore]

theorem alias_of_mem {e : Entry} {place? : NodeId → Option Nat}
    (he : e ∈ d.aliasEntries source place? aliases) :
    ∃ a ∈ aliases, ∃ id j, e = a.entry j ∧ place? id = some j := by
  obtain ⟨a, ha, hentry⟩ := List.mem_filterMap.1 he
  obtain ⟨j, hj, rfl⟩ := Option.map_eq_some_iff.1 hentry
  obtain ⟨id, -, hplace⟩ := Option.bind_eq_some_iff.1 hj
  exact ⟨a, ha, id, j, rfl, hplace⟩

end Lists

/-! ### Closed graphs -/

def PointsIn (es : List Entry) (i j : Nat) : Prop := ∃ e, es[i]? = some e ∧ j ∈ e.links

/-- Whether entries are those of the nodes that a source gets to, with those of aliases behind
them. -/
structure LaidOut (d : Dispatcher L) (source : L.Source) (es : List Entry) (nodes : Nat)
    (place? : NodeId → Option Nat) : Prop where
  /-- The root is in front. -/
  root : place? CommandTree.root = some 0
  /-- An entry in front is that of a node, -/
  owner : ∀ i < nodes, ∃ id, place? id = some i
  /-- of one node only, -/
  once : ∀ id id' i, place? id = some i → place? id' = some i → id = id'
  /-- and like the node, with a flag for its command and one for its redirect. -/
  own : ∀ id i, place? id = some i → id < d.tree.size ∧ i < nodes ∧ ∃ e, es[i]? = some e ∧
    e.bare = (d.tree.node id).entry ∧
    e.flags.testBit 2 = (d.tree.node id).command.isSome ∧
    e.flags.testBit 3 = (d.tree.node id).forward.isSome
  /-- It points to all branches that the source may use, under the policy of some way to the node,
  and to the target; the first entry also points to the aliases. -/
  branches : ∀ id i, place? id = some i → ∃ e policy children more, es[i]? = some e ∧
    d.tree.GetsTo source id policy ∧ e.children = children ++ more ∧
    List.Forall₂ (fun c j => place? c = some j)
      (d.tree.usableUnder source policy (d.tree.node id).children.values) children ∧
    List.Forall₂ (fun c j => place? c = some j)
      (d.tree.usableUnder source policy (d.tree.node id).options.values) e.options ∧
    List.Forall₂ (fun f j => place? f.target = some j)
      (d.tree.node id).forward.toList e.redirect.toList ∧
    more = if i = 0 then List.range' nodes (es.length - nodes) else []
  /-- An entry behind them is that of an alias, which redirects to the entry of a node. -/
  shortcut : ∀ i e, nodes ≤ i → es[i]? = some e → ∃ a ∈ d.aliases, ∃ id j,
    e = a.entry j ∧ place? id = some j

/-- Whether entries are a closed graph for a source. -/
structure ClosedGraph (d : Dispatcher L) (source : L.Source) (es : List Entry) (nodes : Nat)
    (place? : NodeId → Option Nat) : Prop extends d.LaidOut source es nodes place? where
  /-- All entries can be reached from the first. -/
  reached : ∀ i < es.length, ReflTransGen (PointsIn es) 0 i
  /-- No entry points beyond the list. -/
  inRange : ∀ e ∈ es, ∀ j ∈ e.links, j < es.length
  /-- Every child and every option is a node that the source may use, or an alias. -/
  admitted : ∀ e ∈ es, ∀ j ∈ e.children ++ e.options,
    (∃ id above policy, place? id = some j ∧ d.tree.GetsTo source above policy ∧
      (d.tree.node id).canUse source policy = true) ∨ nodes ≤ j
  /-- There is a redirect exactly where the flag says so. -/
  redirect : ∀ e ∈ es, e.flags.testBit 3 = e.redirect.isSome

section Closed

variable {es : List Entry} {nodes : Nat} {place? : NodeId → Option Nat}

/-- An entry is that of a node, or else that of an alias. -/
theorem LaidOut.entry_cases (h : d.LaidOut source es nodes place?) {e : Entry} (he : e ∈ es) :
    (∃ id i, place? id = some i ∧ es[i]? = some e) ∨
      ∃ (a : Alias) (id : NodeId) (j : Nat), e = a.entry j ∧ place? id = some j := by
  obtain ⟨i, hi⟩ := List.mem_iff_getElem?.1 he
  rcases Nat.lt_or_ge i nodes with hlt | hge
  · obtain ⟨id, hid⟩ := h.owner i hlt
    exact Or.inl ⟨id, i, hid, hi⟩
  · obtain ⟨a, -, id, j, hentry, hj⟩ := h.shortcut i e hge hi
    exact Or.inr ⟨a, id, j, hentry, hj⟩

theorem LaidOut.lt_length (h : d.LaidOut source es nodes place?) {id : NodeId} {i : Nat}
    (hi : place? id = some i) : i < es.length := by
  obtain ⟨-, -, e, he, -⟩ := h.own id i hi
  exact (List.getElem?_eq_some_iff.1 he).1

theorem LaidOut.inRange (h : d.LaidOut source es nodes place?) :
    ∀ e ∈ es, ∀ j ∈ e.links, j < es.length := by
  intro e he j hj
  rcases h.entry_cases he with ⟨id, i, hplace, hi⟩ | ⟨a, id, k, rfl, hk⟩
  · obtain ⟨e', policy, children, more, hi', -, hsplit, hchildren, hoptions, hredirect, hmore⟩ :=
      h.branches id i hplace
    obtain rfl := Option.some.inj (hi.symm.trans hi')
    rw [Entry.links, hsplit, List.mem_append, List.mem_append, List.mem_append] at hj
    rcases hj with ((hj | hj) | hj) | hj
    · obtain ⟨c, -, hc⟩ := forall₂_mem_right hchildren hj
      exact h.lt_length hc
    · rw [hmore] at hj
      split at hj
      · have hrange := (List.mem_range'_1.1 hj).2
        have hsome := (List.mem_range'_1.1 hj).1
        omega
      · cases hj
    · obtain ⟨c, -, hc⟩ := forall₂_mem_right hoptions hj
      exact h.lt_length hc
    · obtain ⟨f, -, hf⟩ := forall₂_mem_right hredirect hj
      exact h.lt_length hf
  · obtain rfl : j = k := by simpa [Entry.links, Alias.entry] using hj
    exact h.lt_length hk

theorem LaidOut.admitted (h : d.LaidOut source es nodes place?) :
    ∀ e ∈ es, ∀ j ∈ e.children ++ e.options,
      (∃ id above policy, place? id = some j ∧ d.tree.GetsTo source above policy ∧
        (d.tree.node id).canUse source policy = true) ∨ nodes ≤ j := by
  intro e he j hj
  rcases h.entry_cases he with ⟨id, i, hplace, hi⟩ | ⟨a, id, k, rfl, hk⟩
  · obtain ⟨e', policy, children, more, hi', hgets, hsplit, hchildren, hoptions, -, hmore⟩ :=
      h.branches id i hplace
    obtain rfl := Option.some.inj (hi.symm.trans hi')
    rw [hsplit, List.mem_append, List.mem_append] at hj
    rcases hj with (hj | hj) | hj
    · obtain ⟨c, hc, hplace'⟩ := forall₂_mem_right hchildren hj
      exact Or.inl ⟨c, id, policy, hplace', hgets, (CommandTree.mem_usableUnder.1 hc).2⟩
    · rw [hmore] at hj
      split at hj
      · exact Or.inr (List.mem_range'_1.1 hj).1
      · cases hj
    · obtain ⟨c, hc, hplace'⟩ := forall₂_mem_right hoptions hj
      exact Or.inl ⟨c, id, policy, hplace', hgets, (CommandTree.mem_usableUnder.1 hc).2⟩
  · cases hj

theorem LaidOut.redirect (h : d.LaidOut source es nodes place?) :
    ∀ e ∈ es, e.flags.testBit 3 = e.redirect.isSome := by
  intro e he
  rcases h.entry_cases he with ⟨id, i, hplace, hi⟩ | ⟨a, id, k, rfl, hk⟩
  · obtain ⟨-, -, e', hi', -, -, hflag⟩ := h.own id i hplace
    obtain rfl := Option.some.inj (hi.symm.trans hi')
    obtain ⟨e', policy, children, more, hi', -, -, -, -, hredirect, -⟩ := h.branches id i hplace
    obtain rfl := Option.some.inj (hi.symm.trans hi')
    rw [hflag]
    have hlength := hredirect.length_eq
    cases hforward : (d.tree.node id).forward <;> cases hr : e.redirect <;> simp_all
  · exact (a.entry k).testBit_flags.2

end Closed

section Export

variable {declared : Declared}

theorem laidOut_withAliases
    (h : CommandTree.Explores d.tree source [0] ⟨#[], .empty⟩ declared)
    (hroot : declared.places.find? CommandTree.root = some 0) :
    d.LaidOut source (d.withAliases source declared d.aliases) declared.entries.size
      declared.places.find? where
  root := hroot
  owner i hi := h.listed.owner hi
  once id id' i := h.listed.owner_unique
  own id i hi := by
    obtain ⟨e, he, hbare⟩ := h.listed.own id i hi
    obtain ⟨more, hmore, -⟩ := entry_withAliases d source d.aliases he
    have hflags := (e.withMore more).testBit_flags
    have hid : id < d.tree.size :=
      h.listed.inside id (List.mem_map.2 ⟨_, Keyed.mem_entries_of_find? hi, rfl⟩)
    refine ⟨hid, h.listed.lt_size hi, e.withMore more, hmore, hbare, ?_, ?_⟩
    · exact hflags.1.trans (congrArg Entry.executable hbare)
    · exact hflags.2.trans (congrArg Entry.redirects hbare)
  branches id i hi := by
    obtain ⟨e, policy, he, hgets, hchildren, hoptions, hredirect⟩ :=
      h.filled id i hi (Nat.zero_le i)
    obtain ⟨more, hmore, hmine⟩ := entry_withAliases d source d.aliases he
    exact ⟨e.withMore more, policy, e.children, more, hmore, hgets, rfl, hchildren, hoptions,
      hredirect, hmine⟩
  shortcut i e hi he := by
    rw [getElem?_withAliases_behind hi] at he
    exact alias_of_mem (List.mem_of_getElem? he)

theorem reached_withAliases
    (h : CommandTree.Explores d.tree source [0] ⟨#[], .empty⟩ declared)
    (hroot : declared.places.find? CommandTree.root = some 0) (i : Nat)
    (hi : i < (d.withAliases source declared d.aliases).length) :
    ReflTransGen (PointsIn (d.withAliases source declared d.aliases)) 0 i := by
  rcases Nat.lt_or_ge i declared.entries.size with hlt | hge
  · induction i using Nat.strongRecOn with
    | _ i ih =>
      rcases h.linked i (Nat.zero_le i) hlt with htop | ⟨p, -, hp, e, he, hmem⟩
      · rw [List.mem_singleton.1 htop]
      · obtain ⟨more, hmore, -⟩ := entry_withAliases d source d.aliases he
        refine (ih p hp (Nat.lt_trans hp hi) (Nat.lt_trans hp hlt)).tail ⟨_, hmore, ?_⟩
        simp only [Entry.links, Entry.withMore, List.mem_append] at hmem ⊢
        exact hmem.imp_left fun hm => hm.imp_left Or.inl
  · obtain ⟨e, he, -⟩ := h.listed.own _ _ hroot
    obtain ⟨more, hmore, hmine⟩ := entry_withAliases d source d.aliases he
    refine .single ⟨_, hmore, ?_⟩
    rw [if_pos rfl] at hmine
    have hrange : i ∈ more := by
      rw [hmine]
      exact List.mem_range'_1.2 ⟨hge, by omega⟩
    simp [Entry.links, Entry.withMore, hrange]

end Export

/-- What is exported is a closed graph, with the entries of aliases behind those of the nodes. -/
theorem closedGraph_declare {layer : NodeId → Nat} (h : CommandTree.Grown d.tree layer)
    (source : L.Source) : ∃ nodes place?, d.ClosedGraph source (d.declare source) nodes place? ∧
      (d.declare source).drop nodes = d.aliasEntries source place? d.aliases := by
  obtain ⟨declared, -, hexplores, hroot, heq⟩ := declare_eq h source
  have hlaid := laidOut_withAliases hexplores hroot
  rw [heq]
  refine ⟨declared.entries.size, declared.places.find?, ⟨hlaid, reached_withAliases hexplores hroot,
    hlaid.inRange, hlaid.admitted, hlaid.redirect⟩, ?_⟩
  exact List.drop_left' (by simp)

/-- Exporting comes to an end, whatever the redirects and the shared children are, and leaves a
closed graph: of the entries of the nodes that the source gets to, with the root in front, and of
those of the aliases. -/
theorem declare_closed (ht : d.tree.Reachable) (source : L.Source) :
    CommandTree.EndsBy (d.tree.size + 1) (fun steps =>
      (d.tree.declareNode source steps CommandTree.root .inherited).run ⟨#[], .empty⟩) ∧
    ∃ nodes place?, d.ClosedGraph source (d.declare source) nodes place? := by
  obtain ⟨layer, hg⟩ := ht.grown
  obtain ⟨declared, hfinishes, -⟩ := declare_eq hg source
  obtain ⟨nodes, place?, hgraph, -⟩ := closedGraph_declare hg source
  refine ⟨fun steps hsteps => ?_, nodes, place?, hgraph⟩
  exact (hfinishes steps hsteps).trans (hfinishes _ (Nat.lt_succ_self _)).symm

theorem declare_closed_console :
    let d := consoleDispatcher ⟨[("halt", "stop")]⟩
    let source := Actor.console "Server"
    d.tree.Reachable ∧
    CommandTree.EndsBy (d.tree.size + 1) (fun steps =>
      (d.tree.declareNode source steps CommandTree.root .inherited).run ⟨#[], .empty⟩) ∧
    ∃ nodes place?, d.ClosedGraph source (d.declare source) nodes place? := by
  intro d source
  have ht : d.tree.Reachable := tree_consoleDispatcher _ ▸ reachable_commandTree
  exact ⟨ht, declare_closed ht source⟩

end Dispatcher

end CommandConsole
