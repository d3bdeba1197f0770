import CommandConsole.Proofs.Indexes
import CommandConsole.Proofs.Layers
import CommandConsole.Views.Declaration
import Mathlib.Data.List.Forall2
import Mathlib.Data.List.Perm.Subperm
import Mathlib.Logic.Relation

/-!
# Entries of the exported tree

Exporting a tree visits every node that the source gets to once, depth first. The entry of a node is
opened before its branches are visited and closed behind them, so a way that comes back to the node
finds its place. Each visit leaves only entries that point to those of the branches that the source
may use and of the target of the redirect, and each new entry is pointed to by an earlier one.
-/

namespace CommandConsole

open Relation

variable {L : Language}

/-! ### Entries -/

namespace Entry

def withBranches (e : Entry) (children options : List Nat) (redirect : Option Nat) : Entry :=
  { e with children, options, redirect }

def bare (e : Entry) : Entry := e.withBranches [] [] none

def links (e : Entry) : List Nat := e.children ++ e.options ++ e.redirect.toList

end Entry

namespace Declared

def opened (d : Declared) (id : NodeId) (n : Node L) : Declared :=
  ⟨d.entries.push n.entry, d.places.insert id d.entries.size⟩

def closed (d : Declared) (place : Nat) (children options : List Nat) (redirect : Option Nat) :
    Declared :=
  ⟨d.entries.modify place (·.withBranches children options redirect), d.places⟩

def Points (d : Declared) (i j : Nat) : Prop := ∃ e, d.entries[i]? = some e ∧ j ∈ e.links

variable {d : Declared} {id : NodeId} {place : Nat} {children options : List Nat}
  {redirect : Option Nat}

theorem size_opened (n : Node L) : (d.opened id n).entries.size = d.entries.size + 1 :=
  Array.size_push ..

theorem find?_opened (n : Node L) (id' : NodeId) : (d.opened id n).places.find? id' =
    if id = id' then some d.entries.size else d.places.find? id' :=
  Keyed.find?_insert ..

theorem getElem?_opened (n : Node L) (i : Nat) : (d.opened id n).entries[i]? =
    if i = d.entries.size then some n.entry else d.entries[i]? := Array.getElem?_push

theorem size_closed : (d.closed place children options redirect).entries.size = d.entries.size :=
  Array.size_modify ..

theorem getElem?_closed (i : Nat) : (d.closed place children options redirect).entries[i]? =
    if place = i then d.entries[i]?.map (·.withBranches children options redirect)
    else d.entries[i]? := Array.getElem?_modify

end Declared

namespace CommandTree

variable {t : CommandTree L} {source : L.Source} {d d' d'' : Declared} {id : NodeId}
  {above policy : ConsolePolicy}

/-! ### Ways of a source -/

/-- Whether a source gets to a node, with a policy in effect there: to children and options that it
may use, and to the targets of redirects. -/
inductive GetsTo (t : CommandTree L) (source : L.Source) : NodeId → ConsolePolicy → Prop
  | root : GetsTo t source root ((t.node root).gates.console.resolve .inherited)
  | branch {id c : NodeId} {policy : ConsolePolicy} :
      GetsTo t source id policy →
      c ∈ (t.node id).children.values ++ (t.node id).options.values →
      (t.node c).canUse source policy = true →
      GetsTo t source c ((t.node c).gates.console.resolve policy)
  | target {id : NodeId} {policy : ConsolePolicy} {f : Forward L} :
      GetsTo t source id policy → (t.node id).forward = some f →
      GetsTo t source f.target ((t.node f.target).gates.console.resolve policy)

/-- The nodes among some that a source may use under a policy. -/
def usableUnder (t : CommandTree L) (source : L.Source) (policy : ConsolePolicy)
    (ids : List NodeId) : List NodeId :=
  ids.filter fun id => (t.node id).canUse source policy

theorem mem_usableUnder {ids : List NodeId} :
    id ∈ t.usableUnder source policy ids ↔
      id ∈ ids ∧ (t.node id).canUse source policy = true := List.mem_filter

/-! ### What has been visited -/

/-- Whether the places are those of different nodes, in order, each with an entry of its node. -/
structure Listed (t : CommandTree L) (d : Declared) : Prop where
  distinct : d.places.keys.Nodup
  inside : ∀ id ∈ d.places.keys, id < t.size
  inOrder : d.places.values = List.range d.entries.size
  own : ∀ id place, d.places.find? id = some place →
    ∃ e, d.entries[place]? = some e ∧ e.bare = (t.node id).entry

/-- Whether the entry of a node points to all its branches that the source may use, under the policy
of some way to the node, and to the target of its redirect. -/
def Filled (t : CommandTree L) (source : L.Source) (d : Declared) (id place : Nat) : Prop :=
  ∃ e policy, d.entries[place]? = some e ∧ t.GetsTo source id policy ∧
    List.Forall₂ (fun c j => d.places.find? c = some j)
      (t.usableUnder source policy (t.node id).children.values) e.children ∧
    List.Forall₂ (fun c j => d.places.find? c = some j)
      (t.usableUnder source policy (t.node id).options.values) e.options ∧
    List.Forall₂ (fun f j => d.places.find? f.target = some j)
      (t.node id).forward.toList e.redirect.toList

/-- What visits do that lead to some places: they add entries, all of them filled in the end and
each pointed to by an earlier one or among those places, and they change none. -/
structure Explores (t : CommandTree L) (source : L.Source) (tops : List Nat) (d d' : Declared) :
    Prop where
  listed : Listed t d'
  size : d.entries.size ≤ d'.entries.size
  entry : ∀ i < d.entries.size, d'.entries[i]? = d.entries[i]?
  place : ∀ id i, d.places.find? id = some i → d'.places.find? id = some i
  filled : ∀ id i, d'.places.find? id = some i → d.entries.size ≤ i → Filled t source d' id i
  linked : ∀ i, d.entries.size ≤ i → i < d'.entries.size →
    i ∈ tops ∨ ∃ p, d.entries.size ≤ p ∧ p < i ∧ d'.Points p i

theorem Listed.size_le (h : Listed t d) : d.entries.size ≤ t.size := by
  have hsub : d.places.keys ⊆ List.range t.size := fun id hid => List.mem_range.2 (h.inside id hid)
  have hle := (h.distinct.subperm hsub).length_le
  have hcount : d.places.keys.length = d.places.values.length := by
    rw [Keyed.keys, Keyed.values, List.length_map, List.length_map]
  rwa [hcount, h.inOrder, List.length_range, List.length_range] at hle

theorem Listed.lt_size (h : Listed t d) {i : Nat} (hi : d.places.find? id = some i) :
    i < d.entries.size := by
  obtain ⟨e, he, -⟩ := h.own id i hi
  exact (Array.getElem?_eq_some_iff.1 he).1

theorem Listed.owner (h : Listed t d) {i : Nat} (hi : i < d.entries.size) :
    ∃ id, d.places.find? id = some i := by
  have hmem : i ∈ d.places.values := by
    rw [h.inOrder]
    exact List.mem_range.2 hi
  obtain ⟨⟨id, j⟩, hentry, rfl⟩ := List.mem_map.1 hmem
  exact ⟨id, (Keyed.find?_eq_some_iff h.distinct).2 hentry⟩

theorem Listed.owner_unique (h : Listed t d) {id id' : NodeId} {i : Nat}
    (hi : d.places.find? id = some i) (hi' : d.places.find? id' = some i) : id = id' := by
  have hnodup : (d.places.entries.map Prod.snd).Nodup := by
    show d.places.values.Nodup
    rw [h.inOrder]
    exact List.nodup_range
  have hsame := List.inj_on_of_nodup_map hnodup (Keyed.mem_entries_of_find? hi)
    (Keyed.mem_entries_of_find? hi') rfl
  exact congrArg Prod.fst hsame

theorem Filled.mono {place : Nat} (h : Filled t source d id place) {tops : List Nat}
    (hv : Explores t source tops d d') : Filled t source d' id place := by
  obtain ⟨e, policy, he, hgets, hchildren, hoptions, hredirect⟩ := h
  have hlt : place < d.entries.size := (Array.getElem?_eq_some_iff.1 he).1
  exact ⟨e, policy, (hv.entry place hlt).trans he, hgets, hchildren.imp fun c j => hv.place c j,
    hoptions.imp fun c j => hv.place c j,
    hredirect.imp fun (f : Forward L) j => hv.place f.target j⟩

theorem Explores.points {tops : List Nat} (h : Explores t source tops d d') {p i : Nat}
    (hp : d.Points p i) : d'.Points p i := by
  obtain ⟨e, he, hi⟩ := hp
  exact ⟨e, (h.entry p (Array.getElem?_eq_some_iff.1 he).1).trans he, hi⟩

theorem Explores.refl (h : Listed t d) : Explores t source [] d d where
  listed := h
  size := Nat.le_refl _
  entry _ _ := rfl
  place _ _ hi := hi
  filled _ _ hi hle := absurd (h.lt_size hi) (Nat.not_lt.2 hle)
  linked _ hle hlt := absurd hlt (Nat.not_lt.2 hle)

theorem Explores.trans {tops tops' : List Nat} (h : Explores t source tops d d')
    (h' : Explores t source tops' d' d'') : Explores t source (tops ++ tops') d d'' where
  listed := h'.listed
  size := Nat.le_trans h.size h'.size
  entry i hi := (h'.entry i (Nat.lt_of_lt_of_le hi h.size)).trans (h.entry i hi)
  place id i hi := h'.place id i (h.place id i hi)
  filled id i hi hle := by
    rcases Nat.lt_or_ge i d'.entries.size with hlt | hge
    · -- the place is taken by the same node before and after the later visits
      obtain ⟨id', hid'⟩ := h.listed.owner hlt
      obtain rfl := h'.listed.owner_unique hi (h'.place id' i hid')
      exact (h.filled id i hid' hle).mono h'
    · exact h'.filled id i hi hge
  linked i hle hlt := by
    rcases Nat.lt_or_ge i d'.entries.size with hlt' | hge
    · rcases h.linked i hle hlt' with hi | ⟨p, hp, hpi, hpoints⟩
      · exact Or.inl (List.mem_append_left _ hi)
      · exact Or.inr ⟨p, hp, hpi, h'.points hpoints⟩
    · rcases h'.linked i hge hlt with hi | ⟨p, hp, hpi, hpoints⟩
      · exact Or.inl (List.mem_append_right _ hi)
      · exact Or.inr ⟨p, Nat.le_trans h.size hp, hpi, hpoints⟩

/-! ### Opening and closing an entry -/

theorem listed_opened (h : Listed t d) (hnew : d.places.find? id = none) (hid : id < t.size) :
    Listed t (d.opened id (t.node id)) where
  distinct := Keyed.nodup_keys_insert h.distinct _ _
  inside id' hid' := by
    have hkeys : (d.opened id (t.node id)).places.keys = d.places.keys ++ [id] := by
      show (d.places.insert _ _).keys = _
      rw [Keyed.keys_insert, if_neg (Keyed.find?_eq_none_iff.1 hnew)]
    rw [hkeys, List.mem_append, List.mem_singleton] at hid'
    rcases hid' with hid' | rfl
    · exact h.inside id' hid'
    · exact hid
  inOrder := by
    show (d.places.insert _ _).values = _
    rw [Keyed.values_insert_new hnew, h.inOrder, Declared.size_opened, List.range_succ]
  own id' i hi := by
    rw [Declared.find?_opened] at hi
    rw [Declared.getElem?_opened]
    split at hi
    · next heq =>
      obtain rfl := Option.some.inj hi
      rw [if_pos rfl, ← heq]
      exact ⟨_, rfl, rfl⟩
    · rw [if_neg (Nat.ne_of_lt (h.lt_size hi))]
      exact h.own id' i hi

section Closed

variable {place : Nat} {children options : List Nat} {redirect : Option Nat}

theorem listed_closed (h : Listed t d) : Listed t (d.closed place children options redirect) where
  distinct := h.distinct
  inside := h.inside
  inOrder := h.inOrder.trans (congrArg List.range Declared.size_closed.symm)
  own id i hi := by
    obtain ⟨e, he, hbare⟩ := h.own id i hi
    rw [Declared.getElem?_closed]
    split
    · exact ⟨e.withBranches children options redirect, by rw [he]; rfl, hbare⟩
    · exact ⟨e, he, hbare⟩

theorem points_closed {p i : Nat} (h : d.Points p i) (hne : place ≠ p) :
    (d.closed place children options redirect).Points p i := by
  obtain ⟨e, he, hi⟩ := h
  exact ⟨e, by rw [Declared.getElem?_closed, if_neg hne, he], hi⟩

/-- Between opening the entry of a node and filling in its branches, these are visited; all in all
that is a visit of the node. -/
theorem explores_closed (hnew : d.places.find? id = none) {tops : List Nat}
    (hv : Explores t source tops (d.opened id (t.node id)) d')
    (hgets : t.GetsTo source id policy)
    (hchildren : List.Forall₂ (fun c j => d'.places.find? c = some j)
      (t.usableUnder source policy (t.node id).children.values) children)
    (hoptions : List.Forall₂ (fun c j => d'.places.find? c = some j)
      (t.usableUnder source policy (t.node id).options.values) options)
    (hredirect : List.Forall₂ (fun f j => d'.places.find? f.target = some j)
      (t.node id).forward.toList redirect.toList)
    (htops : tops = children ++ options ++ redirect.toList) :
    Explores t source [d.entries.size] d
      (d'.closed d.entries.size children options redirect) := by
  have hsize := hv.size
  rw [Declared.size_opened] at hsize
  have hmine : d'.entries[d.entries.size]? = some (t.node id).entry := by
    rw [hv.entry _ (by rw [Declared.size_opened]; exact Nat.lt_succ_self _),
      Declared.getElem?_opened, if_pos rfl]
  have hplace : d'.places.find? id = some d.entries.size :=
    hv.place id _ (by rw [Declared.find?_opened, if_pos rfl])
  have hentry : (d'.closed d.entries.size children options redirect).entries[d.entries.size]? =
      some ((t.node id).entry.withBranches children options redirect) := by
    rw [Declared.getElem?_closed, if_pos rfl, hmine]
    rfl
  constructor
  case listed => exact listed_closed hv.listed
  case size =>
    rw [Declared.size_closed]
    omega
  case entry =>
    intro i hi
    rw [Declared.getElem?_closed, if_neg (Nat.ne_of_gt hi),
      hv.entry i (by rw [Declared.size_opened]; omega), Declared.getElem?_opened,
      if_neg (Nat.ne_of_lt hi)]
  case place =>
    intro id' i hi
    refine hv.place id' i ?_
    have hne : id ≠ id' := by
      rintro rfl
      rw [hnew] at hi
      cases hi
    rw [Declared.find?_opened, if_neg hne]
    exact hi
  case filled =>
    intro id' i hi hle
    rcases Nat.eq_or_lt_of_le hle with rfl | hlt
    · obtain rfl := hv.listed.owner_unique hi hplace
      exact ⟨_, policy, hentry, hgets, hchildren, hoptions, hredirect⟩
    · obtain ⟨e, policy', he, hrest⟩ := hv.filled id' i hi (by rw [Declared.size_opened]; exact hlt)
      exact ⟨e, policy', by rw [Declared.getElem?_closed, if_neg (Nat.ne_of_lt hlt), he], hrest⟩
  case linked =>
    intro i hle hlt
    rw [Declared.size_closed] at hlt
    rcases Nat.eq_or_lt_of_le hle with rfl | hlt'
    · exact Or.inl (List.mem_singleton_self _)
    · right
      have hbehind : (d.opened id (t.node id)).entries.size ≤ i := by
        rw [Declared.size_opened]
        exact hlt'
      rcases hv.linked i hbehind hlt with hi | ⟨p, hp, hpi, hpoints⟩
      · rw [htops] at hi
        exact ⟨d.entries.size, Nat.le_refl _, hlt', _, hentry, hi⟩
      · rw [Declared.size_opened] at hp
        exact ⟨p, by omega, hpi, points_closed hpoints (by omega)⟩

end Closed

/-! ### Visits -/

/-- Whether a computation in steps comes to a result as soon as there are steps enough for all nodes
that have no entry yet. -/
def Finishes (t : CommandTree L) {α : Type} (walk : Nat → StateM Declared α) (d : Declared)
    (result : α × Declared) : Prop :=
  ∀ steps, t.size < steps + d.entries.size → (walk steps).run d = result

theorem run_eq_pure {σ α : Type} {x : StateM σ α} {s : σ} {r : α × σ} (h : x.run s = r) :
    x.run s = (pure r : Id (α × σ)) := h

theorem finishes_placed {place : Nat} (hd : Listed t d) (h : d.places.find? id = some place)
    (above : ConsolePolicy) :
    t.Finishes (fun steps => t.declareNode source steps id above) d (place, d) := by
  intro steps hsteps
  have hle := hd.size_le
  obtain ⟨steps, rfl⟩ : ∃ n, steps = n + 1 := ⟨steps - 1, by omega⟩
  unfold declareNode
  simp [h]
  rfl

/-- A visit of a new node visits its branches one after another, and links its entry to theirs. -/
theorem finishes_fresh (h : d.places.find? id = none) (hd : Listed t (d.opened id (t.node id)))
    {d₁ d₂ d₃ : Declared} {children options : List Nat} {redirect : Option Nat}
    (hpolicy : policy = (t.node id).gates.console.resolve above)
    (h₁ : t.Finishes (fun steps => (t.usableUnder source policy (t.node id).children.values).mapM
      fun i => t.declareNode source steps i policy) (d.opened id (t.node id)) (children, d₁))
    (h₂ : t.Finishes (fun steps => (t.usableUnder source policy (t.node id).options.values).mapM
      fun i => t.declareNode source steps i policy) d₁ (options, d₂))
    (h₃ : t.Finishes (fun steps => (t.node id).forward.mapM
      fun f => t.declareNode source steps f.target policy) d₂ (redirect, d₃))
    (hsize₁ : (d.opened id (t.node id)).entries.size ≤ d₁.entries.size)
    (hsize₂ : d₁.entries.size ≤ d₂.entries.size) :
    t.Finishes (fun steps => t.declareNode source steps id above) d
      (d.entries.size, d₃.closed d.entries.size children options redirect) := by
  intro steps hsteps
  have hle := hd.size_le
  rw [Declared.size_opened] at hle hsize₁
  obtain ⟨steps, rfl⟩ : ∃ n, steps = n + 1 := ⟨steps - 1, by omega⟩
  have e₁ := run_eq_pure (h₁ steps (by rw [Declared.size_opened]; omega))
  have e₂ := run_eq_pure (h₂ steps (by omega))
  have e₃ := run_eq_pure (h₃ steps (by omega))
  unfold usableUnder Declared.opened at e₁
  unfold usableUnder at e₂
  subst hpolicy
  unfold declareNode
  simp [h, e₁, e₂, e₃]
  rfl

theorem explores_mapM {f : Nat → NodeId → StateM Declared Nat} {ids : List NodeId} {n : Nat}
    (hf : ∀ i ∈ ids, ∀ d, Listed t d → n ≤ d.entries.size → ∃ j d',
      t.Finishes (fun steps => f steps i) d (j, d') ∧ Explores t source [j] d d' ∧
        d'.places.find? i = some j)
    (hd : Listed t d) (hn : n ≤ d.entries.size) :
    ∃ js d', t.Finishes (fun steps => ids.mapM (f steps)) d (js, d') ∧
      Explores t source js d d' ∧
      List.Forall₂ (fun i j => d'.places.find? i = some j) ids js := by
  induction ids generalizing d with
  | nil => exact ⟨[], d, fun steps _ => by simp; rfl, .refl hd, .nil⟩
  | cons i ids ih =>
    obtain ⟨j, d₁, hfirst, hv, hj⟩ := hf i List.mem_cons_self d hd hn
    obtain ⟨js, d₂, hmore, hvs, hjs⟩ := ih (fun i' hi' => hf i' (List.mem_cons_of_mem _ hi'))
      hv.listed (Nat.le_trans hn hv.size)
    refine ⟨j :: js, d₂, fun steps hsteps => ?_, hv.trans hvs, .cons (hvs.place i j hj) hjs⟩
    have hsize := hv.size
    simp [run_eq_pure (hfirst steps hsteps), run_eq_pure (hmore steps (by omega))]
    rfl

/-- Whether the nodes that have no entry yet are few enough for every visit to come to an end. -/
def Visiting (t : CommandTree L) (source : L.Source) (few : Nat) : Prop :=
  ∀ (id : NodeId) (above : ConsolePolicy) (d : Declared), Listed t d → id < t.size →
    t.GetsTo source id ((t.node id).gates.console.resolve above) →
    t.size < few + d.entries.size →
    ∃ j d', t.Finishes (fun steps => t.declareNode source steps id above) d (j, d') ∧
      Explores t source [j] d d' ∧ d'.places.find? id = some j

theorem Visiting.branches {few : Nat} (h : t.Visiting source few)
    (hgets : t.GetsTo source id policy) {ids : List NodeId}
    (hids : ∀ i ∈ ids, i < t.size ∧
      i ∈ (t.node id).children.values ++ (t.node id).options.values)
    (hd : Listed t d) (hfew : t.size < few + d.entries.size) :
    ∃ js d', t.Finishes (fun steps => (t.usableUnder source policy ids).mapM
        fun i => t.declareNode source steps i policy) d (js, d') ∧
      Explores t source js d d' ∧
      List.Forall₂ (fun i j => d'.places.find? i = some j)
        (t.usableUnder source policy ids) js := by
  refine explores_mapM (fun i hi d₁ hd₁ hle => ?_) hd (Nat.le_refl _)
  obtain ⟨hmem, huse⟩ := mem_usableUnder.1 hi
  obtain ⟨hlt, hbranch⟩ := hids i hmem
  exact h i policy d₁ hd₁ hlt (.branch hgets hbranch huse) (by omega)

theorem Visiting.redirect {few : Nat} (h : t.Visiting source few)
    (hgets : t.GetsTo source id policy)
    (htarget : ∀ f, (t.node id).forward = some f → f.target < t.size)
    (hd : Listed t d) (hfew : t.size < few + d.entries.size) :
    ∃ redirect d', t.Finishes (fun steps => (t.node id).forward.mapM
        fun f => t.declareNode source steps f.target policy) d (redirect, d') ∧
      Explores t source redirect.toList d d' ∧
      List.Forall₂ (fun f j => d'.places.find? f.target = some j)
        (t.node id).forward.toList redirect.toList := by
  cases hforward : (t.node id).forward with
  | none => exact ⟨none, d, fun steps _ => rfl, .refl hd, .nil⟩
  | some f =>
    obtain ⟨j, d', hfinishes, hv, hj⟩ :=
      h f.target policy d hd (htarget f hforward) (.target hgets hforward) hfew
    refine ⟨some j, d', fun steps hsteps => ?_, hv, .cons hj .nil⟩
    simp [run_eq_pure (hfinishes steps hsteps)]
    rfl

/-- Visits come to an end in every tree that can be built, whatever its redirects are: a visit below
a new node has one more node with an entry behind it. -/
theorem Filed.visiting {layer : NodeId → Nat} (hf : Filed t layer) (ht : Tidied t) (few : Nat) :
    t.Visiting source few := by
  induction few with
  | zero =>
    intro id above d hd _ _ hfew
    have hle := hd.size_le
    omega
  | succ few ih =>
    intro id above d hd hid hgets hfew
    cases hplace : d.places.find? id with
    | some place =>
      refine ⟨place, d, finishes_placed hd hplace above, ?_, hplace⟩
      exact { Explores.refl hd with linked := fun i hle hlt => absurd hlt (Nat.not_lt.2 hle) }
    | none =>
      have hopened := listed_opened hd hplace hid
      have hsize : (d.opened id (t.node id)).entries.size = d.entries.size + 1 :=
        Declared.size_opened _
      have hchild : ∀ i ∈ (t.node id).children.values, i < t.size ∧
          i ∈ (t.node id).children.values ++ (t.node id).options.values := by
        intro i hi
        obtain ⟨e, he, rfl⟩ := List.mem_map.1 hi
        exact ⟨((hf id).child e he).1, List.mem_append_left _ hi⟩
      have hoption : ∀ i ∈ (t.node id).options.values, i < t.size ∧
          i ∈ (t.node id).children.values ++ (t.node id).options.values := by
        intro i hi
        obtain ⟨e, he, rfl⟩ := List.mem_map.1 hi
        exact ⟨((hf id).option e he).1, List.mem_append_right _ hi⟩
      obtain ⟨children, d₁, hrun₁, hv₁, hjs₁⟩ := ih.branches hgets hchild hopened (by omega)
      have hsize₁ := hv₁.size
      obtain ⟨options, d₂, hrun₂, hv₂, hjs₂⟩ := ih.branches hgets hoption hv₁.listed (by omega)
      have hsize₂ := hv₂.size
      obtain ⟨redirect, d₃, hrun₃, hv₃, hjs₃⟩ :=
        ih.redirect hgets (ht id).forward hv₂.listed (by omega)
      have hexplores := explores_closed hplace ((hv₁.trans hv₂).trans hv₃) hgets
        (hjs₁.imp fun c j hc => (hv₂.trans hv₃).place c j hc)
        (hjs₂.imp fun c j hc => hv₃.place c j hc) hjs₃ rfl
      refine ⟨_, _, finishes_fresh hplace hopened rfl hrun₁ hrun₂ hrun₃ hsize₁ hsize₂,
        hexplores, ?_⟩
      exact ((hv₁.trans hv₂).trans hv₃).place id _ (by rw [Declared.find?_opened, if_pos rfl])

end CommandTree

end CommandConsole
