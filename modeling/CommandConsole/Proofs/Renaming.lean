import CommandConsole.Proofs.Filing

/-!
# Nodes under other numbers

Renaming gives other numbers to the nodes that a node refers to, and changes nothing else in it.
What building does to a single node goes along with renaming.
-/

namespace CommandConsole

variable {L : Language}

/-! ### Keyed lists -/

namespace Keyed

variable {κ α β γ : Type}

def map (g : α → β) (m : Keyed κ α) : Keyed κ β := ⟨m.entries.map fun e => (e.1, g e.2)⟩

theorem map_map (g : α → β) (g' : β → γ) (m : Keyed κ α) :
    (m.map g).map g' = m.map (g' ∘ g) := by
  unfold map
  rw [List.map_map]
  rfl

theorem map_congr {g g' : α → β} {m : Keyed κ α} (h : ∀ e ∈ m.entries, g e.2 = g' e.2) :
    m.map g = m.map g' := by
  unfold map
  rw [List.map_congr_left fun e he => by rw [h e he]]

theorem map_eq_self {g : α → α} {m : Keyed κ α} (h : ∀ e ∈ m.entries, g e.2 = e.2) :
    m.map g = m := by
  unfold map
  rw [List.map_congr_left fun e he => by rw [h e he], List.map_id']

theorem isEmpty_map (g : α → β) (m : Keyed κ α) :
    (m.map g).entries.isEmpty = m.entries.isEmpty := List.isEmpty_map

variable [DecidableEq κ]

theorem find?_map (g : α → β) (m : Keyed κ α) (k : κ) :
    (m.map g).find? k = (m.find? k).map g := by
  obtain ⟨es⟩ := m
  unfold find? map
  dsimp only
  induction es with
  | nil => rfl
  | cons e es ih =>
    rw [List.map_cons]
    unfold lookup
    split
    · rfl
    · exact ih

theorem map_insert (g : α → β) (m : Keyed κ α) (k : κ) (v : α) :
    (m.insert k v).map g = (m.map g).insert k (g v) := by
  obtain ⟨es⟩ := m
  unfold insert map
  dsimp only
  congr 1
  induction es with
  | nil => rfl
  | cons e es ih =>
    rw [List.map_cons]
    unfold put
    split
    · rfl
    · rw [List.map_cons, ih]

theorem map_extend (g : α → β) (m other : Keyed κ α) :
    (m.extend other).map g = (m.map g).extend (other.map g) := by
  obtain ⟨es⟩ := other
  unfold extend
  show _ = List.foldl _ (m.map g) (es.map fun e => (e.1, g e.2))
  induction es generalizing m with
  | nil => rfl
  | cons e es ih =>
    rw [List.foldl_cons, List.map_cons, List.foldl_cons, ← map_insert]
    exact ih _

end Keyed

/-! ### Nodes -/

/-- Whether all nodes that a node refers to satisfy a condition. -/
structure Node.RefersTo (P : NodeId → Prop) (n : Node L) : Prop where
  child : ∀ e ∈ n.children.entries, P e.2
  literal : ∀ e ∈ n.literals.entries, P e.2
  argument : ∀ c ∈ n.arguments, P c
  option : ∀ e ∈ n.options.entries, P e.2
  forward : ∀ f, n.forward = some f → P f.target

theorem Node.RefersTo.mono {P Q : NodeId → Prop} {n : Node L} (h : n.RefersTo P)
    (hPQ : ∀ id, P id → Q id) : n.RefersTo Q where
  child e he := hPQ _ (h.child e he)
  literal e he := hPQ _ (h.literal e he)
  argument c hc := hPQ c (h.argument c hc)
  option e he := hPQ _ (h.option e he)
  forward f hf := hPQ _ (h.forward f hf)

theorem CommandTree.Grown.refersTo {t : CommandTree L} {layer : NodeId → Nat} (h : Grown t layer)
    (id : NodeId) : (t.node id).RefersTo (· < t.size) where
  child e he := ((h.filed id).child e he).1
  literal e he := ((h.filed id).literal e he).1
  argument c hc := ((h.filed id).argument c hc).1
  option e he := ((h.filed id).option e he).1
  forward := (h.tidied id).forward

def Forward.rename (h : NodeId → NodeId) (f : Forward L) : Forward L :=
  { f with target := h f.target }

def Node.rename (h : NodeId → NodeId) (n : Node L) : Node L :=
  { n with
    children := n.children.map h
    literals := n.literals.map h
    arguments := n.arguments.map h
    options := n.options.map h
    forward := n.forward.map (·.rename h) }

namespace Node

variable {h h' : NodeId → NodeId} {n : Node L}

theorem rename_rename (h h' : NodeId → NodeId) (n : Node L) :
    (n.rename h).rename h' = n.rename (h' ∘ h) := by
  unfold rename
  simp only [Keyed.map_map, List.map_map, Option.map_map]
  rfl

theorem rename_eq_self (hn : n.RefersTo fun id => h id = id) : n.rename h = n := by
  obtain ⟨kind, children, literals, arguments, options, command, gates, forward⟩ := n
  have harguments : arguments.map h = arguments := by
    rw [List.map_congr_left hn.argument, List.map_id']
  have hforward : forward.map (·.rename h) = forward := by
    cases forward with
    | none => rfl
    | some f =>
      unfold Forward.rename
      rw [Option.map_some, show h f.target = f.target from hn.forward f rfl]
  unfold rename
  dsimp only
  rw [Keyed.map_eq_self hn.child, Keyed.map_eq_self hn.literal, harguments,
    Keyed.map_eq_self hn.option, hforward]

theorem rename_congr (hn : n.RefersTo fun id => h id = h' id) : n.rename h = n.rename h' := by
  obtain ⟨kind, children, literals, arguments, options, command, gates, forward⟩ := n
  have hforward : forward.map (·.rename h) = forward.map (·.rename h') := by
    cases forward with
    | none => rfl
    | some f =>
      unfold Forward.rename
      rw [Option.map_some, Option.map_some, show h f.target = h' f.target from hn.forward f rfl]
  unfold rename
  dsimp only
  rw [Keyed.map_congr hn.child, Keyed.map_congr hn.literal, List.map_congr_left hn.argument,
    Keyed.map_congr hn.option, hforward]

theorem child?_rename (h : NodeId → NodeId) (n : Node L) (name : String) :
    (n.rename h).child? name = (n.child? name).map h := Keyed.find?_map ..

/-! ### Building -/

theorem rename_attach (h : NodeId → NodeId) (n : Node L) (name : String) (child : NodeId)
    (isLiteral : Bool) :
    (n.attach name child isLiteral).rename h = (n.rename h).attach name (h child) isLiteral := by
  unfold attach
  split
  · unfold rename
    dsimp only
    rw [Keyed.map_insert, Keyed.map_insert]
  · unfold rename
    dsimp only
    rw [Keyed.map_insert, List.map_append]
    rfl

theorem rename_giveOption (h : NodeId → NodeId) (n : Node L) (name : String) (option : NodeId) :
    (n.giveOption name option).rename h = (n.rename h).giveOption name (h option) := by
  unfold giveOption rename
  dsimp only
  rw [Keyed.map_insert]

theorem rename_shareBranches (h : NodeId → NodeId) (n other : Node L) :
    (n.shareBranches other).rename h = (n.rename h).shareBranches (other.rename h) := by
  unfold shareBranches rename
  dsimp only
  rw [Keyed.map_extend, Keyed.map_extend, Keyed.map_extend, List.map_append]

end Node

end CommandConsole
