import CommandConsole.Proofs.Transport

/-!
# Lines in a tree under other numbers

Where one tree is like another but for the numbers of its nodes, every line is matched alike in
both, with the same readers, spans, values, commands and errors; only the nodes go by other numbers.
-/

namespace CommandConsole

variable {L : Language} {h : NodeId → NodeId}

/-! ### Parsed lines under other numbers -/

def MatchedNode.rename (h : NodeId → NodeId) (n : MatchedNode) : MatchedNode :=
  { n with node := h n.node }

def MatchedOption.rename (h : NodeId → NodeId) (o : MatchedOption) : MatchedOption :=
  { o with option := h o.option, owner := h o.owner }

def Context.rename (h : NodeId → NodeId) (c : Context L) : Context L :=
  { c with
    root := h c.root
    nodes := c.nodes.map (·.rename h)
    options := c.options.map (·.rename h)
    forward := c.forward.map (·.rename h) }

def Chain.rename (h : NodeId → NodeId) (c : Chain L) : Chain L :=
  ⟨c.outer.rename h, c.redirected.map (·.rename h)⟩

def Outcome.rename (h : NodeId → NodeId) (o : Outcome L) : Outcome L :=
  ⟨o.chain.rename h, o.reader, ⟨o.failures.entries.map fun e => (h e.1, e.2)⟩⟩

def Parsed.rename (h : NodeId → NodeId) (p : Parsed L) : Parsed L :=
  { p with outcome := p.outcome.rename h }

/-! ### Renaming as carrying over -/

def Transport.renaming (h : NodeId → NodeId) : Transport where
  node := h
  offset i := i
  reader r := r
  error e := e

theorem Context.carry_renaming (h : NodeId → NodeId) (c : Context L) :
    c.carry (.renaming h) = c.rename h := by
  have hcaptured : c.captured.map (·.carry (.renaming h)) = c.captured :=
    Keyed.map_eq_self fun _ _ => rfl
  unfold Context.carry
  rw [hcaptured]
  rfl

theorem Outcome.carry_renaming (h : NodeId → NodeId) (o : Outcome L) :
    o.carry (.renaming h) = o.rename h := by
  have hcontext : ∀ c : Context L, c.carry (.renaming h) = c.rename h :=
    Context.carry_renaming h
  have hfailure : ∀ f : BranchFailure, f.carry (.renaming h) = f := by
    intro f
    cases f <;> rfl
  unfold Outcome.carry Outcome.rename Chain.carry Chain.rename
  simp only [hcontext, hfailure]
  rfl

namespace Alignment

/-- Runs over the same line in two trees, with other numbers for the nodes. -/
def renumbered (h : NodeId → NodeId) (hh : Function.Injective h) : Alignment L where
  reader := Eq
  offset := Eq
  error := Eq
  node n n' := n' = h n
  rest_eq := by
    rintro r _ rfl
    rfl
  pass := by
    rintro r _ rfl n
    rfl
  cursor := by
    rintro r _ rfl
    rfl
  le_iff := by
    rintro i _ j _ rfl rfl
    rfl
  pinned := by
    rintro r _ rfl f
    rfl
  scan := by
    rintro r _ rfl type
    cases (Scan.start (L.scan type) r).1 with
    | error e => exact .error rfl
    | ok v => exact .ok ⟨rfl, rfl⟩
  node_iff := by
    rintro a _ b _ rfl rfl
    exact hh.eq_iff.symm

variable {hh : Function.Injective h}

theorem carriedBy_renaming : (renumbered (L := L) h hh).CarriedBy (.renaming h) where
  node hn := hn
  offset hi := Eq.symm hi
  reader hr := Eq.symm hr
  error he := Eq.symm he

theorem Outcomes.eq_rename {p p' : Outcome L} (hp : (renumbered h hh).Outcomes (plain _) p p') :
    p' = p.rename h := by
  rw [hp.eq_carry carriedBy_renaming, Outcome.carry_renaming]

end Alignment

/-! ### Trees under other numbers -/

/-- Whether a node is another one with other numbers for its branches, as far as matching asks. -/
structure Node.IsRenamed (h : NodeId → NodeId) (n n' : Node L) : Prop where
  kind : n'.kind = n.kind
  gates : n'.gates = n.gates
  command : n'.command = n.command
  forward : n'.forward = n.forward.map (·.rename h)
  options : ∀ name, n'.options.find? name = (n.options.find? name).map h
  literals : ∀ name, n'.literals.find? name = (n.literals.find? name).map h
  arguments : n'.arguments = n.arguments.map h

theorem Node.isRenamed_rename (h : NodeId → NodeId) (n : Node L) : n.IsRenamed h (n.rename h) where
  kind := rfl
  gates := rfl
  command := rfl
  forward := rfl
  options _ := Keyed.find?_map ..
  literals _ := Keyed.find?_map ..
  arguments := rfl

namespace CommandTree

variable {t t' : CommandTree L}

theorem trees_renumbered (hh : Function.Injective h)
    (ht : ∀ id, (t.node id).IsRenamed h (t'.node (h id))) :
    (Alignment.renumbered h hh).Trees t t' where
  kind := by
    rintro n _ rfl
    exact (ht n).kind
  gates := by
    rintro n _ rfl
    exact (ht n).gates
  command := by
    rintro n _ rfl
    exact (ht n).command
  forward := by
    rintro n _ rfl
    rw [(ht n).forward]
    exact optionRel_map (fun f => ⟨rfl, rfl, rfl⟩) _
  twins := by
    rintro n _ rfl
    refine ⟨fun name => ?_, fun name => ?_, ?_⟩
    · rw [(ht n).options]
      exact optionRel_map (R := fun n n' => n' = h n) (fun _ => rfl) _
    · rw [(ht n).literals]
      exact optionRel_map (R := fun n n' => n' = h n) (fun _ => rfl) _
    · rw [(ht n).arguments, List.forall₂_map_right_iff]
      exact List.forall₂_same.2 fun _ _ => rfl

/-- In a tree under other numbers, every line is parsed alike, under these numbers. -/
theorem outcomes_parse (hh : Function.Injective h)
    (ht : ∀ id, (t.node id).IsRenamed h (t'.node (h id))) (hroot : h root = root) (line : String)
    (source : L.Source) :
    (Alignment.renumbered h hh).Outcomes (Alignment.plain _) (t.parse line source).outcome
      (t'.parse line source).outcome := by
  have htrees := trees_renumbered hh ht
  exact Alignment.follow htrees _ htrees.twins hroot.symm
    (.startAt hroot.symm rfl .inherited) rfl (Nat.lt_succ_self _)

theorem parse_rename (hh : Function.Injective h)
    (ht : ∀ id, (t.node id).IsRenamed h (t'.node (h id))) (hroot : h root = root) (line : String)
    (source : L.Source) : t'.parse line source = (t.parse line source).rename h := by
  have houtcome := (outcomes_parse hh ht hroot line source).eq_rename
  unfold Parsed.rename
  rw [← houtcome]
  rfl

end CommandTree

end CommandConsole
