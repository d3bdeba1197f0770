import CommandConsole.Proofs.Lockstep

/-!
# Gates are passed

Every node and every option that a line was matched with admits the source. The policy that decides
about the console is threaded from node to node, through options, and across redirects. What is run
in the end is the command of the last node, so nothing is run behind a gate that is closed.
-/

namespace CommandConsole

variable {L : Language} {W : Type}

def Context.standsAt (c : Context L) (before : List MatchedNode) : NodeId :=
  (before.getLast?.map (·.node)).getD c.root

def Context.places (c : Context L) : List NodeId := c.root :: c.nodes.map (·.node)

theorem Context.places_enter (c : Context L) (id : NodeId) (n : Node L) (span : Span)
    (policy : ConsolePolicy) : (c.enter id n span policy).places = c.places ++ [id] := by
  simp [places, enter]

namespace CommandTree

/-- The policy in effect behind some nodes, each resolved against the one before it. -/
def policyBehind (t : CommandTree L) (above : ConsolePolicy) (ms : List MatchedNode) :
    ConsolePolicy :=
  ms.foldl (fun policy m => (t.node m.node).gates.console.resolve policy) above

/-- Whether all that a context was matched with admits the source, from a policy on. -/
structure Cleared (t : CommandTree L) (source : L.Source) (above : ConsolePolicy)
    (c : Context L) : Prop where
  start : c.startConsole = above
  /-- Every node does under the policy behind those before it. -/
  node : ∀ before m after, c.nodes = before ++ m :: after →
    t.Admits source m.node (t.policyBehind above before) ∧
      m.console = t.policyBehind above (before ++ [m])
  /-- Every option does under the policy behind the nodes down to its owner. -/
  option : ∀ o ∈ c.options, ∃ before after, c.nodes = before ++ after ∧
    c.standsAt before = o.owner ∧ t.Admits source o.option (t.policyBehind above before)
  /-- No node is matched twice, so an owner stands in one place. -/
  once : c.places.Nodup
  command : c.command = c.nodes.getLast?.bind fun m => (t.node m.node).command

/-- Whether all contexts are cleared, each from the policy behind those before it. -/
def AllCleared (t : CommandTree L) (source : L.Source) (contexts : List (Context L)) : Prop :=
  ∀ before c after, contexts = before ++ c :: after →
    t.Cleared source (t.policyBehind .inherited (before.flatMap (·.nodes))) c

variable {t : CommandTree L} {source : L.Source} {p q : Position L} {layer : NodeId → Nat}

theorem policyBehind_append (above : ConsolePolicy) (ms ms' : List MatchedNode) :
    t.policyBehind above (ms ++ ms') = t.policyBehind (t.policyBehind above ms) ms' :=
  List.foldl_append ..

theorem policyBehind_snoc (above : ConsolePolicy) (ms : List MatchedNode) (m : MatchedNode) :
    t.policyBehind above (ms ++ [m]) =
      (t.node m.node).gates.console.resolve (t.policyBehind above ms) :=
  policyBehind_append above ms [m]

theorem allCleared_snoc {contexts : List (Context L)} {c : Context L} :
    t.AllCleared source (contexts ++ [c]) ↔ t.AllCleared source contexts ∧
      t.Cleared source (t.policyBehind .inherited (contexts.flatMap (·.nodes))) c := by
  constructor
  · intro h
    refine ⟨fun before d after hd => ?_, h contexts c [] rfl⟩
    exact h before d (after ++ [c]) (by rw [hd]; simp)
  · rintro ⟨h, hc⟩ before d after hd
    rcases List.eq_nil_or_concat after with rfl | ⟨after', last, rfl⟩
    · obtain ⟨rfl, hlast⟩ := List.append_inj' hd rfl
      obtain ⟨rfl, -⟩ := List.cons.inj hlast
      exact hc
    · have hsplit : contexts ++ [c] = (before ++ d :: after') ++ [last] := by
        rw [hd]
        simp
      exact h before d after' (List.append_inj' hsplit rfl).1

/-! ### Layers of a context -/

/-- Whether the nodes of a context lie in layers that go down to where matching stands. -/
structure Descends (layer : NodeId → Nat) (c : Context L) (node : NodeId) : Prop where
  stands : c.standsAt c.nodes = node
  strict : c.places.Pairwise fun a b => layer a < layer b
  above : ∀ id ∈ c.places, layer id ≤ layer node

theorem descends_startAt (root : NodeId) (offset : Nat) (policy : ConsolePolicy) :
    Descends layer (Context.startAt (L := L) root offset policy) root where
  stands := rfl
  strict := List.pairwise_singleton ..
  above id hid := by
    obtain rfl : id = root := List.mem_singleton.1 hid
    exact Nat.le_refl _

theorem Descends.enter {c : Context L} {node child : NodeId} (h : Descends layer c node)
    (hchild : layer child = layer node + 1) (n : Node L) (span : Span) (policy : ConsolePolicy) :
    Descends layer (c.enter child n span policy) child where
  stands := by simp [Context.standsAt, Context.enter]
  strict := by
    rw [Context.places_enter, List.pairwise_append]
    refine ⟨h.strict, List.pairwise_singleton .., fun a ha b hb => ?_⟩
    obtain rfl := List.mem_singleton.1 hb
    have hle := h.above a ha
    omega
  above id hid := by
    rw [Context.places_enter, List.mem_append, List.mem_singleton] at hid
    rcases hid with hid | rfl
    · have hle := h.above id hid
      omega
    · exact Nat.le_refl _

/-! ### Contexts that are cleared -/

theorem cleared_startAt (root : NodeId) (offset : Nat) (policy : ConsolePolicy) :
    t.Cleared source policy (Context.startAt root offset policy) where
  start := rfl
  node before m after h := by
    have hlen := congrArg List.length h
    simp [Context.startAt] at hlen
  option o ho := by cases ho
  once := List.nodup_cons.2 ⟨List.not_mem_nil, List.nodup_nil⟩
  command := rfl

theorem Cleared.takeOption {above : ConsolePolicy} {c : Context L}
    (h : t.Cleared source above c) {o : MatchedOption} (hstands : c.standsAt c.nodes = o.owner)
    (hadmits : t.Admits source o.option (t.policyBehind above c.nodes)) (value : Value) :
    t.Cleared source above (c.takeOption o value) where
  start := h.start
  node := h.node
  option o' ho' := by
    rcases List.mem_append.1 ho' with ho' | ho'
    · exact h.option o' ho'
    · obtain rfl := List.mem_singleton.1 ho'
      exact ⟨c.nodes, [], (List.append_nil _).symm, hstands, hadmits⟩
  once := h.once
  command := h.command

theorem Cleared.enter {above : ConsolePolicy} {c : Context L} (h : t.Cleared source above c)
    {child : NodeId} (hadmits : t.Admits source child (t.policyBehind above c.nodes))
    (hfresh : child ∉ c.places) (span : Span) :
    t.Cleared source above (c.enter child (t.node child) span
      ((t.node child).gates.console.resolve (t.policyBehind above c.nodes))) where
  start := h.start
  node before m after hsplit := by
    have hnodes : c.nodes ++ [⟨child, span, (t.node child).gates.console.resolve
        (t.policyBehind above c.nodes)⟩] = before ++ m :: after := hsplit
    rcases List.eq_nil_or_concat after with rfl | ⟨after', last, rfl⟩
    · obtain ⟨rfl, hlast⟩ := List.append_inj' hnodes rfl
      obtain ⟨rfl, -⟩ := List.cons.inj hlast
      refine ⟨hadmits, ?_⟩
      rw [policyBehind_snoc]
    · rw [List.concat_eq_append, ← List.cons_append, ← List.append_assoc] at hnodes
      exact h.node before m after' (List.append_inj' hnodes rfl).1
  option o ho := by
    obtain ⟨before, after, hsplit, hstands, ha⟩ := h.option o ho
    refine ⟨before, after ++ [⟨child, span, (t.node child).gates.console.resolve
      (t.policyBehind above c.nodes)⟩], ?_, hstands, ha⟩
    rw [← List.append_assoc, ← hsplit]
    rfl
  once := by
    rw [Context.places_enter]
    refine List.nodup_append.2 ⟨h.once, List.nodup_cons.2 ⟨List.not_mem_nil, List.nodup_nil⟩, ?_⟩
    intro a ha b hb heq
    obtain rfl := List.mem_singleton.1 hb
    exact hfresh (heq ▸ ha)
  command := by simp [Context.enter]

/-! ### Steps -/

/-- Whether all that a position was matched with is cleared, in layers that go down, and the policy
at hand is the one behind all nodes. -/
structure Guarded (t : CommandTree L) (source : L.Source) (layer : NodeId → Nat)
    (p : Position L) : Prop where
  cleared : t.AllCleared source (p.closed ++ [p.context])
  descends : Descends layer p.context p.node
  policy : p.context.console =
    t.policyBehind .inherited ((p.closed ++ [p.context]).flatMap (·.nodes))

theorem guarded_start (r : Reader) : t.Guarded source layer (Position.start r) where
  cleared := by
    refine allCleared_snoc.2 ⟨fun before c after h => ?_, cleared_startAt _ _ _⟩
    have hlen := congrArg List.length h
    simp [Position.start] at hlen
  descends := descends_startAt _ _ _
  policy := rfl

theorem Guarded.policy_eq (h : t.Guarded source layer p) : p.context.console =
    t.policyBehind (t.policyBehind .inherited (p.closed.flatMap (·.nodes))) p.context.nodes := by
  rw [h.policy, List.flatMap_append, policyBehind_append, List.flatMap_singleton]

theorem Guarded.gives (h : t.Guarded source layer p) {name : String} {option : NodeId}
    (hg : Gives t source p name option q) : t.Guarded source layer q := by
  obtain ⟨-, ha, -⟩ := hg
  obtain ⟨hclosed, hlast⟩ := allCleared_snoc.1 h.cleared
  rw [h.policy_eq] at ha
  refine ⟨allCleared_snoc.2 ⟨hclosed, hlast.takeOption h.descends.stands ha _⟩, ?_, ?_⟩
  · exact ⟨h.descends.stands, h.descends.strict, h.descends.above⟩
  · rw [List.flatMap_append]
    show p.context.console = _
    rw [h.policy, List.flatMap_append]
    rfl

theorem Reads.capture_eq {child : NodeId} {taken : Context L} {behind : Reader}
    (h : Reads t p child taken behind) :
    ∃ captured, taken = { p.context with captured } := by
  cases h with
  | literal _ _ => exact ⟨_, rfl⟩
  | argument _ _ _ => exact ⟨_, rfl⟩

theorem Guarded.enters (h : t.Guarded source layer p) {child : NodeId}
    (hchild : layer child = layer p.node + 1) (he : t.Enters source p child q) :
    t.Guarded source layer q := by
  obtain ⟨taken, behind, hr, ha, rfl⟩ := he
  obtain ⟨captured, rfl⟩ := hr.capture_eq
  obtain ⟨hclosed, hlast⟩ := allCleared_snoc.1 h.cleared
  have hd : Descends layer ({ p.context with captured } : Context L) p.node :=
    ⟨h.descends.stands, h.descends.strict, h.descends.above⟩
  have hc : t.Cleared source (t.policyBehind .inherited (p.closed.flatMap (·.nodes)))
      ({ p.context with captured } : Context L) :=
    ⟨hlast.start, hlast.node, hlast.option, hlast.once, hlast.command⟩
  rw [h.policy_eq] at ha
  have hfresh : child ∉ ({ p.context with captured } : Context L).places := by
    intro hmem
    have hle := hd.above child hmem
    omega
  -- the context that has entered the child
  have hentered := hc.enter ha hfresh ⟨p.reader.cursor, behind.cursor⟩
  rw [← h.policy_eq] at hentered
  have hpolicy : (t.node child).gates.console.resolve p.context.console =
      t.policyBehind .inherited ((p.closed ++ [({ p.context with captured } : Context L).enter child
        (t.node child) ⟨p.reader.cursor, behind.cursor⟩
        ((t.node child).gates.console.resolve p.context.console)]).flatMap (·.nodes)) := by
    rw [List.flatMap_append, List.flatMap_singleton, policyBehind_append]
    show _ = t.policyBehind _ (p.context.nodes ++ [_])
    rw [policyBehind_snoc, ← h.policy_eq]
  rcases beyond_cases (t := t) p child { p.context with captured } behind with
    hq | ⟨forward, -, -, hq⟩
  · rw [hq]
    exact ⟨allCleared_snoc.2 ⟨hclosed, hentered⟩, hd.enter hchild _ _ _, hpolicy⟩
  · rw [hq]
    refine ⟨allCleared_snoc.2 ⟨allCleared_snoc.2 ⟨hclosed, hentered⟩, ?_⟩,
      descends_startAt _ _ _, ?_⟩
    · rw [← hpolicy]
      exact cleared_startAt _ _ _
    · rw [List.flatMap_append, policyBehind_append, ← hpolicy]
      rfl

theorem Guarded.step (hf : Filed t layer) (h : t.Guarded source layer p) {i : Nat}
    (hs : Step t source p i q) : t.Guarded source layer q := by
  rcases hs.gives_or_enters with ⟨name, option, -, hg⟩ | ⟨child, hchild, he⟩
  · exact h.gives hg
  · refine h.enters ?_ he
    rcases hchild with hn | hmem
    · exact ((hf p.node).literal _ (Keyed.mem_entries_of_find? hn)).2.1
    · exact ((hf p.node).argument _ hmem).2.1

end CommandTree

/-! ### What is run -/

/-- Whether a computation keeps a property of the world, also when it fails. -/
def Preserves (P : W → Prop) {α : Type} (x : Effect W α) : Prop :=
  ∀ w, P w → P (x.run.run w).2

theorem Preserves.lockstep {P : W → Prop} {α : Type} {x : Effect W α} (h : Preserves P x)
    {Q : α → Prop} (hQ : ∀ v, Q v) : Lockstep (fun w w' => w = w' ∧ P w) Q x x := by
  rintro w _ ⟨rfl, hw⟩
  exact ⟨_, _, _, rfl, rfl, ⟨rfl, h w hw⟩, fun v _ => hQ v⟩

theorem Lockstep.preserves {P : W → Prop} {α : Type} {x : Effect W α} {Q : α → Prop}
    (h : Lockstep (fun w w' => w = w' ∧ P w) Q x x) : Preserves P x := by
  intro w hw
  obtain ⟨result, after, after', hrun, -, ⟨-, hafter⟩, -⟩ := h w w ⟨rfl, hw⟩
  rw [hrun]
  exact hafter

namespace Interpreter

/-- The interpreter that also records the commands that it runs. -/
def recording (I : Interpreter L W) : Interpreter L (W × List (L.Action × Invocation L)) where
  act action i := ExceptT.mk fun (w, runs) =>
    let (result, w) := (I.act action i).run.run w
    (result, (w, runs ++ [(action, i)]))
  modify modifier i := ExceptT.mk fun (w, runs) =>
    let (result, w) := (I.modify modifier i).run.run w
    (result, (w, runs))

theorem run_recording_act (I : Interpreter L W) (action : L.Action) (i : Invocation L) (w : W)
    (runs : List (L.Action × Invocation L)) :
    (I.recording.act action i).run.run (w, runs) = (((I.act action i).run.run w).1,
      ((I.act action i).run.run w).2, runs ++ [(action, i)]) :=
  rfl

theorem run_recording_modify (I : Interpreter L W) (modifier : L.Modifier) (i : Invocation L)
    (w : W) (runs : List (L.Action × Invocation L)) :
    (I.recording.modify modifier i).run.run (w, runs) = (((I.modify modifier i).run.run w).1,
      ((I.modify modifier i).run.run w).2, runs) :=
  rfl

/-- The commands that are run for a parsed line, in order, each with its invocation. -/
def commandsRun (I : Interpreter L W) (p : Parsed L) (w : W) : List (L.Action × Invocation L) :=
  ((I.recording.execute p).run.run (w, [])).2.2

end Interpreter

namespace CommandTree

variable {t : CommandTree L} {source : L.Source} {layer : NodeId → Nat}

/-- What modifiers keep, and the command that a line ends with, is kept by running the line. -/
theorem Filed.execute_preserves (hf : Filed t layer) (r : Reader) (I : Interpreter L W)
    {P : W → Prop} (hmodify : ∀ modifier i, Preserves P (I.modify modifier i))
    (hact : ∀ action i, (t.parseFrom r source).chain.last.command = some action →
      i.context = (t.parseFrom r source).chain.last → Preserves P (I.act action i)) :
    Preserves P (I.execute (t.parseFrom r source)) := by
  have hsources : ∀ made : List L.Source, ∀ s ∈ made, True := fun _ _ _ => trivial
  refine (hf.execute_lockstep (A := fun _ => True) r trivial (fun modifier i _ => ?_) ?_).preserves
  · exact (hmodify modifier i).lockstep hsources
  · exact fun action i hcommand hcontext _ => (hact action i hcommand hcontext).lockstep
      fun _ => trivial

theorem Filed.commandsRun_eq (hf : Filed t layer) (r : Reader) (I : Interpreter L W) (w : W) :
    ∀ run ∈ I.commandsRun (t.parseFrom r source) w,
      (t.parseFrom r source).chain.last.command = some run.1 ∧
        run.2.context = (t.parseFrom r source).chain.last := by
  let P : W × List (L.Action × Invocation L) → Prop := fun s => ∀ run ∈ s.2,
    (t.parseFrom r source).chain.last.command = some run.1 ∧
      run.2.context = (t.parseFrom r source).chain.last
  have hpreserves : Preserves P (I.recording.execute (t.parseFrom r source)) := by
    refine hf.execute_preserves r I.recording (fun modifier i s hs => hs) ?_
    intro action i hcommand hcontext s hs run hrun
    rcases List.mem_append.1 hrun with hrun | hrun
    · exact hs run hrun
    · obtain rfl := List.mem_singleton.1 hrun
      exact ⟨hcommand, hcontext⟩
  exact hpreserves (w, []) (fun run hrun => by cases hrun)

/-- All that a line was matched with is cleared for its source, and what is run for it is the
command of its last node. -/
theorem parse_cleared (ht : t.Reachable) (r : Reader) (source : L.Source) :
    let p := t.parseFrom r source
    t.AllCleared source p.chain.toList ∧
      ∀ (W : Type) (I : Interpreter L W) (w : W), ∀ run ∈ I.commandsRun p w,
        run.2.context = p.chain.last ∧ ∃ m, p.chain.last.nodes.getLast? = some m ∧
          (t.node m.node).command = some run.1 := by
  intro p
  obtain ⟨layer, hg⟩ := ht.grown
  obtain ⟨q, hq, hchain, -⟩ := hg.filed.parseFrom_invariant (P := t.Guarded source layer) source r
    (guarded_start _) (fun _ _ _ h hs => h.step hg.filed hs)
  have hcleared : t.AllCleared source p.chain.toList := by
    rw [show p.chain = q.chain from hchain, Position.toList_chain]
    exact hq.cleared
  refine ⟨hcleared, fun W I w run hrun => ?_⟩
  obtain ⟨hcommand, hcontext⟩ := hg.filed.commandsRun_eq r I w run hrun
  refine ⟨hcontext, ?_⟩
  have hlast := hcleared p.chain.toList.dropLast p.chain.last []
    (by rw [← Chain.getLast_toList, List.dropLast_concat_getLast])
  have hbind := hlast.command
  rw [show p.chain.last.command = some run.1 from hcommand] at hbind
  obtain ⟨m, hm, hrun⟩ := Option.bind_eq_some_iff.1 hbind.symm
  exact ⟨m, hm, hrun⟩

theorem parse_cleared_console :
    let p := commandTree.parseFrom (.ofString "execute run stop") (.console "Server")
    AllCleared commandTree (.console "Server") p.chain.toList ∧
      ∀ (W : Type) (I : Interpreter console W) (w : W), ∀ run ∈ I.commandsRun p w,
        run.2.context = p.chain.last ∧ ∃ m, p.chain.last.nodes.getLast? = some m ∧
          (commandTree.node m.node).command = some run.1 :=
  parse_cleared reachable_commandTree _ _

end CommandTree

end CommandConsole
