import CommandConsole.Proofs.Alignment
import CommandConsole.Proofs.Renaming

/-!
# Parsed lines carried over

Where functions say what corresponds in two runs, the second run comes to what the first one comes
to, carried over: the nodes, offsets, readers and errors in it are replaced, and all else is kept.
-/

namespace CommandConsole

variable {L : Language}

/-- What takes the place of nodes, offsets, readers and errors. -/
structure Transport where
  node : NodeId → NodeId
  offset : Nat → Nat
  reader : Reader → Reader
  error : LineError → LineError

/-! ### Parts of a parsed line -/

section

variable (T : Transport)

def Span.carry (s : Span) : Span := ⟨T.offset s.start, T.offset s.stop⟩

def Captured.carry (c : Captured) : Captured := ⟨c.span.carry T, c.value⟩

def MatchedNode.carry (n : MatchedNode) : MatchedNode :=
  ⟨T.node n.node, n.span.carry T, n.console⟩

def MatchedOption.carry (o : MatchedOption) : MatchedOption :=
  ⟨o.name, T.node o.option, T.node o.owner, o.nameSpan.carry T, o.valueSpan.carry T⟩

def Context.carry (c : Context L) : Context L where
  root := T.node c.root
  captured := c.captured.map (·.carry T)
  nodes := c.nodes.map (·.carry T)
  options := c.options.map (·.carry T)
  command := c.command
  forward := c.forward.map (·.rename T.node)
  span := c.span.carry T
  console := c.console
  startConsole := c.startConsole

def Chain.carry (c : Chain L) : Chain L := ⟨c.outer.carry T, c.redirected.map (·.carry T)⟩

def BranchFailure.carry : BranchFailure → BranchFailure
  | denied reason => denied reason
  | refused error => refused (T.error error)

def Outcome.carry (o : Outcome L) : Outcome L :=
  ⟨o.chain.carry T, T.reader o.reader,
    ⟨o.failures.entries.map fun e => (T.node e.1, e.2.carry T)⟩⟩

def Parsed.carry (p : Parsed L) : Parsed L := { p with outcome := p.outcome.carry T }

end

/-! ### Runs that correspond by functions -/

theorem eq_map_of_forall₂ {α β : Type} {g : α → β} {R : α → β → Prop} {as : List α} {bs : List β}
    (hR : ∀ a b, R a b → b = g a) (hall : List.Forall₂ R as bs) : bs = as.map g := by
  induction hall with
  | nil => rfl
  | cons hab _ ih => rw [List.map_cons, hR _ _ hab, ih]

theorem eq_map_of_optionRel {α β : Type} {g : α → β} {R : α → β → Prop} {x : Option α}
    {y : Option β} (hR : ∀ a b, R a b → b = g a) (hxy : Option.Rel R x y) : y = x.map g := by
  cases hxy with
  | none => rfl
  | some hab => rw [Option.map_some, hR _ _ hab]

namespace Alignment

/-- Whether functions say what corresponds to what in two runs. -/
structure CarriedBy (A : Alignment L) (T : Transport) : Prop where
  node : ∀ {n n' : NodeId}, A.node n n' → n' = T.node n
  offset : ∀ {i i' : Nat}, A.offset i i' → i' = T.offset i
  reader : ∀ {r r' : Reader}, A.reader r r' → r' = T.reader r
  error : ∀ {e e' : LineError}, A.error e e' → e' = T.error e

variable {A : Alignment L} {T : Transport} (hA : A.CarriedBy T)

include hA

theorem Spans.eq_carry {s s' : Span} (h : A.Spans s s') : s' = s.carry T := by
  obtain ⟨start', stop'⟩ := s'
  obtain rfl : start' = T.offset s.start := hA.offset h.start
  obtain rfl : stop' = T.offset s.stop := hA.offset h.stop
  rfl

theorem Values.eq_carry {c c' : Captured} (h : A.Values c c') : c' = c.carry T := by
  obtain ⟨span', value'⟩ := c'
  obtain rfl : span' = c.span.carry T := h.span.eq_carry hA
  obtain rfl : value' = c.value := h.value
  rfl

theorem Entries.eq_carry {n n' : MatchedNode} (h : A.Entries n n') : n' = n.carry T := by
  obtain ⟨node', span', console'⟩ := n'
  obtain rfl : node' = T.node n.node := hA.node h.node
  obtain rfl : span' = n.span.carry T := h.span.eq_carry hA
  obtain rfl : console' = n.console := h.console
  rfl

theorem Options.eq_carry {o o' : MatchedOption} (h : A.Options A.node o o') : o' = o.carry T := by
  obtain ⟨name', option', owner', nameSpan', valueSpan'⟩ := o'
  obtain rfl : name' = o.name := h.name
  obtain rfl : option' = T.node o.option := hA.node h.option
  obtain rfl : owner' = T.node o.owner := hA.node h.owner
  obtain rfl : nameSpan' = o.nameSpan.carry T := h.nameSpan.eq_carry hA
  obtain rfl : valueSpan' = o.valueSpan.carry T := h.valueSpan.eq_carry hA
  rfl

theorem Forwards.eq_rename {f f' : Forward L} (h : A.Forwards f f') : f' = f.rename T.node := by
  obtain ⟨target', modifier', forks'⟩ := f'
  obtain rfl : target' = T.node f.target := hA.node h.target
  obtain rfl : modifier' = f.modifier := h.modifier
  obtain rfl : forks' = f.forks := h.forks
  rfl

theorem Contexts.eq_carry {c c' : Context L} (h : A.Contexts A.plain c c') : c' = c.carry T := by
  obtain ⟨root', ⟨captured'⟩, nodes', options', command', forward', ⟨start', stop'⟩, console',
    startConsole'⟩ := c'
  obtain rfl : root' = T.node c.root := hA.node h.root
  obtain rfl : captured' = c.captured.entries.map fun e => (e.1, e.2.carry T) := by
    refine eq_map_of_forall₂ (fun e e' he => ?_) h.captured
    exact Prod.ext he.1.symm (he.2.eq_carry hA)
  obtain rfl : nodes' = c.nodes.map (·.carry T) := by
    obtain ⟨ns, ns', hns, hns', hentries⟩ := h.nodes
    rw [show nodes' = ns' from hns', show c.nodes = ns from hns]
    exact eq_map_of_forall₂ (fun _ _ hn => hn.eq_carry hA) hentries
  obtain rfl : options' = c.options.map (·.carry T) :=
    eq_map_of_forall₂ (fun _ _ ho => ho.eq_carry hA) h.options
  obtain rfl : command' = c.command := h.command
  obtain rfl : forward' = c.forward.map (·.rename T.node) :=
    eq_map_of_optionRel (fun _ _ hf => hf.eq_rename hA) h.forward
  obtain rfl : start' = T.offset c.span.start := hA.offset h.start
  obtain rfl : stop' = T.offset c.span.stop := hA.offset h.stop
  obtain rfl : console' = c.console := h.console
  obtain rfl : startConsole' = c.startConsole := h.startConsole
  rfl

theorem Failures.eq_carry {f f' : BranchFailure} (h : A.Failures f f') : f' = f.carry T := by
  cases h with
  | denied => rfl
  | refused he => rw [hA.error he, BranchFailure.carry]

theorem Outcomes.eq_carry {p p' : Outcome L} (h : A.Outcomes A.plain p p') :
    p' = p.carry T := by
  obtain ⟨⟨outer', redirected'⟩, reader', ⟨failures'⟩⟩ := p'
  obtain rfl : outer' = p.chain.outer.carry T := h.chain.outer.eq_carry hA
  obtain rfl : redirected' = p.chain.redirected.map (·.carry T) :=
    eq_map_of_forall₂ (fun _ _ hc => hc.eq_carry hA) h.chain.redirected
  obtain rfl : reader' = T.reader p.reader := hA.reader h.reader
  obtain rfl : failures' = p.failures.entries.map fun e => (T.node e.1, e.2.carry T) :=
    eq_map_of_forall₂ (fun _ _ he => Prod.ext (hA.node he.1) (he.2.eq_carry hA)) h.failures
  rfl

end Alignment

end CommandConsole
