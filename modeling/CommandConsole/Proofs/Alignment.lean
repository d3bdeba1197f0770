import CommandConsole.Proofs.Run
import Mathlib.Data.List.Forall2

/-!
# Two runs side by side

Two lines are matched, each against its tree. Where readers correspond that have the same left to
read, and nodes correspond that have the same gates and commands and whose branches correspond, the
two runs go the same way: what they come to corresponds part by part.
-/

namespace CommandConsole

open Text

variable {L : Language}

/-! ### Results and keyed lists -/

/-- Whether two results are both values or both errors, and correspond. -/
inductive Agree {ε ε' α β : Type} (E : ε → ε' → Prop) (R : α → β → Prop) :
    Except ε α → Except ε' β → Prop
  | ok {a : α} {b : β} : R a b → Agree E R (.ok a) (.ok b)
  | error {e : ε} {e' : ε'} : E e e' → Agree E R (.error e) (.error e')

theorem Agree.bind {ε ε' α β γ δ : Type} {E : ε → ε' → Prop} {R : α → β → Prop}
    {S : γ → δ → Prop} {x : Except ε α} {y : Except ε' β} {f : α → Except ε γ}
    {g : β → Except ε' δ} (h : Agree E R x y) (hfg : ∀ a b, R a b → Agree E S (f a) (g b)) :
    Agree E S (x >>= f) (y >>= g) := by
  cases h with
  | ok hR => exact hfg _ _ hR
  | error hE => exact .error hE

theorem Agree.of_ok_left {ε ε' α β : Type} {E : ε → ε' → Prop} {R : α → β → Prop} {a : α}
    {y : Except ε' β} (h : Agree E R (.ok a) y) : ∃ b, y = .ok b ∧ R a b := by
  cases h with
  | ok hR => exact ⟨_, rfl, hR⟩

theorem Agree.of_ok_right {ε ε' α β : Type} {E : ε → ε' → Prop} {R : α → β → Prop}
    {x : Except ε α} {b : β} (h : Agree E R x (.ok b)) : ∃ a, x = .ok a ∧ R a b := by
  cases h with
  | ok hR => exact ⟨_, rfl, hR⟩

/-- Whether two keyed lists correspond entry by entry. -/
def Keyed.Along {κ κ' α β : Type} (K : κ → κ' → Prop) (R : α → β → Prop) (m : Keyed κ α)
    (m' : Keyed κ' β) : Prop :=
  List.Forall₂ (fun e e' => K e.1 e'.1 ∧ R e.2 e'.2) m.entries m'.entries

namespace Keyed.Along

variable {κ κ' α β : Type} {K : κ → κ' → Prop} {R : α → β → Prop} {m : Keyed κ α} {m' : Keyed κ' β}

theorem empty : Along K R (.empty : Keyed κ α) (.empty : Keyed κ' β) := .nil

variable [DecidableEq κ] [DecidableEq κ']

theorem insert (hK : ∀ {a a' b b'}, K a a' → K b b' → (a = b ↔ a' = b')) (h : Along K R m m')
    {k : κ} {k' : κ'} (hk : K k k') {v : α} {v' : β} (hv : R v v') :
    Along K R (m.insert k v) (m'.insert k' v') := by
  obtain ⟨es⟩ := m
  obtain ⟨es'⟩ := m'
  unfold Along Keyed.insert at *
  dsimp only at h ⊢
  induction h with
  | nil => exact .cons ⟨hk, hv⟩ .nil
  | @cons e e' es es' he hes ih =>
    obtain ⟨k₁, v₁⟩ := e
    obtain ⟨k₁', v₁'⟩ := e'
    unfold put
    by_cases hsame : k₁ = k
    · rw [if_pos hsame, if_pos ((hK he.1 hk).1 hsame)]
      exact .cons ⟨he.1, hv⟩ hes
    · rw [if_neg hsame, if_neg (mt (hK he.1 hk).2 hsame)]
      exact .cons he ih

end Keyed.Along

theorem forall₂_filterMap {α β γ δ : Type} {R : α → β → Prop} {S : γ → δ → Prop}
    {f : α → Option γ} {g : β → Option δ} (hfg : ∀ a b, R a b → Option.Rel S (f a) (g b))
    {as : List α} {bs : List β} (h : List.Forall₂ R as bs) :
    List.Forall₂ S (as.filterMap f) (bs.filterMap g) := by
  induction h with
  | nil => exact .nil
  | @cons a b as bs hab _ ih =>
    rw [List.filterMap_cons, List.filterMap_cons]
    have hone := hfg a b hab
    revert hone
    cases f a <;> cases g b <;> intro hone <;> cases hone
    · exact ih
    · next hone => exact .cons hone ih

theorem optionRel_map {α β : Type} {g : α → β} {R : α → β → Prop} (hR : ∀ a, R a (g a))
    (x : Option α) : Option.Rel R x (x.map g) := by
  cases x with
  | none => exact .none
  | some a => exact .some (hR a)

theorem optionRel_eq {α : Type} {R : α → α → Prop} (hR : ∀ a, R a a) (x : Option α) :
    Option.Rel R x x := by
  have hmap := optionRel_map (g := id) hR x
  rwa [Option.map_id] at hmap

/-! ### What corresponds -/

/-- What corresponds in two runs: readers with the same left to read, offsets in the same order,
errors, and nodes one to one. -/
structure Alignment (L : Language) where
  reader : Reader → Reader → Prop
  offset : Nat → Nat → Prop
  error : LineError → LineError → Prop
  node : NodeId → NodeId → Prop
  rest_eq : ∀ {r r' : Reader}, reader r r' → r'.rest = r.rest
  pass : ∀ {r r' : Reader}, reader r r' → ∀ n, reader (r.pass n) (r'.pass n)
  cursor : ∀ {r r' : Reader}, reader r r' → offset r.cursor r'.cursor
  le_iff : ∀ {i i' j j' : Nat}, offset i i' → offset j j' → (i ≤ j ↔ i' ≤ j')
  pinned : ∀ {r r' : Reader}, reader r r' → ∀ f : Fault, error (f.pinned r) (f.pinned r')
  scan : ∀ {r r' : Reader}, reader r r' → ∀ type : L.Argument,
    Agree error (fun v v' => v' = v ∧
        reader (Scan.start (L.scan type) r).2 (Scan.start (L.scan type) r').2)
      (Scan.start (L.scan type) r).1 (Scan.start (L.scan type) r').1
  node_iff : ∀ {a a' b b' : NodeId}, node a a' → node b b' → (a = b ↔ a' = b')

namespace Alignment

/-- Where two runs stand that have not entered a node yet: at nodes that correspond for the time
being, in contexts that start at such offsets, having come past nodes that need not correspond. -/
structure Opening (A : Alignment L) where
  stands : NodeId → NodeId → Prop
  starts : Nat → Nat → Prop
  lead : List MatchedNode
  lead' : List MatchedNode
  of_node : ∀ {n n' : NodeId}, A.node n n' → stands n n'
  of_offset : ∀ {i i' : Nat}, A.offset i i' → starts i i'
  le_iff : ∀ {i i' j j' : Nat}, starts i i' → starts j j' → (i ≤ j ↔ i' ≤ j')

variable (A : Alignment L)

def plain : A.Opening where
  stands := A.node
  starts := A.offset
  lead := []
  lead' := []
  of_node h := h
  of_offset h := h
  le_iff := A.le_iff

structure Spans (s s' : Span) : Prop where
  start : A.offset s.start s'.start
  stop : A.offset s.stop s'.stop

structure Values (c c' : Captured) : Prop where
  span : A.Spans c.span c'.span
  value : c'.value = c.value

structure Entries (n n' : MatchedNode) : Prop where
  node : A.node n.node n'.node
  span : A.Spans n.span n'.span
  console : n'.console = n.console

structure Options (stands : NodeId → NodeId → Prop) (o o' : MatchedOption) : Prop where
  name : o'.name = o.name
  option : A.node o.option o'.option
  owner : stands o.owner o'.owner
  nameSpan : A.Spans o.nameSpan o'.nameSpan
  valueSpan : A.Spans o.valueSpan o'.valueSpan

structure Forwards (f f' : Forward L) : Prop where
  target : A.node f.target f'.target
  modifier : f'.modifier = f.modifier
  forks : f'.forks = f.forks

/-- Whether two contexts correspond, apart from the nodes that the runs came past at first. -/
structure Contexts (o : A.Opening) (c c' : Context L) : Prop where
  root : A.node c.root c'.root
  captured : c.captured.Along Eq A.Values c'.captured
  nodes : ∃ ns ns', c.nodes = o.lead ++ ns ∧ c'.nodes = o.lead' ++ ns' ∧
    List.Forall₂ A.Entries ns ns'
  options : List.Forall₂ (A.Options o.stands) c.options c'.options
  command : c'.command = c.command
  forward : Option.Rel A.Forwards c.forward c'.forward
  start : o.starts c.span.start c'.span.start
  stop : A.offset c.span.stop c'.span.stop
  console : c'.console = c.console
  startConsole : c'.startConsole = c.startConsole

structure Chains (o : A.Opening) (c c' : Chain L) : Prop where
  outer : A.Contexts o c.outer c'.outer
  redirected : List.Forall₂ (A.Contexts A.plain) c.redirected c'.redirected

inductive Failures : BranchFailure → BranchFailure → Prop
  | denied (reason : Denial) : Failures (.denied reason) (.denied reason)
  | refused {e e' : LineError} : A.error e e' → Failures (.refused e) (.refused e')

structure Outcomes (o : A.Opening) (p p' : Outcome L) : Prop where
  chain : A.Chains o p.chain p'.chain
  reader : A.reader p.reader p'.reader
  failures : p.failures.Along A.node A.Failures p'.failures

inductive Attempts (o : A.Opening) : Attempt L → Attempt L → Prop
  | failed {f f' : BranchFailure} : A.Failures f f' → Attempts o (.failed f) (.failed f')
  | finished {c c' : Chain L} {r r' : Reader} : A.Chains o c c' → A.reader r r' →
      Attempts o (.finished c r) (.finished c' r')
  | goOn {n n' : NodeId} {c c' : Context L} {r r' : Reader} : o.stands n n' →
      A.Contexts o c c' → A.reader r r' → Attempts o (.goOn n c r) (.goOn n' c' r')
  | redirect {c c' fresh fresh' : Context L} {r r' : Reader} : A.Contexts o c c' →
      A.Contexts A.plain fresh fresh' → A.reader r r' →
      Attempts o (.redirect c fresh r) (.redirect c' fresh' r')

/-! ### Trees -/

/-- Whether the branches of two nodes correspond. -/
structure Twins (n n' : Node L) : Prop where
  options : ∀ name, Option.Rel A.node (n.options.find? name) (n'.options.find? name)
  literals : ∀ name, Option.Rel A.node (n.literals.find? name) (n'.literals.find? name)
  arguments : List.Forall₂ A.node n.arguments n'.arguments

/-- Whether the nodes of two trees that correspond do so in all that matching asks of them. -/
structure Trees (t t' : CommandTree L) : Prop where
  kind : ∀ {n n' : NodeId}, A.node n n' → (t'.node n').kind = (t.node n).kind
  gates : ∀ {n n' : NodeId}, A.node n n' → (t'.node n').gates = (t.node n).gates
  command : ∀ {n n' : NodeId}, A.node n n' → (t'.node n').command = (t.node n).command
  forward : ∀ {n n' : NodeId}, A.node n n' →
    Option.Rel A.Forwards (t.node n).forward (t'.node n').forward
  twins : ∀ {n n' : NodeId}, A.node n n' → A.Twins (t.node n) (t'.node n')

variable {A : Alignment L} {o : A.Opening} {t t' : CommandTree L} {source : L.Source}
  {c c' : Context L} {r r' : Reader} {n n' id id' : NodeId}

/-! ### Readers and spans -/

theorem canRead_eq (h : A.reader r r') : r'.canRead = r.canRead := by
  unfold Reader.canRead
  rw [A.rest_eq h]

theorem skipBlank (h : A.reader r r') : A.reader r.skipBlank r'.skipBlank := by
  rw [Reader.skipBlank_eq_pass, Reader.skipBlank_eq_pass, A.rest_eq h]
  exact A.pass h _

theorem Opening.starts_min (o : A.Opening) {i i' j j' : Nat} (h : o.starts i i')
    (h' : o.starts j j') : o.starts (min i j) (min i' j') := by
  have hle := o.le_iff h h'
  by_cases hij : i ≤ j
  · rw [Nat.min_eq_left hij, Nat.min_eq_left (hle.1 hij)]
    exact h
  · rw [Nat.min_eq_right (Nat.le_of_not_le hij), Nat.min_eq_right (Nat.le_of_not_le (mt hle.2 hij))]
    exact h'

theorem offset_max {i i' j j' : Nat} (h : A.offset i i') (h' : A.offset j j') :
    A.offset (max i j) (max i' j') := by
  have hle := A.le_iff h h'
  by_cases hij : i ≤ j
  · rw [Nat.max_eq_right hij, Nat.max_eq_right (hle.1 hij)]
    exact h'
  · rw [Nat.max_eq_left (Nat.le_of_not_le hij), Nat.max_eq_left (Nat.le_of_not_le (mt hle.2 hij))]
    exact h

/-! ### Contexts -/

theorem Contexts.startAt (hn : A.node n n') {i i' : Nat} (hi : A.offset i i')
    (policy : ConsolePolicy) :
    A.Contexts A.plain (.startAt n i policy) (.startAt n' i' policy) where
  root := hn
  captured := .empty
  nodes := ⟨[], [], rfl, rfl, .nil⟩
  options := .nil
  command := rfl
  forward := .none
  start := hi
  stop := hi
  console := rfl
  startConsole := rfl

theorem Contexts.isEmpty_eq (h : A.Contexts o c c') : c'.span.isEmpty = c.span.isEmpty := by
  have hle := o.le_iff h.start (o.of_offset h.stop)
  have hge := o.le_iff (o.of_offset h.stop) h.start
  unfold Span.isEmpty
  rw [Bool.eq_iff_iff, beq_iff_eq, beq_iff_eq]
  omega

theorem Contexts.hasOption_eq (h : A.Contexts o c c') (name : String) :
    c'.hasOption name = c.hasOption name := by
  have hoptions := h.options
  unfold Context.hasOption
  generalize c.options = os at hoptions ⊢
  generalize c'.options = os' at hoptions ⊢
  induction hoptions with
  | nil => rfl
  | cons hone _ ih => rw [List.any_cons, List.any_cons, ih, hone.name]

theorem Contexts.capture (h : A.Contexts o c c') (name : String) {s s' : Span}
    (hs : A.Spans s s') (v : Value) : A.Contexts o (c.capture name s v) (c'.capture name s' v) :=
  { h with
    captured := h.captured.insert (fun h h' => by rw [h, h']) rfl ⟨hs, rfl⟩ }

theorem Contexts.enter (h : A.Contexts o c c') (ht : A.Trees t t') (hn : A.node n n')
    {s s' : Span} (hs : A.Spans s s') (policy : ConsolePolicy) :
    A.Contexts o (c.enter n (t.node n) s policy) (c'.enter n' (t'.node n') s' policy) := by
  obtain ⟨ns, ns', hns, hns', hentries⟩ := h.nodes
  refine { h with
    nodes := ⟨ns ++ [⟨n, s, policy⟩], ns' ++ [⟨n', s', policy⟩], ?_, ?_, ?_⟩
    command := ht.command hn
    forward := ht.forward hn
    start := o.starts_min h.start (o.of_offset hs.start)
    stop := offset_max h.stop hs.stop
    console := rfl }
  · show c.nodes ++ _ = _
    rw [hns, List.append_assoc]
  · show c'.nodes ++ _ = _
    rw [hns', List.append_assoc]
  · exact List.rel_append hentries (.cons ⟨hn, hs, rfl⟩ .nil)

theorem Contexts.takeOption (h : A.Contexts o c c') {g g' : MatchedOption}
    (hg : A.Options o.stands g g') (v : Value) :
    A.Contexts o (c.takeOption g v) (c'.takeOption g' v) := by
  have hcapture := h.capture g.name hg.valueSpan v
  unfold Context.takeOption
  rw [hg.name]
  exact { hcapture with
    options := List.rel_append h.options (.cons hg .nil)
    start := o.starts_min h.start (o.of_offset hg.nameSpan.start)
    stop := offset_max h.stop hg.valueSpan.stop }

/-! ### Attempts -/

theorem Attempts.refuse (h : A.reader r r') (f : Fault) :
    A.Attempts o (.refuse f r) (.refuse f r') := .failed (.refused (A.pinned h f))

theorem Attempts.isTaken_eq {a a' : Attempt L} (h : A.Attempts o a a') :
    a'.isTaken = a.isTaken := by
  cases h <;> rfl

/-- Behind the token of a node the runs go on alike, if the nodes redirect alike. -/
theorem continueAt (hstands : o.stands id id') {k k' : Node L}
    (hforward : Option.Rel A.Forwards k.forward k'.forward) (hc : A.Contexts o c c')
    (h : A.reader r r') :
    A.Attempts o (CommandTree.continueAt id k c r) (CommandTree.continueAt id' k' c' r') := by
  have hskip := skipBlank h
  unfold CommandTree.continueAt
  dsimp only
  rw [canRead_eq h, canRead_eq hskip]
  cases hk : k.forward <;> cases hk' : k'.forward <;> rw [hk, hk'] at hforward <;>
    cases hforward
  · dsimp only
    split
    · exact .goOn hstands hc hskip
    · exact .finished ⟨hc, .nil⟩ hskip
  · next f f' hf =>
    have hfresh : A.Contexts A.plain (Context.startAt f.target r.skipBlank.cursor c.console)
        (Context.startAt f'.target r'.skipBlank.cursor c'.console) := by
      rw [hc.console]
      exact .startAt hf.target (A.cursor hskip) _
    dsimp only
    split
    · exact .finished ⟨hc, .nil⟩ hskip
    · split
      · exact .redirect hc hfresh hskip
      · exact .finished ⟨hc, .cons hfresh .nil⟩ hskip

theorem takeToken (ht : A.Trees t t') (hn : A.node n n') (hc : A.Contexts o c c')
    (h : A.reader r r') :
    Agree A.error (fun p p' => A.Contexts o p.1 p'.1 ∧ A.reader p.2 p'.2)
      (CommandTree.takeToken (t.node n) c r) (CommandTree.takeToken (t'.node n') c' r') := by
  unfold CommandTree.takeToken
  rw [ht.kind hn]
  cases (t.node n).kind with
  | root => exact .error (A.pinned h _)
  | literal name =>
    dsimp only
    rw [show r'.peekToken = r.peekToken by unfold Reader.peekToken; rw [A.rest_eq h]]
    split
    · exact .ok ⟨hc, A.pass h _⟩
    · exact .error (A.pinned h _)
  | argument name type =>
    have hscan := A.scan h type
    dsimp only
    revert hscan
    obtain ⟨x, s⟩ := Scan.start (L.scan type) r
    obtain ⟨x', s'⟩ := Scan.start (L.scan type) r'
    rintro (⟨rfl, hs⟩ | he)
    · exact .ok ⟨hc.capture name ⟨A.cursor h, A.cursor hs⟩ _, hs⟩
    · exact .error he
  | option name type => exact .error (A.pinned h _)

theorem tryChild (ht : A.Trees t t')
    (hn : A.node n n') (hc : A.Contexts o c c') (h : A.reader r r') :
    A.Attempts o (t.tryChild source c r n) (t'.tryChild source c' r' n') := by
  have htake := takeToken ht hn hc h
  unfold CommandTree.tryChild
  dsimp only
  rw [ht.gates hn, hc.console]
  revert htake
  cases CommandTree.takeToken (t.node n) c r <;>
    cases CommandTree.takeToken (t'.node n') c' r' <;> intro htake <;> cases htake
  · next he => exact .failed (.refused he)
  · next p p' hp =>
    obtain ⟨taken, behind⟩ := p
    obtain ⟨taken', behind'⟩ := p'
    dsimp only at hp ⊢
    rw [A.rest_eq hp.2]
    split
    · exact .refuse hp.2 _
    · cases (t.node n).gates.check source ((t.node n).gates.console.resolve c.console) with
      | some denial => exact .failed (.denied denial)
      | none =>
        exact continueAt (o.of_node hn) (ht.forward hn)
          (hp.1.enter ht hn ⟨A.cursor h, A.cursor hp.2⟩ _) hp.2

theorem takeOptionValue (hn : A.node n n') (hid : o.stands id id') (hc : A.Contexts o c c')
    (h : A.reader r r') (name : String) (type : L.Argument) :
    A.Attempts o (CommandTree.takeOptionValue name type n id c r)
      (CommandTree.takeOptionValue name type n' id' c' r') := by
  have hnamed : A.reader (r.pass (2 + name.length)) (r'.pass (2 + name.length)) := A.pass h _
  have hstart := skipBlank hnamed
  have hscan := A.scan hstart type
  unfold CommandTree.takeOptionValue
  dsimp only
  rw [canRead_eq hstart]
  split
  · exact .refuse hstart _
  · revert hscan
    obtain ⟨x, s⟩ := Scan.start (L.scan type) (r.pass (2 + name.length)).skipBlank
    obtain ⟨x', s'⟩ := Scan.start (L.scan type) (r'.pass (2 + name.length)).skipBlank
    rintro (⟨rfl, hs⟩ | he)
    · have hskip := skipBlank hs
      have hgiven : A.Options o.stands
          ⟨name, n, id, ⟨r.cursor, (r.pass (2 + name.length)).cursor⟩,
            ⟨(r.pass (2 + name.length)).skipBlank.cursor, s.cursor⟩⟩
          ⟨name, n', id', ⟨r'.cursor, (r'.pass (2 + name.length)).cursor⟩,
            ⟨(r'.pass (2 + name.length)).skipBlank.cursor, s'.cursor⟩⟩ :=
        ⟨rfl, hn, hid, ⟨A.cursor h, A.cursor hnamed⟩, ⟨A.cursor hstart, A.cursor hs⟩⟩
      have htaken := hc.takeOption hgiven
      dsimp only
      rw [A.rest_eq hs, canRead_eq hskip]
      split
      · exact .refuse hs _
      · split
        · exact .goOn hid (htaken _) hskip
        · exact .finished ⟨htaken _, .nil⟩ hskip
    · exact .failed (.refused he)

theorem tryOption (ht : A.Trees t t') (hn : A.node n n') (hid : o.stands id id')
    (hc : A.Contexts o c c') (h : A.reader r r') :
    A.Attempts o (t.tryOption source c r id n) (t'.tryOption source c' r' id' n') := by
  unfold CommandTree.tryOption
  dsimp only
  rw [ht.kind hn, ht.gates hn, hc.console]
  cases (t.node n).kind with
  | option name type =>
    dsimp only
    rw [hc.hasOption_eq]
    split
    · exact .failed (.denied _)
    · split
      · exact .refuse h _
      · exact takeOptionValue hn hid hc h name type
  | _ => exact .refuse h _

theorem namedOption? {k k' : Node L} (hk : A.Twins k k') (token : List Char) :
    Option.Rel A.node (CommandTree.namedOption? k token) (CommandTree.namedOption? k' token) := by
  unfold CommandTree.namedOption?
  split
  · exact hk.options _
  · exact .none

theorem attempts (ht : A.Trees t t')
    (hid : o.stands id id') (hk : A.Twins (t.node id) (t'.node id')) (hc : A.Contexts o c c')
    (h : A.reader r r') :
    List.Forall₂ (fun a a' => A.node a.1 a'.1 ∧ A.Attempts o a.2 a'.2)
      (t.attempts source id c r) (t'.attempts source id' c' r') := by
  have hchild : ∀ {a a'}, A.node a a' → A.Attempts o (t.tryChild source c r a)
      (t'.tryChild source c' r' a') := fun ha => tryChild ht ha hc h
  have harguments : List.Forall₂ (fun a a' => A.node a.1 a'.1 ∧ A.Attempts o a.2 a'.2)
      ((t.node id).arguments.map fun a => (a, t.tryChild source c r a))
      ((t'.node id').arguments.map fun a => (a, t'.tryChild source c' r' a)) := by
    rw [List.forall₂_map_left_iff, List.forall₂_map_right_iff]
    exact hk.arguments.imp fun a a' ha => ⟨ha, hchild ha⟩
  have hoption := namedOption? hk (token r.rest)
  have hliteral := hk.literals (String.ofList (token r.rest))
  unfold CommandTree.attempts
  dsimp only
  rw [A.rest_eq h]
  revert hoption
  cases CommandTree.namedOption? (t.node id) (token r.rest) <;>
    cases CommandTree.namedOption? (t'.node id') (token r.rest) <;> intro hoption <;> cases hoption
  · dsimp only
    revert hliteral
    cases (t.node id).literals.find? (String.ofList (token r.rest)) <;>
      cases (t'.node id').literals.find? (String.ofList (token r.rest)) <;> intro hliteral <;>
      cases hliteral
    · exact harguments
    · next ha =>
      dsimp only
      rw [(hchild ha).isTaken_eq]
      split
      · exact .cons ⟨ha, hchild ha⟩ .nil
      · exact .cons ⟨ha, hchild ha⟩ harguments
  · next ha => exact .cons ⟨ha, tryOption ht ha hid hc h⟩ .nil

/-! ### Outcomes -/

theorem failuresOf {tried tried' : List (NodeId × Attempt L)}
    (h : List.Forall₂ (fun a a' => A.node a.1 a'.1 ∧ A.Attempts o a.2 a'.2) tried tried') :
    (CommandTree.failuresOf tried).Along A.node A.Failures (CommandTree.failuresOf tried') := by
  unfold CommandTree.failuresOf
  refine List.rel_foldl (fun fs fs' hfs a a' ha => ?_) .empty h
  obtain ⟨node, attempt⟩ := a
  obtain ⟨node', attempt'⟩ := a'
  obtain ⟨hnode, hattempt⟩ := ha
  cases hattempt with
  | failed hf => exact hfs.insert A.node_iff hnode hf
  | _ => exact hfs

theorem Outcomes.rank_eq {p p' : Outcome L} (h : A.Outcomes o p p') : p'.rank = p.rank := by
  have hempty : p'.failures.entries.isEmpty = p.failures.entries.isEmpty := by
    have hfailures := h.failures
    unfold Keyed.Along at hfailures
    generalize p.failures.entries = es at hfailures ⊢
    generalize p'.failures.entries = es' at hfailures ⊢
    cases hfailures <;> rfl
  unfold Outcome.rank
  rw [canRead_eq h.reader, hempty]

theorem best? {ps ps' : List (Outcome L)} (h : List.Forall₂ (A.Outcomes o) ps ps') :
    Option.Rel (A.Outcomes o) (Outcome.best? ps) (Outcome.best? ps') := by
  induction h with
  | nil => exact .none
  | @cons p p' ps ps' hp _ ih =>
    unfold Outcome.best?
    revert ih
    cases Outcome.best? ps <;> cases Outcome.best? ps' <;> intro ih <;> cases ih
    · exact .some hp
    · next q q' hq =>
      dsimp only
      rw [hp.rank_eq, hq.rank_eq]
      split
      · exact .some hq
      · exact .some hp

theorem Outcomes.behind {p p' : Outcome L} (hc : A.Contexts o c c')
    (hp : A.Outcomes A.plain p p') : A.Outcomes o (p.behind c) (p'.behind c') where
  chain := ⟨hc, .cons hp.chain.outer hp.chain.redirected⟩
  reader := hp.reader
  failures := hp.failures

def Follows (A : Alignment L) (t t' : CommandTree L) (source : L.Source) (bound : Nat) : Prop :=
  ∀ {o : A.Opening} {id id' : NodeId} {c c' : Context L} {r r' : Reader},
    (∀ {a a'}, o.stands a a' → A.Twins (t.node a) (t'.node a')) → o.stands id id' →
    A.Contexts o c c' → A.reader r r' → r.rest.length < bound →
    A.Outcomes o (t.follow source id c r) (t'.follow source id' c' r')

theorem outcomeOf (ht : A.Trees t t')
    (htwins : ∀ {a a'}, o.stands a a' → A.Twins (t.node a) (t'.node a'))
    (hlen : r'.rest.length = r.rest.length) (ih : A.Follows t t' source r.rest.length)
    {a a' : Attempt L} (h : A.Attempts o a a') :
    Option.Rel (A.Outcomes o) (t.outcomeOf source r a) (t'.outcomeOf source r' a') := by
  unfold CommandTree.outcomeOf
  cases h with
  | failed => exact .none
  | finished hc hr => exact .some ⟨hc, hr, .empty⟩
  | goOn hn hc hr =>
    dsimp only
    rw [A.rest_eq hr, hlen]
    split
    · next hlt => exact .some (ih htwins hn hc hr hlt)
    · exact .some ⟨⟨hc, .nil⟩, hr, .empty⟩
  | redirect hc hfresh hr =>
    dsimp only
    rw [A.rest_eq hr, hlen]
    split
    · next hlt =>
      exact .some (.behind hc (ih ht.twins hfresh.root hfresh hr hlt))
    · exact .some ⟨⟨hc, .cons hfresh .nil⟩, hr, .empty⟩

/-- Two runs that start alike come to what corresponds. -/
theorem follow (ht : A.Trees t t') (bound : Nat) : A.Follows t t' source bound := by
  intro o id id' c c' r r' htwins hid hc hr hlt
  have ih : A.Follows t t' source r.rest.length := follow ht r.rest.length
  have hattempts : List.Forall₂ (fun a a' => A.node a.1 a'.1 ∧ A.Attempts o a.2 a'.2)
      (t.attempts source id c r) (t'.attempts source id' c' r') :=
    attempts ht hid (htwins hid) hc hr
  have hlen : r'.rest.length = r.rest.length := by rw [A.rest_eq hr]
  have hbest := best? (forall₂_filterMap (fun a a' ha => outcomeOf ht htwins hlen ih ha.2)
    hattempts)
  rw [CommandTree.follow_eq, CommandTree.follow_eq]
  revert hbest
  cases Outcome.best? ((t.attempts source id c r).filterMap
      fun a => t.outcomeOf source r a.2) <;>
    cases Outcome.best? ((t'.attempts source id' c' r').filterMap
      fun a => t'.outcomeOf source r' a.2) <;> intro hbest <;> cases hbest
  · exact ⟨⟨hc, .nil⟩, hr, failuresOf hattempts⟩
  · next hp => exact hp
termination_by bound

/-! ### What is reported -/

theorem Chains.last_command {k k' : Chain L} (h : A.Chains o k k') :
    k'.last.command = k.last.command := by
  obtain ⟨outer, redirected⟩ := k
  obtain ⟨outer', redirected'⟩ := k'
  have houter : outer'.command = outer.command := h.outer.command
  have hredirected : List.Forall₂ (A.Contexts A.plain) redirected redirected' := h.redirected
  show (redirected'.getLast?.getD outer').command = (redirected.getLast?.getD outer).command
  clear h
  induction hredirected generalizing outer outer' with
  | nil => exact houter
  | @cons c c' cs cs' hc _ ih =>
    rw [List.getLast?_cons, List.getLast?_cons]
    exact ih c c' hc.command

theorem Outcomes.reports {p p' : Parsed L} (h : A.Outcomes o p.outcome p'.outcome) :
    List.Forall₂ A.error p.refusals p'.refusals ∧ p'.denials = p.denials := by
  have hfailures := h.failures
  unfold Parsed.refusals Parsed.denials Keyed.values
  unfold Keyed.Along at hfailures
  generalize p.outcome.failures.entries = es at hfailures ⊢
  generalize p'.outcome.failures.entries = es' at hfailures ⊢
  induction hfailures with
  | nil => exact ⟨.nil, rfl⟩
  | @cons e e' es es' he _ ih =>
    obtain ⟨node, failure⟩ := e
    obtain ⟨node', failure'⟩ := e'
    obtain ⟨-, he⟩ := he
    cases he with
    | denied reason => exact ⟨ih.1, congrArg (reason :: ·) ih.2⟩
    | refused he => exact ⟨.cons he ih.1, ih.2⟩

theorem Outcomes.isComplete_eq {p p' : Parsed L} (h : A.Outcomes o p.outcome p'.outcome) :
    p'.isComplete = p.isComplete := congrArg (! ·) (canRead_eq h.reader)

theorem Outcomes.failure {p p' : Parsed L} (h : A.Outcomes o p.outcome p'.outcome) :
    A.error p.failure p'.failure := by
  obtain ⟨hrefusals, hdenials⟩ := h.reports
  have hpinned : ∀ f : Fault, A.error (f.pinned p.reader) (f.pinned p'.reader) := A.pinned h.reader
  have hother : A.error
      (if p.chain.outer.span.isEmpty then Fault.unknownCommand.pinned p.reader
        else Fault.unknownArgument.pinned p.reader)
      (if p'.chain.outer.span.isEmpty then Fault.unknownCommand.pinned p'.reader
        else Fault.unknownArgument.pinned p'.reader) := by
    rw [show p'.chain.outer.span.isEmpty = p.chain.outer.span.isEmpty from
      h.chain.outer.isEmpty_eq]
    split <;> exact hpinned _
  unfold Parsed.failure
  rw [hdenials]
  generalize p.refusals = es at hrefusals ⊢
  generalize p'.refusals = es' at hrefusals ⊢
  cases hrefusals with
  | nil =>
    cases p.denials with
    | nil => exact hother
    | cons d _ => exact hpinned _
  | cons he hmore =>
    cases hmore with
    | nil => exact he
    | cons _ _ => exact hother

end Alignment

end CommandConsole
