import CommandConsole.Proofs.Cursor
import CommandConsole.Proofs.GateSafety
import Mathlib.Data.List.Nodup

/-!
# Options are given once

No context is given an option twice. A context knows nothing of those in front of it, though, so an
option that nodes on both sides of a redirect carry can be given on both sides. A line is given no
option twice if no node behind a redirect carries one that was given in front of it.
-/

namespace CommandConsole

variable {L : Language}

def Context.given (c : Context L) : List String := c.options.map (·.name)

def Chain.given (c : Chain L) : List String := c.toList.flatMap Context.given

theorem forall_mem_snoc {α : Type} {P : α → Prop} {as : List α} {a : α} :
    (∀ b ∈ as ++ [a], P b) ↔ (∀ b ∈ as, P b) ∧ P a := by
  simp only [List.mem_append, List.mem_singleton, or_imp, forall_and, forall_eq]

namespace CommandTree

def Carries (t : CommandTree L) (id : NodeId) (name : String) : Prop :=
  (t.node id).options.contains name = true

instance (t : CommandTree L) (id : NodeId) (name : String) : Decidable (t.Carries id name) :=
  inferInstanceAs (Decidable (_ = true))

/-- Whether no node of the contexts behind another carries an option that was given there. -/
def GivenApart (t : CommandTree L) (contexts : List (Context L)) : Prop :=
  contexts.Pairwise fun c d => ∀ name ∈ c.given, ∀ id ∈ d.places, ¬t.Carries id name

instance (t : CommandTree L) (contexts : List (Context L)) : Decidable (t.GivenApart contexts) :=
  inferInstanceAs (Decidable (contexts.Pairwise _))

/-- Whether a context is given no option twice, and only what its nodes carry. -/
structure GivenOnce (t : CommandTree L) (c : Context L) : Prop where
  nodup : c.given.Nodup
  carried : ∀ name ∈ c.given, ∃ id ∈ c.places, t.Carries id name

variable {t : CommandTree L} {source : L.Source} {p q : Position L} {layer : NodeId → Nat}
  {c : Context L}

/-! ### One context -/

theorem givenOnce_startAt (root : NodeId) (offset : Nat) (policy : ConsolePolicy) :
    t.GivenOnce (Context.startAt root offset policy) :=
  ⟨List.nodup_nil, fun name hname => by cases hname⟩

theorem GivenOnce.takeOption (h : t.GivenOnce c) {o : MatchedOption}
    (hnew : ∀ o' ∈ c.options, o'.name ≠ o.name) {id : NodeId} (hid : id ∈ c.places)
    (hcarries : t.Carries id o.name) (value : Value) : t.GivenOnce (c.takeOption o value) := by
  have hgiven : (c.takeOption o value).given = c.given ++ [o.name] := by
    simp [Context.given, Context.takeOption]
  refine ⟨?_, fun name hname => ?_⟩
  · rw [hgiven]
    refine List.nodup_append.2 ⟨h.nodup, List.nodup_singleton _, fun name hname b hb heq => ?_⟩
    obtain rfl := List.mem_singleton.1 hb
    obtain ⟨o', ho', rfl⟩ := List.mem_map.1 hname
    exact hnew o' ho' heq
  · rw [hgiven] at hname
    rcases List.mem_append.1 hname with hname | hname
    · exact h.carried name hname
    · obtain rfl := List.mem_singleton.1 hname
      exact ⟨id, hid, hcarries⟩

theorem GivenOnce.enter (h : t.GivenOnce c) (child : NodeId) (n : Node L) (span : Span)
    (policy : ConsolePolicy) : t.GivenOnce (c.enter child n span policy) := by
  refine ⟨h.nodup, fun name hname => ?_⟩
  obtain ⟨id, hid, hcarries⟩ := h.carried name hname
  refine ⟨id, ?_, hcarries⟩
  rw [Context.places_enter]
  exact List.mem_append_left _ hid

/-! ### Contexts behind redirects -/

/-- Whether every context of a position is given its options once, and matching stands at a node of
the innermost. -/
structure Parted (t : CommandTree L) (p : Position L) : Prop where
  once : ∀ c ∈ p.closed ++ [p.context], t.GivenOnce c
  stands : p.node ∈ p.context.places

theorem parted_start (r : Reader) : t.Parted (Position.start r) where
  once c hc := by
    obtain rfl := List.mem_singleton.1 hc
    exact givenOnce_startAt ..
  stands := List.mem_singleton.2 rfl

theorem Parted.gives (h : t.Parted p) {name : String} {option : NodeId}
    (hn : t.NamesOption p name option) (hg : Gives t source p name option q) : t.Parted q := by
  obtain ⟨-, -, hnew, -⟩ := hg
  obtain ⟨hclosed, hcontext⟩ := forall_mem_snoc.1 h.once
  have hcarries : t.Carries p.node name := Option.isSome_of_eq_some hn.2
  exact ⟨forall_mem_snoc.2 ⟨hclosed, hcontext.takeOption hnew h.stands hcarries _⟩, h.stands⟩

theorem Parted.entered (h : t.Parted p) {child : NodeId} {captured : Keyed String Captured}
    {n : Node L} {span : Span} {policy : ConsolePolicy} {r : Reader} :
    t.Parted ⟨p.closed, child, ({ p.context with captured } : Context L).enter child n span policy,
      r⟩ := by
  obtain ⟨hclosed, hcontext⟩ := forall_mem_snoc.1 h.once
  refine ⟨forall_mem_snoc.2 ⟨hclosed, ?_⟩, ?_⟩
  · exact GivenOnce.enter (c := { p.context with captured }) ⟨hcontext.nodup, hcontext.carried⟩ ..
  · rw [Context.places_enter]
    exact List.mem_append_right _ (List.mem_singleton.2 rfl)

theorem Parted.redirected (h : t.Parted p) {target : NodeId} {offset : Nat}
    {policy : ConsolePolicy} {r : Reader} :
    t.Parted ⟨p.closed ++ [p.context], target, Context.startAt target offset policy, r⟩ :=
  ⟨forall_mem_snoc.2 ⟨h.once, givenOnce_startAt ..⟩, List.mem_singleton.2 rfl⟩

theorem Parted.enters (h : t.Parted p) {child : NodeId} (he : t.Enters source p child q) :
    t.Parted q := by
  obtain ⟨taken, behind, hr, -, rfl⟩ := he
  obtain ⟨captured, rfl⟩ := hr.capture_eq
  rcases beyond_cases (t := t) p child { p.context with captured } behind with
    hq | ⟨forward, -, -, hq⟩
  · rw [hq]
    exact h.entered
  · rw [hq]
    exact (h.entered (r := behind)).redirected

theorem Parted.step (h : t.Parted p) {i : Nat} (hs : Step t source p i q) : t.Parted q := by
  rcases hs.gives_or_enters with ⟨name, option, hn, hg⟩ | ⟨child, -, he⟩
  · exact h.gives hn hg
  · exact h.enters he

theorem Filed.parseFrom_parted (hf : Filed t layer) (r : Reader) (source : L.Source) :
    ∃ q, t.Parted q ∧ (t.parseFrom r source).chain.toList = q.closed ++ [q.context] := by
  obtain ⟨q, hq, hchain, -⟩ := hf.parseFrom_invariant (P := t.Parted) source r (parted_start _)
    fun _ _ _ h hs => h.step hs
  exact ⟨q, hq, by rw [hchain, Position.toList_chain]⟩

/-! ### Whole lines -/

/-- No context is given an option twice, and no line is unless a node behind a redirect carries an
option that was given in front of it. -/
theorem parseFrom_options_once (ht : t.Reachable) (r : Reader) (source : L.Source) :
    let chain := (t.parseFrom r source).chain
    (∀ c ∈ chain.toList, c.given.Nodup) ∧
      (t.GivenApart chain.toList → chain.given.Nodup) := by
  intro chain
  obtain ⟨layer, hg⟩ := ht.grown
  obtain ⟨q, hq, hchain⟩ := hg.filed.parseFrom_parted r source
  have honce : ∀ c ∈ chain.toList, t.GivenOnce c := by
    intro c hc
    exact hq.once c (hchain ▸ hc)
  refine ⟨fun c hc => (honce c hc).nodup, fun hapart => ?_⟩
  refine List.nodup_flatMap.2 ⟨fun c hc => (honce c hc).nodup, ?_⟩
  refine List.Pairwise.imp_of_mem ?_ hapart
  intro c d _ hd hcd name hc hname
  obtain ⟨id, hid, hcarries⟩ := (honce d hd).carried name hname
  exact hcd name hc id hid hcarries

/-- A command that passes a call on to a sibling, which may pass it back. -/
def handover : CommandTree .builtins := built [
    { Blueprint.literal "call" with
      children := [
        { Blueprint.literal "to" with
          options := [.option "at" Builtin.word]
          children := [.literal "now",
            { Blueprint.literal "back" with forward := some ⟨1, none, false⟩ }] },
        { Blueprint.literal "by" with
          options := [.option "way" Builtin.word]
          children := [{ Blueprint.literal "then" with forward := some ⟨2, none, false⟩ }] }] }]

theorem reachable_handover : handover.Reachable := reachable_built _

theorem parseFrom_options_once_handover :
    let chain := (handover.parseFrom (.ofString "call by --way 5 then --at 9 now") ()).chain
    handover.Reachable ∧ chain.toList.map Context.given = [["way"], ["at"]] ∧
      (∀ c ∈ chain.toList, c.given.Nodup) ∧
      handover.GivenApart chain.toList ∧ chain.given.Nodup := by
  intro chain
  have happart : handover.GivenApart chain.toList := by decide +kernel
  obtain ⟨hcontexts, hline⟩ := parseFrom_options_once reachable_handover
    (.ofString "call by --way 5 then --at 9 now") ()
  exact ⟨reachable_handover, by decide +kernel, hcontexts, happart, hline happart⟩

/-- Behind the way back, the option is given once more. -/
theorem option_given_behind_redirect :
    let p := handover.parse "call by --way 5 then back by --way 6" ()
    handover.Reachable ∧ p.isComplete = true ∧
      p.chain.toList.map Context.given = [["way"], [], ["way"]] ∧ ¬p.chain.given.Nodup :=
  ⟨reachable_handover, by decide +kernel, by decide +kernel, by decide +kernel⟩

end CommandTree

end CommandConsole
