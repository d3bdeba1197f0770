import CommandConsole.Proofs.Exactness
import CommandConsole.Proofs.Indexes

/-!
# Derivations over children

The parser looks literals and arguments up in the indexes of a node. A derivation of a line knows
only the children: its steps take a literal child or one of the argument children in their order.
Where the indexes lead where the children do, every step of one is a step of the other, the first
run is the first derivation, and so a line is complete exactly if it has a derivation.
-/

namespace CommandConsole

open Text

variable {L : Language}

namespace CommandTree

variable {t : CommandTree L} {source : L.Source} {p q q' : Position L} {layer : NodeId → Nat}

/-! ### Steps by children -/

/-- Whether the token at a position is a literal child of the node there. -/
def NamesChild (t : CommandTree L) (p : Position L) (child : NodeId) : Prop :=
  child ∈ (t.node p.node).children.values ∧
    (t.node child).kind = .literal (String.ofList (token p.reader.rest))

def argumentChildren (t : CommandTree L) (n : Node L) : List NodeId :=
  n.children.values.filter fun c => (t.node c).kind.isArgument

/-- One step of a derivation, numbered among those of its position: the option that the token names
and nothing else; or else the literal child that it is, if admitted; or else any argument child. -/
inductive Derives (t : CommandTree L) (source : L.Source) (p : Position L) :
    Nat → Position L → Prop
  | option {name : String} {option : NodeId} {q : Position L} :
      t.NamesOption p name option → Gives t source p name option q → Derives t source p 0 q
  | literal {child : NodeId} {q : Position L} :
      (∀ name option, ¬t.NamesOption p name option) → t.NamesChild p child →
      t.Enters source p child q → Derives t source p 0 q
  | argument {i : Nat} {child : NodeId} {q : Position L} :
      (∀ name option, ¬t.NamesOption p name option) →
      (∀ literal, t.NamesChild p literal → ¬t.Admits source literal p.context.console) →
      (t.argumentChildren (t.node p.node))[i]? = some child →
      t.Enters source p child q → Derives t source p i q

inductive Derivation (t : CommandTree L) (source : L.Source) :
    Position L → List Nat → Position L → Prop
  | done (p : Position L) : Derivation t source p [] p
  | step {p q r : Position L} {choice : Nat} {choices : List Nat} :
      p.reader.rest ≠ [] → Derives t source p choice q → Derivation t source q choices r →
      Derivation t source p (choice :: choices) r

/-- The first derivation of all that is left, numbers compared from the left. -/
structure FirstDerivation (t : CommandTree L) (source : L.Source) (p : Position L)
    (choices : List Nat) (q : Position L) : Prop where
  derivation : Derivation t source p choices q
  consumed : q.reader.rest = []
  first : ∀ choices' q', Derivation t source p choices' q' → q'.reader.rest = [] →
    choices' = choices ∧ q' = q ∨ choices < choices'

/-! ### Indexes and children -/

/-- Whether the indexes of a node lead where its children do: the literals by name, and the
arguments in the order of the children, each as often as it may be listed. -/
structure LeadsByIndex (t : CommandTree L) (n : Node L) : Prop where
  literal : ∀ name c, n.literals.find? name = some c ↔
    c ∈ n.children.values ∧ (t.node c).kind = .literal name
  argument : ∀ c, c ∈ n.arguments ↔ c ∈ t.argumentChildren n
  order : (t.argumentChildren n).Pairwise fun c c' => n.arguments.idxOf c < n.arguments.idxOf c'

theorem Indexed.leadsByIndex {n : Node L} {level : Nat} (h : Indexed t n)
    (hf : FiledAt t layer level n) (ht : Tidy t n) : LeadsByIndex t n where
  literal name c := by
    rw [h.literal, Keyed.find?_eq_some_iff ht.children]
    constructor
    · rintro ⟨he, hlit⟩
      refine ⟨List.mem_map_of_mem he, ?_⟩
      have hname : (t.node c).name = name := (hf.child _ he).2.2
      unfold Node.name at hname
      cases hk : (t.node c).kind with
      | literal name' =>
        rw [hk] at hname
        exact congrArg NodeKind.literal hname
      | root => rw [hk] at hlit; cases hlit
      | argument name' type => rw [hk] at hlit; cases hlit
      | option name' type => rw [hk] at hlit; cases hlit
    · rintro ⟨hc, hk⟩
      obtain ⟨⟨key, _⟩, he, rfl⟩ := List.mem_map.1 hc
      have hname : (t.node _).name = key := (hf.child _ he).2.2
      unfold Node.name at hname
      rw [hk] at hname
      obtain rfl : name = key := hname
      exact ⟨he, by rw [hk]; rfl⟩
  argument c := by rw [h.argument]; exact Iff.rfl
  order := by
    have hnodup := h.nodup_arguments hf ht
    have heq : t.argumentChildren n = n.arguments := h.argument.symm
    rw [heq, List.pairwise_iff_getElem]
    intro i j hi hj hij
    rwa [hnodup.idxOf_getElem, hnodup.idxOf_getElem]

section Leads

variable (h : LeadsByIndex t (t.node p.node))

include h

theorem LeadsByIndex.namesChild_iff {child : NodeId} :
    t.NamesChild p child ↔ t.NamesLiteral p child :=
  (h.literal ..).symm

/-- At a position the numbers are the same, or what is taken is an argument: of the index in a step,
of the children in a derivation. -/
theorem LeadsByIndex.steps_cases (source : L.Source) :
    (∀ i q, Derives t source p i q ↔ Step t source p i q) ∧ (∀ i q, Step t source p i q → i = 0) ∨
      (∀ i q, Derives t source p i q ↔ ∃ child,
        (t.argumentChildren (t.node p.node))[i]? = some child ∧ t.Enters source p child q) ∧
      (∀ i q, Step t source p i q ↔ ∃ child,
        (t.node p.node).arguments[i]? = some child ∧ t.Enters source p child q) := by
  by_cases hoption : ∃ name option, t.NamesOption p name option
  · obtain ⟨name, option, hn⟩ := hoption
    refine Or.inl ⟨fun i q => ?_, fun i q hs => (hn.step_iff.1 hs).1⟩
    rw [hn.step_iff]
    constructor
    · intro hd
      cases hd with
      | option hn' hg =>
        obtain ⟨rfl, rfl⟩ := namesOption_unique hn' hn
        exact ⟨rfl, hg⟩
      | literal hno _ _ => exact absurd hn (hno _ _)
      | argument hno _ _ _ => exact absurd hn (hno _ _)
    · rintro ⟨rfl, hg⟩
      exact .option hn hg
  · have hnone : ∀ name option, ¬t.NamesOption p name option :=
      fun name option hn => hoption ⟨name, option, hn⟩
    by_cases hliteral : ∃ child, t.NamesLiteral p child ∧ t.Admits source child p.context.console
    · obtain ⟨child, hn, ha⟩ := hliteral
      refine Or.inl ⟨fun i q => ?_, fun i q hs => ((hn.step_iff hnone ha).1 hs).1⟩
      rw [hn.step_iff hnone ha]
      constructor
      · intro hd
        cases hd with
        | option hn' _ => exact absurd hn' (hnone _ _)
        | literal _ hc he =>
          obtain rfl := Option.some.inj ((h.namesChild_iff.1 hc).symm.trans hn)
          exact ⟨rfl, he⟩
        | argument _ hshadow _ _ => exact absurd ha (hshadow _ (h.namesChild_iff.2 hn))
      · rintro ⟨rfl, he⟩
        exact .literal hnone (h.namesChild_iff.2 hn) he
    · have hshadow : ∀ child, t.NamesLiteral p child →
          ¬t.Admits source child p.context.console :=
        fun child hn ha => hliteral ⟨child, hn, ha⟩
      refine Or.inr ⟨fun i q => ⟨fun hd => ?_, ?_⟩, fun i q => step_iff_argument hnone hshadow⟩
      · cases hd with
        | option hn _ => exact absurd hn (hnone _ _)
        | literal _ hc he =>
          obtain ⟨-, -, -, ha, -⟩ := he
          exact absurd ha (hshadow _ (h.namesChild_iff.1 hc))
        | argument _ _ hc he => exact ⟨_, hc, he⟩
      · rintro ⟨child, hc, he⟩
        exact .argument hnone (fun literal hn => hshadow _ (h.namesChild_iff.1 hn)) hc he

theorem LeadsByIndex.step_of_derives {i : Nat} (hd : Derives t source p i q) :
    ∃ i', Step t source p i' q := by
  rcases h.steps_cases source with ⟨hsame, -⟩ | ⟨hderives, hsteps⟩
  · exact ⟨i, (hsame i q).1 hd⟩
  · obtain ⟨child, hc, he⟩ := (hderives i q).1 hd
    obtain ⟨i', hi'⟩ := List.mem_iff_getElem?.1 ((h.argument child).2 (List.mem_of_getElem? hc))
    exact ⟨i', (hsteps i' q).2 ⟨child, hi', he⟩⟩

/-- A step is one of a derivation, and what a derivation numbers before it is a step before it. -/
theorem LeadsByIndex.derives_of_step {i : Nat} (hs : Step t source p i q) :
    ∃ j, Derives t source p j q ∧
      ∀ j' q', Derives t source p j' q' → j' < j → ∃ i' < i, Step t source p i' q' := by
  rcases h.steps_cases source with ⟨hsame, hzero⟩ | ⟨hderives, hsteps⟩
  · refine ⟨i, (hsame i q).2 hs, fun j' q' _ hlt => ?_⟩
    rw [hzero i q hs] at hlt
    exact absurd hlt (Nat.not_lt_zero _)
  · obtain ⟨child, hc, he⟩ := (hsteps i q).1 hs
    obtain ⟨j, hj⟩ := List.mem_iff_getElem?.1 ((h.argument child).1 (List.mem_of_getElem? hc))
    refine ⟨j, (hderives j q).2 ⟨child, hj, he⟩, fun j' q' hd' hlt => ?_⟩
    obtain ⟨child', hj', he'⟩ := (hderives j' q').1 hd'
    obtain ⟨hltj, hgetj⟩ := List.getElem?_eq_some_iff.1 hj
    obtain ⟨hltj', hgetj'⟩ := List.getElem?_eq_some_iff.1 hj'
    have hbefore := List.pairwise_iff_getElem.1 h.order j' j hltj' hltj hlt
    rw [hgetj, hgetj'] at hbefore
    have hmem : child' ∈ (t.node p.node).arguments :=
      (h.argument child').2 (List.mem_of_getElem? hj')
    refine ⟨(t.node p.node).arguments.idxOf child', Nat.lt_of_lt_of_le hbefore ?_,
      (hsteps _ _).2 ⟨child', List.getElem?_idxOf hmem, he'⟩⟩
    obtain ⟨hlti, hgeti⟩ := List.getElem?_eq_some_iff.1 hc
    refine Nat.le_of_not_lt fun hlater => ?_
    have hno := List.not_of_lt_findIdx hlater
    rw [hgeti, beq_self_eq_true] at hno
    cases hno

end Leads

/-! ### One position for each number -/

theorem Enters.unique {child : NodeId} (h : t.Enters source p child q)
    (h' : t.Enters source p child q') : q = q' := by
  rcases tryChild_decides (t := t) source p child with ⟨q₁, hq, -⟩ | ⟨hno, -⟩
  · rw [(hq q).1 h, (hq q').1 h']
  · exact absurd h (hno q)

theorem Gives.unique {name : String} {option : NodeId} (h : Gives t source p name option q)
    (h' : Gives t source p name option q') : q = q' := by
  have hkind : ∃ type, (t.node option).kind = .option name type := by
    cases h with
    | intro hkind => exact ⟨_, hkind⟩
  obtain ⟨type, hkind⟩ := hkind
  rcases tryOption_decides (p := p) source hkind with ⟨q₁, hq, -⟩ | ⟨hno, -⟩
  · rw [(hq q).1 h, (hq q').1 h']
  · exact absurd h (hno q)

theorem LeadsByIndex.derives_unique (h : LeadsByIndex t (t.node p.node)) {i : Nat}
    (hd : Derives t source p i q) (hd' : Derives t source p i q') : q = q' := by
  rcases h.steps_cases source with ⟨hsame, -⟩ | ⟨hderives, -⟩
  · cases (hsame i q).1 hd with
    | option hn hg => exact hg.unique (hn.step_iff.1 ((hsame _ q').1 hd')).2
    | literal hno hn he =>
      obtain ⟨-, -, -, ha, -⟩ := id he
      exact he.unique ((hn.step_iff hno ha).1 ((hsame _ q').1 hd')).2
    | argument hno hshadow hc he =>
      obtain ⟨child, hc', he'⟩ := (step_iff_argument hno hshadow).1 ((hsame i q').1 hd')
      obtain rfl := Option.some.inj (hc.symm.trans hc')
      exact he.unique he'
  · obtain ⟨child, hc, he⟩ := (hderives i q).1 hd
    obtain ⟨child', hc', he'⟩ := (hderives i q').1 hd'
    obtain rfl := Option.some.inj (hc.symm.trans hc')
    exact he.unique he'

/-! ### Derivations and runs -/

def LeadsByIndexes (t : CommandTree L) : Prop := ∀ id, LeadsByIndex t (t.node id)

theorem LeadsByIndexes.run_of_derivation (h : t.LeadsByIndexes) {choices : List Nat}
    (hd : Derivation t source p choices q) : ∃ choices', Run t source p choices' q := by
  induction hd with
  | done p => exact ⟨[], .done p⟩
  | step hr hstep _ ih =>
    obtain ⟨i, hs⟩ := (h _).step_of_derives hstep
    obtain ⟨choices', hrun⟩ := ih
    exact ⟨i :: choices', .step hr hs hrun⟩

theorem FirstRun.tail {choices : List Nat} {i : Nat} {q₁ : Position L} (hr : p.reader.rest ≠ [])
    (hs : Step t source p i q₁) (hrun : Run t source q₁ choices q)
    (h : FirstRun t source p (i :: choices) q) : FirstRun t source q₁ choices q where
  run := hrun
  consumed := h.consumed
  first choices' q' hrun' hq' := by
    rcases h.first (i :: choices') q' (.step hr hs hrun') hq' with ⟨heq, rfl⟩ | hlt
    · exact Or.inl ⟨(List.cons.inj heq).2, rfl⟩
    · rcases List.cons_lt_cons_iff.1 hlt with hlt | ⟨-, hlt⟩
      · exact absurd hlt (Nat.lt_irrefl i)
      · exact Or.inr hlt

theorem LeadsByIndexes.firstDerivation (h : t.LeadsByIndexes) {choices : List Nat}
    (hfirst : FirstRun t source p choices q) :
    ∃ choices', FirstDerivation t source p choices' q := by
  have hrun := hfirst.run
  induction hrun with
  | done p =>
    refine ⟨[], .done p, hfirst.consumed, fun choices' q' hd _ => Or.inl ?_⟩
    cases hd with
    | done => exact ⟨rfl, rfl⟩
    | step hr => exact absurd hfirst.consumed hr
  | @step p q₁ q i choices hr hs hrun ih =>
    obtain ⟨j, hd, hbefore⟩ := (h p.node).derives_of_step hs
    obtain ⟨choices', hrest⟩ := ih (hfirst.tail hr hs hrun)
    refine ⟨j :: choices', .step hr hd hrest.derivation, hfirst.consumed, ?_⟩
    intro choices'' q' hd'' hq'
    cases hd'' with
    | done => exact absurd hq' hr
    | @step _ q₂ _ j' more _ hd' hmore =>
      rcases Nat.lt_trichotomy j j' with hlt | rfl | hlt
      · exact Or.inr (List.cons_lt_cons_iff.2 (Or.inl hlt))
      · obtain rfl := (h p.node).derives_unique hd hd'
        rcases hrest.first more q' hmore hq' with ⟨rfl, rfl⟩ | hlt
        · exact Or.inl ⟨rfl, rfl⟩
        · exact Or.inr (List.cons_lt_cons_iff.2 (Or.inr ⟨rfl, hlt⟩))
      · -- a derivation of a smaller number would be a run before the first one
        obtain ⟨i', hi', hs'⟩ := hbefore j' q₂ hd' hlt
        obtain ⟨taken, hrun'⟩ := h.run_of_derivation hmore
        rcases hfirst.first (i' :: taken) q' (.step hr hs' hrun') hq' with ⟨heq, -⟩ | hfirst'
        · exact absurd (List.cons.inj heq).1 (Nat.ne_of_lt hi')
        · rcases List.cons_lt_cons_iff.1 hfirst' with hlt' | ⟨heq, -⟩
          · exact absurd hi' (Nat.lt_asymm hlt')
          · exact absurd heq.symm (Nat.ne_of_lt hi')

/-! ### Parsing -/

/-- Where indexes lead where children do, a line that is not blank is complete exactly if it has a
derivation, and then it is matched as the first derivation says. -/
theorem parse_complete_iff_derivation (hL : L.ReadsForward) (ht : t.Reachable)
    (hindex : t.LeadsByIndexes) (line : String) (source : L.Source)
    (hline : ∃ c ∈ line.toList, isBlank c = false) :
    let start := Position.start (Reader.ofString line).skipBlank
    ((t.parse line source).isComplete = true ↔
      ∃ choices q, Derivation t source start choices q ∧ q.reader.rest = []) ∧
    ((t.parse line source).isComplete = true → ∃ choices q,
      FirstDerivation t source start choices q ∧ (t.parse line source).chain = q.chain) := by
  intro start
  obtain ⟨hcomplete, hfirst⟩ := parse_complete_iff_run hL ht line source hline
  have hderives : (t.parse line source).isComplete = true → ∃ choices q,
      FirstDerivation t source start choices q ∧ (t.parse line source).chain = q.chain := by
    intro h
    obtain ⟨choices, q, hrun, hchain⟩ := hfirst h
    obtain ⟨choices', hd⟩ := hindex.firstDerivation hrun
    exact ⟨choices', q, hd, hchain⟩
  refine ⟨⟨fun h => ?_, ?_⟩, hderives⟩
  · obtain ⟨choices, q, hd, -⟩ := hderives h
    exact ⟨choices, q, hd.derivation, hd.consumed⟩
  · rintro ⟨choices, q, hd, hq⟩
    obtain ⟨choices', hrun⟩ := hindex.run_of_derivation hd
    exact hcomplete.2 ⟨choices', q, hrun, hq⟩

theorem leadsByIndexes_of_sharesInLiterals
    (h : ReachableBy (fun t parent b => t.Shares SharesInLiterals parent b) t) :
    t.LeadsByIndexes := by
  obtain ⟨layer, hg⟩ := h.reachable.grown
  exact fun id => (h.inStep id).leadsByIndex (hg.filed id) (hg.tidied id)

theorem parse_complete_iff_derivation_lit :
    let t := lit (.argument "level" .word)
    let start := Position.start (Reader.ofString "lamp high").skipBlank
    (t.parse "lamp high" ()).isComplete = true ∧
      ((t.parse "lamp high" ()).isComplete = true ↔
        ∃ choices q, Derivation t () start choices q ∧ q.reader.rest = []) ∧
      ((t.parse "lamp high" ()).isComplete = true → ∃ choices q,
        FirstDerivation t () start choices q ∧ (t.parse "lamp high" ()).chain = q.chain) :=
  ⟨by decide +kernel, parse_complete_iff_derivation
    Language.isBuiltin_builtins.readsLocally.readsForward
    (.add (reachable_built _) (add?_light_argument "level" .word))
    (leadsByIndexes_of_sharesInLiterals reachableBy_lit_level) "lamp high" ()
    ⟨'l', by decide, by decide⟩⟩

/-- A literal with an argument that is a command, and a second name for it, with a literal that has
the name of the argument. -/
def dimmer : CommandTree .builtins :=
  built [{ Blueprint.literal "lamp" with
      children := [(Blueprint.argument "level" Builtin.word).executes ()] },
    light (.literal "level" [])]

theorem Derives.enters_child {i : Nat} (h : Derives t source p i q)
    (hdash : (token p.reader.rest).head? ≠ some '-') :
    ∃ child ∈ (t.node p.node).children.values, t.Enters source p child q := by
  cases h with
  | option hn _ => exact absurd (congrArg List.head? hn.1) hdash
  | literal _ hc he => exact ⟨_, hc.1, he⟩
  | argument _ _ hc he =>
    exact ⟨_, (List.mem_filter.1 (List.mem_of_getElem? hc)).1, he⟩

theorem Enters.of_literal {child : NodeId} {name : String} (h : t.Enters source p child q)
    (hkind : (t.node child).kind = .literal name) :
    token p.reader.rest = name.toList ∧
      q = t.beyond p child p.context (p.reader.pass name.length) := by
  obtain ⟨taken, behind, hreads, -, rfl⟩ := h
  cases hreads with
  | literal hk htoken =>
    obtain rfl := NodeKind.literal.inj (hk.symm.trans hkind)
    exact ⟨htoken, rfl⟩
  | argument hk => cases hk.symm.trans hkind

/-- An argument that is a child no more is still read, where there is no derivation. -/
theorem complete_without_derivation :
    ¬∀ (t : CommandTree .builtins) (line : String) (source : Unit), t.Reachable →
      (∃ c ∈ line.toList, isBlank c = false) →
      ((t.parse line source).isComplete = true ↔ ∃ choices q,
        Derivation t source (Position.start (Reader.ofString line).skipBlank) choices q ∧
          q.reader.rest = []) := by
  intro h
  have hcomplete : (dimmer.parse "lamp high" ()).isComplete = true := by decide +kernel
  obtain ⟨choices, q, hd, hq⟩ :=
    (h dimmer "lamp high" () (reachable_built _) ⟨'l', by decide, by decide⟩).1 hcomplete
  cases hd with
  | done => exact absurd hq (by decide)
  | @step _ q₁ _ _ _ _ hs hmore =>
    have hnames : (dimmer.node root).children.values = [1, 3] := by decide +kernel
    have hlamp : (dimmer.node 1).kind = .literal "lamp" := rfl
    have hlight : (dimmer.node 3).kind = .literal "light" := rfl
    have hlevel : (dimmer.node 4).kind = .literal "level" := rfl
    obtain ⟨child, hc, he⟩ := hs.enters_child (by decide)
    have hq₁ : q₁.node = 1 ∧ q₁.reader.rest = "high".toList := by
      change child ∈ (dimmer.node root).children.values at hc
      rw [hnames] at hc
      rcases List.mem_pair.1 hc with rfl | rfl
      · rw [(he.of_literal hlamp).2]
        decide +kernel
      · exact absurd (he.of_literal hlight).1 (by decide)
    cases hmore with
    | done =>
      rw [hq₁.2] at hq
      cases hq
    | step _ hs' _ =>
      obtain ⟨child', hc', he'⟩ := hs'.enters_child (by rw [hq₁.2]; decide)
      have hshared : (dimmer.node 1).children.values = [4] := by decide +kernel
      rw [hq₁.1, hshared, List.mem_singleton] at hc'
      subst hc'
      have hword := (he'.of_literal hlevel).1
      rw [hq₁.2] at hword
      revert hword
      decide

end CommandTree

end CommandConsole
