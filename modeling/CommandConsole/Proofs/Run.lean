import CommandConsole.Matching.Parsed
import CommandConsole.Proofs.Growth

/-!
# Runs through a tree

Matching a line is a run through positions: the contexts closed by redirects so far, the node and
the context where matching stands, and the reader behind what was taken. A step takes one token,
an option with its value, a literal or an argument. Steps are stated without the parser; the
parser is then shown to keep the best of what the steps of a position lead to.
-/

namespace CommandConsole

open Text

variable {L : Language}

/-- Whether every type of arguments leaves the cursor behind the text that it accepts. -/
def Language.ReadsForward (L : Language) : Prop :=
  ∀ (type : L.Argument) (r : Reader) (value : Value) (behind : Reader),
    Scan.start (L.scan type) r = (.ok value, behind) → ∃ n, behind = r.pass n

/-- Whether a source passes the requirement, the permission and the console check of gates, under
a policy that is already resolved. -/
def Gates.Admits (g : Gates L) (source : L.Source) (policy : ConsolePolicy) : Prop :=
  (∀ p, g.requirement = some p → p source = true) ∧
    (∀ name, g.permission = some name → L.holds source name = true) ∧
    ¬(policy = .denied ∧ L.isConsole source = true)

/-! ### Chains behind closed contexts -/

def Chain.under (c : Chain L) : List (Context L) → Chain L
  | [] => c
  | outer :: more => ⟨outer, more ++ c.toList⟩

theorem Chain.toList_under (c : Chain L) (closed : List (Context L)) :
    (c.under closed).toList = closed ++ c.toList := by
  cases closed <;> rfl

theorem Chain.ext_toList {c d : Chain L} (h : c.toList = d.toList) : c = d := by
  obtain ⟨o, r⟩ := c
  obtain ⟨o', r'⟩ := d
  obtain ⟨rfl, rfl⟩ := List.cons.inj h
  rfl

theorem Chain.under_append (c : Chain L) (a b : List (Context L)) :
    c.under (a ++ b) = (c.under b).under a := by
  apply Chain.ext_toList
  simp only [Chain.toList_under, List.append_assoc]

def Outcome.under (o : Outcome L) (closed : List (Context L)) : Outcome L :=
  { o with chain := o.chain.under closed }

/-! ### Positions and steps -/

/-- How far a line has been matched. -/
structure Position (L : Language) where
  /-- The contexts that redirects have closed, the outermost first. -/
  closed : List (Context L)
  node : NodeId
  context : Context L
  reader : Reader

namespace Position

def chain (p : Position L) : Chain L := Chain.under ⟨p.context, []⟩ p.closed

theorem toList_chain (p : Position L) : p.chain.toList = p.closed ++ [p.context] :=
  Chain.toList_under ..

theorem last_chain (p : Position L) : p.chain.last = p.context := by
  obtain ⟨closed, node, context, reader⟩ := p
  cases closed with
  | nil => rfl
  | cons outer more => simp [chain, Chain.under, Chain.last, Chain.toList]

def start (r : Reader) : Position L :=
  ⟨[], CommandTree.root, Context.startAt CommandTree.root r.cursor .inherited, r⟩

end Position

namespace CommandTree

/-- Whether a node admits a source, given the policy in effect above. -/
def Admits (t : CommandTree L) (source : L.Source) (id : NodeId) (above : ConsolePolicy) : Prop :=
  (t.node id).gates.Admits source ((t.node id).gates.console.resolve above)

/-- Whether the token at a position names an option of the node there. -/
def NamesOption (t : CommandTree L) (p : Position L) (name : String) (option : NodeId) : Prop :=
  token p.reader.rest = '-' :: '-' :: name.toList ∧
    (t.node p.node).options.find? name = some option

/-- Whether the token at a position is a literal child of the node there. -/
def NamesLiteral (t : CommandTree L) (p : Position L) (child : NodeId) : Prop :=
  (t.node p.node).literals.find? (String.ofList (token p.reader.rest)) = some child

/-- A child reads its token, up to a blank or the end of the line: the context with the value, and
the reader behind the token. -/
inductive Reads (t : CommandTree L) (p : Position L) (child : NodeId) :
    Context L → Reader → Prop
  | literal {name : String} :
      (t.node child).kind = .literal name → token p.reader.rest = name.toList →
      Reads t p child p.context (p.reader.pass name.length)
  | argument {name : String} {type : L.Argument} {value : Value} {behind : Reader} :
      (t.node child).kind = .argument name type →
      Scan.start (L.scan type) p.reader = (.ok value, behind) → endsToken behind.rest = true →
      Reads t p child (p.context.capture name ⟨p.reader.cursor, behind.cursor⟩ value) behind

/-- The position behind the token of a child: at the child, or, when it redirects and the line goes
on with a blank, at its target in a fresh context. -/
def beyond (t : CommandTree L) (p : Position L) (child : NodeId) (taken : Context L)
    (behind : Reader) : Position L :=
  let policy := (t.node child).gates.console.resolve p.context.console
  let entered := taken.enter child (t.node child) ⟨p.reader.cursor, behind.cursor⟩ policy
  match (t.node child).forward with
  | none => ⟨p.closed, child, entered, behind.skipBlank⟩
  | some forward =>
    if behind.canRead then
      ⟨p.closed ++ [entered], forward.target,
        Context.startAt forward.target behind.skipBlank.cursor policy, behind.skipBlank⟩
    else ⟨p.closed, child, entered, behind.skipBlank⟩

/-- A child that admits the source reads its token. -/
def Enters (t : CommandTree L) (source : L.Source) (p : Position L) (child : NodeId)
    (q : Position L) : Prop :=
  ∃ taken behind, Reads t p child taken behind ∧
    t.Admits source child p.context.console ∧ q = t.beyond p child taken behind

/-- An option that admits the source and has not been given in the context reads its value behind
blanks, up to a blank or the end of the line; matching goes on at the same node. -/
inductive Gives (t : CommandTree L) (source : L.Source) (p : Position L) (name : String)
    (option : NodeId) : Position L → Prop
  | intro {type : L.Argument} {named start behind : Reader} {value : Value} :
      (t.node option).kind = .option name type →
      t.Admits source option p.context.console → (∀ o ∈ p.context.options, o.name ≠ name) →
      named = p.reader.pass (2 + name.length) → start = named.skipBlank → start.rest ≠ [] →
      Scan.start (L.scan type) start = (.ok value, behind) → endsToken behind.rest = true →
      Gives t source p name option ⟨p.closed, p.node, p.context.takeOption
        ⟨name, option, p.node, ⟨p.reader.cursor, named.cursor⟩, ⟨start.cursor, behind.cursor⟩⟩
        value, behind.skipBlank⟩

/-- One step, numbered among the steps of its position: the option that the token names and
nothing else; or else the literal that it is, if admitted; or else any argument. -/
inductive Step (t : CommandTree L) (source : L.Source) (p : Position L) :
    Nat → Position L → Prop
  | option {name : String} {option : NodeId} {q : Position L} :
      t.NamesOption p name option → Gives t source p name option q → Step t source p 0 q
  | literal {child : NodeId} {q : Position L} :
      (∀ name option, ¬t.NamesOption p name option) → t.NamesLiteral p child →
      t.Enters source p child q → Step t source p 0 q
  | argument {i : Nat} {child : NodeId} {q : Position L} :
      (∀ name option, ¬t.NamesOption p name option) →
      (∀ literal, t.NamesLiteral p literal → ¬t.Admits source literal p.context.console) →
      (t.node p.node).arguments[i]? = some child →
      t.Enters source p child q → Step t source p i q

/-- A run of steps, each in front of something left to read, with their numbers. -/
inductive Run (t : CommandTree L) (source : L.Source) :
    Position L → List Nat → Position L → Prop
  | done (p : Position L) : Run t source p [] p
  | step {p q r : Position L} {choice : Nat} {choices : List Nat} :
      p.reader.rest ≠ [] → Step t source p choice q → Run t source q choices r →
      Run t source p (choice :: choices) r

variable {t : CommandTree L} {source : L.Source} {p q : Position L} {layer : NodeId → Nat}

/-! ### Attempts and steps -/

theorem admits_iff_check (id : NodeId) (above : ConsolePolicy) :
    t.Admits source id above ↔
      (t.node id).gates.check source ((t.node id).gates.console.resolve above) = none :=
  (Gates.check_eq_none_iff ..).symm

theorem canUse_iff_admits (id : NodeId) (above : ConsolePolicy) :
    (t.node id).canUse source above = true ↔ t.Admits source id above := by
  rw [admits_iff_check]
  exact Option.isNone_iff_eq_none

theorem namedOption?_eq_some_iff {option : NodeId} :
    namedOption? (t.node p.node) (token p.reader.rest) = some option ↔
      ∃ name, t.NamesOption p name option := by
  unfold namedOption? NamesOption
  constructor
  · intro h
    split at h
    · next name hn => exact ⟨String.ofList name, by simpa using hn, h⟩
    · cases h
  · rintro ⟨name, hn, h⟩
    rw [hn]
    simpa using h

theorem namedOption?_eq_none_iff :
    namedOption? (t.node p.node) (token p.reader.rest) = none ↔
      ∀ name option, ¬t.NamesOption p name option := by
  rw [Option.eq_none_iff_forall_ne_some]
  constructor
  · intro h name option hn
    exact h option (namedOption?_eq_some_iff.2 ⟨name, hn⟩)
  · intro h option ho
    obtain ⟨name, hn⟩ := namedOption?_eq_some_iff.1 ho
    exact h name option hn

theorem namesOption_unique {name name' : String} {option option' : NodeId}
    (h : t.NamesOption p name option) (h' : t.NamesOption p name' option') :
    name = name' ∧ option = option' := by
  obtain ⟨ht, ho⟩ := h
  obtain ⟨ht', ho'⟩ := h'
  rw [ht] at ht'
  have hname : name = name' := by simpa [String.ext_iff] using ht'
  subst hname
  rw [ho] at ho'
  exact ⟨rfl, Option.some.inj ho'⟩

/-- Whether an attempt at a position takes its token and leads to another position. -/
def LeadsTo (p : Position L) : Attempt L → Position L → Prop
  | .failed _, _ => False
  | .finished chain reader, q =>
    q.chain = chain.under p.closed ∧ q.reader = reader ∧ reader.rest = []
  | .goOn node context reader, q => q = ⟨p.closed, node, context, reader⟩ ∧ reader.rest ≠ []
  | .redirect context fresh reader, q =>
    q = ⟨p.closed ++ [context], fresh.root, fresh, reader⟩ ∧ reader.rest ≠ []

theorem skipBlank_of_rest_nil {r : Reader} (h : r.rest = []) : r.skipBlank.rest = [] := by
  rw [Reader.rest_skipBlank, h]
  rfl

theorem leadsTo_goOn (p : Position L) (node : NodeId) (taken : Context L) (reader : Reader) :
    LeadsTo p (if reader.canRead then .goOn node taken reader else .finished ⟨taken, []⟩ reader)
      ⟨p.closed, node, taken, reader⟩ := by
  split
  · next hr => exact ⟨rfl, Reader.canRead_iff.1 hr⟩
  · next hr => exact ⟨rfl, rfl, Reader.not_canRead_iff.1 hr⟩

theorem isTaken_continueAt (id : NodeId) (n : Node L) (context : Context L) (behind : Reader) :
    (continueAt id n context behind).isTaken = true := by
  unfold continueAt
  dsimp only
  repeat' split
  all_goals rfl

theorem leadsTo_continueAt (p : Position L) (child : NodeId) (taken : Context L)
    (behind : Reader) :
    LeadsTo p (continueAt child (t.node child) (taken.enter child (t.node child)
      ⟨p.reader.cursor, behind.cursor⟩ ((t.node child).gates.console.resolve p.context.console))
      behind) (t.beyond p child taken behind) := by
  unfold continueAt beyond
  cases hf : (t.node child).forward with
  | none => exact leadsTo_goOn ..
  | some forward =>
    simp only
    by_cases hb : behind.canRead = true
    · rw [if_neg (by simp [hb]), if_pos hb]
      split
      · next hr => exact ⟨rfl, Reader.canRead_iff.1 hr⟩
      · next hr =>
        refine ⟨?_, rfl, Reader.not_canRead_iff.1 hr⟩
        exact Chain.under_append _ _ _
    · rw [if_pos (by simp [hb]), if_neg hb]
      exact ⟨rfl, rfl, skipBlank_of_rest_nil (Reader.not_canRead_iff.1 hb)⟩

/-- Whether an attempt at a position leads to the one position with a property, or fails because
there is none. -/
def Decides (p : Position L) (P : Position L → Prop) (a : Attempt L) : Prop :=
  (∃ q, (∀ q', P q' ↔ q' = q) ∧ LeadsTo p a q) ∨ ((∀ q, ¬P q) ∧ ∃ f, a = .failed f)

theorem endsToken_of_token_eq {cs front : List Char} (h : token cs = front) :
    endsToken (cs.drop front.length) = true := by
  have hs := token_append_dropWhile cs
  rw [h] at hs
  rw [← hs, List.drop_left]
  exact endsToken_append_token cs

theorem reads_iff_takeToken {child : NodeId} {taken : Context L} {behind : Reader} :
    Reads t p child taken behind ↔
      takeToken (t.node child) p.context p.reader = .ok (taken, behind) ∧
        endsToken behind.rest = true := by
  constructor
  · intro h
    cases h with
    | @literal name hk htoken =>
      have hpeek : p.reader.peekToken = name := by simp [Reader.peekToken, htoken]
      refine ⟨by simp [takeToken, hk, hpeek], ?_⟩
      rw [← String.length_toList]
      exact endsToken_of_token_eq htoken
    | argument hk hs he => exact ⟨by simp [takeToken, hk, hs], he⟩
  · rintro ⟨h, he⟩
    unfold takeToken at h
    split at h
    · next name hk =>
      split at h
      · next hpeek =>
        obtain ⟨rfl, rfl⟩ := Prod.mk.inj (Except.ok.inj h)
        refine .literal hk ?_
        rw [← eq_of_beq hpeek]
        simp [Reader.peekToken]
      · cases h
    · next name type hk =>
      split at h
      · next hs =>
        obtain ⟨rfl, rfl⟩ := Prod.mk.inj (Except.ok.inj h)
        exact .argument hk hs he
      · cases h
    · cases h
    · cases h

theorem tryChild_decides (source : L.Source) (p : Position L) (child : NodeId) :
    Decides p (t.Enters source p child) (t.tryChild source p.context p.reader child) := by
  unfold tryChild
  simp only
  cases htake : takeToken (t.node child) p.context p.reader with
  | error e =>
    refine Or.inr ⟨?_, _, rfl⟩
    rintro q ⟨taken, behind, hr, -⟩
    rw [reads_iff_takeToken, htake] at hr
    cases hr.1
  | ok pair =>
    obtain ⟨taken, behind⟩ := pair
    simp only
    have hreads : ∀ taken' behind', Reads t p child taken' behind' →
        taken' = taken ∧ behind' = behind ∧ endsToken behind.rest = true := by
      intro taken' behind' hr
      rw [reads_iff_takeToken, htake] at hr
      obtain ⟨rfl, rfl⟩ := Prod.mk.inj (Except.ok.inj hr.1)
      exact ⟨rfl, rfl, hr.2⟩
    by_cases he : endsToken behind.rest = true
    · rw [if_neg (by simp [he])]
      cases hg : (t.node child).gates.check source
          ((t.node child).gates.console.resolve p.context.console) with
      | some denial =>
        refine Or.inr ⟨?_, _, rfl⟩
        rintro q ⟨-, -, -, ha, -⟩
        rw [admits_iff_check, hg] at ha
        cases ha
      | none =>
        refine Or.inl ⟨t.beyond p child taken behind, ?_, leadsTo_continueAt ..⟩
        intro q'
        constructor
        · rintro ⟨taken', behind', hr, -, rfl⟩
          obtain ⟨rfl, rfl, -⟩ := hreads _ _ hr
          rfl
        · rintro rfl
          exact ⟨taken, behind, reads_iff_takeToken.2 ⟨htake, he⟩,
            (admits_iff_check ..).2 hg, rfl⟩
    · rw [if_pos (by simp [he])]
      refine Or.inr ⟨?_, _, rfl⟩
      rintro q ⟨taken', behind', hr, -⟩
      exact he (hreads _ _ hr).2.2

section Options

variable {name : String} {option : NodeId} {type : L.Argument}

theorem gives_iff (hkind : (t.node option).kind = .option name type) :
    let named := p.reader.pass (2 + name.length)
    let start := named.skipBlank
    Gives t source p name option q ↔
      t.Admits source option p.context.console ∧ (∀ o ∈ p.context.options, o.name ≠ name) ∧
      start.rest ≠ [] ∧ ∃ value behind, Scan.start (L.scan type) start = (.ok value, behind) ∧
        endsToken behind.rest = true ∧
        q = ⟨p.closed, p.node, p.context.takeOption ⟨name, option, p.node,
          ⟨p.reader.cursor, named.cursor⟩, ⟨start.cursor, behind.cursor⟩⟩ value,
          behind.skipBlank⟩ := by
  constructor
  · rintro ⟨hk, ha, hnew, rfl, rfl, hstart, hscan, hends⟩
    rw [hkind] at hk
    obtain ⟨-, rfl⟩ := NodeKind.option.inj hk
    exact ⟨ha, hnew, hstart, _, _, hscan, hends, rfl⟩
  · rintro ⟨ha, hnew, hstart, value, behind, hscan, hends, rfl⟩
    exact .intro hkind ha hnew rfl rfl hstart hscan hends

theorem takeOptionValue_decides (hkind : (t.node option).kind = .option name type)
    (ha : t.Admits source option p.context.console)
    (hnew : ∀ o ∈ p.context.options, o.name ≠ name) :
    Decides p (Gives t source p name option)
      (takeOptionValue name type option p.node p.context p.reader) := by
  unfold takeOptionValue
  simp only
  by_cases hstart : (p.reader.pass (2 + name.length)).skipBlank.canRead = true
  · rw [if_neg (by simp [hstart])]
    cases hscan : Scan.start (L.scan type) (p.reader.pass (2 + name.length)).skipBlank with
    | mk result behind =>
      cases result with
      | error e =>
        refine Or.inr ⟨fun q hq => ?_, _, rfl⟩
        obtain ⟨-, -, -, value, behind', hscan', -⟩ := (gives_iff hkind).1 hq
        rw [hscan] at hscan'
        cases hscan'
      | ok value =>
        simp only
        by_cases hends : endsToken behind.rest = true
        · rw [if_neg (by simp [hends])]
          refine Or.inl ⟨_, fun q => (gives_iff hkind).trans ?_, leadsTo_goOn ..⟩
          constructor
          · rintro ⟨-, -, -, value', behind', hscan', -, rfl⟩
            obtain ⟨hvalue, rfl⟩ := Prod.mk.inj (hscan.symm.trans hscan')
            obtain rfl := Except.ok.inj hvalue
            rfl
          · rintro rfl
            exact ⟨ha, hnew, Reader.canRead_iff.1 hstart, value, behind, hscan, hends, rfl⟩
        · rw [if_pos (by simp [hends])]
          refine Or.inr ⟨fun q hq => ?_, _, rfl⟩
          obtain ⟨-, -, -, value', behind', hscan', hends', -⟩ := (gives_iff hkind).1 hq
          obtain ⟨-, rfl⟩ := Prod.mk.inj (hscan.symm.trans hscan')
          exact hends hends'
  · rw [if_pos (by simp [hstart])]
    refine Or.inr ⟨fun q hq => ?_, _, rfl⟩
    exact hstart (Reader.canRead_iff.2 ((gives_iff hkind).1 hq).2.2.1)

theorem tryOption_decides (source : L.Source)
    (hkind : (t.node option).kind = .option name type) :
    Decides p (Gives t source p name option)
      (t.tryOption source p.context p.reader p.node option) := by
  unfold tryOption
  simp only [hkind]
  cases hg : (t.node option).gates.check source
      ((t.node option).gates.console.resolve p.context.console) with
  | some denial =>
    refine Or.inr ⟨fun q hq => ?_, _, rfl⟩
    have ha := ((gives_iff hkind).1 hq).1
    rw [admits_iff_check, hg] at ha
    cases ha
  | none =>
    simp only
    by_cases hgiven : p.context.hasOption name = true
    · rw [if_pos hgiven]
      refine Or.inr ⟨fun q hq => ?_, _, rfl⟩
      obtain ⟨o, ho, hname⟩ := List.any_eq_true.1 hgiven
      exact ((gives_iff hkind).1 hq).2.1 o ho (eq_of_beq hname)
    · rw [if_neg hgiven]
      exact takeOptionValue_decides hkind ((admits_iff_check ..).2 hg) fun o ho hname =>
        hgiven (List.any_eq_true.2 ⟨o, ho, beq_iff_eq.2 hname⟩)

end Options

/-! ### Outcomes -/

/-- What comes of an attempt that is followed to its end. -/
def outcomeOf (t : CommandTree L) (source : L.Source) (r : Reader) :
    Attempt L → Option (Outcome L)
  | .failed _ => none
  | .finished chain reader => some (.clean chain reader)
  | .goOn next taken reader =>
    some (if reader.rest.length < r.rest.length then t.follow source next taken reader
      else .clean ⟨taken, []⟩ reader)
  | .redirect taken fresh reader =>
    some (if reader.rest.length < r.rest.length then
      (t.follow source fresh.root fresh reader).behind taken
      else .clean ⟨taken, [fresh]⟩ reader)

theorem follow_eq (id : NodeId) (context : Context L) (r : Reader) :
    t.follow source id context r =
      (Outcome.best? ((t.attempts source id context r).filterMap
        fun a => t.outcomeOf source r a.2)).getD
        ⟨⟨context, []⟩, r, failuresOf (t.attempts source id context r)⟩ := by
  rw [follow]
  congr 3
  funext ⟨child, attempt⟩
  cases attempt with
  | failed f => rfl
  | finished chain reader => rfl
  | goOn next taken reader =>
    simp only [outcomeOf]
    split <;> rfl
  | redirect taken fresh reader =>
    simp only [outcomeOf]
    split <;> rfl

/-- What a step comes to: matching goes on from its end if something is left to read and the step
has read something. -/
def arrive (t : CommandTree L) (source : L.Source) (p q : Position L) : Outcome L :=
  if q.reader.rest ≠ [] ∧ q.reader.rest.length < p.reader.rest.length then
    (t.follow source q.node q.context q.reader).under q.closed
  else .clean q.chain q.reader

theorem outcomeOf_of_leadsTo (source : L.Source) {a : Attempt L} (h : LeadsTo p a q) :
    (t.outcomeOf source p.reader a).map (·.under p.closed) = some (t.arrive source p q) := by
  unfold arrive
  cases a with
  | failed f => exact h.elim
  | finished chain reader =>
    obtain ⟨hc, rfl, hr⟩ := h
    rw [if_neg (fun hh => hh.1 hr), hc]
    rfl
  | goOn node context reader =>
    obtain ⟨rfl, hr⟩ := h
    simp only [outcomeOf, Option.map_some, Option.some.injEq]
    split
    · next hlt => rw [if_pos ⟨hr, hlt⟩]
    · next hlt => rw [if_neg (fun hh => hlt hh.2)]; rfl
  | redirect context fresh reader =>
    obtain ⟨rfl, hr⟩ := h
    simp only [outcomeOf, Option.map_some, Option.some.injEq]
    split
    · next hlt =>
      rw [if_pos ⟨hr, hlt⟩]
      simp only [Outcome.under, Outcome.behind, Chain.under_append]
      rfl
    · next hlt =>
      rw [if_neg (fun hh => hlt hh.2)]
      simp only [Outcome.under, Outcome.clean, Position.chain, Chain.under_append]
      rfl

theorem isTaken_of_leadsTo {a : Attempt L} (h : LeadsTo p a q) : a.isTaken = true := by
  cases a with
  | failed f => exact h.elim
  | _ => rfl

theorem best?_map_under (os : List (Outcome L)) (closed : List (Context L)) :
    Outcome.best? (os.map (·.under closed)) = (Outcome.best? os).map (·.under closed) := by
  induction os with
  | nil => rfl
  | cons o os ih =>
    simp only [List.map_cons, Outcome.best?, ih]
    cases Outcome.best? os with
    | none => rfl
    | some b =>
      simp only [Option.map_some, Option.some.injEq]
      have hrank : ∀ o : Outcome L, (o.under closed).rank = o.rank := fun _ => rfl
      rw [hrank, hrank]
      split <;> rfl

theorem under_getD_best? (os : List (Outcome L)) (o : Outcome L) (closed : List (Context L)) :
    ((Outcome.best? os).getD o).under closed =
      (Outcome.best? (os.map (·.under closed))).getD (o.under closed) := by
  rw [best?_map_under]
  cases Outcome.best? os <;> rfl

/-- Whether numbered positions, in order, are those with a property, and attempts come to the same
as they do. -/
structure Covers (t : CommandTree L) (source : L.Source) (p : Position L)
    (P : Nat → Position L → Prop) (tries : List (NodeId × Attempt L))
    (steps : List (Nat × Position L)) : Prop where
  sorted : steps.Pairwise fun a b => a.1 < b.1
  mem : ∀ i q, P i q ↔ (i, q) ∈ steps
  outcomes : (tries.filterMap fun a => t.outcomeOf source p.reader a.2).map (·.under p.closed) =
    steps.map fun s => t.arrive source p s.2

section Covers

variable {P : Nat → Position L → Prop} {tries : List (NodeId × Attempt L)}
  {steps : List (Nat × Position L)}

theorem Covers.congr {P' : Nat → Position L → Prop} (h : t.Covers source p P tries steps)
    (hP : ∀ i q, P' i q ↔ P i q) : t.Covers source p P' tries steps :=
  ⟨h.sorted, fun i q => (hP i q).trans (h.mem i q), h.outcomes⟩

theorem Covers.cons_failed (h : t.Covers source p P tries steps) (id : NodeId)
    (f : BranchFailure) : t.Covers source p P ((id, .failed f) :: tries) steps :=
  ⟨h.sorted, h.mem, h.outcomes⟩

theorem Covers.cons {q : Position L} {a : Attempt L} {k : Nat} {P' : Nat → Position L → Prop}
    (h : t.Covers source p P tries steps) (id : NodeId) (ha : LeadsTo p a q)
    (hlater : ∀ i q, P i q → k < i) (hP : ∀ i q', P' i q' ↔ i = k ∧ q' = q ∨ P i q') :
    t.Covers source p P' ((id, a) :: tries) ((k, q) :: steps) where
  sorted := List.pairwise_cons.2
    ⟨fun s hs => hlater s.1 s.2 ((h.mem s.1 s.2).2 hs), h.sorted⟩
  mem i q' := by rw [hP, h.mem, List.mem_cons, Prod.mk.injEq]
  outcomes := by
    obtain ⟨o, ho, hou⟩ := Option.map_eq_some_iff.1 (outcomeOf_of_leadsTo (t := t) source ha)
    simp only [List.filterMap_cons, List.map_cons, ho, hou, h.outcomes]

theorem covers_nil : t.Covers source p (fun _ _ => False) [] [] :=
  ⟨.nil, by simp, rfl⟩

theorem Decides.covers {P : Position L → Prop} {a : Attempt L} (h : Decides p P a)
    (id : NodeId) : ∃ steps, t.Covers source p (fun i q => i = 0 ∧ P q) [(id, a)] steps := by
  rcases h with ⟨q, hq, hl⟩ | ⟨hno, f, rfl⟩
  · exact ⟨_, covers_nil.cons (k := 0) id hl (by simp) (by simp [hq])⟩
  · exact ⟨_, (covers_nil.cons_failed id f).congr (by simp [hno])⟩

theorem covers_arguments (source : L.Source) (p : Position L) (args : List NodeId) (k : Nat) :
    ∃ steps, t.Covers source p
      (fun i q => ∃ j child, i = k + j ∧ args[j]? = some child ∧ t.Enters source p child q)
      (args.map fun child => (child, t.tryChild source p.context p.reader child)) steps := by
  induction args generalizing k with
  | nil => exact ⟨[], covers_nil.congr (by simp)⟩
  | cons child args ih =>
    obtain ⟨steps, hsteps⟩ := ih (k + 1)
    -- the first argument, or one of those behind it
    have hsplit : ∀ i q, (∃ j c, i = k + j ∧ (child :: args)[j]? = some c ∧
        t.Enters source p c q) ↔ i = k ∧ t.Enters source p child q ∨
          ∃ j c, i = k + 1 + j ∧ args[j]? = some c ∧ t.Enters source p c q := by
      intro i q
      constructor
      · rintro ⟨j, c, rfl, hc, he⟩
        cases j with
        | zero =>
          obtain rfl := Option.some.inj hc
          exact Or.inl ⟨rfl, he⟩
        | succ j => exact Or.inr ⟨j, c, by omega, hc, he⟩
      · rintro (⟨rfl, he⟩ | ⟨j, c, rfl, hc, he⟩)
        · exact ⟨0, child, rfl, rfl, he⟩
        · exact ⟨j + 1, c, by omega, hc, he⟩
    rcases tryChild_decides (t := t) source p child with ⟨q, hq, hl⟩ | ⟨hno, f, hfail⟩
    · refine ⟨_, hsteps.cons child hl ?_ fun i q' => by rw [hsplit, hq]⟩
      rintro i q' ⟨j, c, rfl, -⟩
      omega
    · rw [List.map_cons, hfail]
      exact ⟨steps, (hsteps.cons_failed child f).congr fun i q =>
        (hsplit i q).trans (by simp [hno])⟩

end Covers

/-! ### Steps by what the token names -/

theorem NamesOption.step_iff {name : String} {option : NodeId} {i : Nat}
    (hn : t.NamesOption p name option) :
    Step t source p i q ↔ i = 0 ∧ Gives t source p name option q := by
  constructor
  · intro h
    cases h with
    | option hn' hg =>
      obtain ⟨rfl, rfl⟩ := namesOption_unique hn' hn
      exact ⟨rfl, hg⟩
    | literal hno _ _ => exact absurd hn (hno _ _)
    | argument hno _ _ _ => exact absurd hn (hno _ _)
  · rintro ⟨rfl, hg⟩
    exact .option hn hg

theorem NamesLiteral.step_iff {literal : NodeId} {i : Nat} (hn : t.NamesLiteral p literal)
    (hnone : ∀ name option, ¬t.NamesOption p name option)
    (ha : t.Admits source literal p.context.console) :
    Step t source p i q ↔ i = 0 ∧ t.Enters source p literal q := by
  constructor
  · intro h
    cases h with
    | option hn' _ => exact absurd hn' (hnone _ _)
    | literal _ hn' he =>
      obtain rfl := Option.some.inj (hn'.symm.trans hn)
      exact ⟨rfl, he⟩
    | argument _ hshadow _ _ => exact absurd ha (hshadow _ hn)
  · rintro ⟨rfl, he⟩
    exact .literal hnone hn he

theorem step_iff_argument {i : Nat} (hnone : ∀ name option, ¬t.NamesOption p name option)
    (hno : ∀ literal, t.NamesLiteral p literal → ¬t.Admits source literal p.context.console) :
    Step t source p i q ↔ ∃ child, (t.node p.node).arguments[i]? = some child ∧
      t.Enters source p child q := by
  constructor
  · intro h
    cases h with
    | option hn _ => exact absurd hn (hnone _ _)
    | literal _ hn he =>
      obtain ⟨-, -, -, ha, -⟩ := he
      exact absurd ha (hno _ hn)
    | argument _ _ hc he => exact ⟨_, hc, he⟩
  · rintro ⟨child, hc, he⟩
    exact .argument hnone hno hc he

theorem Filed.enters_literal (hf : Filed t layer) {child : NodeId} (hn : t.NamesLiteral p child) :
    (∃ q, t.Enters source p child q) ↔ t.Admits source child p.context.console := by
  obtain ⟨-, -, hk⟩ := (hf p.node).literal _ (Keyed.mem_entries_of_find? hn)
  constructor
  · rintro ⟨q, taken, behind, -, ha, -⟩
    exact ha
  · intro ha
    exact ⟨_, _, _, .literal hk (by simp), ha, rfl⟩

theorem Filed.covers_attempts (hf : Filed t layer) (source : L.Source) (p : Position L) :
    ∃ steps, t.Covers source p (Step t source p)
      (t.attempts source p.node p.context p.reader) steps := by
  simp only [attempts]
  cases hopt : namedOption? (t.node p.node) (token p.reader.rest) with
  | some option =>
    obtain ⟨name, hn⟩ := namedOption?_eq_some_iff.1 hopt
    obtain ⟨type, hk⟩ := ((hf p.node).option _ (Keyed.mem_entries_of_find? hn.2)).2
    obtain ⟨steps, hsteps⟩ := (tryOption_decides (p := p) source hk).covers option
    exact ⟨steps, hsteps.congr fun i q => hn.step_iff⟩
  | none =>
    have hnone := namedOption?_eq_none_iff.1 hopt
    obtain ⟨steps, hsteps⟩ := covers_arguments (t := t) source p (t.node p.node).arguments 0
    -- with no literal in the way, the steps are those of the arguments
    have harguments (hno : ∀ literal, t.NamesLiteral p literal →
        ¬t.Admits source literal p.context.console) : t.Covers source p (Step t source p) _ steps :=
      hsteps.congr fun i q => (step_iff_argument hnone hno).trans (by simp)
    cases hlit : (t.node p.node).literals.find? (String.ofList (token p.reader.rest)) with
    | none =>
      refine ⟨steps, harguments fun literal hn => ?_⟩
      exact absurd (hlit.symm.trans hn) (by simp)
    | some literal =>
      have hname : t.NamesLiteral p literal := hlit
      have henters : (∃ q, t.Enters source p literal q) ↔
          t.Admits source literal p.context.console := hf.enters_literal hname
      rcases tryChild_decides (t := t) source p literal with ⟨q, hq, hl⟩ | ⟨hno, f, hfail⟩
      · have ha : t.Admits source literal p.context.console := henters.1 ⟨q, (hq q).2 rfl⟩
        simp only [isTaken_of_leadsTo hl, if_true]
        obtain ⟨steps, hsteps⟩ := (tryChild_decides (t := t) source p literal).covers literal
        exact ⟨steps, hsteps.congr fun i q => hname.step_iff hnone ha⟩
      · simp only [hfail, Attempt.isTaken, Bool.false_eq_true, if_false]
        refine ⟨steps, (harguments fun literal' hn ha => ?_).cons_failed literal f⟩
        obtain rfl := Option.some.inj (hn.symm.trans hname)
        obtain ⟨q, hq⟩ := henters.2 ha
        exact hno q hq

/-- Parsing from a position keeps the best of what the steps from there come to; without any step
it stays there, with the reasons of all failures. -/
theorem Filed.follow_steps (hf : Filed t layer) (source : L.Source) (p : Position L) :
    ∃ steps : List (Nat × Position L), steps.Pairwise (fun a b => a.1 < b.1) ∧
      (∀ i q, Step t source p i q ↔ (i, q) ∈ steps) ∧
      (t.follow source p.node p.context p.reader).under p.closed =
        (Outcome.best? (steps.map fun s => t.arrive source p s.2)).getD
          ⟨p.chain, p.reader, failuresOf (t.attempts source p.node p.context p.reader)⟩ := by
  obtain ⟨steps, hsteps⟩ := hf.covers_attempts source p
  refine ⟨steps, hsteps.sorted, hsteps.mem, ?_⟩
  rw [follow_eq, under_getD_best?, hsteps.outcomes]
  rfl

/-! ### Steps pass text -/

theorem reader_beyond (p : Position L) (child : NodeId) (taken : Context L) (behind : Reader) :
    (t.beyond p child taken behind).reader = behind.skipBlank := by
  unfold beyond
  cases (t.node child).forward with
  | none => rfl
  | some forward =>
    simp only
    split <;> rfl

theorem Reads.behind (hL : L.ReadsForward) {child : NodeId} {taken : Context L} {behind : Reader}
    (h : Reads t p child taken behind) : ∃ n, behind = p.reader.pass n := by
  cases h with
  | literal _ _ => exact ⟨_, rfl⟩
  | argument _ hs _ => exact hL _ _ _ _ hs

/-- Entering a child passes its token, up to a blank or the end of the line, and the blanks behind.
-/
theorem Enters.passes (hL : L.ReadsForward) {child : NodeId} (h : t.Enters source p child q) :
    ∃ n, endsToken (p.reader.pass n).rest = true ∧ q.reader = (p.reader.pass n).skipBlank := by
  obtain ⟨taken, behind, hr, -, rfl⟩ := h
  have hends : endsToken behind.rest = true := (reads_iff_takeToken.1 hr).2
  obtain ⟨n, rfl⟩ := hr.behind hL
  exact ⟨n, hends, reader_beyond ..⟩

theorem Gives.passes (hL : L.ReadsForward) {name : String} {option : NodeId}
    (h : Gives t source p name option q) :
    ∃ n, endsToken (p.reader.pass n).rest = true ∧ q.reader = (p.reader.pass n).skipBlank := by
  obtain ⟨-, -, -, hnamed, hstart, -, hs, he⟩ := h
  obtain ⟨n, hbehind⟩ := hL _ _ _ _ hs
  rw [hstart, Reader.skipBlank_eq_pass, hnamed, Reader.pass_pass, Reader.pass_pass] at hbehind
  exact ⟨_, hbehind ▸ he, congrArg Reader.skipBlank hbehind⟩

/-- A step in front of ink passes at least one character, up to a blank or the end of the line, and
the blanks behind. -/
theorem Step.passes (hL : L.ReadsForward) {i : Nat} (h : Step t source p i q)
    (hink : p.reader.AtInk) :
    ∃ n, 0 < n ∧ endsToken (p.reader.pass n).rest = true ∧
      q.reader = (p.reader.pass n).skipBlank := by
  have hpass : ∃ n, endsToken (p.reader.pass n).rest = true ∧
      q.reader = (p.reader.pass n).skipBlank := by
    cases h with
    | option _ hg => exact hg.passes hL
    | literal _ _ he => exact he.passes hL
    | argument _ _ _ he => exact he.passes hL
  obtain ⟨n, hends, hq⟩ := hpass
  refine ⟨n, Nat.pos_of_ne_zero fun h0 => ?_, hends, hq⟩
  rw [h0] at hends
  exact hink.not_endsToken hends

theorem Step.rest_lt (hL : L.ReadsForward) {i : Nat} (h : Step t source p i q)
    (hink : p.reader.AtInk) : q.reader.rest.length < p.reader.rest.length := by
  obtain ⟨n, hn, -, hq⟩ := h.passes hL hink
  obtain ⟨c, cs, hr, -⟩ := hink
  rw [hq, Reader.skipBlank_eq_pass, Reader.pass_pass, Reader.rest_pass, List.length_drop, hr,
    List.length_cons]
  omega

theorem Step.cases_reader (hL : L.ReadsForward) {i : Nat} (h : Step t source p i q)
    (hink : p.reader.AtInk) : q.reader.rest = [] ∨ q.reader.AtInk := by
  obtain ⟨n, -, -, hq⟩ := h.passes hL hink
  rw [hq]
  exact Reader.skipBlank_cases _

/-! ### Outcomes are ends of runs -/

/-- Every outcome of parsing from a position is the end of a run of steps from there. -/
theorem Filed.follow_ends (hf : Filed t layer) (source : L.Source) (p : Position L) :
    ∃ q failures, (t.follow source p.node p.context p.reader).under p.closed =
        ⟨q.chain, q.reader, failures⟩ ∧
      (q = p ∨ ∃ i q₁ choices, Step t source p i q₁ ∧ Run t source q₁ choices q) := by
  obtain ⟨steps, -, hmem, heq⟩ := hf.follow_steps source p
  rw [heq]
  cases hbest : Outcome.best? (steps.map fun s => t.arrive source p s.2) with
  | none => exact ⟨p, _, rfl, Or.inl rfl⟩
  | some b =>
    obtain ⟨before, behind, hsplit, -⟩ := Outcome.best?_eq_some hbest
    have hb : b ∈ steps.map fun s => t.arrive source p s.2 := by rw [hsplit]; simp
    obtain ⟨⟨i, q₁⟩, hs, rfl⟩ := List.mem_map.1 hb
    have hstep : Step t source p i q₁ := (hmem i q₁).2 hs
    simp only [Option.getD_some]
    unfold arrive
    by_cases hgo : q₁.reader.rest ≠ [] ∧ q₁.reader.rest.length < p.reader.rest.length
    · rw [if_pos hgo]
      obtain ⟨q, failures, hq, hrun⟩ := hf.follow_ends source q₁
      refine ⟨q, failures, hq, Or.inr ⟨i, q₁, ?_⟩⟩
      rcases hrun with rfl | ⟨j, q₂, choices, hs₂, hr₂⟩
      · exact ⟨[], hstep, .done _⟩
      · exact ⟨j :: choices, hstep, .step hgo.1 hs₂ hr₂⟩
    · rw [if_neg hgo]
      exact ⟨q₁, .empty, rfl, Or.inr ⟨i, q₁, [], hstep, .done _⟩⟩
termination_by p.reader.rest.length
decreasing_by exact hgo.2

/-! ### Invariants of steps -/

theorem Step.gives_or_enters {i : Nat} (h : Step t source p i q) :
    (∃ name option, t.NamesOption p name option ∧ Gives t source p name option q) ∨
      ∃ child, (t.NamesLiteral p child ∨ child ∈ (t.node p.node).arguments) ∧
        t.Enters source p child q := by
  cases h with
  | option hn hg => exact Or.inl ⟨_, _, hn, hg⟩
  | literal _ hn he => exact Or.inr ⟨_, Or.inl hn, he⟩
  | argument _ _ hc he => exact Or.inr ⟨_, Or.inr (List.mem_of_getElem? hc), he⟩

theorem beyond_cases (p : Position L) (child : NodeId) (taken : Context L) (behind : Reader) :
    let policy := (t.node child).gates.console.resolve p.context.console
    let entered := taken.enter child (t.node child) ⟨p.reader.cursor, behind.cursor⟩ policy
    t.beyond p child taken behind = ⟨p.closed, child, entered, behind.skipBlank⟩ ∨
      ∃ forward, (t.node child).forward = some forward ∧ behind.canRead = true ∧
        t.beyond p child taken behind = ⟨p.closed ++ [entered], forward.target,
          Context.startAt forward.target behind.skipBlank.cursor policy, behind.skipBlank⟩ := by
  intro policy entered
  unfold beyond
  cases hf : (t.node child).forward with
  | none => exact Or.inl rfl
  | some forward =>
    simp only
    by_cases hb : behind.canRead = true
    · rw [if_pos hb]
      exact Or.inr ⟨forward, rfl, hb, rfl⟩
    · rw [if_neg hb]
      exact Or.inl rfl

theorem Run.invariant {P : Position L → Prop} (hstep : ∀ p i q, P p → Step t source p i q → P q)
    {choices : List Nat} (h : Run t source p choices q) (hp : P p) : P q := by
  induction h with
  | done => exact hp
  | step _ hs _ ih => exact ih (hstep _ _ _ hp hs)

/-- What holds at the start of a line and is kept by every step holds where parsing ends. -/
theorem Filed.parseFrom_invariant (hf : Filed t layer) {P : Position L → Prop}
    (source : L.Source) (r : Reader)
    (hstart : P (Position.start r.skipBlank))
    (hstep : ∀ p i q, P p → Step t source p i q → P q) :
    ∃ q, P q ∧ (t.parseFrom r source).chain = q.chain ∧
      (t.parseFrom r source).reader = q.reader := by
  obtain ⟨q, failures, heq, hrun⟩ := hf.follow_ends source (Position.start r.skipBlank)
  have hout : (t.parseFrom r source).outcome = ⟨q.chain, q.reader, failures⟩ := heq
  refine ⟨q, ?_, congrArg Outcome.chain hout, congrArg Outcome.reader hout⟩
  rcases hrun with rfl | ⟨i, q₁, choices, hs, hr⟩
  · exact hstart
  · exact hr.invariant hstep (hstep _ _ _ hstart hs)

end CommandTree

end CommandConsole
