import CommandConsole.Proofs.Exactness
import CommandConsole.Proofs.Filing

/-!
# Denied nodes

A node whose requirement or permission denies it to a source is still tried on the tokens of a
line, and its failures are weighed between outcomes. The tree without the node is tried on the same
line: at every position the attempts that take the token are the same in both trees, and so are the
lines that are consumed and what they are matched with.
-/

namespace CommandConsole

variable {L : Language}

/-! ### Trees without a node -/

def Keyed.without {κ α : Type} [DecidableEq α] (m : Keyed κ α) (v : α) : Keyed κ α :=
  ⟨m.entries.filter fun e => e.2 ≠ v⟩

theorem Keyed.find?_without {κ α : Type} [DecidableEq κ] [DecidableEq α] {m : Keyed κ α}
    (h : m.keys.Nodup) (k : κ) (v : α) :
    (m.without v).find? k = (m.find? k).filter fun v' => v' ≠ v := by
  have hsub : (m.without v).keys.Nodup := h.sublist (List.filter_sublist.map _)
  ext v'
  rw [Keyed.find?_eq_some_iff hsub, Option.filter_eq_some_iff, Keyed.find?_eq_some_iff h]
  simp [without]

def Node.unlink (n : Node L) (d : NodeId) : Node L :=
  { n with
    children := n.children.without d
    literals := n.literals.without d
    arguments := n.arguments.filter fun c => c ≠ d }

/-- Whether a line is consumed in both of two outcomes, with the same contexts, or in neither. -/
structure Outcome.AcceptsAs (o o' : Outcome L) : Prop where
  consumed : o.reader.rest = [] ↔ o'.reader.rest = []
  chain : o.reader.rest = [] → o.chain = o'.chain

/-- Whether two outcomes accept alike, and have no failures if they consume the line. -/
structure Outcome.Accords (o o' : Outcome L) : Prop extends o.AcceptsAs o' where
  clean : o.reader.rest = [] → o.failures.entries = []
  clean' : o'.reader.rest = [] → o'.failures.entries = []

/-- Whether matching goes on only where something is left to read. -/
def Attempt.ReadsOn : Attempt L → Prop
  | .goOn _ _ reader | .redirect _ _ reader => reader.rest ≠ []
  | .failed _ | .finished _ _ => True

namespace CommandTree

/-- The tree with a node cut off from all of its parents. -/
def unlink (t : CommandTree L) (d : NodeId) : CommandTree L := ⟨t.nodes.map (·.unlink d)⟩

/-- Whether the requirement or the permission of a node denies it to a source. -/
def Refuses (t : CommandTree L) (source : L.Source) (d : NodeId) : Prop :=
  (∃ p, (t.node d).gates.requirement = some p ∧ p source = false) ∨
    ∃ name, (t.node d).gates.permission = some name ∧ L.holds source name = false

variable {t : CommandTree L} {source : L.Source} {d : NodeId} {layer : NodeId → Nat}

theorem node_unlink (t : CommandTree L) (d id : NodeId) :
    (t.unlink d).node id = (t.node id).unlink d := by
  unfold node node? unlink
  rw [Array.getElem?_map]
  cases t.nodes[id]? <;> rfl

theorem Refuses.not_admits (hd : t.Refuses source d) (above : ConsolePolicy) :
    ¬t.Admits source d above := by
  rintro ⟨hrequirement, hpermission, -⟩
  rcases hd with ⟨p, hp, hno⟩ | ⟨name, hname, hno⟩
  · exact absurd (hrequirement p hp) (by simp [hno])
  · exact absurd (hpermission name hname) (by simp [hno])

/-! ### Attempts -/

theorem tryChild_unlink (context : Context L) (r : Reader) (child : NodeId) :
    (t.unlink d).tryChild source context r child = t.tryChild source context r child := by
  unfold tryChild
  rw [node_unlink]
  rfl

theorem tryOption_unlink (context : Context L) (r : Reader) (owner option : NodeId) :
    (t.unlink d).tryOption source context r owner option =
      t.tryOption source context r owner option := by
  unfold tryOption
  rw [node_unlink]
  rfl

theorem Refuses.tryChild (hd : t.Refuses source d) (context : Context L) (r : Reader) :
    (t.tryChild source context r d).isTaken = false := by
  rcases tryChild_decides (t := t) source ⟨[], d, context, r⟩ d with ⟨q, hq, -⟩ | ⟨-, f, hf⟩
  · obtain ⟨-, -, -, hadmits, -⟩ := (hq q).2 rfl
    exact absurd hadmits (hd.not_admits _)
  · exact congrArg Attempt.isTaken hf

theorem Refuses.arguments (hd : t.Refuses source d) (context : Context L) (r : Reader)
    (args : List NodeId) :
    (((args.filter fun c => c ≠ d).map fun c => (c, t.tryChild source context r c)).filter
        fun a => a.2.isTaken) =
      (args.map fun c => (c, t.tryChild source context r c)).filter fun a => a.2.isTaken := by
  induction args with
  | nil => rfl
  | cons c args ih =>
    by_cases hc : c = d
    · subst hc
      simpa [hd.tryChild context r] using ih
    · rw [List.filter_cons_of_pos (by simpa using hc), List.map_cons, List.map_cons,
        List.filter_cons, List.filter_cons, ih]

theorem Refuses.attempts (hd : t.Refuses source d) (ht : t.Tidied) (id : NodeId)
    (context : Context L) (r : Reader) :
    ((t.unlink d).attempts source id context r).filter (fun a => a.2.isTaken) =
      (t.attempts source id context r).filter fun a => a.2.isTaken := by
  unfold CommandTree.attempts
  simp only [node_unlink, tryChild_unlink, tryOption_unlink]
  have hoption : namedOption? ((t.node id).unlink d) (Text.token r.rest) =
      namedOption? (t.node id) (Text.token r.rest) := rfl
  have hliteral := Keyed.find?_without (ht id).literals (String.ofList (Text.token r.rest)) d
  rw [hoption]
  cases namedOption? (t.node id) (Text.token r.rest) with
  | some option => rfl
  | none =>
    simp only [Node.unlink, hliteral]
    cases (t.node id).literals.find? (String.ofList (Text.token r.rest)) with
    | none => exact hd.arguments context r _
    | some literal =>
      by_cases hl : literal = d
      · -- the denied literal fails, so its arguments are tried in both trees
        subst hl
        have htaken := hd.tryChild context r
        simp only [Option.filter_some, ne_eq, not_true_eq_false, decide_false,
          Bool.false_eq_true, if_false, htaken]
        rw [List.filter_cons, htaken, if_neg Bool.false_ne_true]
        exact hd.arguments context r _
      · simp only [Option.filter_some, decide_eq_true hl, if_true]
        by_cases htaken : (t.tryChild source context r literal).isTaken = true
        · simp only [htaken, if_true]
        · simp only [htaken, Bool.false_eq_true, if_false]
          rw [List.filter_cons, List.filter_cons, hd.arguments context r]

theorem Decides.readsOn {p : Position L} {P : Position L → Prop} {a : Attempt L}
    (h : Decides p P a) : a.ReadsOn := by
  rcases h with ⟨q, -, hl⟩ | ⟨-, f, rfl⟩
  · cases a with
    | failed f => trivial
    | finished chain reader => trivial
    | goOn node context reader => exact hl.2
    | redirect context fresh reader => exact hl.2
  · trivial

theorem Filed.attempts_readsOn (hf : Filed t layer) {id : NodeId} {context : Context L}
    {r : Reader} {a : NodeId × Attempt L} (ha : a ∈ t.attempts source id context r) :
    a.2.ReadsOn := by
  have hchild : ∀ c, (t.tryChild source context r c).ReadsOn := fun c =>
    (tryChild_decides (t := t) source ⟨[], id, context, r⟩ c).readsOn
  have harguments : ∀ a ∈ (t.node id).arguments.map fun c => (c, t.tryChild source context r c),
      a.2.ReadsOn := by
    intro a ha
    obtain ⟨c, -, rfl⟩ := List.mem_map.1 ha
    exact hchild c
  unfold CommandTree.attempts at ha
  cases hopt : namedOption? (t.node id) (Text.token r.rest) with
  | some option =>
    obtain ⟨name, -, hn⟩ := (namedOption?_eq_some_iff (p := ⟨[], id, context, r⟩)).1 hopt
    obtain ⟨-, type, hkind⟩ := (hf id).option _ (Keyed.mem_entries_of_find? hn)
    simp only [hopt, List.mem_singleton] at ha
    rw [ha]
    exact (tryOption_decides (p := ⟨[], id, context, r⟩) source hkind).readsOn
  | none =>
    simp only [hopt] at ha
    split at ha
    · next literal _ =>
      split at ha
      · rw [List.mem_singleton.1 ha]
        exact hchild literal
      · rcases List.mem_cons.1 ha with rfl | ha
        · exact hchild literal
        · exact harguments a ha
    · exact harguments a ha

/-! ### Outcomes -/

theorem filterMap_outcomeOf (t : CommandTree L) (source : L.Source) (r : Reader)
    (tried : List (NodeId × Attempt L)) :
    (tried.filterMap fun a => t.outcomeOf source r a.2) =
      (tried.filter fun a => a.2.isTaken).filterMap fun a => t.outcomeOf source r a.2 := by
  induction tried with
  | nil => rfl
  | cons a tried ih =>
    obtain ⟨id, attempt⟩ := a
    rw [List.filterMap_cons, List.filter_cons, ih]
    cases attempt <;> rfl

theorem accords_clean (chain : Chain L) (reader : Reader) :
    (Outcome.clean chain reader).Accords (.clean chain reader) :=
  ⟨⟨Iff.rfl, fun _ => rfl⟩, fun _ => rfl, fun _ => rfl⟩

theorem accords_of_rest {o o' : Outcome L} (h : o.reader.rest ≠ []) (h' : o'.reader.rest ≠ []) :
    o.Accords o' :=
  ⟨⟨iff_of_false h h', fun hr => absurd hr h⟩, fun hr => absurd hr h, fun hr => absurd hr h'⟩

theorem accords_better {o o' b b' : Outcome L} (ho : o.Accords o') (hb : b.Accords b') :
    (if b.rank < o.rank then b else o).Accords (if b'.rank < o'.rank then b' else o') := by
  by_cases hover : o.reader.rest = []
  · have h0 : o.rank = 0 := rank_of_clean hover (ho.clean hover)
    have hover' := ho.consumed.1 hover
    have h0' : o'.rank = 0 := rank_of_clean hover' (ho.clean' hover')
    rw [h0, h0', if_neg (Nat.not_lt_zero _), if_neg (Nat.not_lt_zero _)]
    exact ho
  · have hover' : o'.reader.rest ≠ [] := fun h => hover (ho.consumed.2 h)
    have h2 : 2 ≤ o.rank := two_le_rank hover
    have h2' : 2 ≤ o'.rank := two_le_rank hover'
    by_cases hbover : b.reader.rest = []
    · have h0 : b.rank = 0 := rank_of_clean hbover (hb.clean hbover)
      have hbover' := hb.consumed.1 hbover
      have h0' : b'.rank = 0 := rank_of_clean hbover' (hb.clean' hbover')
      rw [if_pos (by omega), if_pos (by omega)]
      exact hb
    · -- none of the four consumes the line, whichever are better
      have hbover' : b'.reader.rest ≠ [] := fun h => hbover (hb.consumed.2 h)
      refine accords_of_rest ?_ ?_
      · split <;> assumption
      · split <;> assumption

theorem best?_accords {α : Type} {f g : α → Option (Outcome L)} {as : List α}
    (h : ∀ a ∈ as, Option.Rel Outcome.Accords (f a) (g a)) :
    Option.Rel Outcome.Accords (Outcome.best? (as.filterMap f))
      (Outcome.best? (as.filterMap g)) := by
  induction as with
  | nil => exact .none
  | cons a as ih =>
    have hrest := ih fun a' ha' => h a' (List.mem_cons_of_mem _ ha')
    have hmine := h a List.mem_cons_self
    rw [List.filterMap_cons, List.filterMap_cons]
    revert hmine
    cases f a <;> cases g a <;> intro hmine <;> cases hmine
    · exact hrest
    · next o o' ho =>
      unfold Outcome.best?
      revert hrest
      cases Outcome.best? (as.filterMap f) <;> cases Outcome.best? (as.filterMap g) <;>
        intro hrest <;> cases hrest
      · exact .some ho
      · next hb => exact .some (accords_better ho hb)

theorem Filed.follow_unlink (hf : Filed t layer) (ht : t.Tidied) (hd : t.Refuses source d)
    (id : NodeId) (context : Context L) (r : Reader) :
    (t.follow source id context r).AcceptsAs ((t.unlink d).follow source id context r) ∧
      (r.rest ≠ [] → (t.follow source id context r).Accords
        ((t.unlink d).follow source id context r)) := by
  have hbest : Option.Rel Outcome.Accords
      (Outcome.best? ((t.attempts source id context r).filterMap
        fun a => t.outcomeOf source r a.2))
      (Outcome.best? (((t.unlink d).attempts source id context r).filterMap
        fun a => (t.unlink d).outcomeOf source r a.2)) := by
    rw [filterMap_outcomeOf, filterMap_outcomeOf (t.unlink d), hd.attempts ht]
    refine best?_accords fun a ha => ?_
    have hon : a.2.ReadsOn := hf.attempts_readsOn (List.mem_filter.1 ha).1
    obtain ⟨c, attempt⟩ := a
    cases attempt with
    | failed f => exact .none
    | finished chain reader => exact .some (accords_clean chain reader)
    | goOn next taken reader =>
      refine .some ?_
      split
      · exact (hf.follow_unlink ht hd next taken reader).2 hon
      · exact accords_clean _ _
    | redirect taken fresh reader =>
      refine .some ?_
      split
      · have ih := (hf.follow_unlink ht hd fresh.root fresh reader).2 hon
        refine ⟨⟨ih.consumed, fun hr => ?_⟩, ih.clean, ih.clean'⟩
        exact congrArg (fun c : Chain L => (⟨taken, c.toList⟩ : Chain L)) (ih.chain hr)
      · exact accords_clean _ _
  rw [follow_eq, follow_eq]
  revert hbest
  cases Outcome.best? ((t.attempts source id context r).filterMap
      fun a => t.outcomeOf source r a.2) <;>
    cases Outcome.best? (((t.unlink d).attempts source id context r).filterMap
      fun a => (t.unlink d).outcomeOf source r a.2) <;> intro hbest <;> cases hbest
  · -- no attempt takes the token: both stay in front of it
    exact ⟨⟨Iff.rfl, fun _ => rfl⟩, fun hr => accords_of_rest hr hr⟩
  · next hb => exact ⟨hb.toAcceptsAs, fun _ => hb⟩
termination_by r.rest.length

/-! ### Lines -/

/-- A node whose requirement or permission denies it to a source is invisible to the lines that are
accepted: the same lines are consumed in the tree without it, and matched with the same contexts. -/
theorem parse_unlink (ht : t.Reachable) (hd : t.Refuses source d) (line : String) :
    ((t.parse line source).isComplete = true ↔
      ((t.unlink d).parse line source).isComplete = true) ∧
    ((t.parse line source).isComplete = true →
      (t.parse line source).chain = ((t.unlink d).parse line source).chain) := by
  obtain ⟨layer, hg⟩ := ht.grown
  rw [Parsed.isComplete_iff, Parsed.isComplete_iff]
  obtain ⟨hover, hchain⟩ := (hg.filed.follow_unlink hg.tidied hd root
    (Context.startAt root (Reader.ofString line).skipBlank.cursor .inherited)
    (Reader.ofString line).skipBlank).1
  exact ⟨hover, hchain⟩

/-- A command that tells something to all, with a permission, or to a name, and goes on. -/
def announcements : CommandTree console := built [
    (word "tell"
      [{ ending (word "all" []) .talk [] with gates := needing "mcadmin.broadcast" },
        ending (builtinArgument "name" .word) .talk
          [{ Blueprint.literal "then" with forward := some ⟨root, none, false⟩ }]])]

theorem reachable_announcements : announcements.Reachable := reachable_built _

theorem parse_unlink_announcements :
    announcements.Refuses (.player "Steve" []) 2 ∧
      (announcements.parse "tell all then tell all" (.player "Steve" [])).isComplete = true ∧
      (((announcements.parse "tell all then tell all" (.player "Steve" [])).isComplete = true ↔
          ((announcements.unlink 2).parse "tell all then tell all"
            (.player "Steve" [])).isComplete = true) ∧
        ((announcements.parse "tell all then tell all" (.player "Steve" [])).isComplete = true →
          (announcements.parse "tell all then tell all" (.player "Steve" [])).chain =
            ((announcements.unlink 2).parse "tell all then tell all"
              (.player "Steve" [])).chain)) := by
  have hdenied : announcements.Refuses (.player "Steve" []) 2 :=
    Or.inr ⟨"mcadmin.broadcast", by decide +kernel, by decide +kernel⟩
  exact ⟨hdenied, by decide +kernel, parse_unlink reachable_announcements hdenied _⟩

end CommandTree

end CommandConsole
