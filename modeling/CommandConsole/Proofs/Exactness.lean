import CommandConsole.Proofs.Tokens
import Mathlib.Data.List.TakeWhile

/-!
# Parsing is exact

A line is consumed exactly when some run of steps takes all of it, and then it is matched as the
first such run says: the one whose numbers of steps come first, compared from the left. Choosing
the best outcome at every single position is enough for that, since an outcome that consumes the
line never ranks behind one that does not.
-/

namespace CommandConsole

open Text

variable {L : Language}

namespace CommandTree

variable {t : CommandTree L} {source : L.Source} {p q : Position L} {layer : NodeId → Nat}

/-- The first run that takes all that is left. -/
structure FirstRun (t : CommandTree L) (source : L.Source) (p : Position L) (choices : List Nat)
    (q : Position L) : Prop where
  run : Run t source p choices q
  consumed : q.reader.rest = []
  first : ∀ choices' q', Run t source p choices' q' → q'.reader.rest = [] →
    choices' = choices ∧ q' = q ∨ choices < choices'

/-- Whether an outcome is what the runs from a position call for: it consumes the line if one of
them does, then as the first that does, and without any failure. -/
structure Exact (t : CommandTree L) (source : L.Source) (p : Position L) (o : Outcome L) :
    Prop where
  found : ∀ choices q, Run t source p choices q → q.reader.rest = [] → o.reader.rest = []
  clean : o.reader.rest = [] → o.failures.entries = []
  first : o.reader.rest = [] → ∃ choices q, FirstRun t source p choices q ∧ o.chain = q.chain

/-! ### Ranks -/

theorem rank_of_clean {o : Outcome L} (hr : o.reader.rest = []) (hf : o.failures.entries = []) :
    o.rank = 0 := by
  have hc : ¬o.reader.canRead = true := Reader.not_canRead_iff.2 hr
  simp [Outcome.rank, hc, hf]

theorem two_le_rank {o : Outcome L} (hr : o.reader.rest ≠ []) : 2 ≤ o.rank := by
  unfold Outcome.rank
  rw [if_pos (Reader.canRead_iff.2 hr)]
  omega

theorem Exact.over_of_rank_le {o o' : Outcome L} (h : Exact t source p o)
    (ho : o.reader.rest = []) (hle : o'.rank ≤ o.rank) : o'.reader.rest = [] := by
  by_cases hr : o'.reader.rest = []
  · exact hr
  · have h0 := rank_of_clean ho (h.clean ho)
    have h2 := two_le_rank hr
    omega

/-! ### Runs step by step -/

theorem run_of_rest_nil {choices : List Nat} (h : p.reader.rest = [])
    (hrun : Run t source p choices q) : choices = [] ∧ q = p := by
  cases hrun with
  | done => exact ⟨rfl, rfl⟩
  | step hr _ _ => exact absurd h hr

theorem exact_of_rest_nil (h : p.reader.rest = []) :
    Exact t source p (.clean p.chain p.reader) where
  found _ _ _ _ := h
  clean _ := rfl
  first _ := by
    refine ⟨[], p, ⟨.done p, h, fun choices' q' hrun _ => Or.inl ?_⟩, rfl⟩
    exact run_of_rest_nil h hrun

theorem first_step {steps : List (Nat × Position L)} (hp : p.reader.rest ≠ [])
    (hmem : ∀ i q, Step t source p i q ↔ (i, q) ∈ steps) {choices : List Nat}
    (hrun : Run t source p choices q) (hq : q.reader.rest = []) :
    ∃ s ∈ steps, ∃ more, choices = s.1 :: more ∧ Run t source s.2 more q := by
  cases hrun with
  | done => exact absurd hq hp
  | @step _ q₁ _ i more _ hs hr => exact ⟨(i, q₁), (hmem i q₁).1 hs, more, rfl, hr⟩

theorem exact_of_steps {steps : List (Nat × Position L)} {arrival : Position L → Outcome L}
    {b : Outcome L} (hp : p.reader.rest ≠ []) (hsorted : steps.Pairwise fun a b => a.1 < b.1)
    (hmem : ∀ i q, Step t source p i q ↔ (i, q) ∈ steps)
    (hexact : ∀ s ∈ steps, Exact t source s.2 (arrival s.2))
    (hbest : Outcome.best? (steps.map fun s => arrival s.2) = some b) : Exact t source p b := by
  obtain ⟨before, behind, hsplit, hbefore, hbehind⟩ := Outcome.best?_eq_some hbest
  obtain ⟨front, back, rfl, hfront, hback⟩ := List.map_eq_append_iff.1 hsplit
  obtain ⟨s, rest, rfl, hs, hrest⟩ := List.map_eq_cons_iff.1 hback
  have hmine : s ∈ front ++ s :: rest := by simp
  have hb : Exact t source s.2 b := hs ▸ hexact s hmine
  have hle : ∀ s' ∈ front ++ s :: rest, b.rank ≤ (arrival s'.2).rank := by
    intro s' hs'
    rcases List.mem_append.1 hs' with hs' | hs'
    · exact Nat.le_of_lt (hbefore _ (hfront ▸ List.mem_map_of_mem hs'))
    · rcases List.mem_cons.1 hs' with rfl | hs'
      · exact Nat.le_of_eq (congrArg Outcome.rank hs.symm)
      · exact hbehind _ (hrest ▸ List.mem_map_of_mem hs')
  refine ⟨?_, hb.clean, ?_⟩
  · intro choices q hrun hq
    obtain ⟨s', hs', more, -, hmore⟩ := first_step hp hmem hrun hq
    exact (hexact s' hs').over_of_rank_le ((hexact s' hs').found more q hmore hq) (hle s' hs')
  · intro hover
    obtain ⟨choices, q, hfirst, hchain⟩ := hb.first hover
    refine ⟨s.1 :: choices, q, ⟨?_, hfirst.consumed, ?_⟩, hchain⟩
    · exact .step hp ((hmem s.1 s.2).2 hmine) hfirst.run
    · intro choices' q' hrun hq'
      obtain ⟨s', hs', more, rfl, hmore⟩ := first_step hp hmem hrun hq'
      have hover' : (arrival s'.2).reader.rest = [] := (hexact s' hs').found more q' hmore hq'
      rcases List.mem_append.1 hs' with hs' | hs'
      · -- an earlier step is worse than the best, so it cannot consume the line
        have hlt := hbefore _ (hfront ▸ List.mem_map_of_mem hs')
        have hmem' : s' ∈ front ++ s :: rest := List.mem_append_left _ hs'
        have h0 := rank_of_clean hover' ((hexact s' hmem').clean hover')
        simp only [h0, Nat.not_lt_zero] at hlt
      · rcases List.mem_cons.1 hs' with rfl | hs'
        · rcases hfirst.first more q' hmore hq' with ⟨rfl, rfl⟩ | hlt
          · exact Or.inl ⟨rfl, rfl⟩
          · exact Or.inr (List.cons_lt_cons_iff.2 (Or.inr ⟨rfl, hlt⟩))
        · have hlt := (List.pairwise_cons.1 (List.pairwise_append.1 hsorted).2.1).1 s' hs'
          exact Or.inr (List.cons_lt_cons_iff.2 (Or.inl hlt))

/-! ### Parsing -/

theorem Filed.follow_exact (hf : Filed t layer) (hL : L.ReadsForward) (source : L.Source)
    (p : Position L) (hink : p.reader.AtInk) :
    Exact t source p ((t.follow source p.node p.context p.reader).under p.closed) := by
  obtain ⟨steps, hsorted, hmem, heq⟩ := hf.follow_steps source p
  have hexact : ∀ s ∈ steps, Exact t source s.2 (t.arrive source p s.2) := by
    intro s hs
    have hstep : Step t source p s.1 s.2 := (hmem s.1 s.2).2 hs
    have hlt := hstep.rest_lt hL hink
    unfold arrive
    rcases hstep.cases_reader hL hink with hnil | hink'
    · rw [if_neg (fun h => h.1 hnil)]
      exact exact_of_rest_nil hnil
    · rw [if_pos ⟨hink'.rest_ne_nil, hlt⟩]
      exact hf.follow_exact hL source s.2 hink'
  rw [heq]
  cases hbest : Outcome.best? (steps.map fun s => t.arrive source p s.2) with
  | some b => exact exact_of_steps hink.rest_ne_nil hsorted hmem hexact hbest
  | none =>
    have hnil : steps = [] := List.map_eq_nil_iff.1 (Outcome.best?_eq_none_iff.1 hbest)
    have hstuck : ¬p.reader.rest = [] := hink.rest_ne_nil
    refine ⟨?_, fun h => absurd h hstuck, fun h => absurd h hstuck⟩
    intro choices q hrun hq
    obtain ⟨s, hs, -⟩ := first_step hstuck hmem hrun hq
    rw [hnil] at hs
    cases hs
termination_by p.reader.rest.length

theorem skipBlank_atInk {r : Reader} (h : ∃ c ∈ r.rest, isBlank c = false) :
    r.skipBlank.AtInk := by
  rcases Reader.skipBlank_cases r with hnil | hink
  · obtain ⟨c, hc, hblank⟩ := h
    rw [Reader.rest_skipBlank, trimFront, List.dropWhile_eq_nil_iff] at hnil
    exact absurd (hnil c hc) (by simp [hblank])
  · exact hink

/-- A line that is not blank is consumed exactly when some run takes all of it, and then it is
matched as the first such run says. -/
theorem parse_complete_iff_run (hL : L.ReadsForward) (ht : t.Reachable) (line : String)
    (source : L.Source) (hline : ∃ c ∈ line.toList, isBlank c = false) :
    let start := Position.start (Reader.ofString line).skipBlank
    ((t.parse line source).isComplete = true ↔
      ∃ choices q, Run t source start choices q ∧ q.reader.rest = []) ∧
    ((t.parse line source).isComplete = true →
      ∃ choices q, FirstRun t source start choices q ∧ (t.parse line source).chain = q.chain) := by
  intro start
  obtain ⟨layer, hg⟩ := ht.grown
  have hexact : Exact t source start (t.parse line source).outcome :=
    hg.filed.follow_exact hL source start (skipBlank_atInk hline)
  have hcomplete : (t.parse line source).isComplete = true ↔
      (t.parse line source).outcome.reader.rest = [] := by
    simp only [Parsed.isComplete, Parsed.reader, Bool.not_eq_true', Bool.eq_false_iff]
    exact Reader.not_canRead_iff
  rw [hcomplete]
  refine ⟨⟨fun h => ?_, ?_⟩, ?_⟩
  · obtain ⟨choices, q, hfirst, -⟩ := hexact.first h
    exact ⟨choices, q, hfirst.run, hfirst.consumed⟩
  · rintro ⟨choices, q, hrun, hq⟩
    exact hexact.found choices q hrun hq
  · exact hexact.first

end CommandTree

end CommandConsole
