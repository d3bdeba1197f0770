import CommandConsole.Proofs.Gathering

/-!
# The order of suggestions

Texts compare by letters and numbers by value, but a number and a text by letters again. Where no
text comes between two numbers the wrong way round, the order is transitive and groups are sorted;
where one does, there is no order to sort by.
-/

namespace CommandConsole

open Text

variable {line : String}

/-! ### Comparing two -/

namespace Suggestion

def byText (a b : Suggestion) : Ordering :=
  (compareText (lowercase a.text) (lowercase b.text)).then (compareText a.text b.text)

theorem compareText_eq (s s' : String) : compareText s s' = Ord.compare s s' := rfl

theorem byText_eq :
    byText = compareLex (compareOn fun s : Suggestion => lowercase s.text)
      (compareOn Suggestion.text) := by
  funext a b
  rw [byText, compareText_eq, compareText_eq]
  rfl

instance : Std.TransCmp byText := by
  rw [byText_eq]
  infer_instance

variable {a a' b b' c : Suggestion}

theorem compareIgnoreCase_of_numbers {x y : Int32} (ha : a.value = some x)
    (hb : b.value = some y) : a.compareIgnoreCase b = Ord.compare x y := by
  rw [compareIgnoreCase, ha, hb]
  rfl

theorem compareIgnoreCase_of_text (h : a.value = none ∨ b.value = none) :
    a.compareIgnoreCase b = a.byText b := by
  unfold compareIgnoreCase
  split
  · next ha hb => simp [ha, hb] at h
  · rfl

instance : Std.OrientedCmp compareIgnoreCase where
  eq_swap {a b} := by
    cases ha : a.value with
    | none =>
      rw [compareIgnoreCase_of_text (Or.inl ha), compareIgnoreCase_of_text (Or.inr ha)]
      exact Std.OrientedCmp.eq_swap
    | some x =>
      cases hb : b.value with
      | none =>
        rw [compareIgnoreCase_of_text (Or.inr hb), compareIgnoreCase_of_text (Or.inl hb)]
        exact Std.OrientedCmp.eq_swap
      | some y =>
        rw [compareIgnoreCase_of_numbers ha hb, compareIgnoreCase_of_numbers hb ha]
        exact Std.OrientedCmp.eq_swap

/-- Whether one suggestion may stand in front of another one. -/
def NotAfter (a b : Suggestion) : Prop := a.compareIgnoreCase b ≠ .gt

instance : DecidableRel NotAfter :=
  fun a b => inferInstanceAs (Decidable (a.compareIgnoreCase b ≠ .gt))

theorem notAfter_iff_isLE : a.NotAfter b ↔ (a.compareIgnoreCase b).isLE = true :=
  Ordering.isLE_iff_ne_gt.symm

theorem not_notAfter_iff : ¬ a.NotAfter b ↔ b.compareIgnoreCase a = .lt := by
  rw [NotAfter, Decidable.not_not, Std.OrientedCmp.gt_iff_lt]

theorem notAfter_of_lt (h : a.compareIgnoreCase b = .lt) : a.NotAfter b := by
  rw [NotAfter, h]
  decide

theorem notAfter_of_not_lt (h : a.compareIgnoreCase b ≠ .lt) : b.NotAfter a :=
  Decidable.byContradiction fun hafter => h (not_notAfter_iff.1 hafter)

theorem NotAfter.congr_text (hab : a.NotAfter b) (ha : a.text = a'.text) (hb : b.text = b'.text)
    (h : a.value = none ∨ b.value = none) (h' : a'.value = none ∨ b'.value = none) :
    a'.NotAfter b' := by
  rw [NotAfter, compareIgnoreCase_of_text h, byText, ha, hb] at hab
  rw [NotAfter, compareIgnoreCase_of_text h']
  exact hab

theorem NotAfter.trans_of_text (hab : a.NotAfter b) (hbc : b.NotAfter c)
    (h : a.value = none ∨ b.value = none) (h' : b.value = none ∨ c.value = none)
    (h'' : a.value = none ∨ c.value = none) : a.NotAfter c := by
  rw [notAfter_iff_isLE, compareIgnoreCase_of_text h] at hab
  rw [notAfter_iff_isLE, compareIgnoreCase_of_text h'] at hbc
  rw [notAfter_iff_isLE, compareIgnoreCase_of_text h'']
  exact Std.TransCmp.isLE_trans hab hbc

theorem NotAfter.trans_of_numbers {x y z : Int32} (hab : a.NotAfter b) (hbc : b.NotAfter c)
    (ha : a.value = some x) (hb : b.value = some y) (hc : c.value = some z) : a.NotAfter c := by
  rw [notAfter_iff_isLE, compareIgnoreCase_of_numbers ha hb] at hab
  rw [notAfter_iff_isLE, compareIgnoreCase_of_numbers hb hc] at hbc
  rw [notAfter_iff_isLE, compareIgnoreCase_of_numbers ha hc]
  exact Std.TransCmp.isLE_trans hab hbc

/-- Whether a text is between two numbers the wrong way round: the first is the smaller one by
value, but by letters the text may stand in front of it and behind the second. -/
def Tangled (a b t : Suggestion) : Prop :=
  a.value.isSome ∧ b.value.isSome ∧ t.value = none ∧ a.compareIgnoreCase b = .lt ∧
    b.NotAfter t ∧ t.NotAfter a

instance (a b t : Suggestion) : Decidable (a.Tangled b t) :=
  inferInstanceAs (Decidable (_ ∧ _ ∧ _ ∧ _ ∧ _ ∧ _))

/-- Whether the text of a number is its digits, as it is in every number that suggests itself. -/
def Spelled (s : Suggestion) : Prop := ∀ x ∈ s.value, s.text = Decimal.ofInt x.toInt

@[simp] theorem spelled_plain (span : Span) (text : String) : (plain span text).Spelled := by
  simp [Spelled, plain]

@[simp] theorem spelled_withTooltip (span : Span) (text tooltip : String) :
    (withTooltip span text tooltip).Spelled := by
  simp [Spelled, withTooltip]

@[simp] theorem spelled_integer (span : Span) (x : Int32) (tooltip : Option String) :
    (integer span x tooltip).Spelled := by
  simp [Spelled, integer]

theorem IsWidened.spelled {span : Span} {s s' : Suggestion} (h : s.IsWidened line span s')
    (hs : s.Spelled) : s'.Spelled := by
  rcases h.counts with rfl | hnone
  · exact hs
  · simp [Spelled, hnone]

end Suggestion

namespace Suggestions

open Suggestion

variable {list : List Suggestion}

/-! ### Comparing three -/

def TransitiveOn (list : List Suggestion) : Prop :=
  ∀ a ∈ list, ∀ b ∈ list, ∀ c ∈ list, a.NotAfter b → b.NotAfter c → a.NotAfter c

/-- Whether no text is between two numbers the wrong way round. -/
def Orderly (list : List Suggestion) : Prop :=
  ∀ a ∈ list, ∀ b ∈ list, ∀ t ∈ list, ¬ a.Tangled b t

instance : DecidablePred Orderly :=
  fun list => inferInstanceAs (Decidable (∀ a ∈ list, ∀ b ∈ list, ∀ t ∈ list, ¬ a.Tangled b t))

theorem TransitiveOn.mono {list' : List Suggestion} (h : TransitiveOn list)
    (hsub : list' ⊆ list) : TransitiveOn list' :=
  fun a ha b hb c hc => h a (hsub ha) b (hsub hb) c (hsub hc)

theorem Orderly.text_eq (h : Orderly list) (hspelled : ∀ s ∈ list, s.Spelled)
    {a b t : Suggestion} (ha : a ∈ list) (hb : b ∈ list) (ht : t ∈ list)
    {x y : Int32} (hx : a.value = some x) (hy : b.value = some y) (htext : t.value = Option.none)
    (hab : a.NotAfter b) (hbt : b.NotAfter t) (hta : t.NotAfter a) : a.text = b.text := by
  have hne : a.compareIgnoreCase b ≠ .lt := fun hlt =>
    h a ha b hb t ht ⟨by simp [hx], by simp [hy], htext, hlt, hbt, hta⟩
  have heq : a.compareIgnoreCase b = .eq := by
    cases hcompare : a.compareIgnoreCase b with
    | lt => exact absurd hcompare hne
    | eq => rfl
    | gt => exact absurd hcompare hab
  rw [compareIgnoreCase_of_numbers hx hy, Std.compare_eq_iff_eq] at heq
  rw [hspelled a ha x hx, hspelled b hb y hy, heq]

/-- Order is transitive just where no text is between two numbers the wrong way round. -/
theorem orderly_iff_transitiveOn (hspelled : ∀ s ∈ list, s.Spelled) :
    Orderly list ↔ TransitiveOn list := by
  constructor
  · intro h a ha b hb c hc hab hbc
    -- all is by value, or all is by text, or two numbers and a text go round in a circle
    by_contra hac
    have hlt := not_notAfter_iff.1 hac
    have hca := notAfter_of_lt hlt
    cases hx : a.value with
    | none =>
      cases hy : b.value with
      | none => exact hac (hab.trans_of_text hbc (Or.inl hx) (Or.inl hy) (Or.inl hx))
      | some y =>
        cases hz : c.value with
        | none => exact hac (hab.trans_of_text hbc (Or.inl hx) (Or.inr hz) (Or.inl hx))
        | some z =>
          have heq := h.text_eq hspelled hb hc ha hy hz hx hbc hca hab
          exact hac (hab.congr_text rfl heq (Or.inl hx) (Or.inl hx))
    | some x =>
      cases hz : c.value with
      | none =>
        cases hy : b.value with
        | none => exact hac (hab.trans_of_text hbc (Or.inr hy) (Or.inl hy) (Or.inr hz))
        | some y =>
          have heq := h.text_eq hspelled ha hb hc hx hy hz hab hbc hca
          exact hac (hbc.congr_text heq.symm rfl (Or.inr hz) (Or.inr hz))
      | some z =>
        cases hy : b.value with
        | none => exact h c hc a ha b hb ⟨by simp [hz], by simp [hx], hy, hlt, hab, hbc⟩
        | some y => exact hac (hab.trans_of_numbers hbc hx hy hz)
  · rintro h a ha b hb t ht ⟨-, -, -, hlt, hbt, hta⟩
    exact not_notAfter_iff.2 hlt (h b hb t ht a ha hbt hta)

/-! ### Sorting -/

theorem pairwise_insertLast {s : Suggestion} {sorted : List Suggestion}
    (htrans : TransitiveOn (s :: sorted)) (h : sorted.Pairwise fun a b => b.NotAfter a) :
    (insertLast s sorted).Pairwise fun a b => b.NotAfter a := by
  induction sorted with
  | nil => exact List.pairwise_singleton _ _
  | cons t sorted ih =>
    obtain ⟨hlast, hrest⟩ := List.pairwise_cons.1 h
    unfold insertLast
    split
    · next hlt =>
      apply List.Pairwise.cons
      · intro u hu
        rcases List.mem_cons.1 ((perm_insertLast s sorted).mem_iff.1 hu) with rfl | hu
        · exact notAfter_of_lt (by simpa using hlt)
        · exact hlast u hu
      · exact ih (htrans.mono (List.cons_subset_cons s (List.subset_cons_self t sorted))) hrest
    · next hlt =>
      have hts : t.NotAfter s := notAfter_of_not_lt (by simpa using hlt)
      apply List.Pairwise.cons _ h
      intro u hu
      rcases List.mem_cons.1 hu with rfl | hmem
      · exact hts
      · exact htrans u (by simp [hmem]) t (by simp) s (by simp) (hlast u hmem) hts

theorem pairwise_sort (htrans : TransitiveOn list) : (sort list).Pairwise NotAfter := by
  have hfold : ∀ sorted : List Suggestion, TransitiveOn (list ++ sorted) →
      (sorted.Pairwise fun a b => b.NotAfter a) →
      (list.foldl (fun sorted s => insertLast s sorted) sorted).Pairwise
        fun a b => b.NotAfter a := by
    clear htrans
    induction list with
    | nil => exact fun _ _ => id
    | cons s list ih =>
      intro sorted htrans hsorted
      have hperm : (list ++ insertLast s sorted).Perm (s :: list ++ sorted) :=
        ((perm_insertLast s sorted).append_left list).trans List.perm_middle
      have hsub := List.cons_subset_cons s (List.subset_append_right list sorted)
      exact ih _ (htrans.mono hperm.subset) (pairwise_insertLast (htrans.mono hsub) hsorted)
  rw [sort, List.pairwise_reverse]
  exact hfold [] (by simpa using htrans) .nil

/-- That no text is between two numbers the wrong way round is what it takes for any of some
suggestions to come out in order, however they are picked and arranged. -/
theorem orderly_iff_sorts (hspelled : ∀ s ∈ list, s.Spelled) :
    Orderly list ↔ ∀ part : List Suggestion, part ⊆ list → (sort part).Pairwise NotAfter := by
  constructor
  · intro h part hpart
    exact pairwise_sort (((orderly_iff_transitiveOn hspelled).1 h).mono hpart)
  · rintro h a ha b hb t ht ⟨-, -, -, hlt, hbt, hta⟩
    have hsort : sort [b, t, a] = [b, t, a] := by
      have hbt := mt not_notAfter_iff.2 (Decidable.not_not.2 hbt)
      have hta := mt not_notAfter_iff.2 (Decidable.not_not.2 hta)
      simp [sort, insertLast, hbt, hta]
    have hpair := h [b, t, a] (by simp [ha, hb, ht])
    rw [hsort] at hpair
    exact not_notAfter_iff.2 hlt ((List.pairwise_cons.1 hpair).1 a (by simp))

/-! ### Groups in order -/

/-- A group is sorted if no text is between two numbers the wrong way round, among the suggestions
brought to one span; if one is, their order is not transitive. -/
theorem create?_in_order (hcuts : ∀ s ∈ list, s.span.Cuts line)
    (hspelled : ∀ s ∈ list, s.Spelled) :
    ∃ g wide, create? line list = some g ∧ expandAll line g.span list = some wide ∧
      g.list.Perm (dedupe wide) ∧
      (Orderly (dedupe wide) ↔ TransitiveOn (dedupe wide)) ∧
      (Orderly (dedupe wide) → g.list.Pairwise NotAfter) := by
  obtain ⟨span, wide, -, -, hwide, hall, hcreate⟩ := create?_steps hcuts
  have hdedupe : ∀ s ∈ dedupe wide, s.Spelled := by
    intro s' hs'
    obtain ⟨s, hs, hone⟩ := forall₂_mem_right hall ((mem_dedupe wide).1 s' hs')
    exact hone.spelled (hspelled s hs)
  refine ⟨_, wide, hcreate, hwide, perm_sort _, orderly_iff_transitiveOn hdedupe, fun h => ?_⟩
  exact (orderly_iff_sorts hdedupe).1 h _ (List.Subset.refl _)

theorem create?_in_order_give :
    let line := "give 5"
    let list : List Suggestion :=
      [.plain ⟨5, 6⟩ "all", .integer ⟨5, 6⟩ 10 Option.none, .integer ⟨5, 6⟩ 7 Option.none]
    (∀ s ∈ list, s.span.Cuts line) ∧ (∀ s ∈ list, s.Spelled) ∧
      ∃ g wide, create? line list = some g ∧ expandAll line g.span list = some wide ∧
        Orderly (dedupe wide) ∧ g.list.Pairwise NotAfter := by
  intro line list
  have hcuts : ∀ s ∈ list, s.span.Cuts line := by decide +kernel
  have hspelled : ∀ s ∈ list, s.Spelled := by simp [list]
  obtain ⟨g, wide, hcreate, hwide, -, -, hsorted⟩ := create?_in_order hcuts hspelled
  have hspan : (create? line list).map (·.span) = some ⟨5, 6⟩ := by decide +kernel
  have hsame : expandAll line ⟨5, 6⟩ list = some list := by decide +kernel
  have horderly : Orderly (dedupe list) := by decide +kernel
  rw [hcreate, Option.map_some, Option.some.injEq] at hspan
  have hlist : list = wide := by
    rw [hspan, hsame] at hwide
    exact Option.some.inj hwide
  rw [hlist] at horderly
  exact ⟨hcuts, hspelled, g, wide, hcreate, hwide, horderly, hsorted horderly⟩

/-- The text is between the numbers the wrong way round, so the group is left as its suggestions
come, although they could be in order. -/
theorem create?_out_of_order :
    let text := Suggestion.withTooltip ⟨0, 0⟩ "5" "x"
    let five := Suggestion.integer ⟨0, 0⟩ 5 Option.none
    let ten := Suggestion.integer ⟨0, 0⟩ 10 Option.none
    (∀ s ∈ [text, five, ten], s.span.Cuts "") ∧ (∀ s ∈ [text, five, ten], s.Spelled) ∧
      create? "" [text, five, ten] = some ⟨⟨0, 0⟩, [text, five, ten]⟩ ∧
      ¬ [text, five, ten].Pairwise NotAfter ∧ [five, ten, text].Pairwise NotAfter :=
  ⟨by decide +kernel, by simp, by decide +kernel, by decide +kernel, by decide +kernel⟩

end Suggestions

end CommandConsole
