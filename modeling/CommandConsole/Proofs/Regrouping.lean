import CommandConsole.Proofs.Ranking

/-!
# Groups of groups

Merging groups of texts comes to the same in whatever order pairs of them are merged: a group may
stand for the suggestions that it was made of. Widening twice is widening once, a duplicate that is
left out early would be left out late, and of suggestions with one text the sort keeps the order,
which is all that tells apart two sorted lists of the same suggestions.
-/

namespace CommandConsole

open Text

variable {line : String}

/-! ### Leaving out duplicates -/

section Duplicates

variable {α β : Type} [BEq α] [LawfulBEq α]

theorem eraseDups_append_cons_of_mem {a : List α} {x : α} (h : x ∈ a) (b : List α) :
    (a ++ x :: b).eraseDups = (a ++ b).eraseDups := by
  have hremove : (x :: b).removeAll a = b.removeAll a := by
    simp [List.removeAll, h]
  rw [List.eraseDups_append, List.eraseDups_append, hremove]

theorem eraseDups_append_filter {a : List α} {p : β → Bool} {f : β → α} {b : List β}
    (h : ∀ y ∈ b, p y = false → f y ∈ a) (c : List α) :
    (a ++ ((b.filter p).map f ++ c)).eraseDups = (a ++ (b.map f ++ c)).eraseDups := by
  induction b generalizing a with
  | nil => rfl
  | cons y b ih =>
    obtain ⟨hy, hmore⟩ := List.forall_mem_cons.1 h
    cases hp : p y with
    | true =>
      have hnext := ih (a := a ++ [f y]) fun z hz hpz => List.mem_append_left _ (hmore z hz hpz)
      simpa [List.filter_cons, hp] using hnext
    | false =>
      rw [List.filter_cons_of_neg (by simp [hp]), ih hmore, List.map_cons, List.cons_append,
        eraseDups_append_cons_of_mem (hy hp)]

/-- Duplicates in the middle may be left out before the rest is there, and before a change. -/
theorem eraseDups_append_map_eraseDups [BEq β] [LawfulBEq β] (a : List α) (f : β → α) (b : List β)
    (c : List α) :
    (a ++ (b.eraseDups.map f ++ c)).eraseDups = (a ++ (b.map f ++ c)).eraseDups := by
  match b with
  | [] => rfl
  | y :: b =>
    have hnext := eraseDups_append_map_eraseDups (a ++ [f y]) f (b.filter fun z => !z == y) c
    have hfilter := eraseDups_append_filter (a := a ++ [f y]) (p := fun z => !z == y) (f := f)
      (b := b) (fun z _ hz => by simp at hz; simp [hz]) c
    rw [List.eraseDups_cons]
    simpa using hnext.trans hfilter
termination_by b.length
decreasing_by exact Nat.lt_succ_of_le (List.length_filter_le _ _)

theorem filter_eraseDups (p : α → Bool) (l : List α) :
    l.eraseDups.filter p = (l.filter p).eraseDups := by
  match l with
  | [] => rfl
  | x :: l =>
    have hnext := filter_eraseDups p (l.filter fun y => !y == x)
    rw [List.eraseDups_cons]
    cases hp : p x with
    | true =>
      rw [List.filter_cons_of_pos hp, List.filter_cons_of_pos hp, List.eraseDups_cons, hnext]
      simp only [List.filter_filter, Bool.and_comm]
    | false =>
      rw [List.filter_cons_of_neg (by simp [hp]), List.filter_cons_of_neg (by simp [hp]), hnext,
        List.filter_filter]
      congr 1
      refine List.filter_congr fun y _ => ?_
      cases hy : p y with
      | true =>
        have hne : y ≠ x := fun heq => by simp [heq, hp] at hy
        simp [hne]
      | false => rfl
termination_by l.length
decreasing_by exact Nat.lt_succ_of_le (List.length_filter_le _ _)

end Duplicates

/-! ### Widening twice -/

namespace Suggestion

variable {s s' s'' t t' : Suggestion} {span span' : Span}

theorem applyTo?_inj (h : s.span.Cuts line) (hspan : t.span = s.span) :
    s.applyTo? line = t.applyTo? line ↔ s.text = t.text := by
  obtain ⟨a, m, b, hline, hstart, hstop⟩ := h.split
  rw [applyTo?_of_split hline hstart hstop,
    applyTo?_of_split (s := t) hline (by rw [hspan]; exact hstart) (by rw [hspan]; exact hstop)]
  simp [String.ext_iff]

theorem IsWidened.trans (h : s.IsWidened line span s') (h' : s'.IsWidened line span' s'') :
    s.IsWidened line span' s'' := by
  refine ⟨h'.span_eq, h'.effect_eq.trans h.effect_eq, ?_⟩
  rcases h'.counts with rfl | hnone
  · exact h.counts
  · exact Or.inr hnone

theorem IsWidened.value_eq_none (h : s.IsWidened line span s') (hs : s.value = none) :
    s'.value = none := by
  rcases h.counts with rfl | hnone
  · exact hs
  · exact hnone

theorem IsWidened.text_inj (h : s.IsWidened line span s') (h' : t.IsWidened line span t')
    (hs : s.span.Cuts line) (hspan : t.span = s.span) (htext : s'.text = t'.text)
    (hcuts : span.Cuts line) : s.text = t.text := by
  rw [← h.span_eq] at hcuts
  have happly : s'.applyTo? line = s.applyTo? line := congrArg Prod.fst h.effect_eq
  have happly' : t'.applyTo? line = t.applyTo? line := congrArg Prod.fst h'.effect_eq
  have hsame := (applyTo?_inj hcuts (h'.span_eq.trans h.span_eq.symm)).2 htext
  rw [happly, happly'] at hsame
  exact (applyTo?_inj hs hspan).1 hsame

theorem IsWidened.unique (h : s.IsWidened line span s') (h' : s.IsWidened line span s'')
    (hcuts : span.Cuts line) (hs : s.value = none) : s' = s'' := by
  have heffect := h.effect_eq.trans h'.effect_eq.symm
  have hspan : s''.span = s'.span := h'.span_eq.trans h.span_eq.symm
  rw [← h.span_eq] at hcuts
  have htext := (applyTo?_inj hcuts hspan).1 (congrArg Prod.fst heffect)
  have htooltip : s'.tooltip = s''.tooltip := congrArg Prod.snd heffect
  have hvalue : s'.value = s''.value := (h.value_eq_none hs).trans (h'.value_eq_none hs).symm
  cases s'
  cases s''
  simp_all

/-- The suggestion brought to a wider span, where the line can be cut there. -/
def widen (line : String) (span : Span) (s : Suggestion) : Suggestion :=
  (s.expand? line span).getD s

theorem expand?_eq_widen (hs : s.span.Cuts line) (hspan : span.Cuts line)
    (hin : s.span.Within span) : s.expand? line span = some (s.widen line span) := by
  obtain ⟨s', hexpand, -⟩ := expand?_widened hs hspan hin
  rw [widen, hexpand]
  rfl

theorem widened_widen (hs : s.span.Cuts line) (hspan : span.Cuts line)
    (hin : s.span.Within span) : s.IsWidened line span (s.widen line span) := by
  obtain ⟨s', hexpand, hone⟩ := expand?_widened hs hspan hin
  rw [widen, hexpand]
  exact hone

theorem widen_widen (hs : s.span.Cuts line) (hvalue : s.value = none) (hspan : span.Cuts line)
    (hspan' : span'.Cuts line) (hin : s.span.Within span) (hin' : span.Within span') :
    (s.widen line span).widen line span' = s.widen line span' := by
  have hone := widened_widen hs hspan hin
  have htwo : (s.widen line span).IsWidened line span' ((s.widen line span).widen line span') := by
    apply widened_widen _ hspan'
    · rw [hone.span_eq]
      exact hin'
    · rw [hone.span_eq]
      exact hspan
  exact (hone.trans htwo).unique (widened_widen hs hspan' (hin.trans hin')) hspan' hvalue

end Suggestion

/-! ### Sorted texts -/

namespace Suggestions

open Suggestion

variable {list list' : List Suggestion}

def AreTexts (list : List Suggestion) : Prop := ∀ s ∈ list, s.value = Option.none

theorem AreTexts.subset (h : AreTexts list) (hsub : list' ⊆ list) : AreTexts list' :=
  fun s hs => h s (hsub hs)

theorem AreTexts.transitiveOn (h : AreTexts list) : TransitiveOn list :=
  fun a ha b hb _ _ hab hbc =>
    hab.trans_of_text hbc (Or.inl (h a ha)) (Or.inl (h b hb)) (Or.inl (h a ha))

theorem notAfter_refl (a : Suggestion) : a.NotAfter a := by
  have heq : a.compareIgnoreCase a = .eq := Std.ReflCmp.compare_self
  rw [NotAfter, heq]
  decide

theorem text_eq_of_notAfter {a b : Suggestion} (ha : a.value = Option.none) (hab : a.NotAfter b)
    (hba : b.NotAfter a) : a.text = b.text := by
  have heq : a.byText b = .eq := by
    rw [notAfter_iff_isLE, compareIgnoreCase_of_text (Or.inl ha)] at hab
    rw [notAfter_iff_isLE, compareIgnoreCase_of_text (Or.inr ha)] at hba
    exact Std.OrientedCmp.isLE_antisymm hab hba
  rw [byText, Ordering.then_eq_eq, compareText_eq, compareText_eq] at heq
  exact Std.compare_eq_iff_eq.1 heq.2

theorem same_eq_beq {a b : Suggestion} (ha : a.value = Option.none) (hb : b.value = Option.none) :
    b.same a = (a == b) := by
  rw [Bool.eq_iff_iff, same_iff, beq_iff_eq]
  cases a
  cases b
  simp_all [eq_comm]

theorem dedupe_eq_eraseDups (h : AreTexts list) : dedupe list = list.eraseDups := by
  have hfold : ∀ list kept : List Suggestion, AreTexts list → AreTexts kept →
      (list.foldl (fun kept s => if kept.any (·.same s) then kept else s :: kept) kept).reverse =
        List.eraseDupsBy.loop (· == ·) list kept := by
    intro list
    induction list with
    | nil => exact fun kept _ _ => rfl
    | cons s list ih =>
      intro kept hlist hkept
      obtain ⟨hs, hlist⟩ := List.forall_mem_cons.1 hlist
      have hany : kept.any (·.same s) = kept.any (s == ·) := by
        rw [Bool.eq_iff_iff, List.any_eq_true, List.any_eq_true]
        exact exists_congr fun t => and_congr_right fun ht => by rw [same_eq_beq hs (hkept t ht)]
      rw [List.foldl_cons, List.eraseDupsBy.loop, hany]
      cases kept.any (s == ·) with
      | true => exact ih kept hlist hkept
      | false => exact ih (s :: kept) hlist (List.forall_mem_cons.2 ⟨hs, hkept⟩)
  exact hfold list [] h (by simp [AreTexts])

theorem text_ne_of_lt {a b : Suggestion} (ha : a.value = Option.none)
    (hlt : a.compareIgnoreCase b = .lt) : a.text ≠ b.text := by
  intro heq
  rw [compareIgnoreCase_of_text (Or.inl ha), byText, heq, compareText_eq, compareText_eq] at hlt
  simp [Std.compare_self] at hlt

/-- Sorting keeps the order of suggestions with one text. -/
theorem filter_sort {q : Suggestion → Bool} (h : AreTexts list)
    (hq : ∀ s ∈ list, ∀ t ∈ list, q s = true → q t = true → s.text = t.text) :
    (sort list).filter q = list.filter q := by
  have hinsert : ∀ (s : Suggestion) (sorted : List Suggestion), s.value = Option.none →
      (∀ t ∈ sorted, q s = true → q t = true → s.text = t.text) →
      (insertLast s sorted).filter q = (s :: sorted).filter q := by
    intro s sorted hs hone
    induction sorted with
    | nil => rfl
    | cons t sorted ih =>
      obtain ⟨ht, hmore⟩ := List.forall_mem_cons.1 hone
      unfold insertLast
      split
      · next hlt =>
        have hne := text_ne_of_lt hs (by simpa using hlt)
        rw [List.filter_cons, ih hmore, List.filter_cons, List.filter_cons, List.filter_cons]
        cases hqs : q s with
        | false => rfl
        | true =>
          have hqt : q t = false := by
            simpa using fun hqt => hne (ht hqs hqt)
          simp [hqt]
      · rfl
  have hfold : ∀ sorted : List Suggestion, (∀ s ∈ list, ∀ t ∈ list ++ sorted,
      q s = true → q t = true → s.text = t.text) →
      (list.foldl (fun sorted s => insertLast s sorted) sorted).filter q =
        (list.reverse ++ sorted).filter q := by
    clear hq
    induction list with
    | nil => exact fun _ _ => rfl
    | cons s list ih =>
      intro sorted hone
      obtain ⟨hs, hmore⟩ := List.forall_mem_cons.1 h
      have hmem : ∀ t, t ∈ list ++ insertLast s sorted → t ∈ s :: list ++ sorted := fun t ht =>
        (((perm_insertLast s sorted).append_left list).trans List.perm_middle).mem_iff.1 ht
      rw [List.foldl_cons, ih hmore _ fun a ha t ht => hone a (by simp [ha]) t (hmem t ht),
        List.filter_append, hinsert s sorted hs fun t ht => hone s (by simp) t (by simp [ht]),
        ← List.filter_append, List.reverse_cons, List.append_assoc, List.singleton_append]
  rw [sort, List.filter_reverse, hfold [] (by simpa using hq), List.append_nil,
    List.filter_reverse, List.reverse_reverse]

theorem eq_of_filter_text (htexts : AreTexts list) (htexts' : AreTexts list')
    (hsorted : list.Pairwise NotAfter) (hsorted' : list'.Pairwise NotAfter)
    (h : ∀ x, list.filter (·.text = x) = list'.filter (·.text = x)) : list = list' := by
  induction list generalizing list' with
  | nil =>
    cases list' with
    | nil => rfl
    | cons b list' => simpa using h b.text
  | cons a list ih =>
    cases list' with
    | nil => simpa using h a.text
    | cons b list' =>
      obtain ⟨hfirst, hmore⟩ := List.pairwise_cons.1 hsorted
      obtain ⟨hfirst', hmore'⟩ := List.pairwise_cons.1 hsorted'
      obtain ⟨ha, hlist⟩ := List.forall_mem_cons.1 htexts
      obtain ⟨hb, hlist'⟩ := List.forall_mem_cons.1 htexts'
      have hmem : ∀ s, s ∈ a :: list ↔ s ∈ b :: list' := by
        intro s
        have hs := congrArg (s ∈ ·) (h s.text)
        simpa only [List.mem_filter, decide_true, and_true] using iff_of_eq hs
      -- each of the two heads is in the other list, so neither is behind the other
      have hab : a.NotAfter b := by
        rcases List.mem_cons.1 ((hmem b).2 (List.mem_cons_self ..)) with rfl | hin
        · exact notAfter_refl b
        · exact hfirst b hin
      have hba : b.NotAfter a := by
        rcases List.mem_cons.1 ((hmem a).1 (List.mem_cons_self ..)) with rfl | hin
        · exact notAfter_refl a
        · exact hfirst' a hin
      have htext := text_eq_of_notAfter ha hab hba
      have hheads := h a.text
      rw [List.filter_cons_of_pos (by simp), List.filter_cons_of_pos (by simp [htext])] at hheads
      obtain ⟨rfl, -⟩ := List.cons.inj hheads
      rw [ih hlist hlist' hmore hmore' fun x => ?_]
      have hx := h x
      by_cases hax : a.text = x
      · rw [List.filter_cons_of_pos (by simp [hax]), List.filter_cons_of_pos (by simp [hax])] at hx
        exact (List.cons.inj hx).2
      · rwa [List.filter_cons_of_neg (by simp [hax]),
          List.filter_cons_of_neg (by simp [hax])] at hx

/-! ### Groups in groups -/

/-- Whether suggestions are texts, for spans that cut a line. -/
structure TextsFor (line : String) (list : List Suggestion) : Prop where
  cuts : ∀ s ∈ list, s.span.Cuts line
  texts : AreTexts list

theorem TextsFor.subset (h : TextsFor line list) (hsub : list' ⊆ list) : TextsFor line list' :=
  ⟨fun s hs => h.cuts s (hsub hs), h.texts.subset hsub⟩

/-- Texts without duplicates, in order. -/
def arrange (list : List Suggestion) : List Suggestion := sort list.eraseDups

theorem mem_arrange {s : Suggestion} : s ∈ arrange list ↔ s ∈ list := by
  rw [arrange, (perm_sort _).mem_iff, List.mem_eraseDups]

theorem AreTexts.arrange (h : AreTexts list) : AreTexts (arrange list) :=
  h.subset fun _ hs => mem_arrange.1 hs

theorem pairwise_arrange (h : AreTexts list) : (arrange list).Pairwise NotAfter :=
  pairwise_sort (h.subset fun _ hs => List.mem_eraseDups.1 hs).transitiveOn

theorem filter_arrange {q : Suggestion → Bool} (h : AreTexts list)
    (hq : ∀ s ∈ list, ∀ t ∈ list, q s = true → q t = true → s.text = t.text) :
    (arrange list).filter q = (list.filter q).eraseDups := by
  have hmem : ∀ s, s ∈ list.eraseDups → s ∈ list := fun _ hs => List.mem_eraseDups.1 hs
  rw [Suggestions.arrange,
    filter_sort (h.subset hmem) fun s hs t ht => hq s (hmem s hs) t (hmem t ht), filter_eraseDups]

/-- Some of the texts may be arranged first, and then be changed, if no two texts become one. -/
theorem arrange_append_arrange {f : Suggestion → Suggestion} {a b c : List Suggestion}
    (hb : AreTexts b) (hall : AreTexts (a ++ (b.map f ++ c)))
    (hf : ∀ s ∈ b, ∀ t ∈ b, (f s).text = (f t).text → s.text = t.text) :
    arrange (a ++ ((arrange b).map f ++ c)) = arrange (a ++ (b.map f ++ c)) := by
  have hsame : ∀ s, s ∈ a ++ ((arrange b).map f ++ c) ↔ s ∈ a ++ (b.map f ++ c) := by
    simp [mem_arrange]
  have hall' : AreTexts (a ++ ((arrange b).map f ++ c)) := hall.subset fun s hs => (hsame s).1 hs
  refine eq_of_filter_text hall'.arrange hall.arrange (pairwise_arrange hall')
    (pairwise_arrange hall) fun x => ?_
  have hx : ∀ {l : List Suggestion}, ∀ s ∈ l, ∀ t ∈ l, decide (s.text = x) = true →
      decide (t.text = x) = true → s.text = t.text := by
    simp only [decide_eq_true_eq]
    exact fun s _ t _ hs ht => hs.trans ht.symm
  rw [filter_arrange hall' hx, filter_arrange hall hx]
  simp only [List.filter_append, List.filter_map]
  rw [filter_arrange hb fun s hs t ht hqs hqt => hf s hs t ht (by simp_all)]
  exact eraseDups_append_map_eraseDups _ f _ _

theorem expandAll_eq_map {span : Span} (hspan : span.Cuts line)
    (h : ∀ s ∈ list, s.span.Cuts line ∧ s.span.Within span) :
    expandAll line span list = some (list.map (·.widen line span)) := by
  induction list with
  | nil => rfl
  | cons s list ih =>
    obtain ⟨⟨hs, hin⟩, hmore⟩ := List.forall_mem_cons.1 h
    rw [expandAll, expand?_eq_widen hs hspan hin, ih hmore]
    rfl

/-- A group of texts: they are widened to their hull and arranged. -/
theorem create?_eq_arrange (h : TextsFor line list) :
    ∃ span, span.Cuts line ∧ span.IsHullOf (list.map (·.span)) ∧
      AreTexts (list.map (·.widen line span)) ∧
      create? line list = some ⟨span, arrange (list.map (·.widen line span))⟩ := by
  obtain ⟨span, wide, hcuts, hhull, hwide, hall, hcreate⟩ := create?_steps h.cuts
  have hin : ∀ s ∈ list, s.span.Cuts line ∧ s.span.Within span := fun s hs =>
    ⟨h.cuts s hs, hhull.within _ (List.mem_map_of_mem hs)⟩
  obtain rfl : list.map (·.widen line span) = wide :=
    Option.some.inj ((expandAll_eq_map hcuts hin).symm.trans hwide)
  have htexts : AreTexts (list.map (·.widen line span)) := by
    intro s' hs'
    obtain ⟨s, hs, rfl⟩ := List.mem_map.1 hs'
    exact (widened_widen (hin s hs).1 hcuts (hin s hs).2).value_eq_none (h.texts s hs)
  refine ⟨span, hcuts, hhull, htexts, ?_⟩
  rw [hcreate, dedupe_eq_eraseDups htexts]
  rfl

theorem isHullOf_append {hull inner : Span} {a b c spans : List Span} (hb : b ≠ [])
    (hinner : inner.IsHullOf b) (hspans : spans ≠ []) (hall : ∀ s ∈ spans, s = inner)
    (h : hull.IsHullOf (a ++ (spans ++ c))) : hull.IsHullOf (a ++ (b ++ c)) := by
  have hself : ∀ s : Span, s.IsHullOf [s] := fun s => Span.isHullOf_foldl s []
  have hflatten : a ++ (b ++ c) = (a.map ([·]) ++ (b :: c.map ([·]))).flatten := by
    simp [← List.flatMap_def]
  rw [hflatten]
  apply h.flatten
  · intro s hs
    rcases List.mem_append.1 hs with hs | hs
    · exact ⟨[s], by simp [hs], by simp, hself s⟩
    · rcases List.mem_append.1 hs with hs | hs
      · exact ⟨b, by simp, hb, hall s hs ▸ hinner⟩
      · exact ⟨[s], by simp [hs], by simp, hself s⟩
  · intro family hfamily _
    obtain ⟨s, hs⟩ := List.exists_mem_of_ne_nil _ hspans
    rcases List.mem_append.1 hfamily with hfamily | hfamily
    · obtain ⟨s', hs', rfl⟩ := List.mem_map.1 hfamily
      exact ⟨s', by simp [hs'], hself s'⟩
    · rcases List.mem_cons.1 hfamily with rfl | hfamily
      · exact ⟨inner, by simp [← hall s hs, hs], hinner⟩
      · obtain ⟨s', hs', rfl⟩ := List.mem_map.1 hfamily
        exact ⟨s', by simp [hs'], hself s'⟩

/-- Texts that are widened and arranged are arranged with others as if they were not. -/
theorem arrange_widen_twice {span inner : Span} {a b c : List Suggestion} (hb : TextsFor line b)
    (hinner : inner.Cuts line) (hspan : span.Cuts line) (hin : inner.Within span)
    (hall : ∀ s ∈ b, s.span.Within inner)
    (hwide : AreTexts ((a ++ (b ++ c)).map (·.widen line span))) :
    arrange ((a ++ (arrange (b.map (·.widen line inner)) ++ c)).map (·.widen line span)) =
      arrange ((a ++ (b ++ c)).map (·.widen line span)) := by
  have hone : ∀ s ∈ b, s.IsWidened line inner (s.widen line inner) := fun s hs =>
    widened_widen (hb.cuts s hs) hinner (hall s hs)
  have htexts : AreTexts (b.map (·.widen line inner)) := by
    intro s' hs'
    obtain ⟨s, hs, rfl⟩ := List.mem_map.1 hs'
    exact (hone s hs).value_eq_none (hb.texts s hs)
  have htwice : (b.map (·.widen line inner)).map (·.widen line span) =
      b.map (·.widen line span) := by
    rw [List.map_map]
    refine List.map_congr_left fun s hs => ?_
    exact widen_widen (hb.cuts s hs) (hb.texts s hs) hinner hspan (hall s hs) hin
  simp only [List.map_append] at hwide ⊢
  rw [← htwice] at hwide ⊢
  refine arrange_append_arrange htexts hwide fun s hs t ht htext => ?_
  have hat : ∀ s ∈ b.map (·.widen line inner), s.span = inner := by
    intro s' hs'
    obtain ⟨s, hs, rfl⟩ := List.mem_map.1 hs'
    exact (hone s hs).span_eq
  have hwidened : ∀ s ∈ b.map (·.widen line inner), s.IsWidened line span (s.widen line span) :=
    fun s hs => widened_widen (hat s hs ▸ hinner) hspan (hat s hs ▸ hin)
  exact (hwidened s hs).text_inj (hwidened t ht) (hat s hs ▸ hinner)
    ((hat t ht).trans (hat s hs).symm) htext hspan

/-- A group may stand for the texts that it was made of, among others. -/
theorem create?_append_group {a b c : List Suggestion} (h : TextsFor line (a ++ (b ++ c)))
    {g : Suggestions} (hg : create? line b = some g) :
    TextsFor line (a ++ (g.list ++ c)) ∧
      create? line (a ++ (g.list ++ c)) = create? line (a ++ (b ++ c)) := by
  rcases eq_or_ne b [] with rfl | hne
  · obtain rfl : Suggestions.none = g := Option.some.inj hg
    exact ⟨h, rfl⟩
  have hb : TextsFor line b := h.subset (by simp)
  obtain ⟨inner, hinner, hhull, htexts, hcreate⟩ := create?_eq_arrange hb
  obtain rfl := Option.some.inj (hcreate.symm.trans hg)
  have hall : ∀ s ∈ b, s.span.Within inner := fun s hs =>
    hhull.within _ (List.mem_map_of_mem hs)
  -- what the group holds are the texts of b, widened to its span
  have hat : ∀ s ∈ arrange (b.map (·.widen line inner)), s.span = inner := by
    intro s' hs'
    obtain ⟨s, hs, rfl⟩ := List.mem_map.1 (mem_arrange.1 hs')
    exact (widened_widen (hb.cuts s hs) hinner (hall s hs)).span_eq
  have hsome : arrange (b.map (·.widen line inner)) ≠ [] := by
    obtain ⟨s, hs⟩ := List.exists_mem_of_ne_nil _ hne
    exact List.ne_nil_of_mem (mem_arrange.2 (List.mem_map_of_mem hs))
  have hgroup : TextsFor line (a ++ (arrange (b.map (·.widen line inner)) ++ c)) := by
    constructor <;> intro s hs <;> simp only [List.mem_append] at hs
    · rcases hs with hs | hs | hs
      · exact h.cuts s (by simp [hs])
      · exact hat s hs ▸ hinner
      · exact h.cuts s (by simp [hs])
    · rcases hs with hs | hs | hs
      · exact h.texts s (by simp [hs])
      · exact htexts.arrange s hs
      · exact h.texts s (by simp [hs])
  refine ⟨hgroup, ?_⟩
  obtain ⟨span, hspan, hspans, -, hcreate⟩ := create?_eq_arrange hgroup
  obtain ⟨span', -, hspans', hwide, hcreate'⟩ := create?_eq_arrange h
  have hin : inner.Within span := by
    obtain ⟨s, hs⟩ := List.exists_mem_of_ne_nil _ hsome
    exact hspans.within _ (List.mem_map.2 ⟨s, by simp [hs], hat s hs⟩)
  obtain rfl : span = span' := by
    simp only [List.map_append] at hspans hspans'
    refine (isHullOf_append (by simpa using hne) hhull (by simpa using hsome) ?_ hspans).unique
      hspans' (by simp [hne])
    intro s hs
    obtain ⟨s', hs', rfl⟩ := List.mem_map.1 hs
    exact hat s' hs'
  rw [hcreate, hcreate', arrange_widen_twice hb hinner hspan hin hall hwide]

theorem merge?_pair (line : String) (g g' : Suggestions) :
    merge? line [g, g'] = create? line (g.list ++ g'.list) := by
  simp [merge?]

theorem merge?_triple (line : String) (g g' g'' : Suggestions) :
    merge? line [g, g', g''] = create? line (g.list ++ (g'.list ++ g''.list)) := by
  simp [merge?]

/-- Merging groups of texts for one line is associative, and the group of nothing is neutral:
whatever is merged first comes to the group of all the texts. -/
theorem merge?_assoc {as bs cs : List Suggestion}
    (hcuts : ∀ s ∈ as ++ (bs ++ cs), s.span.Cuts line)
    (htexts : ∀ s ∈ as ++ (bs ++ cs), s.value = Option.none) :
    ∃ A B C AB BC ABC,
      create? line as = some A ∧ create? line bs = some B ∧ create? line cs = some C ∧
      merge? line [A, B] = some AB ∧ merge? line [B, C] = some BC ∧
      merge? line [A, B, C] = some ABC ∧
      merge? line [A, BC] = some ABC ∧ merge? line [AB, C] = some ABC ∧
      create? line (as ++ (bs ++ cs)) = some ABC ∧
      merge? line [A, none] = some A ∧ merge? line [none, A] = some A ∧
      merge? line [A] = some A := by
  have hall : TextsFor line (as ++ (bs ++ cs)) := ⟨hcuts, htexts⟩
  have created : ∀ {list : List Suggestion}, TextsFor line list →
      ∃ g, create? line list = some g := fun h => (create?_gathers h.cuts).imp fun _ hg => hg.1
  have has : TextsFor line as := hall.subset (by simp)
  obtain ⟨A, hA⟩ := created has
  obtain ⟨B, hB⟩ := created (hall.subset (by simp) : TextsFor line bs)
  obtain ⟨C, hC⟩ := created (hall.subset (by simp) : TextsFor line cs)
  -- the groups stand for their texts, one after the other
  obtain ⟨h₁, heq₁⟩ := create?_append_group (a := []) hall hA
  obtain ⟨h₂, heq₂⟩ := create?_append_group (a := A.list) h₁ hB
  obtain ⟨hgroups, heq₃⟩ := create?_append_group (a := A.list ++ B.list) (b := cs) (c := [])
    (by simpa using h₂) hC
  simp only [List.nil_append, List.append_nil, List.append_assoc] at heq₁ heq₂ heq₃ hgroups
  obtain ⟨AB, hAB⟩ := created (hgroups.subset (by simp) : TextsFor line (A.list ++ B.list))
  obtain ⟨BC, hBC⟩ := created (hgroups.subset (by simp) : TextsFor line (B.list ++ C.list))
  obtain ⟨ABC, hABC⟩ := created hgroups
  have hright := (create?_append_group (a := A.list) (c := []) (by simpa using hgroups) hBC).2
  have hleft := (create?_append_group (a := []) (by simpa using hgroups) hAB).2
  have hself := (create?_append_group (a := []) (c := []) (by simpa using has) hA).2
  simp only [List.nil_append, List.append_nil, List.append_assoc] at hright hleft hself
  refine ⟨A, B, C, AB, BC, ABC, hA, hB, hC, ?_, ?_, ?_, ?_, ?_, ?_, ?_, ?_, rfl⟩
  · rw [merge?_pair, hAB]
  · rw [merge?_pair, hBC]
  · rw [merge?_triple, hABC]
  · rw [merge?_pair, hright, hABC]
  · rw [merge?_pair, hleft, hABC]
  · rw [← heq₁, ← heq₂, ← heq₃, hABC]
  · rw [merge?_pair, none, List.append_nil, hself, hA]
  · rw [merge?_pair, none, List.nil_append, hself, hA]

theorem merge?_assoc_tp :
    let line := "tp St"
    let names := [Suggestion.plain ⟨3, 5⟩ "Steve", .withTooltip ⟨3, 4⟩ "Sam" "far"]
    let lines := [Suggestion.plain ⟨0, 5⟩ "tp @s"]
    let ends := [Suggestion.withTooltip ⟨3, 4⟩ "Sam" "near", .plain ⟨5, 5⟩ "eve"]
    (∀ s ∈ names ++ (lines ++ ends), s.span.Cuts line) ∧
      (∀ s ∈ names ++ (lines ++ ends), s.value = Option.none) ∧
      ∃ A B C AB BC ABC,
        create? line names = some A ∧ create? line lines = some B ∧ create? line ends = some C ∧
        merge? line [A, B] = some AB ∧ merge? line [B, C] = some BC ∧
        merge? line [A, B, C] = some ABC ∧
        merge? line [A, BC] = some ABC ∧ merge? line [AB, C] = some ABC ∧
        create? line (names ++ (lines ++ ends)) = some ABC ∧
        merge? line [A, none] = some A ∧ merge? line [none, A] = some A ∧
        merge? line [A] = some A := by
  intro line names lines ends
  have hcuts : ∀ s ∈ names ++ (lines ++ ends), s.span.Cuts line := by decide
  have htexts : ∀ s ∈ names ++ (lines ++ ends), s.value = Option.none := by decide
  exact ⟨hcuts, htexts, merge?_assoc hcuts htexts⟩

end Suggestions

end CommandConsole
