/-!
# Values under keys, in order

A keyed list holds at most one value under a key and lists its keys in the order in which they
first came. Inserting under a key that is there replaces the value in place.
-/

namespace CommandConsole

/-- Values under keys, in the order in which the keys first came. -/
structure Keyed (κ α : Type) where
  entries : List (κ × α)

namespace Keyed

variable {κ α : Type} [DecidableEq κ]

def empty : Keyed κ α := ⟨[]⟩

def keys (m : Keyed κ α) : List κ := m.entries.map Prod.fst

def values (m : Keyed κ α) : List α := m.entries.map Prod.snd

def lookup (k : κ) : List (κ × α) → Option α
  | [] => none
  | (k', v) :: rest => if k' = k then some v else lookup k rest

def find? (m : Keyed κ α) (k : κ) : Option α := lookup k m.entries

def contains (m : Keyed κ α) (k : κ) : Bool := (m.find? k).isSome

/-- The entries with a value put under a key, in place or at the end. -/
def put (k : κ) (v : α) : List (κ × α) → List (κ × α)
  | [] => [(k, v)]
  | (k', v') :: rest => if k' = k then (k', v) :: rest else (k', v') :: put k v rest

def insert (m : Keyed κ α) (k : κ) (v : α) : Keyed κ α := ⟨put k v m.entries⟩

def erase (m : Keyed κ α) (k : κ) : Keyed κ α := ⟨m.entries.filter fun e => e.1 ≠ k⟩

def extend (m other : Keyed κ α) : Keyed κ α :=
  other.entries.foldl (fun acc e => acc.insert e.1 e.2) m

def modify (m : Keyed κ α) (k : κ) (f : α → α) : Keyed κ α :=
  ⟨m.entries.map fun e => if e.1 = k then (e.1, f e.2) else e⟩

/-- The keyed list of some entries, later values replacing earlier ones. -/
def ofList (es : List (κ × α)) : Keyed κ α := extend empty ⟨es⟩

/-! ### Look-up after a change -/

@[simp] theorem find?_empty (k : κ) : (empty : Keyed κ α).find? k = none := rfl

theorem find?_insert (m : Keyed κ α) (k k' : κ) (v : α) :
    (m.insert k v).find? k' = if k = k' then some v else m.find? k' := by
  obtain ⟨es⟩ := m
  simp only [insert, find?]
  induction es with
  | nil => simp [put, lookup]
  | cons e es ih =>
    obtain ⟨k₁, v₁⟩ := e
    unfold put
    split
    · next h => subst h; simp [lookup]; split <;> simp_all
    · next h =>
      simp only [lookup, ih]
      split <;> split <;> simp_all

theorem keys_insert (m : Keyed κ α) (k : κ) (v : α) :
    (m.insert k v).keys = if k ∈ m.keys then m.keys else m.keys ++ [k] := by
  obtain ⟨es⟩ := m
  simp only [insert, keys]
  induction es with
  | nil => simp [put]
  | cons e es ih =>
    obtain ⟨k₁, v₁⟩ := e
    unfold put
    split
    · next h => subst h; simp
    · next h =>
      simp only [List.map_cons, ih, List.mem_cons]
      have hne : k ≠ k₁ := fun e => h e.symm
      by_cases hk : k ∈ List.map Prod.fst es <;> simp [hk, hne]

theorem find?_erase_self (m : Keyed κ α) (k : κ) : (m.erase k).find? k = none := by
  obtain ⟨es⟩ := m
  simp only [erase, find?]
  induction es with
  | nil => rfl
  | cons e es ih =>
    obtain ⟨k₁, v₁⟩ := e
    by_cases h : k₁ = k
    · simpa [h] using ih
    · simpa [h, lookup] using ih

theorem find?_erase_of_ne {k k' : κ} (h : k ≠ k') (m : Keyed κ α) :
    (m.erase k).find? k' = m.find? k' := by
  obtain ⟨es⟩ := m
  simp only [erase, find?]
  induction es with
  | nil => rfl
  | cons e es ih =>
    obtain ⟨k₁, v₁⟩ := e
    by_cases hk : k₁ = k
    · have hne : k₁ ≠ k' := hk ▸ h
      simpa [hk, lookup, h] using ih
    · simp only [ne_eq, hk, not_false_eq_true, decide_true, List.filter_cons_of_pos, lookup]
      split
      · rfl
      · exact ih

theorem find?_modify (m : Keyed κ α) (k k' : κ) (f : α → α) :
    (m.modify k f).find? k' = (m.find? k').map fun v => if k' = k then f v else v := by
  obtain ⟨es⟩ := m
  simp only [modify, find?]
  induction es with
  | nil => rfl
  | cons e es ih =>
    obtain ⟨k₁, v₁⟩ := e
    by_cases hk : k₁ = k' <;> by_cases hk' : k₁ = k <;> simp_all [lookup]

/-! ### Entries after a change -/

theorem mem_entries_of_find? {m : Keyed κ α} {k : κ} {v : α} (h : m.find? k = some v) :
    (k, v) ∈ m.entries := by
  obtain ⟨es⟩ := m
  simp only [find?] at h ⊢
  induction es with
  | nil => simp [lookup] at h
  | cons e es ih =>
    obtain ⟨k₁, v₁⟩ := e
    unfold lookup at h
    split at h
    · next hk =>
      obtain rfl := Option.some.inj h
      rw [hk]
      exact List.mem_cons_self ..
    · exact List.mem_cons_of_mem _ (ih h)

theorem entries_insert_new {m : Keyed κ α} {k : κ} (h : m.find? k = none) (v : α) :
    (m.insert k v).entries = m.entries ++ [(k, v)] := by
  obtain ⟨es⟩ := m
  simp only [insert, find?] at h ⊢
  induction es with
  | nil => rfl
  | cons e es ih =>
    obtain ⟨k₁, v₁⟩ := e
    unfold lookup at h
    split at h
    · cases h
    · next hk =>
      unfold put
      rw [if_neg hk, ih h, List.cons_append]

theorem mem_entries_insert {m : Keyed κ α} {k : κ} {v : α} {e : κ × α}
    (h : e ∈ (m.insert k v).entries) : e = (k, v) ∨ e ∈ m.entries := by
  obtain ⟨es⟩ := m
  simp only [insert] at h ⊢
  induction es with
  | nil => simpa [put] using h
  | cons e₁ es ih =>
    obtain ⟨k₁, v₁⟩ := e₁
    unfold put at h
    split at h
    · next hk =>
      rw [hk] at h
      rcases List.mem_cons.1 h with h | h
      · exact Or.inl h
      · exact Or.inr (List.mem_cons_of_mem _ h)
    · rcases List.mem_cons.1 h with h | h
      · exact Or.inr (h ▸ List.mem_cons_self ..)
      · rcases ih h with h | h
        · exact Or.inl h
        · exact Or.inr (List.mem_cons_of_mem _ h)

theorem mem_entries_extend {m other : Keyed κ α} {e : κ × α}
    (h : e ∈ (m.extend other).entries) : e ∈ m.entries ∨ e ∈ other.entries := by
  obtain ⟨es⟩ := other
  simp only [extend] at h ⊢
  induction es generalizing m with
  | nil => exact Or.inl h
  | cons e₁ es ih =>
    rw [List.foldl_cons] at h
    rcases ih h with h | h
    · rcases mem_entries_insert h with h | h
      · exact Or.inr (h ▸ List.mem_cons_self ..)
      · exact Or.inl h
    · exact Or.inr (List.mem_cons_of_mem _ h)

/-! ### Distinct keys -/

theorem nodup_keys_insert {m : Keyed κ α} (h : m.keys.Nodup) (k : κ) (v : α) :
    (m.insert k v).keys.Nodup := by
  rw [keys_insert]
  split
  · exact h
  · next hk =>
    have hone : [k].Nodup := List.pairwise_singleton _ k
    refine List.nodup_append.2 ⟨h, hone, fun a ha b hb => ?_⟩
    rw [List.mem_singleton.1 hb]
    exact fun heq => hk (heq ▸ ha)

theorem nodup_keys_extend {m : Keyed κ α} (h : m.keys.Nodup) (other : Keyed κ α) :
    (m.extend other).keys.Nodup := by
  obtain ⟨es⟩ := other
  unfold extend
  induction es generalizing m with
  | nil => exact h
  | cons e es ih => exact ih (nodup_keys_insert h e.1 e.2)

theorem find?_eq_some_iff {m : Keyed κ α} (h : m.keys.Nodup) {k : κ} {v : α} :
    m.find? k = some v ↔ (k, v) ∈ m.entries := by
  refine ⟨mem_entries_of_find?, fun hmem => ?_⟩
  obtain ⟨es⟩ := m
  induction es with
  | nil => cases hmem
  | cons e es ih =>
    obtain ⟨k₁, v₁⟩ := e
    obtain ⟨hfirst, hrest⟩ := List.nodup_cons.1 h
    simp only [find?, lookup] at ih ⊢
    rcases List.mem_cons.1 hmem with heq | hmem
    · obtain ⟨rfl, rfl⟩ := Prod.mk.inj heq
      rw [if_pos rfl]
    · have hne : k₁ ≠ k := fun heq =>
        hfirst (List.mem_map.2 ⟨(k, v), hmem, heq.symm⟩)
      rw [if_neg hne]
      exact ih hrest hmem

theorem find?_eq_none_iff {m : Keyed κ α} {k : κ} : m.find? k = none ↔ k ∉ m.keys := by
  obtain ⟨es⟩ := m
  simp only [find?, keys]
  induction es with
  | nil => simp [lookup]
  | cons e es ih =>
    obtain ⟨k₁, v₁⟩ := e
    by_cases hk : k₁ = k
    · simp [lookup, hk]
    · have hne : k ≠ k₁ := fun heq => hk heq.symm
      simp [lookup, hk, hne, ih]

theorem find?_extend {m other : Keyed κ α} (h : other.keys.Nodup) (k : κ) :
    (m.extend other).find? k = (other.find? k).or (m.find? k) := by
  obtain ⟨es⟩ := other
  unfold extend
  induction es generalizing m with
  | nil => rfl
  | cons e es ih =>
    obtain ⟨k₁, v₁⟩ := e
    obtain ⟨hfirst, hrest⟩ := List.nodup_cons.1 h
    have hfold := ih (m := m.insert k₁ v₁) hrest
    rw [List.foldl_cons, hfold, find?_insert]
    by_cases hk : k₁ = k
    · have hnone : (⟨es⟩ : Keyed κ α).find? k = none := find?_eq_none_iff.2 (hk ▸ hfirst)
      rw [hnone, if_pos hk]
      simp [find?, lookup, hk]
    · rw [if_neg hk]
      simp [find?, lookup, hk]

theorem entries_extend_new {m other : Keyed κ α} (h : (m.keys ++ other.keys).Nodup) :
    (m.extend other).entries = m.entries ++ other.entries := by
  obtain ⟨es⟩ := other
  unfold extend
  induction es generalizing m with
  | nil => exact (List.append_nil _).symm
  | cons e es ih =>
    have hnew : e.1 ∉ m.keys := fun hmem =>
      (List.nodup_append.1 h).2.2 _ hmem _ (List.mem_cons_self ..) rfl
    have hentries := entries_insert_new (find?_eq_none_iff.2 hnew) e.2
    have hkeys : (m.insert e.1 e.2).keys ++ es.map Prod.fst =
        m.keys ++ (e :: es).map Prod.fst := by
      rw [keys_insert, if_neg hnew, List.append_assoc]
      rfl
    rw [List.foldl_cons, ih (hkeys ▸ h), hentries, List.append_assoc]
    rfl

theorem ofList_of_nodup {es : List (κ × α)} (h : (es.map Prod.fst).Nodup) : ofList es = ⟨es⟩ := by
  have hdistinct : ((empty : Keyed κ α).keys ++ (⟨es⟩ : Keyed κ α).keys).Nodup := h
  exact congrArg mk (entries_extend_new hdistinct)

end Keyed

end CommandConsole
