import CommandConsole.Proofs.UsageLines
import CommandConsole.Proofs.Walks

/-!
# Usage lists what can be run

In a tree of literals, a line of words can be run exactly if it is a usage line of the root. Usage
goes down children and resolves the policy of every way; the parser goes down literals. Both pass
the same gates, so they come to the same nodes by the same words.
-/

namespace CommandConsole

variable {L : Language}

theorem Parsed.obstacle?_eq_none_iff {p : Parsed L} :
    p.obstacle? = none ↔ p.isComplete = true ∧ p.chain.last.command.isSome = true := by
  unfold obstacle?
  cases p.isComplete <;> cases p.chain.last.command <;> simp

namespace CommandTree

variable {t : CommandTree L} {layer : NodeId → Nat} {source : L.Source} {id n c : NodeId}
  {above policy : ConsolePolicy} {path : List NodeId} {words : List String}

/-- A line of tokens is joined from these tokens only. -/
theorem intercalate_inj {words words' : List String} (hwords : ∀ w ∈ words, IsToken w)
    (hwords' : ∀ w ∈ words', IsToken w)
    (h : " ".intercalate words = " ".intercalate words') : words = words' := by
  induction words generalizing words' with
  | nil =>
    cases words' with
    | nil => rfl
    | cons word' words' =>
      obtain ⟨hsome, -⟩ := intercalate_split hwords'
      rw [← h] at hsome
      exact absurd (by simp) hsome
  | cons word words ih =>
    obtain ⟨hsome, htoken, tail, hline, htrim, -⟩ := intercalate_split hwords
    cases words' with
    | nil =>
      rw [h] at hsome
      exact absurd (by simp) hsome
    | cons word' words' =>
      obtain ⟨-, htoken', tail', hline', htrim', -⟩ := intercalate_split hwords'
      obtain rfl : word = word' := String.toList_inj.1 (by rw [← htoken, ← htoken', h])
      obtain rfl : tail = tail' := List.append_cancel_left (hline.symm.trans (h ▸ hline'))
      have hrest : " ".intercalate words = " ".intercalate words' :=
        String.toList_inj.1 (htrim.symm.trans htrim')
      rw [ih (List.forall_mem_cons.1 hwords).2 (List.forall_mem_cons.1 hwords').2 hrest]

/-- Whether all nodes but the root are literals whose names are words, and none redirects. -/
structure OnlyWords (t : CommandTree L) : Prop where
  literal : ∀ id < t.size, id ≠ root → ∃ name, (t.node id).kind = .literal name ∧ IsWord name
  plain : ∀ id < t.size, (t.node id).forward = none

instance (t : CommandTree L) : Decidable t.OnlyWords :=
  decidable_of_iff
    ((∀ id < t.size, id ≠ root → (t.node id).kind.isLiteral = true ∧ IsWord (t.node id).name) ∧
      ∀ id < t.size, (t.node id).forward.isNone = true)
    ⟨fun ⟨hliteral, hplain⟩ => ⟨fun id hid hne => by
        obtain ⟨hkind, hname⟩ := hliteral id hid hne
        unfold Node.name at hname
        cases h : (t.node id).kind with
        | literal name =>
          rw [h] at hname
          exact ⟨name, rfl, hname⟩
        | root | argument | option => simp [h, NodeKind.isLiteral] at hkind,
        fun id hid => Option.isNone_iff_eq_none.1 (hplain id hid)⟩,
      fun h => ⟨fun id hid hne => by
        obtain ⟨name, hkind, hname⟩ := h.literal id hid hne
        rw [Node.name, hkind]
        exact ⟨rfl, hname⟩, fun id hid => Option.isNone_iff_eq_none.2 (h.plain id hid)⟩⟩

/-! ### Trees of words -/

theorem OnlyWords.forward (h : t.OnlyWords) (id : NodeId) : (t.node id).forward = none := by
  rcases Nat.lt_or_ge id t.size with hlt | hge
  · exact h.plain id hlt
  · rw [node_of_size_le hge]
    rfl

theorem OnlyWords.onward (h : t.OnlyWords) (id : NodeId) : t.onward id = id := by
  rw [CommandTree.onward, h.forward id]

theorem OnlyWords.not_argument (h : t.OnlyWords) (hg : Grown t layer) (id : NodeId) (name : String)
    (type : L.Argument) : (t.node id).kind ≠ .argument name type := by
  intro hkind
  rcases Nat.lt_or_ge id t.size with hlt | hge
  · by_cases hroot : id = root
    · rw [hroot, hg.root_plain.1] at hkind
      cases hkind
    · obtain ⟨name', hliteral, -⟩ := h.literal id hlt hroot
      rw [hliteral] at hkind
      cases hkind
  · rw [node_of_size_le hge] at hkind
    cases hkind

theorem OnlyWords.child (h : t.OnlyWords) (hg : Grown t layer) {name : String}
    (hc : (name, c) ∈ (t.node id).children.entries) :
    IsWord name ∧ (t.node c).kind = .literal name ∧ (t.node id).literals.find? name = some c := by
  obtain ⟨hlt, -, hname⟩ := (hg.filed id).child _ hc
  have hne : c ≠ root := hg.child_ne_root (List.mem_map.2 ⟨_, hc, rfl⟩)
  obtain ⟨own, hkind, hword⟩ := h.literal c hlt hne
  have hown : (t.node c).name = own := by
    rw [Node.name, hkind]
    rfl
  obtain rfl : own = name := hown.symm.trans hname
  have hfind : (t.node id).children.find? own = some c :=
    (Keyed.find?_eq_some_iff (hg.tidied id).children).2 hc
  exact ⟨hword, hkind, (hg.tidied id).literal own c hfind (by rw [hkind]; rfl)⟩

theorem OnlyWords.attached (h : t.OnlyWords) (hg : Grown t layer) {name : String}
    (hc : (t.node id).literals.find? name = some c) :
    (name, c) ∈ (t.node id).children.entries := by
  obtain ⟨c', hc'⟩ := Option.ne_none_iff_exists'.1 ((hg.tidied id).child name c hc)
  have hentry := Keyed.mem_entries_of_find? hc'
  obtain ⟨-, -, hfiled⟩ := h.child hg hentry
  obtain rfl : c' = c := Option.some.inj (hfiled.symm.trans hc)
  exact hentry

theorem OnlyWords.not_argument_mem (h : t.OnlyWords) (hg : Grown t layer) {name : String}
    {type : L.Argument} {contexts : List (Context L)} :
    .argument name type ∉ t.kindsOf contexts := by
  intro hmem
  obtain ⟨context, -, hmem⟩ := List.mem_flatMap.1 hmem
  obtain ⟨m, -, hkind⟩ := List.mem_map.1 hmem
  exact h.not_argument hg m.node name type hkind

theorem TreadsTo.isWord (h : t.OnlyWords) (hg : Grown t layer)
    (htreads : t.TreadsTo source id words n) : ∀ w ∈ words, IsWord w := by
  induction htreads with
  | last hc _ => simpa using (h.child hg (h.attached hg hc)).1
  | more hm _ _ ih => exact List.forall_mem_cons.2 ⟨(h.child hg (h.attached hg hm)).1, ih⟩

/-! ### Ways down and words -/

theorem OnlyWords.down (h : t.OnlyWords) (hg : Grown t layer)
    (huse : (t.node id).canUse source above = true) {name : String}
    (hc : (t.node id).literals.find? name = some c) (ha : t.Admits source c .allowed) :
    t.IsChild id c ∧ (t.node c).kind.usageText = name ∧
      (t.node c).canUse source ((t.node id).gates.console.resolve above) = true := by
  have hentry := h.attached hg hc
  obtain ⟨-, hkind, -⟩ := h.child hg hentry
  have hopen := open_of_admits ((canUse_iff_admits ..).1 huse)
  refine ⟨List.mem_map.2 ⟨_, hentry, rfl⟩, by rw [hkind]; rfl, ?_⟩
  exact (canUse_iff_admits ..).2 ((admits_iff_of_open hopen c).2 ha)

theorem WayDown.treadsTo (h : t.OnlyWords) (hg : Grown t layer)
    (hway : t.WayDown source id above path n policy)
    (hn : (t.node n).canUse source policy = true) (hsome : path ≠ []) :
    t.TreadsTo source id (path.map fun c => (t.node c).kind.usageText) n := by
  induction hway with
  | here => exact absurd rfl hsome
  | @down id c n above policy path huse hforward hchild hway ih =>
    obtain ⟨⟨name, c'⟩, hentry, heq⟩ := List.mem_map.1 hchild
    obtain rfl : c' = c := heq
    obtain ⟨-, hkind, hfiled⟩ := h.child hg hentry
    have hopen := open_of_admits ((canUse_iff_admits ..).1 huse)
    have ha : t.Admits source c' .allowed :=
      (admits_iff_of_open hopen c').1 ((canUse_iff_admits ..).1 (hway.start_canUse hn))
    have htext : (t.node c').kind.usageText = name := by
      rw [hkind]
      rfl
    rw [List.map_cons, htext]
    cases hway with
    | here => exact .last hfiled ha
    | down huse' hforward' hchild' hway' =>
      refine .more hfiled ha ?_
      rw [h.onward]
      exact ih hn (List.cons_ne_nil _ _)

theorem TreadsTo.wayDown (h : t.OnlyWords) (hg : Grown t layer)
    (htreads : t.TreadsTo source id words n) (huse : (t.node id).canUse source above = true) :
    ∃ path policy, t.WayDown source id above path n policy ∧
      (t.node n).canUse source policy = true ∧
      words = path.map fun c => (t.node c).kind.usageText := by
  induction htreads generalizing above with
  | @last id c word hc ha =>
    obtain ⟨hchild, htext, hc⟩ := h.down hg huse hc ha
    exact ⟨[c], _, .down huse (h.forward id) hchild (.here _ _), hc, by simp [htext]⟩
  | @more id m c word words hm ha _ ih =>
    obtain ⟨hchild, htext, hm⟩ := h.down hg huse hm ha
    rw [h.onward] at ih
    obtain ⟨path, policy, hway, hn, rfl⟩ := ih hm
    exact ⟨m :: path, policy, .down huse (h.forward id) hchild hway, hn, by simp [htext]⟩

/-! ### Lines of usage and lines that can be run -/

/-- A line of words is a usage line of the root exactly if the words lead to a command. -/
theorem OnlyWords.mem_allUsage_iff (h : t.OnlyWords) (hg : Grown t layer) (hsome : words ≠ [])
    (hwords : ∀ w ∈ words, IsWord w) :
    " ".intercalate words ∈ t.allUsage root source true ↔
      ∃ n, t.TreadsTo source root words n ∧ (t.node n).command.isSome = true := by
  have htokens : ∀ w ∈ words, IsToken w := fun w hw => (hwords w hw).isToken
  rw [allUsage_root]
  constructor
  · intro hline
    obtain ⟨path, n, policy, hway, hn, ⟨hcommand, heq⟩ | hforward⟩ :=
      wayDown_of_mem_usageBelow hline
    · cases path with
      | nil =>
        obtain ⟨⟨d, hd, -⟩, -⟩ := start_words (L := L) hsome htokens
        rw [heq] at hd
        cases hd
      | cons c path =>
        have htreads := hway.treadsTo h hg hn (List.cons_ne_nil _ _)
        have hnames := htreads.isWord h hg
        rw [leadAlong_empty (hnames _ List.mem_cons_self).some] at heq
        rw [intercalate_inj htokens (fun w hw => (hnames w hw).isToken) heq]
        exact ⟨n, htreads, hcommand⟩
    · rw [h.forward] at hforward
      cases hforward
  · rintro ⟨n, htreads, hcommand⟩
    obtain ⟨path, policy, hway, hn, rfl⟩ := htreads.wayDown h hg hg.canUse_root
    cases path with
    | nil => exact absurd rfl hsome
    | cons c path =>
      show t.wayText (c :: path) ∈ _
      rw [← leadAlong_empty (hwords _ List.mem_cons_self).some]
      refine (hway.usage_infix hg "").subset ?_
      rw [hg.usageFrom_branches hn (h.forward n), usageHere, if_pos hcommand]
      exact List.mem_append_left _ (List.mem_singleton_self _)

/-- In a tree of words, a line of words can be run exactly if it is a usage line of the root. -/
theorem usage_iff_runnable (ht : t.Reachable) (h : t.OnlyWords) (source : L.Source)
    (hsome : words ≠ []) (hwords : ∀ w ∈ words, IsWord w) :
    " ".intercalate words ∈ t.allUsage root source true ↔
      (t.parse (" ".intercalate words) source).obstacle? = none := by
  obtain ⟨layer, hg⟩ := ht.grown
  rw [h.mem_allUsage_iff hg hsome hwords, Parsed.obstacle?_eq_none_iff]
  constructor
  · rintro ⟨n, htreads, hcommand⟩
    obtain ⟨hover, -, hlast⟩ := htreads.parse hg.filed hwords
    exact ⟨hover, hlast ▸ hcommand⟩
  · rintro ⟨hover, hcommand⟩
    have htokens : ∀ w ∈ words, IsToken w := fun w hw => (hwords w hw).isToken
    obtain ⟨choices, q, hrun, hq, -⟩ := hg.filed.run_of_complete hsome htokens hover
    have htreads := treads_of_run hg.filed hwords (start_words hsome htokens).2 (open_start _) hrun
      hq fun name type hmem => h.not_argument_mem hg hmem
    obtain ⟨n, hn⟩ := htreads.treadsTo hsome
    obtain ⟨-, -, hlast⟩ := hn.parse hg.filed hwords
    exact ⟨n, hn, hlast ▸ hcommand⟩

/-- The console can be shown and can run only what is below the second command. -/
theorem usage_iff_runnable_office :
    let source := Actor.console "Server"
    let words := ["table", "stop"]
    office.Reachable ∧ office.OnlyWords ∧ words ≠ [] ∧ (∀ w ∈ words, IsWord w) ∧
      (" ".intercalate words ∈ office.allUsage root source true ↔
        (office.parse (" ".intercalate words) source).obstacle? = none) := by
  intro source words
  have honly : office.OnlyWords := by decide +kernel
  have hsome : words ≠ [] := List.cons_ne_nil _ _
  have hwords : ∀ w ∈ words, IsWord w := by decide
  exact ⟨reachable_office, honly, hsome, hwords,
    usage_iff_runnable reachable_office honly source hsome hwords⟩

end CommandTree

end CommandConsole
