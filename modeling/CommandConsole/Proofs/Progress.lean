import CommandConsole.Proofs.Console
import CommandConsole.Proofs.Tiling
import Mathlib.Logic.Relation

/-!
# Progress through a line

Matching the rest of a line may call for matching again, at a child, at the same node behind an
option, or at the target of a redirect, which may lead back up. Every such call starts further on in
the line than the call that makes it, even where types of arguments accept nothing at all, so
matching ends on every tree: nothing has to stop a call that makes no progress.
-/

namespace CommandConsole

open Text

variable {L : Language}

/-- Whether matching stands in front of a token or at the end of the line. -/
def Position.Ready (p : Position L) : Prop := p.reader.rest = [] ∨ p.reader.AtInk

theorem mapM_eq_some {α β : Type} {f : α → Option β} {g : α → β} {as : List α}
    (h : ∀ a ∈ as, f a = some (g a)) : as.mapM f = some (as.map g) := by
  induction as with
  | nil => rfl
  | cons a as ih =>
    rw [List.mapM_cons, h a List.mem_cons_self, ih fun b hb => h b (List.mem_cons_of_mem _ hb)]
    rfl

namespace CommandTree

/-! ### Calls -/

/-- Matching at a position calls for matching at another one, behind a token that it takes. -/
inductive Calls (t : CommandTree L) (source : L.Source) (p : Position L) : Position L → Prop
  | goOn {id node : NodeId} {context : Context L} {reader : Reader} :
      (id, .goOn node context reader) ∈ t.attempts source p.node p.context p.reader →
      Calls t source p ⟨p.closed, node, context, reader⟩
  | redirect {id : NodeId} {context fresh : Context L} {reader : Reader} :
      (id, .redirect context fresh reader) ∈ t.attempts source p.node p.context p.reader →
      Calls t source p ⟨p.closed ++ [context], fresh.root, fresh, reader⟩

variable {t : CommandTree L} {source : L.Source} {p q : Position L}

theorem mem_attempts {id : NodeId} {context : Context L} {r : Reader} {a : NodeId × Attempt L}
    (ha : a ∈ t.attempts source id context r) :
    a.2 = t.tryOption source context r id a.1 ∨ a.2 = t.tryChild source context r a.1 := by
  have harguments : a ∈ (t.node id).arguments.map (fun c => (c, t.tryChild source context r c)) →
      a.2 = t.tryChild source context r a.1 := by
    intro h
    obtain ⟨c, -, rfl⟩ := List.mem_map.1 h
    rfl
  unfold attempts at ha
  dsimp only at ha
  split at ha
  · rw [List.mem_singleton.1 ha]
    exact Or.inl rfl
  · split at ha
    · split at ha
      · rw [List.mem_singleton.1 ha]
        exact Or.inr rfl
      · rcases List.mem_cons.1 ha with rfl | ha
        · exact Or.inr rfl
        · exact Or.inr (harguments ha)
    · exact Or.inr (harguments ha)

/-- Whatever is tried at a position, it passes text up to the end of a token and the blanks behind.
-/
theorem attempt_passes (hL : L.ReadsForward) {a : NodeId × Attempt L}
    (ha : a ∈ t.attempts source p.node p.context p.reader) :
    ∃ P, Decides p P a.2 ∧ ∀ q, P q →
      ∃ n, endsToken (p.reader.pass n).rest = true ∧ q.reader = (p.reader.pass n).skipBlank := by
  rcases mem_attempts ha with h | h <;> rw [h]
  · cases hkind : (t.node a.1).kind with
    | option name type =>
      exact ⟨_, tryOption_decides source hkind, fun q hq => hq.passes hL⟩
    | _ =>
      refine ⟨fun _ => False, Or.inr ⟨fun _ => id, ?_⟩, fun _ => False.elim⟩
      simp [tryOption, hkind, Attempt.refuse]
  · exact ⟨_, tryChild_decides source p a.1, fun q hq => hq.passes hL⟩

theorem Calls.passes (hL : L.ReadsForward) (h : Calls t source p q) :
    q.reader.rest ≠ [] ∧ ∃ n, endsToken (p.reader.pass n).rest = true ∧
      q.reader = (p.reader.pass n).skipBlank := by
  cases h with
  | goOn ha =>
    obtain ⟨P, ⟨q, hP, rfl, hr⟩ | ⟨-, f, hf⟩, hpass⟩ := attempt_passes hL ha
    · exact ⟨hr, hpass _ ((hP _).2 rfl)⟩
    · cases hf
  | redirect ha =>
    obtain ⟨P, ⟨q, hP, rfl, hr⟩ | ⟨-, f, hf⟩, hpass⟩ := attempt_passes hL ha
    · exact ⟨hr, hpass _ ((hP _).2 rfl)⟩
    · cases hf

/-! ### Progress -/

/-- A call stands in front of a token, at least one character behind the call that makes it. -/
theorem Calls.advances (hL : L.ReadsForward) (h : Calls t source p q) (hp : p.Ready) :
    q.reader.AtInk ∧ ∃ n, 0 < n ∧ q.reader = p.reader.pass n ∧ p.reader.rest ≠ [] := by
  obtain ⟨hq, n, hends, heq⟩ := h.passes hL
  have hink : q.reader.AtInk := by
    rcases Reader.skipBlank_cases (p.reader.pass n) with hnil | hink
    · rw [← heq] at hnil
      exact absurd hnil hq
    · rw [heq]
      exact hink
  have hpass : ∃ k, q.reader = p.reader.pass (n + k) := by
    rw [heq, Reader.skipBlank_eq_pass, Reader.pass_pass]
    exact ⟨_, rfl⟩
  obtain ⟨k, hk⟩ := hpass
  have hrest : p.reader.rest ≠ [] := by
    intro hnil
    rw [hk, Reader.rest_pass, hnil] at hq
    simp at hq
  -- a token in front of ink is not empty
  have hn : n ≠ 0 := by
    intro h0
    rw [h0] at hends
    exact (hp.resolve_left hrest).not_endsToken hends
  exact ⟨hink, n + k, by omega, hk, hrest⟩

theorem Calls.ready (hL : L.ReadsForward) (h : Calls t source p q) (hp : p.Ready) : q.Ready :=
  Or.inr (h.advances hL hp).1

theorem Calls.cursor_lt (hL : L.ReadsForward) (h : Calls t source p q) (hp : p.Ready) :
    p.reader.cursor < q.reader.cursor := by
  obtain ⟨-, n, hn, heq, hrest⟩ := h.advances hL hp
  rw [heq]
  exact Reader.cursor_lt_pass _ hn hrest

theorem Calls.rest_lt (hL : L.ReadsForward) (h : Calls t source p q) (hp : p.Ready) :
    q.reader.rest.length < p.reader.rest.length := by
  obtain ⟨-, n, hn, heq, hrest⟩ := h.advances hL hp
  have hpos := List.length_pos_iff.2 hrest
  rw [heq, Reader.rest_pass, List.length_drop]
  omega

theorem Calls.text_eq (hL : L.ReadsForward) (h : Calls t source p q) :
    q.reader.text = p.reader.text := by
  obtain ⟨-, n, -, heq⟩ := h.passes hL
  rw [heq, Reader.text_skipBlank, Reader.text_pass]

theorem Calls.acc (hL : L.ReadsForward) (p : Position L) (hp : p.Ready) :
    Acc (fun q p => Calls t source p q) p := by
  apply Acc.intro
  intro q hq
  have hlt := hq.rest_lt hL hp
  exact acc hL q (hq.ready hL hp)
termination_by p.reader.rest.length

/-! ### Matching to a depth -/

/-- What comes of an attempt when the rest of the line is matched in some way, which may come to
nothing. -/
def outcomeWith (go : NodeId → Context L → Reader → Option (Outcome L)) :
    Attempt L → Option (Option (Outcome L))
  | .failed _ => some none
  | .finished chain reader => some (some (.clean chain reader))
  | .goOn next taken reader => (go next taken reader).map some
  | .redirect taken fresh reader => (go fresh.root fresh reader).map fun o => some (o.behind taken)

/-- Matching with calls inside each other up to a depth, which comes to nothing where they go
deeper. It follows every call, whether or not the call makes progress. -/
def followTo (t : CommandTree L) (source : L.Source) :
    Nat → NodeId → Context L → Reader → Option (Outcome L)
  | 0, _, _, _ => none
  | depth + 1, node, context, r =>
    let tried := t.attempts source node context r
    (tried.mapM fun a => outcomeWith (t.followTo source depth) a.2).map fun outcomes =>
      (Outcome.best? (outcomes.filterMap id)).getD ⟨⟨context, []⟩, r, failuresOf tried⟩

/-- A depth greater than the number of characters left is enough. -/
theorem followTo_eq (hL : L.ReadsForward) {depth : Nat} (hp : p.Ready)
    (hdepth : p.reader.rest.length < depth) :
    t.followTo source depth p.node p.context p.reader =
      some (t.follow source p.node p.context p.reader) := by
  induction depth generalizing p with
  | zero => omega
  | succ depth ih =>
    have hcall : ∀ {q}, Calls t source p q → q.reader.rest.length < p.reader.rest.length ∧
        t.followTo source depth q.node q.context q.reader =
          some (t.follow source q.node q.context q.reader) := by
      intro q hq
      have hlt := hq.rest_lt hL hp
      exact ⟨hlt, ih (hq.ready hL hp) (by omega)⟩
    have hattempt : ∀ a ∈ t.attempts source p.node p.context p.reader,
        outcomeWith (t.followTo source depth) a.2 =
          some (t.outcomeOf source p.reader a.2) := by
      intro a ha
      obtain ⟨id, attempt⟩ := a
      cases attempt with
      | failed f => rfl
      | finished chain reader => rfl
      | goOn next taken reader =>
        obtain ⟨hlt, heq⟩ := hcall (.goOn ha)
        simp only [outcomeWith, outcomeOf, heq, if_pos hlt, Option.map_some]
      | redirect taken fresh reader =>
        obtain ⟨hlt, heq⟩ := hcall (.redirect ha)
        simp only [outcomeWith, outcomeOf, heq, if_pos hlt, Option.map_some]
    rw [followTo, mapM_eq_some hattempt, follow_eq, Option.map_some, List.filterMap_map]
    rfl

/-! ### Lines -/

/-- What holds of all calls that matching a line leads to: they read the line, from where they may.
-/
theorem calls_from (hL : L.ReadsForward) {first : Position L} (hfirst : first.Ready)
    (h : Relation.ReflTransGen (Calls t source) first p) :
    p.Ready ∧ p.reader.text = first.reader.text := by
  induction h with
  | refl => exact ⟨hfirst, rfl⟩
  | tail _ hcall ih => exact ⟨hcall.ready hL ih.1, (hcall.text_eq hL).trans ih.2⟩

/-- Matching a line ends on every tree, whatever its redirects are: every call starts further on in
the line than the call that makes it, so calls do not go on without end, and matching that follows
every call, in a depth greater than the number of characters left, comes to what parsing comes to.
Types of arguments may accept nothing; they only must not move the cursor back. -/
theorem parseFrom_ends (hL : L.ReadsForward) (t : CommandTree L) (source : L.Source)
    (r : Reader) :
    let first := Position.start r.skipBlank
    (∀ p q, Relation.ReflTransGen (Calls t source) first p → Calls t source p q →
      p.reader.cursor < q.reader.cursor ∧ q.reader.cursor ≤ r.totalLength) ∧
    Acc (fun q p => Calls t source p q) first ∧
    ∀ depth, r.rest.length < depth →
      t.followTo source depth first.node first.context first.reader =
        some (t.parseFrom r source).outcome := by
  intro first
  have hfirst : first.Ready := Reader.skipBlank_cases r
  refine ⟨fun p q hp hq => ?_, Calls.acc hL first hfirst, fun depth hdepth => ?_⟩
  · obtain ⟨hready, htext⟩ := calls_from hL hfirst hp
    have hsum := q.reader.cursor_add_remainingLength
    have hlength : q.reader.totalLength = r.totalLength := by
      unfold Reader.totalLength
      rw [hq.text_eq hL, htext]
      exact congrArg byteLength r.text_skipBlank
    exact ⟨hq.cursor_lt hL hready, by omega⟩
  · have hskip : first.reader.rest.length ≤ r.rest.length := Reader.rest_pass_le r _
    exact followTo_eq hL hfirst (by omega)

theorem parseFrom_ends_redirects :
    let r := Reader.ofString "execute as * execute run execute run help"
    let source := Actor.console "Server"
    let first : Position console := Position.start r.skipBlank
    console.ReadsForward ∧
      (∀ p q, Relation.ReflTransGen (Calls commandTree source) first p →
        Calls commandTree source p q →
        p.reader.cursor < q.reader.cursor ∧ q.reader.cursor ≤ r.totalLength) ∧
      Acc (fun q p => Calls commandTree source p q) first ∧
      ∀ depth, r.rest.length < depth →
        commandTree.followTo source depth first.node first.context first.reader =
          some (commandTree.parseFrom r source).outcome :=
  ⟨console_readsForward, parseFrom_ends console_readsForward commandTree _ _⟩

end CommandTree

end CommandConsole
