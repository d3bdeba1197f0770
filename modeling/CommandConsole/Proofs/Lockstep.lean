import CommandConsole.Proofs.Execution

/-!
# Runs in lockstep

Two interpreters may work on different worlds. If modifiers, and the command that a line ends with,
come to the same under both of them from worlds that a relation holds between, and leave such worlds
again, then running the line does. What is known of the sources is handed on: modifiers make sources
of which it holds again.
-/

namespace CommandConsole

variable {L : Language} {W W' : Type}

/-- Whether two computations come to the same from related worlds, and leave related worlds, also
when they fail; a value that they give has a property. -/
def Lockstep (R : W → W' → Prop) {α : Type} (Q : α → Prop) (x : Effect W α) (y : Effect W' α) :
    Prop :=
  ∀ w w', R w w' → ∃ result after after', x.run.run w = (result, after) ∧
    y.run.run w' = (result, after') ∧ R after after' ∧ ∀ v, result = .ok v → Q v

namespace Lockstep

variable {R : W → W' → Prop} {α β : Type} {Q : α → Prop} {Q' : β → Prop}

theorem pure {v : α} (h : Q v) :
    Lockstep R Q (Pure.pure v : Effect W α) (Pure.pure v : Effect W' α) := by
  intro w w' hw
  refine ⟨.ok v, w, w', rfl, rfl, hw, ?_⟩
  rintro _ ⟨⟩
  exact h

theorem throw (e : CommandError) :
    Lockstep R Q (MonadExcept.throw e : Effect W α) (MonadExcept.throw e : Effect W' α) :=
  fun w w' hw => ⟨.error e, w, w', rfl, rfl, hw, nofun⟩

theorem bind {x : Effect W α} {y : Effect W' α} {f : α → Effect W β} {g : α → Effect W' β}
    (hx : Lockstep R Q x y) (hf : ∀ v, Q v → Lockstep R Q' (f v) (g v)) :
    Lockstep R Q' (x >>= f) (y >>= g) := by
  intro w w' hw
  obtain ⟨result, after, after', hrun, hrun', hafter, hresult⟩ := hx w w' hw
  simp only [ExceptT.run_bind, StateT.run_bind, hrun, hrun']
  cases result with
  | ok v => exact hf v (hresult v rfl) after after' hafter
  | error e => exact ⟨.error e, after, after', rfl, rfl, hafter, nofun⟩

theorem skipping {x : Effect W α} {y : Effect W' α} (hx : Lockstep R Q x y) (forked : Bool)
    {fallback : α} (h : Q fallback) :
    Lockstep R Q (Interpreter.skipping forked fallback x)
      (Interpreter.skipping forked fallback y) := by
  unfold Interpreter.skipping
  cases forked with
  | false => exact hx
  | true =>
    intro w w' hw
    obtain ⟨result, after, after', hrun, hrun', hafter, hresult⟩ := hx w w' hw
    simp only [if_true, ExceptT.run_tryCatch, StateT.run_bind, hrun, hrun']
    cases result with
    | ok v => exact ⟨.ok v, after, after', rfl, rfl, hafter, hresult⟩
    | error e => exact Lockstep.pure h after after' hafter

end Lockstep

namespace Interpreter

variable {R : W → W' → Prop} {I : Interpreter L W} {J : Interpreter L W'} {A : L.Source → Prop}

theorem redirectAll_lockstep (hmodify : ∀ modifier i, A i.source →
      Lockstep R (∀ s ∈ ·, A s) (I.modify modifier i) (J.modify modifier i))
    (forked : Bool) (line : String) (context : Context L) (behind : List (Context L))
    {sources : List L.Source} (hsources : ∀ s ∈ sources, A s) :
    Lockstep R (∀ s ∈ ·, A s) (I.redirectAll forked (⟨·, line, context, behind⟩) sources)
      (J.redirectAll forked (⟨·, line, context, behind⟩) sources) := by
  have hnone : ∀ s ∈ ([] : List L.Source), A s := List.forall_mem_nil _
  induction sources with
  | nil => exact .pure hnone
  | cons source sources ih =>
    obtain ⟨hsource, hsources⟩ := List.forall_mem_cons.1 hsources
    have hhere : Lockstep R (∀ s ∈ ·, A s) (I.sourcesOf ⟨source, line, context, behind⟩)
        (J.sourcesOf ⟨source, line, context, behind⟩) := by
      unfold sourcesOf
      split
      · exact .pure (List.forall_mem_singleton.2 hsource)
      · exact hmodify _ _ hsource
    refine (hhere.skipping forked hnone).bind fun here hhere => (ih hsources).bind ?_
    exact fun others hothers => .pure (List.forall_mem_append.2 ⟨hhere, hothers⟩)

theorem actAll_lockstep (action : L.Action) (line : String) (context : Context L)
    (hact : ∀ source, A source → Lockstep R (fun _ => True)
      (I.act action ⟨source, line, context, []⟩) (J.act action ⟨source, line, context, []⟩))
    (forked : Bool) {sources : List L.Source} (hsources : ∀ s ∈ sources, A s) :
    Lockstep R (fun _ => True) (I.actAll forked action (⟨·, line, context, []⟩) sources)
      (J.actAll forked action (⟨·, line, context, []⟩) sources) := by
  induction sources with
  | nil => exact .pure trivial
  | cons source sources ih =>
    obtain ⟨hsource, hsources⟩ := List.forall_mem_cons.1 hsources
    have hhere : Lockstep R (fun _ => True)
        (do I.act action ⟨source, line, context, []⟩; return 1)
        (do J.act action ⟨source, line, context, []⟩; return 1) :=
      (hact source hsource).bind fun _ _ => .pure trivial
    refine (hhere.skipping forked trivial).bind fun here _ => (ih hsources).bind ?_
    exact fun others _ => .pure trivial

/-- Levels stay in lockstep if modifiers and the command of the last context do. -/
theorem levels_lockstep (line : String) (hmodify : ∀ modifier i, A i.source →
      Lockstep R (∀ s ∈ ·, A s) (I.modify modifier i) (J.modify modifier i)) {last : Context L}
    (hact : ∀ action source, last.command = some action → A source →
      Lockstep R (fun _ => True) (I.act action ⟨source, line, last, []⟩)
        (J.act action ⟨source, line, last, []⟩))
    (behind : List (Context L)) (context : Context L)
    (hlast : (context :: behind).getLast (List.cons_ne_nil _ _) = last)
    (above : List (Context L)) {sources : List L.Source} (hsources : ∀ s ∈ sources, A s) :
    Lockstep R (fun _ => True) (I.levels line above sources context behind)
      (J.levels line above sources context behind) := by
  induction behind generalizing context above sources with
  | nil =>
    obtain rfl : context = last := hlast
    unfold levels
    split
    · exact .pure trivial
    · next action hcommand =>
      exact actAll_lockstep action line context (fun source => hact action source hcommand) _
        hsources
  | cons next behind ih =>
    unfold levels
    refine (redirectAll_lockstep hmodify _ line context _ hsources).bind fun made hmade => ?_
    exact ih next (by simpa using hlast) _ hmade

end Interpreter

namespace CommandTree

variable {t : CommandTree L} {source : L.Source} {layer : NodeId → Nat}

/-- A line runs in lockstep under two interpreters if modifiers and the command that it ends with
do. -/
theorem Filed.execute_lockstep (hf : Filed t layer) (r : Reader) {I : Interpreter L W}
    {J : Interpreter L W'} {R : W → W' → Prop} {A : L.Source → Prop} (hsource : A source)
    (hmodify : ∀ modifier i, A i.source →
      Lockstep R (∀ s ∈ ·, A s) (I.modify modifier i) (J.modify modifier i))
    (hact : ∀ action i, (t.parseFrom r source).chain.last.command = some action →
      i.context = (t.parseFrom r source).chain.last → A i.source →
      Lockstep R (fun _ => True) (I.act action i) (J.act action i)) :
    Lockstep R (fun _ => True) (I.execute (t.parseFrom r source))
      (J.execute (t.parseFrom r source)) := by
  cases h : (t.parseFrom r source).obstacle? with
  | some e =>
    unfold Interpreter.execute
    rw [h]
    exact .throw _
  | none =>
    rw [hf.execute_eq_levels h, hf.execute_eq_levels h]
    exact Interpreter.levels_lockstep _ hmodify
      (fun action source hcommand => hact action ⟨source, _, _, []⟩ hcommand rfl) _ _
      (t.parseFrom r source).chain.getLast_toList _ (List.forall_mem_singleton.2 hsource)

end CommandTree

end CommandConsole
