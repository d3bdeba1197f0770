import CommandConsole.Proofs.Changes
import CommandConsole.Proofs.Filing

/-!
# A line that fails has done nothing

Failures behind a redirect that forks are passed over, so they are never what a line reports.
Where no redirect has forked there is one source, hence one command, and that command changes
nothing if it fails. This takes that only redirects that fork make other sources.
-/

namespace CommandConsole

variable {L : Language} {W S : Type}

/-! ### Computations that fail -/

/-- Whether a computation that fails leaves a view of the world as it was. -/
def Unharmed (view : W → S) {α : Type} (x : Effect W α) : Prop :=
  ∀ w e w', x.run.run w = (.error e, w') → view w' = view w

section Effects

variable {view : W → S} {α β : Type}

theorem succeeds_skipping (fallback : α) (x : Effect W α) :
    Succeeds (Interpreter.skipping true fallback x) := by
  intro w
  unfold Interpreter.skipping
  simp only [if_true, ExceptT.run_tryCatch, StateT.run_bind]
  cases x.run.run w with
  | mk result w' =>
    cases result with
    | ok v => exact ⟨v, w', rfl⟩
    | error e => exact ⟨fallback, w', rfl⟩

theorem Succeeds.unharmed {x : Effect W α} (h : Succeeds x) : Unharmed view x := by
  intro w e w' hrun
  obtain ⟨v, w'', hok⟩ := h w
  rw [hok] at hrun
  cases hrun

theorem Unharmed.bind {x : Effect W α} {f : α → Effect W β} (hx : Unharmed view x)
    (hf : ∀ v, Succeeds (f v)) : Unharmed view (x >>= f) := by
  intro w e w' hrun
  simp only [ExceptT.run_bind, StateT.run_bind] at hrun
  cases hfirst : x.run.run w with
  | mk result w₁ =>
    rw [hfirst] at hrun
    cases result with
    | ok v =>
      obtain ⟨v', w₂, hok⟩ := hf v w₁
      have hboth : (Except.ok v', w₂) = (Except.error e, w') := hok.symm.trans hrun
      cases hboth
    | error e₁ =>
      have hboth : (Except.error e₁, w₁) = ((Except.error e, w') : Except CommandError β × W) :=
        hrun
      obtain ⟨-, rfl⟩ := Prod.mk.inj hboth
      exact hx w e₁ _ hfirst

theorem unharmed_throw (e : CommandError) : Unharmed view (throw e : Effect W α) := by
  intro w e' w' hrun
  cases hrun
  rfl

end Effects

/-! ### Levels -/

namespace Interpreter

variable {view : W → S}

theorem redirectAll_succeeds (I : Interpreter L W) (invoke : L.Source → Invocation L)
    (sources : List L.Source) : Succeeds (I.redirectAll true invoke sources) := by
  induction sources with
  | nil => exact succeeds_pure _
  | cons source sources ih =>
    exact (succeeds_skipping _ _).bind fun _ => ih.bind fun _ => succeeds_pure _

theorem actAll_succeeds (I : Interpreter L W) (action : L.Action)
    (invoke : L.Source → Invocation L) (sources : List L.Source) :
    Succeeds (I.actAll true action invoke sources) := by
  induction sources with
  | nil => exact succeeds_pure _
  | cons source sources ih =>
    exact (succeeds_skipping _ _).bind fun _ => ih.bind fun _ => succeeds_pure _

/-- Below a context that forks nothing fails. -/
theorem levels_succeeds (I : Interpreter L W) (line : String) (behind : List (Context L))
    (context : Context L) (above : List (Context L)) (sources : List L.Source)
    (hforked : above.any Context.forks = true) :
    Succeeds (I.levels line above sources context behind) := by
  induction behind generalizing context above sources with
  | nil =>
    unfold levels
    cases context.command with
    | none => exact succeeds_pure _
    | some action =>
      simp only [hforked]
      exact I.actAll_succeeds action _ sources
  | cons next behind ih =>
    have hbelow : (above ++ [context]).any Context.forks = true := by
      rw [List.any_append, hforked, Bool.true_or]
    unfold levels
    rw [hbelow]
    exact (I.redirectAll_succeeds _ sources).bind fun made => ih next _ made hbelow

theorem levels_unharmed (I : Interpreter L W) (line : String)
    (hact : ∀ action i, Unharmed view (I.act action i)) (behind : List (Context L))
    (context : Context L)
    (hforks : ∀ c ∈ context :: behind, c.forks = false → c.modifier? = none)
    (above : List (Context L)) (source : L.Source) :
    Unharmed view (I.levels line above [source] context behind) := by
  induction behind generalizing context above with
  | nil =>
    unfold levels
    cases context.command with
    | none => exact (succeeds_pure _).unharmed
    | some action =>
      simp only
      cases habove : above.any Context.forks with
      | true => exact (I.actAll_succeeds action _ [source]).unharmed
      | false =>
        have hone : Unharmed view (do I.act action ⟨source, line, context, []⟩; return 1) :=
          (hact action _).bind fun _ => succeeds_pure _
        exact hone.bind fun _ => (succeeds_pure _).bind fun _ => succeeds_pure _
  | cons next behind ih =>
    unfold levels
    cases hbelow : (above ++ [context]).any Context.forks with
    | true =>
      -- from here on failures are passed over
      refine Succeeds.unharmed ?_
      exact (I.redirectAll_succeeds _ _).bind fun made => I.levels_succeeds line _ _ _ made hbelow
    | false =>
      -- the source goes on alone
      have hcontext : context.forks = false := by
        rw [List.any_append, Bool.or_eq_false_iff] at hbelow
        simpa using hbelow.2
      have hnone : context.modifier? = none := hforks context List.mem_cons_self hcontext
      have hmade : I.redirectAll false (⟨·, line, context, next :: behind⟩) [source] =
          pure [source] := by
        simp [redirectAll, skipping, sourcesOf, hnone]
      rw [hmade, pure_bind]
      exact ih next (fun c hc => hforks c (List.mem_cons_of_mem _ hc)) _

end Interpreter

/-! ### Lines -/

namespace CommandTree

variable {t : CommandTree L} {source : L.Source} {layer : NodeId → Nat}

def ForksSources (t : CommandTree L) : Prop :=
  ∀ id, ∀ f ∈ (t.node id).forward, f.forks = false → f.modifier.isNone = true

theorem Filed.forks_of_parse (hf : Filed t layer) (ht : t.ForksSources) (r : Reader) :
    ∀ c ∈ (t.parseFrom r source).chain.toList, c.forks = false → c.modifier? = none := by
  let P : Context L → Prop := fun c => c.forks = false → c.modifier? = none
  have hstart (root offset policy) : P (Context.startAt root offset policy) := fun _ => rfl
  have henter (c : Context L) (id span policy) : P (c.enter id (t.node id) span policy) := by
    intro h
    unfold Context.forks Context.modifier? Context.enter at *
    cases hforward : (t.node id).forward with
    | none => simp
    | some f =>
      simp only [hforward, Option.any_some] at h
      exact Option.isNone_iff_eq_none.1 (ht id f hforward h)
  have hstep : ∀ p i q, (∀ c ∈ p.closed ++ [p.context], P c) → Step t source p i q →
      ∀ c ∈ q.closed ++ [q.context], P c := by
    intro p i q hp hs
    have hclosed : ∀ c ∈ p.closed, P c := fun c hc => hp c (List.mem_append_left _ hc)
    rcases hs.gives_or_enters with ⟨name, option, -, hg⟩ | ⟨child, -, taken, behind, -, -, rfl⟩
    · cases hg
      have hcontext : P p.context := hp p.context (by simp)
      simpa [or_imp, forall_and] using ⟨hclosed, hcontext⟩
    · rcases beyond_cases (t := t) p child taken behind with hq | ⟨forward, -, -, hq⟩
      · rw [hq]
        simpa [or_imp, forall_and] using ⟨hclosed, henter taken child _ _⟩
      · rw [hq]
        simpa [or_imp, forall_and] using ⟨hclosed, henter taken child _ _, hstart _ _ _⟩
  obtain ⟨q, hq, hchain, -⟩ := hf.parseFrom_invariant source r (by simp [Position.start, hstart])
    hstep
  rw [hchain, Position.toList_chain]
  exact hq

theorem Filed.execute_unharmed (hf : Filed t layer) (ht : t.ForksSources) (r : Reader)
    (I : Interpreter L W) {view : W → S} (hact : ∀ action i, Unharmed view (I.act action i)) :
    Unharmed view (I.execute (t.parseFrom r source)) := by
  cases h : (t.parseFrom r source).obstacle? with
  | some e =>
    unfold Interpreter.execute
    rw [h]
    exact unharmed_throw _
  | none =>
    rw [hf.execute_eq_levels h]
    exact I.levels_unharmed _ hact _ _ (hf.forks_of_parse ht r) [] source

end CommandTree

theorem ConsoleEffect.Atomic.unharmed {R : ServerState → ServerState → Prop} {α : Type}
    {x : ConsoleEffect α} (h : Atomic R x) : Unharmed (fun w : ConsoleWorld => w.state) x := by
  intro w e w' hrun
  have hw := h w
  rw [hrun] at hw
  exact hw

theorem forksSources_commandTree : commandTree.ForksSources := by
  have hall : ∀ id < 32, ∀ f ∈ (commandTree.node id).forward, f.forks = false →
      f.modifier.isNone = true := by
    decide +kernel
  exact fun id => CommandTree.forall_node (P := fun n : Node console =>
    ∀ f ∈ n.forward, f.forks = false → f.modifier.isNone = true) size_commandTree
    (fun f hf => by cases hf) hall id

/-- A line that reports an error has left the state as it was. -/
theorem runConsoleLine_of_error (aliases : Keyed String String) (actor : Actor) (line : String)
    (state : ServerState) {e : CommandError}
    (h : (executeConsoleLine (consoleDispatcher aliases) actor line state).1 = .error e) :
    (executeConsoleLine (consoleDispatcher aliases) actor line state).2.state = state ∧
      (runConsoleLine (consoleDispatcher aliases) actor line state).2 = state := by
  obtain ⟨layer, hg⟩ := reachable_commandTree.grown
  have hstate :
      (executeConsoleLine (consoleDispatcher aliases) actor line state).2.state = state := by
    have hact := fun action i => (act_atomic commandTree action i).unharmed
    unfold executeConsoleLine at h ⊢
    rw [tree_consoleDispatcher] at h ⊢
    exact hg.filed.execute_unharmed forksSources_commandTree
      (.ofString ((consoleDispatcher aliases).expand (Text.trim line)))
      (consoleInterpreter commandTree) hact ⟨state, []⟩ e _ (Prod.ext h rfl)
  refine ⟨hstate, ?_⟩
  rw [runConsoleLine_state]
  split
  · rfl
  · exact hstate

instance : DecidableEq (Except CommandError Nat) := fun x y =>
  match x, y with
  | .ok a, .ok b => decidable_of_iff (a = b) ⟨congrArg _, Except.ok.inj⟩
  | .error a, .error b => decidable_of_iff (a = b) ⟨congrArg _, Except.error.inj⟩
  | .ok _, .error _ | .error _, .ok _ => isFalse nofun

/-- A server that has banned its only player. -/
def emptied : ServerState :=
  ⟨⟨[("Steve", ⟨[], false, .creative⟩)]⟩, ⟨[("Steve", ⟨"Server", none, none⟩)]⟩, true⟩

theorem runConsoleLine_of_error_emptied :
    let d := consoleDispatcher ⟨[("again", "execute run ban")]⟩
    let again := executeConsoleLine d (.console "Server") " again Steve 3 " emptied
    again.1 = .error (.runtime (.message "Steve is already banned")) ∧
      again.2.state = emptied ∧
      (runConsoleLine d (.console "Server") " again Steve 3 " emptied).2 = emptied := by
  intro d again
  have h : again.1 = .error (.runtime (.message "Steve is already banned")) := by
    decide +kernel
  exact ⟨h, runConsoleLine_of_error _ _ _ _ h⟩

end CommandConsole
