import CommandConsole.Proofs.Console
import CommandConsole.Running.Execution

/-!
# Running is level by level

The rounds of a run are compared with a run that knows no invocations: it replaces all sources at
one redirect after the other, and then runs the command once for every source that is left.
-/

namespace CommandConsole

variable {L : Language} {W : Type}

/-- What counts of a run in the end: its successes, whether there was anything to run, and what
is left. -/
def Progress.result (s : Progress L) : Nat × Bool × List (Invocation L) :=
  (s.successes, s.found, s.next)

namespace Interpreter

/-! ### Levels -/

/-- The result of a computation; a failure is skipped if failures are. -/
def skipping {α : Type} (forked : Bool) (fallback : α) (x : Effect W α) : Effect W α :=
  if forked then tryCatch x fun _ => pure fallback else x

/-- The sources that a redirect makes of one source: the source itself without a modifier. -/
def sourcesOf (I : Interpreter L W) (i : Invocation L) : Effect W (List L.Source) :=
  match i.context.modifier? with
  | none => pure [i.source]
  | some modifier => I.modify modifier i

def redirectAll (I : Interpreter L W) (forked : Bool) (invoke : L.Source → Invocation L) :
    List L.Source → Effect W (List L.Source)
  | [] => pure []
  | source :: sources => do
    let here ← skipping forked [] (I.sourcesOf (invoke source))
    let others ← redirectAll I forked invoke sources
    return here ++ others

/-- Runs a command for several sources, in order, and counts the successes. -/
def actAll (I : Interpreter L W) (forked : Bool) (action : L.Action)
    (invoke : L.Source → Invocation L) : List L.Source → Effect W Nat
  | [] => pure 0
  | source :: sources => do
    let here ← skipping forked 0 (do I.act action (invoke source); return 1)
    let others ← actAll I forked action invoke sources
    return here + others

/-- Runs a context and those behind it for some sources. At a redirect a failure is skipped if the
context or one above it forks, in the last context only if one above it does. -/
def levels (I : Interpreter L W) (line : String) (above : List (Context L))
    (sources : List L.Source) (context : Context L) : List (Context L) → Effect W Nat
  | [] =>
    match context.command with
    | none => pure 0
    | some action => I.actAll (above.any Context.forks) action (⟨·, line, context, []⟩) sources
  | next :: behind => do
    let made ← I.redirectAll ((above ++ [context]).any Context.forks)
      (⟨·, line, context, next :: behind⟩) sources
    I.levels line (above ++ [context]) made next behind

/-- A run of a parsed line level by level, for its own source. -/
def executeLevels (I : Interpreter L W) (p : Parsed L) : Effect W Nat :=
  I.levels p.reader.line [] [p.source] p.chain.outer p.chain.redirected

theorem levels_nil (I : Interpreter L W) (line : String) (above : List (Context L))
    (context : Context L) (behind : List (Context L)) :
    I.levels line above [] context behind = pure 0 := by
  induction behind generalizing above context with
  | nil =>
    unfold levels
    cases context.command <;> rfl
  | cons next behind ih =>
    simp only [levels, redirectAll, pure_bind]
    exact ih _ _

/-! ### Visits -/

theorem tryCatch_bind_pure {α β : Type} (x : Effect W α) (after : α → β) (fallback : α) :
    (tryCatch (do let v ← x; return after v) fun _ => pure (after fallback) : Effect W β) =
      (do let v ← tryCatch x fun _ => pure fallback; return after v) := by
  apply ExceptT.ext
  simp only [ExceptT.run_tryCatch, ExceptT.run_bind, bind_assoc, ExceptT.run_pure]
  congr 1
  funext r
  cases r <;> simp

theorem attempt_eq {α : Type} {s : Progress L} (x : Effect W α) {after : α → Progress L}
    (fallback : α) (h : after fallback = s) :
    attempt s x after = (do let v ← skipping s.forked fallback x; return after v) := by
  unfold attempt skipping
  cases s.forked with
  | false => rfl
  | true =>
    simp only [if_true]
    rw [← tryCatch_bind_pure, h]

theorem skipping_pure {α : Type} (forked : Bool) (fallback v : α) :
    skipping forked fallback (pure v : Effect W α) = pure v := by
  unfold skipping
  cases forked <;> rfl

theorem visitRedirect_eq (I : Interpreter L W) (s : Progress L) (i : Invocation L)
    {next : Context L} (behind : List (Context L)) (hnodes : next.nodes ≠ []) :
    I.visitRedirect s i next behind = (do
      let made ← skipping (s.forked || i.context.forks) [] (I.sourcesOf i)
      return ({ s with forked := s.forked || i.context.forks, found := true }).leave
        (made.map (⟨·, i.line, next, behind⟩))) := by
  unfold visitRedirect sourcesOf
  simp only
  rw [if_neg (by simpa using hnodes)]
  cases i.context.modifier? with
  | none =>
    simp only [skipping_pure, pure_bind]
    rfl
  | some modifier =>
    simp only
    rw [attempt_eq (I.modify modifier i) []]
    simp [Progress.leave]

theorem visitLast_eq (I : Interpreter L W) (s : Progress L) (i : Invocation L)
    {action : L.Action} (hcommand : i.context.command = some action) :
    I.visitLast s i = (do
      let here ← skipping s.forked 0 (do I.act action i; return 1)
      return { s with successes := s.successes + here, found := true }) := by
  unfold visitLast
  rw [hcommand]
  simp only
  -- the success is counted through the number that the command returns
  have hcount : attempt { s with found := true } (I.act action i)
      (fun _ => ({ s with found := true } : Progress L).succeed) =
      attempt { s with found := true } (do I.act action i; return 1)
        (fun here => { s with successes := s.successes + here, found := true }) := by
    simp only [attempt, bind_assoc, pure_bind]
    rfl
  rw [hcount]
  exact attempt_eq _ 0 rfl

/-! ### Rounds -/

theorem visitAll_redirect (I : Interpreter L W) (line : String) {context next : Context L}
    (behind : List (Context L)) (hnodes : next.nodes ≠ []) (sources : List L.Source)
    (s : Progress L) :
    I.visitAll s (sources.map (⟨·, line, context, next :: behind⟩)) = (do
      let made ← I.redirectAll (s.forked || context.forks)
        (⟨·, line, context, next :: behind⟩) sources
      return ({ s with
        forked := s.forked || (!sources.isEmpty && context.forks)
        found := s.found || !sources.isEmpty }).leave (made.map (⟨·, line, next, behind⟩))) := by
  induction sources generalizing s with
  | nil => simp [visitAll, redirectAll, Progress.leave]
  | cons source sources ih =>
    simp only [List.map_cons, visitAll, visit, redirectAll, visitRedirect_eq I s _ behind hnodes,
      bind_assoc, pure_bind]
    congr 1
    funext here
    rw [ih]
    simp only [Progress.leave, Bool.or_assoc, Bool.or_self, List.isEmpty_cons, Bool.not_false,
      Bool.true_and, Bool.or_true, Bool.true_or, List.map_append, List.append_assoc]
    cases context.forks <;> simp

theorem visitAll_last (I : Interpreter L W) (line : String) {context : Context L}
    {action : L.Action} (hcommand : context.command = some action) (sources : List L.Source)
    (s : Progress L) :
    I.visitAll s (sources.map (⟨·, line, context, []⟩)) = (do
      let count ← I.actAll s.forked action (⟨·, line, context, []⟩) sources
      return { s with
        successes := s.successes + count, found := s.found || !sources.isEmpty }) := by
  induction sources generalizing s with
  | nil => simp [visitAll, actAll]
  | cons source sources ih =>
    simp only [List.map_cons, visitAll, visit, actAll, visitLast_eq I s ⟨source, line, context, []⟩
      hcommand, bind_assoc, pure_bind]
    congr 1
    funext here
    rw [ih]
    simp [Nat.add_assoc]

theorem rounds_of_next_nil (I : Interpreter L W) (n : Nat) {s : Progress L} (h : s.next = []) :
    I.rounds (n + 1) s = pure s := by
  simp [rounds, h]

theorem rounds_of_next (I : Interpreter L W) (n : Nat) {s : Progress L} (h : s.next ≠ []) :
    I.rounds (n + 1) s = (do
      let s ← I.visitAll { s with next := [] } s.next
      I.rounds n s) := by
  rw [rounds, if_neg (by simpa using h)]

/-- The rounds from a context on come to what its levels come to, and leave nothing. -/
theorem rounds_eq_levels (I : Interpreter L W) (line : String) (behind : List (Context L))
    (context : Context L) (hnodes : ∀ c ∈ behind, c.nodes ≠ [])
    (hcommand : ((context :: behind).getLast (by simp)).command ≠ none)
    (above : List (Context L)) (sources : List L.Source) (s : Progress L)
    (hnext : s.next = sources.map (⟨·, line, context, behind⟩))
    (hforked : sources ≠ [] → s.forked = above.any Context.forks) :
    (do let s ← I.rounds (behind.length + 1) s; return s.result) =
      (do
        let count ← I.levels line above sources context behind
        return (s.successes + count, s.found || !sources.isEmpty, [])) := by
  induction behind generalizing context above sources s with
  | nil =>
    cases hc : context.command with
    | none => exact absurd hc hcommand
    | some action =>
      cases sources with
      | nil =>
        rw [rounds_of_next_nil I _ (by simp [hnext]), levels_nil]
        simp [Progress.result, hnext]
      | cons source sources =>
        rw [rounds_of_next I _ (by simp [hnext]), hnext, visitAll_last I line hc,
          hforked (List.cons_ne_nil _ _)]
        simp only [levels, hc, bind_assoc, pure_bind]
        rfl
  | cons next behind ih =>
    cases sources with
    | nil =>
      rw [rounds_of_next_nil I _ (by simp [hnext]), levels_nil]
      simp [Progress.result, hnext]
    | cons source sources =>
      have hnext' : next.nodes ≠ [] := hnodes next (by simp)
      have hforks : (above ++ [context]).any Context.forks =
          (above.any Context.forks || context.forks) := by simp
      rw [List.length_cons, rounds_of_next I _ (by simp [hnext]), hnext,
        visitAll_redirect I line behind hnext', hforked (List.cons_ne_nil _ _)]
      simp only [levels, hforks, bind_assoc, pure_bind]
      congr 1
      funext made
      rw [ih next (fun c hc => hnodes c (by simp [hc])) (by simpa using hcommand)
        (above ++ [context]) made _ rfl (fun _ => hforks.symm)]
      simp [Progress.leave]

end Interpreter

/-! ### Contexts that are run -/

namespace CommandTree

variable {t : CommandTree L} {source : L.Source} {layer : NodeId → Nat}

/-- Whether every context that a redirect has closed has a node, and the last one has if it has a
command. -/
def Entered (p : Position L) : Prop :=
  (∀ c ∈ p.closed, c.nodes ≠ []) ∧ (p.context.command ≠ none → p.context.nodes ≠ [])

theorem Entered.step {p q : Position L} {i : Nat} (hp : Entered p) (h : Step t source p i q) :
    Entered q := by
  rcases h.gives_or_enters with ⟨name, option, -, hg⟩ | ⟨child, -, taken, behind, -, -, rfl⟩
  · cases hg
    exact hp
  · rcases beyond_cases (t := t) p child taken behind with h | ⟨forward, -, -, h⟩
    · rw [h]
      exact ⟨hp.1, fun _ => by simp [Context.enter]⟩
    · rw [h]
      refine ⟨fun c hc => ?_, fun hcommand => absurd rfl hcommand⟩
      rcases List.mem_append.1 hc with hc | hc
      · exact hp.1 c hc
      · rw [List.mem_singleton.1 hc]
        simp [Context.enter]

theorem Filed.entered_of_obstacle? (hf : Filed t layer) {r : Reader}
    (h : (t.parseFrom r source).obstacle? = none) :
    (∀ c ∈ (t.parseFrom r source).chain.toList, c.nodes ≠ []) ∧
      (t.parseFrom r source).chain.last.command ≠ none := by
  have hcommand : (t.parseFrom r source).chain.last.command ≠ none := by
    intro hnone
    unfold Parsed.obstacle? at h
    split at h
    · cases h
    · simp [hnone] at h
  obtain ⟨q, hq, hchain, -⟩ := hf.parseFrom_invariant (P := Entered) source r
    ⟨by simp [Position.start], fun hc => absurd rfl hc⟩ (fun _ _ _ hp hs => hp.step hs)
  rw [hchain, Position.last_chain] at hcommand
  rw [hchain, Position.last_chain, Position.toList_chain]
  refine ⟨fun c hc => ?_, hcommand⟩
  rcases List.mem_append.1 hc with hc | hc
  · exact hq.1 c hc
  · rw [List.mem_singleton.1 hc]
    exact hq.2 hcommand

theorem Filed.rounds_result (hf : Filed t layer) {r : Reader}
    (h : (t.parseFrom r source).obstacle? = none) (I : Interpreter L W) :
    let p := t.parseFrom r source
    (do let s ← I.rounds p.chain.toList.length (.start p); return s.result) =
      (do let count ← I.executeLevels p; return (count, true, [])) := by
  intro p
  obtain ⟨hnodes, hcommand⟩ := hf.entered_of_obstacle? h
  show (do let s ← I.rounds (p.chain.redirected.length + 1) (.start p); return s.result) = _
  rw [I.rounds_eq_levels p.reader.line p.chain.redirected p.chain.outer
    (fun c hc => hnodes c (List.mem_cons_of_mem _ hc)) (p.chain.getLast_toList ▸ hcommand)
    [] [p.source] (.start p) rfl (fun _ => rfl)]
  simp [Interpreter.executeLevels, Progress.start]

theorem Filed.execute_eq_levels (hf : Filed t layer) {r : Reader}
    (h : (t.parseFrom r source).obstacle? = none) (I : Interpreter L W) :
    I.execute (t.parseFrom r source) = I.executeLevels (t.parseFrom r source) := by
  -- the end of a run reads no more than its result
  have hend : I.execute (t.parseFrom r source) = (do
      let result ← (do
        let s ← I.rounds (t.parseFrom r source).chain.toList.length (.start (t.parseFrom r source))
        return s.result)
      if result.2.1 then return result.1
      else throw (.line (Fault.unknownCommand.pinned (t.parseFrom r source).reader))) := by
    unfold Interpreter.execute
    rw [h]
    simp only [bind_assoc, pure_bind, Progress.result]
  rw [hend, hf.rounds_result h]
  simp only [bind_assoc, pure_bind, if_true, bind_pure]

/-- Running a line that can be run is running it level by level, for any meaning of actions and
modifiers; the rounds find something to run and leave nothing. -/
theorem execute_eq_executeLevels (ht : t.Reachable) (r : Reader) (source : L.Source)
    (h : (t.parseFrom r source).obstacle? = none) (I : Interpreter L W) :
    let p := t.parseFrom r source
    I.execute p = I.executeLevels p ∧
      (do let s ← I.rounds p.chain.toList.length (.start p); return s.result) =
        (do let count ← I.executeLevels p; return (count, true, [])) := by
  obtain ⟨layer, hg⟩ := ht.grown
  exact ⟨hg.filed.execute_eq_levels h I, hg.filed.rounds_result h I⟩

theorem execute_eq_executeLevels_console :
    let p := commandTree.parseFrom (.ofString "execute run stop") (.console "Server")
    p.obstacle?.isNone = true ∧ ∀ I : Interpreter console (List String),
      I.execute p = I.executeLevels p ∧
        (do let s ← I.rounds p.chain.toList.length (.start p); return s.result) =
          (do let count ← I.executeLevels p; return (count, true, [])) := by
  have h : (commandTree.parseFrom (.ofString "execute run stop")
      (.console "Server")).obstacle?.isNone = true := by decide +kernel
  exact ⟨h, fun I => execute_eq_executeLevels reachable_commandTree _ _
    (Option.isNone_iff_eq_none.1 h) I⟩

end CommandTree

end CommandConsole
