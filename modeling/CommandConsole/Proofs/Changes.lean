import CommandConsole.Console.Session
import CommandConsole.Proofs.GateSafety

/-!
# What commands change

A command of the console that succeeds changes the state in the one way that its action stands for,
and a command that fails has changed nothing: each of them looks at its arguments and at the state
before it makes its only change, and replies do not fail. Making the sources of a redirect changes
nothing at all.
-/

namespace CommandConsole

open ConsoleEffect

/-- What a command that succeeds does to the state, and what it has made sure of before. -/
inductive ConsoleAction.Changes (i : Invocation console) :
    ConsoleAction → ServerState → ServerState → Prop
  | ban {s : ServerState} {target : String} (reason : Option String)
      (duration : Option (Bounds Int32)) : i.argument textKind "target" = .ok target →
      s.bans.contains target = false →
      Changes i .ban s { s.sendOffline target with
        bans := s.bans.insert target ⟨i.source.name, reason, duration⟩ }
  | pardon {s : ServerState} {target : String} : i.argument textKind "target" = .ok target →
      s.bans.contains target = true →
      Changes i .pardon s { s with bans := s.bans.erase target }
  | kick {s : ServerState} {target : String} : i.argument textKind "target" = .ok target →
      (s.players.find? target).any (·.online) = true → Changes i .kick s (s.sendOffline target)
  | setGameMode (mode : GameMode) (s : ServerState) (target : String) :
      Changes i (.setGameMode mode) s
        { s with players := s.players.modify target ({ · with gameMode := mode }) }
  | stop (s : ServerState) : Changes i .stop s { s with running := false }
  | listBans (s : ServerState) : Changes i .listBans s s
  | talk (s : ServerState) : Changes i .talk s s
  | showPermissions (s : ServerState) : Changes i .showPermissions s s
  | listCommands (s : ServerState) : Changes i .listCommands s s
  | explainCommand (s : ServerState) : Changes i .explainCommand s s

/-- Whether a computation never fails. -/
def Succeeds {W α : Type} (x : Effect W α) : Prop := ∀ w, ∃ v w', x.run.run w = (.ok v, w')

theorem succeeds_pure {W α : Type} (v : α) : Succeeds (pure v : Effect W α) := fun w => ⟨v, w, rfl⟩

theorem Succeeds.bind {W α β : Type} {x : Effect W α} {f : α → Effect W β} (hx : Succeeds x)
    (hf : ∀ v, Succeeds (f v)) : Succeeds (x >>= f) := by
  intro w
  obtain ⟨v, w', hrun⟩ := hx w
  obtain ⟨v', w'', hrun'⟩ := hf v w'
  refine ⟨v', w'', ?_⟩
  simp only [ExceptT.run_bind, StateT.run_bind, hrun]
  exact hrun'

namespace ConsoleEffect

variable {α β : Type} {R : ServerState → ServerState → Prop}

/-- Whether a computation relates the states before and after it if it succeeds, and leaves the
state alone if it fails. -/
def Atomic (R : ServerState → ServerState → Prop) (x : ConsoleEffect α) : Prop :=
  ∀ w, match x.run.run w with
    | (.ok _, w') => R w.state w'.state
    | (.error _, w') => w'.state = w.state

/-- Whether a computation leaves the state alone, whatever comes of it. -/
abbrev Quiet (x : ConsoleEffect α) : Prop := Atomic (fun s s' => s' = s) x

/-- Whether a computation never fails and leaves the state alone, as replies do. -/
structure Says (x : ConsoleEffect α) : Prop where
  succeeds : Succeeds x
  quiet : Quiet x

theorem Quiet.atomic {x : ConsoleEffect α} (h : Quiet x) (hR : ∀ s, R s s) : Atomic R x := by
  intro w
  have hw := h w
  split at hw
  · rw [hw]
    exact hR _
  · exact hw

theorem Quiet.bind {x : ConsoleEffect α} (hx : Quiet x) {f : α → ConsoleEffect β}
    (hf : ∀ v, Atomic R (f v)) : Atomic R (x >>= f) := by
  intro w
  have hw := hx w
  simp only [ExceptT.run_bind, StateT.run_bind]
  cases hrun : x.run.run w with
  | mk result w' =>
    rw [hrun] at hw
    cases result with
    | ok v =>
      have hv := hf v w'
      simp only at hw
      rw [hw] at hv
      exact hv
    | error e => exact hw

theorem Atomic.state_cases {x : ConsoleEffect α} (h : Atomic R x) (w : ConsoleWorld) :
    R w.state (x.run.run w).2.state ∨ (x.run.run w).2.state = w.state := by
  have hw := h w
  cases hrun : x.run.run w with
  | mk result w' =>
    rw [hrun] at hw
    cases result with
    | ok v => exact Or.inl hw
    | error e => exact Or.inr hw

theorem Atomic.preserves {P : ServerState → Prop} {x : ConsoleEffect α} (h : Atomic R x)
    (hR : ∀ s s', R s s' → P s → P s') : Preserves (fun w => P w.state) x := by
  intro w hw
  rcases h.state_cases w with hrun | hrun
  · exact hR _ _ hrun hw
  · rwa [hrun]

theorem Says.bind {x : ConsoleEffect α} (hx : Says x) {f : α → ConsoleEffect β}
    (hf : ∀ v, Says (f v)) : Says (x >>= f) where
  succeeds := hx.succeeds.bind fun v => (hf v).succeeds
  quiet := hx.quiet.bind fun v => (hf v).quiet

theorem atomic_change (f : ServerState → ServerState) (hR : ∀ s, R s (f s)) {x : ConsoleEffect α}
    (hx : Says x) : Atomic R (change f >>= fun _ => x) := by
  intro w
  obtain ⟨v, w', hrun⟩ := hx.succeeds { w with state := f w.state }
  have hw := hx.quiet { w with state := f w.state }
  have hall : (change f >>= fun _ => x).run.run w = (.ok v, w') := hrun
  rw [hrun] at hw
  rw [hall]
  simp only at hw ⊢
  rw [hw]
  exact hR _

theorem says_pure (v : α) : Says (pure v : ConsoleEffect α) := ⟨succeeds_pure v, fun _ => rfl⟩

theorem says_reply (source : Actor) (line : String) : Says (reply source line) :=
  ⟨fun _ => ⟨(), _, rfl⟩, fun _ => rfl⟩

theorem says_state : Says state := ⟨fun w => ⟨w.state, w, rfl⟩, fun _ => rfl⟩

theorem says_forM {l : List β} {f : β → ConsoleEffect PUnit} (hf : ∀ v, Says (f v)) :
    Says (l.forM f) := by
  induction l with
  | nil => exact says_pure _
  | cons v l ih => exact (hf v).bind fun _ => ih

theorem quiet_throw (e : CommandError) : Quiet (throw e : ConsoleEffect α) := fun _ => rfl

theorem quiet_refuse (message : String) : Quiet (refuse message : ConsoleEffect α) :=
  quiet_throw _

theorem atomic_unless (c : Prop) [Decidable c] (message : String) {f : Unit → ConsoleEffect β}
    (hf : ¬c → Atomic R (f ())) : Atomic R (if c then refuse message >>= f else f ()) := by
  split
  · exact fun _ => rfl
  · next hc => exact hf hc

theorem atomic_state_bind {f : ServerState → ConsoleEffect β}
    (hf : ∀ s, Atomic (fun before after => before = s → R before after) (f s)) :
    Atomic R (state >>= f) := by
  intro w
  have hw := hf w.state w
  show match (f w.state).run.run w with
    | (.ok _, w') => R w.state w'.state
    | (.error _, w') => w'.state = w.state
  split at hw
  · exact hw rfl
  · exact hw

theorem atomic_textOf_bind {i : Invocation console} {name : String} {f : String → ConsoleEffect β}
    (hf : ∀ v, i.argument textKind name = .ok v → Atomic R (f v)) :
    Atomic R (textOf i name >>= f) := by
  unfold textOf
  cases h : i.argument textKind name with
  | ok v => exact hf v h
  | error e => exact fun _ => rfl

theorem quiet_liftExcept (x : Except CommandError α) : Quiet (textOf.liftExcept x) := by
  cases x with
  | ok v => exact (says_pure v).quiet
  | error e => exact quiet_throw e

theorem quiet_textOf (i : Invocation console) (name : String) : Quiet (textOf i name) :=
  quiet_liftExcept _

theorem quiet_textOf? (i : Invocation console) (name : String) : Quiet (textOf? i name) :=
  quiet_liftExcept _

theorem quiet_demandKnown (target : String) : Quiet (demandKnown target) := by
  refine says_state.quiet.bind fun s => ?_
  split
  · exact quiet_refuse _
  · exact (says_pure ()).quiet

end ConsoleEffect

/-! ### Each command -/

theorem ban_atomic (i : Invocation console) : Atomic (ConsoleAction.ban.Changes i) (ban i) := by
  unfold ban
  refine atomic_textOf_bind fun target htarget => ?_
  refine (quiet_liftExcept _).bind fun duration => (quiet_textOf? i "reason").bind fun reason => ?_
  refine atomic_state_bind fun s => atomic_unless _ _ fun hfree => atomic_change _ ?_ ?_
  · rintro _ rfl
    exact .ban reason duration htarget (Bool.eq_false_iff.2 hfree)
  · cases duration <;> exact says_reply _ _

theorem pardon_atomic (i : Invocation console) :
    Atomic (ConsoleAction.pardon.Changes i) (pardon i) := by
  unfold pardon
  refine atomic_textOf_bind fun target htarget => atomic_state_bind fun s => ?_
  refine atomic_unless _ _ fun hbanned => atomic_change _ ?_ (says_reply _ _)
  rintro _ rfl
  exact .pardon htarget (by simpa using hbanned)

theorem kick_atomic (i : Invocation console) : Atomic (ConsoleAction.kick.Changes i) (kick i) := by
  unfold kick
  refine atomic_textOf_bind fun target htarget => ?_
  refine (quiet_textOf? i "reason").bind fun reason => atomic_state_bind fun s => ?_
  refine atomic_unless _ _ fun honline => atomic_change _ ?_ ?_
  · rintro _ rfl
    exact .kick htarget (by simpa using honline)
  · cases reason <;> exact says_reply _ _

theorem setGameMode_atomic (mode : GameMode) (i : Invocation console) :
    Atomic ((ConsoleAction.setGameMode mode).Changes i) (setGameMode mode i) := by
  unfold setGameMode
  have hset (target : String) : Atomic ((ConsoleAction.setGameMode mode).Changes i) (do
      demandKnown target
      change fun s => { s with players := s.players.modify target ({ · with gameMode := mode }) }
      reply i.source ("Set " ++ target ++ "'s game mode to " ++ mode.name)) := by
    refine (quiet_demandKnown target).bind fun _ => ?_
    exact atomic_change _ (fun s => .setGameMode mode s target) (says_reply _ _)
  refine (quiet_textOf? i "target").bind fun target => ?_
  cases target with
  | some target => exact hset target
  | none =>
    simp only
    split
    · exact (quiet_throw _).bind fun target => hset target
    · exact hset _

theorem stop_atomic (i : Invocation console) : Atomic (ConsoleAction.stop.Changes i) (stop i) :=
  atomic_change _ (fun s => .stop s) (says_reply _ _)

theorem listBans_quiet (i : Invocation console) : Quiet (listBans i) := by
  unfold listBans
  refine says_state.quiet.bind fun s => ?_
  simp only
  split
  · exact (says_reply _ _).quiet
  · exact (says_forM fun _ => says_reply _ _).quiet

theorem showPermissions_quiet (i : Invocation console) : Quiet (showPermissions i) := by
  unfold showPermissions
  refine (quiet_textOf i "target").bind fun target => says_state.quiet.bind fun s => ?_
  split
  · exact quiet_refuse _
  · split <;> exact (says_reply _ _).quiet

theorem talk_quiet (i : Invocation console) : Quiet (talk i) :=
  (quiet_textOf i "action").bind fun _ => (says_reply _ _).quiet

theorem listCommands_quiet (t : CommandTree console) (i : Invocation console) :
    Quiet (listCommands t i) :=
  (says_forM fun _ => says_reply _ _).quiet

theorem explainCommand_quiet (t : CommandTree console) (i : Invocation console) :
    Quiet (explainCommand t i) := by
  unfold explainCommand
  refine (quiet_textOf i "command").bind fun command => ?_
  simp only
  split
  · exact quiet_refuse _
  · refine atomic_unless _ _ fun _ => (says_forM fun _ => says_reply _ _).quiet.bind fun _ => ?_
    split
    · exact (says_reply _ _).quiet
    · exact (says_pure ()).quiet

theorem asPlayers_quiet (i : Invocation console) : Quiet (asPlayers i) := by
  unfold asPlayers
  refine (quiet_textOf i "targets").bind fun target => says_state.quiet.bind fun s => ?_
  split
  · exact (says_pure _).quiet
  · exact (quiet_demandKnown target).bind fun _ => (says_pure _).quiet

/-- A command that succeeds does what its action stands for, and one that fails does nothing. -/
theorem act_atomic (t : CommandTree console) (action : ConsoleAction) (i : Invocation console) :
    Atomic (action.Changes i) ((consoleInterpreter t).act action i) := by
  cases action with
  | ban => exact ban_atomic i
  | pardon => exact pardon_atomic i
  | listBans => exact (listBans_quiet i).atomic .listBans
  | kick => exact kick_atomic i
  | setGameMode mode => exact setGameMode_atomic mode i
  | talk => exact (talk_quiet i).atomic .talk
  | showPermissions => exact (showPermissions_quiet i).atomic .showPermissions
  | stop => exact stop_atomic i
  | listCommands => exact (listCommands_quiet t i).atomic .listCommands
  | explainCommand => exact (explainCommand_quiet t i).atomic .explainCommand

theorem modify_quiet (t : CommandTree console) (modifier : ConsoleModifier)
    (i : Invocation console) : Quiet ((consoleInterpreter t).modify modifier i) := by
  cases modifier
  exact asPlayers_quiet i

/-! ### Lines -/

/-- What comes of running the commands of a line: how many ran, or the error, and the world
afterwards. -/
def executeConsoleLine (d : Dispatcher console) (actor : Actor) (line : String)
    (state : ServerState) : Except CommandError Nat × ConsoleWorld :=
  ((consoleInterpreter d.tree).execute
    (d.tree.parse (d.expand (Text.trim line)) actor)).run.run ⟨state, []⟩

theorem runConsoleLine_state (d : Dispatcher console) (actor : Actor) (line : String)
    (state : ServerState) :
    (runConsoleLine d actor line state).2 =
      if (Text.trim line).isEmpty then state
      else (executeConsoleLine d actor line state).2.state := by
  unfold runConsoleLine ConsoleWorld.runLine executeConsoleLine
  simp only
  split <;> rfl

/-- A property of the state that the commands of an actor keep is kept by the lines of the actor. -/
theorem runConsoleLine_preserves {P : ServerState → Prop} {actor : Actor}
    (hact : ∀ r action i, (commandTree.parseFrom r actor).chain.last.command = some action →
      Preserves (fun w => P w.state) ((consoleInterpreter commandTree).act action i))
    (aliases : Keyed String String) (line : String) {state : ServerState} (h : P state) :
    P (runConsoleLine (consoleDispatcher aliases) actor line state).2 := by
  obtain ⟨layer, hg⟩ := reachable_commandTree.grown
  have hmodify (modifier : ConsoleModifier) (i : Invocation console) :
      Preserves (fun w => P w.state) ((consoleInterpreter commandTree).modify modifier i) :=
    (modify_quiet commandTree modifier i).preserves fun s s' hs => by rw [hs]; exact id
  rw [runConsoleLine_state]
  split
  · exact h
  · simp only [executeConsoleLine, tree_consoleDispatcher, CommandTree.parse]
    exact hg.filed.execute_preserves _ _ hmodify (fun action i hc _ => hact _ action i hc) _ h

end CommandConsole
