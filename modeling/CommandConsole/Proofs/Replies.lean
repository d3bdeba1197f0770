import CommandConsole.Proofs.Changes

/-!
# Replies

What is shown for a line are the replies of all commands that are run for it, in the order in which
they are made, and then the description of its error if there is one. A command replies into the
outbox of the source that it is run for, and whoever runs a line as other players hands the outbox
on to them, so all replies come to be in the outbox of the actor. Showing them empties it, so that
nothing of a line is left when the next one is run.
-/

namespace CommandConsole

open ConsoleEffect

/-! ### Outboxes -/

namespace ConsoleWorld

variable {outbox : OutboxId}

def post (w : ConsoleWorld) (outbox : OutboxId) (said : List String) : ConsoleWorld :=
  { w with posted := w.posted ++ said.map (outbox, ·) }

theorem post_nil (w : ConsoleWorld) : w.post outbox [] = w := by simp [post]

theorem post_post (w : ConsoleWorld) (said more : List String) :
    (w.post outbox said).post outbox more = w.post outbox (said ++ more) := by simp [post]

theorem lines_post (w : ConsoleWorld) (said : List String) :
    (w.post outbox said).lines outbox = w.lines outbox ++ said := by
  simp [lines, post, List.filter_map, Function.comp_def]

theorem lines_mk (s : ServerState) (w : ConsoleWorld) :
    lines ⟨s, w.posted⟩ outbox = w.lines outbox := rfl

theorem drain_post {w : ConsoleWorld} (h : w.lines outbox = []) (said : List String) :
    (w.post outbox said).drain outbox = w := by
  have hothers : ∀ e ∈ w.posted, (e.1 != outbox) = true := by
    simpa [lines, List.filter_eq_nil_iff] using h
  have hposted : (w.posted ++ said.map (outbox, ·)).filter (·.1 != outbox) = w.posted := by
    rw [List.filter_append, List.filter_eq_self.2 hothers]
    simp [List.filter_map, Function.comp_def]
  simp only [post, drain, hposted]

end ConsoleWorld

/-! ### Looking and speaking -/

namespace ConsoleEffect

variable {α β : Type} {Q : α → Prop} {Q' : β → Prop} {outbox : OutboxId}

/-- Whether a computation changes nothing and looks at no outbox. A value that it gives has a
property. -/
def Looks (Q : α → Prop) (x : ConsoleEffect α) : Prop :=
  ∀ s, ∃ result, (∀ posted, x.run.run ⟨s, posted⟩ = (result, ⟨s, posted⟩)) ∧
    ∀ v, result = .ok v → Q v

/-- Whether a computation only adds lines to an outbox. What comes of it, and the lines, do not
depend on what has been posted before. -/
def Speaks (outbox : OutboxId) (x : ConsoleEffect α) : Prop :=
  ∀ s, ∃ result s' said, ∀ posted,
    x.run.run ⟨s, posted⟩ = (result, ConsoleWorld.post ⟨s', posted⟩ outbox said)

theorem Looks.bind {x : ConsoleEffect α} (hx : Looks Q x) {f : α → ConsoleEffect β}
    (hf : ∀ v, Q v → Looks Q' (f v)) : Looks Q' (x >>= f) := by
  intro s
  obtain ⟨result, hrun, hresult⟩ := hx s
  simp only [ExceptT.run_bind, StateT.run_bind, hrun]
  cases result with
  | ok v => exact hf v (hresult v rfl) s
  | error e => exact ⟨.error e, fun _ => rfl, nofun⟩

theorem Looks.speaks {x : ConsoleEffect α} (hx : Looks Q x) : Speaks outbox x := by
  intro s
  obtain ⟨result, hrun, -⟩ := hx s
  exact ⟨result, s, [], fun posted => by rw [hrun, ConsoleWorld.post_nil]⟩

theorem Speaks.bind {x : ConsoleEffect α} (hx : Speaks outbox x) {f : α → ConsoleEffect β}
    (hf : ∀ v, Speaks outbox (f v)) : Speaks outbox (x >>= f) := by
  intro s
  obtain ⟨result, s', said, hrun⟩ := hx s
  simp only [ExceptT.run_bind, StateT.run_bind, hrun]
  cases result with
  | ok v =>
    obtain ⟨result, s'', more, hrun'⟩ := hf v s'
    refine ⟨result, s'', said ++ more, fun posted => ?_⟩
    rw [← ConsoleWorld.post_post]
    exact hrun' _
  | error e => exact ⟨.error e, s', said, fun _ => rfl⟩

theorem looks_pure {v : α} (h : Q v) : Looks Q (pure v : ConsoleEffect α) := by
  refine fun s => ⟨.ok v, fun _ => rfl, ?_⟩
  rintro _ ⟨⟩
  exact h

theorem looks_throw (e : CommandError) : Looks Q (throw e : ConsoleEffect α) :=
  fun _ => ⟨.error e, fun _ => rfl, nofun⟩

theorem looks_refuse (message : String) : Looks Q (refuse message : ConsoleEffect α) :=
  looks_throw _

theorem looks_state : Looks (fun _ => True) state :=
  fun s => ⟨.ok s, fun _ => rfl, fun _ _ => trivial⟩

theorem looks_liftExcept (x : Except CommandError α) :
    Looks (fun _ => True) (textOf.liftExcept x) := by
  cases x with
  | ok v => exact looks_pure trivial
  | error e => exact looks_throw e

theorem looks_textOf (i : Invocation console) (name : String) :
    Looks (fun _ => True) (textOf i name) :=
  looks_liftExcept _

theorem looks_textOf? (i : Invocation console) (name : String) :
    Looks (fun _ => True) (textOf? i name) :=
  looks_liftExcept _

theorem looks_demandKnown (target : String) : Looks (fun _ => True) (demandKnown target) := by
  refine looks_state.bind fun s _ => ?_
  split
  · exact looks_refuse _
  · exact looks_pure trivial

theorem speaks_reply (source : Actor) (line : String) :
    Speaks source.outbox (reply source line) := fun s => ⟨.ok (), s, [line], fun _ => rfl⟩

theorem speaks_change (f : ServerState → ServerState) : Speaks outbox (change f) :=
  fun s => ⟨.ok (), f s, [], fun _ => by rw [ConsoleWorld.post_nil]; rfl⟩

theorem speaks_throw (e : CommandError) : Speaks outbox (throw e : ConsoleEffect α) :=
  (looks_throw (Q := fun _ => True) e).speaks

theorem speaks_refuse (message : String) : Speaks outbox (refuse message : ConsoleEffect α) :=
  speaks_throw _

theorem speaks_pure (v : α) : Speaks outbox (pure v : ConsoleEffect α) :=
  (looks_pure (Q := fun _ => True) trivial).speaks

theorem speaks_unless (c : Prop) [Decidable c] (message : String) {f : Unit → ConsoleEffect β}
    (hf : Speaks outbox (f ())) : Speaks outbox (if c then refuse message >>= f else f ()) := by
  split
  · exact (speaks_refuse message).bind fun _ => hf
  · exact hf

theorem speaks_forM {l : List β} {f : β → ConsoleEffect PUnit} (hf : ∀ v, Speaks outbox (f v)) :
    Speaks outbox (l.forM f) := by
  induction l with
  | nil => exact speaks_pure _
  | cons v l ih => exact (hf v).bind fun _ => ih

end ConsoleEffect

/-! ### Each command -/

section Commands

variable (t : CommandTree console) (i : Invocation console)

theorem ban_speaks : Speaks i.source.outbox (ban i) := by
  unfold ban
  refine (looks_textOf i "target").speaks.bind fun target => ?_
  refine (looks_liftExcept _).speaks.bind fun duration => ?_
  refine (looks_textOf? i "reason").speaks.bind fun reason => looks_state.speaks.bind fun s => ?_
  refine speaks_unless _ _ ((speaks_change _).bind fun _ => ?_)
  cases duration <;> exact speaks_reply _ _

theorem pardon_speaks : Speaks i.source.outbox (pardon i) := by
  unfold pardon
  refine (looks_textOf i "target").speaks.bind fun target => looks_state.speaks.bind fun s => ?_
  exact speaks_unless _ _ ((speaks_change _).bind fun _ => speaks_reply _ _)

theorem listBans_speaks : Speaks i.source.outbox (listBans i) := by
  unfold listBans
  refine looks_state.speaks.bind fun s => ?_
  simp only
  split
  · exact speaks_reply _ _
  · exact speaks_forM fun _ => speaks_reply _ _

theorem kick_speaks : Speaks i.source.outbox (kick i) := by
  unfold kick
  refine (looks_textOf i "target").speaks.bind fun target => ?_
  refine (looks_textOf? i "reason").speaks.bind fun reason => looks_state.speaks.bind fun s => ?_
  refine speaks_unless _ _ ((speaks_change _).bind fun _ => ?_)
  cases reason <;> exact speaks_reply _ _

theorem setGameMode_speaks (mode : GameMode) : Speaks i.source.outbox (setGameMode mode i) := by
  unfold setGameMode
  have hset (target : String) : Speaks i.source.outbox (do
      demandKnown target
      change fun s => { s with players := s.players.modify target ({ · with gameMode := mode }) }
      reply i.source ("Set " ++ target ++ "'s game mode to " ++ mode.name)) :=
    (looks_demandKnown target).speaks.bind fun _ => (speaks_change _).bind fun _ =>
      speaks_reply _ _
  refine (looks_textOf? i "target").speaks.bind fun target => ?_
  cases target with
  | some target => exact hset target
  | none =>
    simp only
    split
    · exact (speaks_throw _).bind fun target => hset target
    · exact hset _

theorem showPermissions_speaks : Speaks i.source.outbox (showPermissions i) := by
  unfold showPermissions
  refine (looks_textOf i "target").speaks.bind fun target => looks_state.speaks.bind fun s => ?_
  split
  · exact speaks_refuse _
  · split <;> exact speaks_reply _ _

theorem explainCommand_speaks : Speaks i.source.outbox (explainCommand t i) := by
  unfold explainCommand
  refine (looks_textOf i "command").speaks.bind fun command => ?_
  simp only
  split
  · exact speaks_refuse _
  · refine speaks_unless _ _ ((speaks_forM fun _ => speaks_reply _ _).bind fun _ => ?_)
    split
    · exact speaks_reply _ _
    · exact speaks_pure ()

theorem act_speaks (action : ConsoleAction) :
    Speaks i.source.outbox ((consoleInterpreter t).act action i) := by
  cases action with
  | ban => exact ban_speaks i
  | pardon => exact pardon_speaks i
  | listBans => exact listBans_speaks i
  | kick => exact kick_speaks i
  | setGameMode mode => exact setGameMode_speaks i mode
  | talk => exact (looks_textOf i "action").speaks.bind fun _ => speaks_reply _ _
  | showPermissions => exact showPermissions_speaks i
  | stop => exact (speaks_change _).bind fun _ => speaks_reply _ _
  | listCommands => exact speaks_forM fun _ => speaks_reply _ _
  | explainCommand => exact explainCommand_speaks t i

theorem modify_looks (modifier : ConsoleModifier) :
    Looks (∀ a ∈ ·, a.outbox = i.source.outbox) ((consoleInterpreter t).modify modifier i) := by
  cases modifier
  show Looks _ (asPlayers i)
  unfold asPlayers
  refine (looks_textOf i "targets").bind fun target _ => looks_state.bind fun s _ => ?_
  have hgiven : ∀ names : List String, ∀ a ∈ names.map fun name =>
      (s.actorFor name).withOutbox i.source.outbox, a.outbox = i.source.outbox := by
    intro names a ha
    obtain ⟨name, -, rfl⟩ := List.mem_map.1 ha
    exact Actor.outbox_withOutbox _ _
  split
  · exact looks_pure (hgiven s.online)
  · exact (looks_demandKnown target).bind fun _ _ => looks_pure (hgiven [target])

end Commands

/-! ### All commands of a line -/

abbrev ConsoleRun : Type := console.Action × Invocation console

/-- What commands say that are run one after the other, each from the state that the one before it
has left and with nothing posted, and the state in the end. -/
def playBack (t : CommandTree console) : List ConsoleRun → ServerState → List String × ServerState
  | [], s => ([], s)
  | (action, i) :: runs, s =>
    let w := (((consoleInterpreter t).act action i).run.run ⟨s, []⟩).2
    let (more, s) := playBack t runs w.state
    (w.posted.map (·.2) ++ more, s)

theorem playBack_append (t : CommandTree console) (runs more : List ConsoleRun)
    (s : ServerState) :
    playBack t (runs ++ more) s =
      ((playBack t runs s).1 ++ (playBack t more (playBack t runs s).2).1,
        (playBack t more (playBack t runs s).2).2) := by
  induction runs generalizing s with
  | nil => rfl
  | cons run runs ih => simp only [List.cons_append, playBack, ih, List.append_assoc]

/-- Whether two runs of a line from a state have come equally far, one with something posted before
and one with nothing, which also has a record of the commands. Played back, they say what has been
added to the outbox, and leave the state that there is. -/
structure Recorded (t : CommandTree console) (s : ServerState) (outbox : OutboxId)
    (posted : List (OutboxId × String)) (w : ConsoleWorld)
    (record : ConsoleWorld × List ConsoleRun) : Prop where
  world : w = ConsoleWorld.post ⟨(playBack t record.2 s).2, posted⟩ outbox (playBack t record.2 s).1
  alone : record.1 = ConsoleWorld.post ⟨(playBack t record.2 s).2, []⟩ outbox
    (playBack t record.2 s).1
  sources : ∀ run ∈ record.2, run.2.source.outbox = outbox

variable {t : CommandTree console} {s : ServerState} {outbox : OutboxId}
  {posted : List (OutboxId × String)}

theorem recorded_start : Recorded t s outbox posted ⟨s, posted⟩ (⟨s, []⟩, []) where
  world := by simp [playBack, ConsoleWorld.post_nil]
  alone := by simp [playBack, ConsoleWorld.post_nil]
  sources _ hrun := absurd hrun List.not_mem_nil

theorem act_recorded (action : console.Action) {i : Invocation console}
    (hsource : i.source.outbox = outbox) :
    Lockstep (Recorded t s outbox posted) (fun _ => True) ((consoleInterpreter t).act action i)
      ((consoleInterpreter t).recording.act action i) := by
  rintro w ⟨w', runs⟩ ⟨hworld, halone, hsources⟩
  simp only at hworld halone hsources
  obtain ⟨result, s', said, hrun⟩ := act_speaks t i action (playBack t runs s).2
  rw [hsource] at hrun
  have hplayed : playBack t (runs ++ [(action, i)]) s = ((playBack t runs s).1 ++ said, s') := by
    simp [playBack_append, playBack, hrun, ConsoleWorld.post, Function.comp_def]
  have hafter (before : List (OutboxId × String)) :
      ((consoleInterpreter t).act action i).run.run
        (ConsoleWorld.post ⟨(playBack t runs s).2, before⟩ outbox (playBack t runs s).1) =
      (result, ConsoleWorld.post ⟨s', before⟩ outbox ((playBack t runs s).1 ++ said)) := by
    rw [← ConsoleWorld.post_post]
    exact hrun _
  subst hworld halone
  refine ⟨result, _, (ConsoleWorld.post ⟨s', []⟩ outbox ((playBack t runs s).1 ++ said),
    runs ++ [(action, i)]), hafter posted, ?_, ⟨?_, ?_, ?_⟩, fun _ _ => trivial⟩
  · rw [Interpreter.run_recording_act, hafter]
  · rw [hplayed]
  · rw [hplayed]
  · exact List.forall_mem_append.2 ⟨hsources, List.forall_mem_singleton.2 hsource⟩

theorem modify_recorded (modifier : console.Modifier) {i : Invocation console}
    (hsource : i.source.outbox = outbox) :
    Lockstep (Recorded t s outbox posted) (∀ a ∈ ·, a.outbox = outbox)
      ((consoleInterpreter t).modify modifier i)
      ((consoleInterpreter t).recording.modify modifier i) := by
  rintro w ⟨w', runs⟩ h
  obtain ⟨result, hrun, hresult⟩ := modify_looks t i modifier (playBack t runs s).2
  rw [hsource] at hresult
  have hworld : ((consoleInterpreter t).modify modifier i).run.run w = (result, w) := by
    rw [h.world]
    exact hrun _
  have halone : ((consoleInterpreter t).modify modifier i).run.run w' = (result, w') := by
    rw [show w' = _ from h.alone]
    exact hrun _
  exact ⟨result, w, (w', runs), hworld, by rw [Interpreter.run_recording_modify, halone], h,
    hresult⟩

/-- Running a line comes to what it comes to with nothing posted, and adds to the outbox of the
actor what its commands say. -/
theorem execute_plays (r : Reader) (actor : Actor) (s : ServerState)
    (posted : List (OutboxId × String)) :
    let I := consoleInterpreter commandTree
    let p := commandTree.parseFrom r actor
    let runs := I.commandsRun p ⟨s, []⟩
    (I.execute p).run.run ⟨s, posted⟩ = (((I.execute p).run.run ⟨s, []⟩).1,
        ConsoleWorld.post ⟨(playBack commandTree runs s).2, posted⟩ actor.outbox
          (playBack commandTree runs s).1) ∧
      ∀ run ∈ runs, run.2.source.outbox = actor.outbox := by
  intro I p runs
  obtain ⟨layer, hg⟩ := reachable_commandTree.grown
  have hstep (posted : List (OutboxId × String)) :
      Lockstep (Recorded commandTree s actor.outbox posted) (fun _ => True) (I.execute p)
        (I.recording.execute p) :=
    hg.filed.execute_lockstep (A := fun a => a.outbox = actor.outbox) r rfl
      (fun modifier i => modify_recorded modifier) fun action i _ _ => act_recorded action
  obtain ⟨result, w, record, hrun, hrecord, hrecorded, -⟩ := hstep posted _ _ recorded_start
  obtain ⟨result', _, _, hrun', hrecord', -, -⟩ := hstep [] _ _ recorded_start
  have hruns : runs = record.2 := by
    show (((I.recording.execute p).run.run (⟨s, []⟩, [])).2).2 = _
    rw [hrecord]
  have hresult : ((I.execute p).run.run ⟨s, []⟩).1 = result := by
    rw [hrun']
    exact congrArg Prod.fst (hrecord'.symm.trans hrecord)
  rw [hresult, hrun, hruns]
  exact ⟨congrArg (result, ·) hrecorded.world, hrecorded.sources⟩

/-! ### Lines -/

/-- The commands that are run for a line, in order, each with its invocation. -/
def commandsFor (d : Dispatcher console) (actor : Actor) (line : String) (s : ServerState) :
    List ConsoleRun :=
  if (Text.trim line).isEmpty then []
  else (consoleInterpreter d.tree).commandsRun
    (d.tree.parse (d.expand (Text.trim line)) actor) ⟨s, []⟩

/-- The lines that describe the error of a line, if there is one. -/
def complaints (d : Dispatcher console) (actor : Actor) (line : String) (s : ServerState) :
    List String :=
  if (Text.trim line).isEmpty then []
  else describeResult d.tree actor (d.tree.parse (d.expand (Text.trim line)) actor)
    (executeConsoleLine d actor line s).1

variable (aliases : Keyed String String) {actor : Actor} {w : ConsoleWorld}

theorem source_of_commandsFor (actor : Actor) (line : String) (s : ServerState) :
    ∀ run ∈ commandsFor (consoleDispatcher aliases) actor line s,
      run.2.source.outbox = actor.outbox := by
  unfold commandsFor
  split
  · exact fun run hrun => absurd hrun List.not_mem_nil
  · rw [tree_consoleDispatcher]
    exact (execute_plays _ actor s []).2

/-- What is shown for a line are the replies of its commands and the description of its error. The
state is the one that the commands leave, and what is in outboxes is what was in them before. -/
theorem runLine_eq (hempty : w.lines actor.outbox = []) (line : String) :
    let d := consoleDispatcher aliases
    let played := playBack d.tree (commandsFor d actor line w.state) w.state
    w.runLine d actor line =
      (played.1 ++ complaints d actor line w.state, ⟨played.2, w.posted⟩) := by
  intro d played
  cases hblank : (Text.trim line).isEmpty with
  | true => simp [played, ConsoleWorld.runLine, commandsFor, complaints, hblank, playBack]
  | false =>
    have hrun := (execute_plays (.ofString (d.expand (Text.trim line))) actor w.state w.posted).1
    simp only [played, ConsoleWorld.runLine, commandsFor, complaints, executeConsoleLine, hblank,
      Bool.false_eq_true, if_false, d, tree_consoleDispatcher, CommandTree.parse] at hrun ⊢
    have hafter (s' : ServerState) : ConsoleWorld.lines ⟨s', w.posted⟩ actor.outbox = [] := by
      rw [ConsoleWorld.lines_mk, hempty]
    rw [hrun]
    simp only [ConsoleWorld.lines_post, ConsoleWorld.drain_post (hafter _), hafter, List.nil_append]

/-- What is shown for lines that are run one after the other, and the state in the end, do not
depend on what is in other outboxes. -/
theorem runLines_shown (hempty : w.lines actor.outbox = []) (lines : List String) :
    let d := consoleDispatcher aliases
    (w.runLines d actor lines).1 = (runConsoleLines d actor lines w.state).1 ∧
      (w.runLines d actor lines).2.state = (runConsoleLines d actor lines w.state).2 := by
  intro d
  unfold runConsoleLines
  induction lines generalizing w with
  | nil => exact ⟨rfl, rfl⟩
  | cons line lines ih =>
    have hnone : ConsoleWorld.lines ⟨w.state, []⟩ actor.outbox = [] := rfl
    simp only [ConsoleWorld.runLines, d, runLine_eq aliases hempty, runLine_eq aliases hnone]
    generalize playBack _ _ w.state = played
    split
    · obtain ⟨hmore, hstate⟩ :=
        ih (w := ⟨played.2, w.posted⟩) ((ConsoleWorld.lines_mk _ _).trans hempty)
      simp only [d] at hmore hstate
      rw [hmore, hstate]
      exact ⟨rfl, rfl⟩
    · exact ⟨rfl, rfl⟩

/-- What is shown for a line are all replies that its commands make, in order, and then the
description of its error. Nothing of it is left in any outbox, so what is shown for the next line is
only its own. -/
theorem runLine_shows_replies (actor : Actor) (line : String) {w : ConsoleWorld}
    (hempty : w.lines actor.outbox = []) :
    let d := consoleDispatcher aliases
    let runs := commandsFor d actor line w.state
    let shown := (w.runLine d actor line).1
    let after := (w.runLine d actor line).2
    shown = (playBack d.tree runs w.state).1 ++ complaints d actor line w.state ∧
      (∀ run ∈ runs, run.2.source.outbox = actor.outbox) ∧
      after = ⟨(playBack d.tree runs w.state).2, w.posted⟩ ∧ after.lines actor.outbox = [] ∧
      ∀ next, (after.runLine d actor next).1 =
        (playBack d.tree (commandsFor d actor next after.state) after.state).1 ++
          complaints d actor next after.state := by
  intro d runs shown after
  have hline := runLine_eq aliases hempty line
  have hshown : shown = _ := congrArg Prod.fst hline
  have hafter : after = _ := congrArg Prod.snd hline
  have hleft : after.lines actor.outbox = [] := by
    rw [hafter, ConsoleWorld.lines_mk, hempty]
  refine ⟨hshown, source_of_commandsFor aliases actor line w.state, hafter, hleft, fun next => ?_⟩
  rw [runLine_eq aliases hleft]

theorem runLine_shows_replies_nested :
    let actor := Actor.player "Alex" [.ofString "mcadmin.*"] 3
    let w : ConsoleWorld := ⟨.start ⟨[("Alex", []), ("Steve", [])]⟩, [(0, "of another")]⟩
    let line := "execute as * run execute as Steve run me waves"
    let d := consoleDispatcher .empty
    let runs := commandsFor d actor line w.state
    let shown := (w.runLine d actor line).1
    let after := (w.runLine d actor line).2
    w.lines actor.outbox = [] ∧ shown = ["* Steve waves", "* Steve waves"] ∧
      shown = (playBack d.tree runs w.state).1 ++ complaints d actor line w.state ∧
      after = ⟨(playBack d.tree runs w.state).2, [(0, "of another")]⟩ ∧
      after.lines actor.outbox = [] := by
  intro actor w line d runs shown after
  have hempty : w.lines actor.outbox = [] := by decide
  have hshown : shown = ["* Steve waves", "* Steve waves"] := by decide +kernel
  obtain ⟨hreplies, -, hafter, hleft, -⟩ := runLine_shows_replies .empty actor line hempty
  exact ⟨hempty, hshown, hreplies, hafter, hleft⟩

end CommandConsole
