import CommandConsole.Proofs.AllOrNothing
import Mathlib.Logic.Relation

/-!
# Bans hold

Whatever lines are run, a known player who is banned is offline: a ban sends the player offline, and
no command brings anybody back. A ban stays as it was made until it is pardoned. All of this is a
matter of single commands, since a line is a chain of runs of commands with nothing in between.
-/

namespace CommandConsole

open Relation

namespace ServerState

def IsOffline (s : ServerState) (name : String) : Prop :=
  ∃ record, s.players.find? name = some record ∧ record.online = false

/-- Whether all known players that are banned are offline. -/
def BansHold (s : ServerState) : Prop :=
  ∀ name, s.bans.contains name = true → s.players.contains name = true → s.IsOffline name

/-- Whether players only go offline, no player comes or goes, the server does not come back, and
whoever is newly banned is not left online. -/
structure Settles (s s' : ServerState) : Prop where
  known : ∀ name, s'.players.contains name = s.players.contains name
  offline : ∀ name, s.IsOffline name → s'.IsOffline name
  stopped : s.running = false → s'.running = false
  banned : ∀ name, s'.bans.contains name = true → s.bans.contains name = true ∨
    (s.players.contains name = true → s'.IsOffline name)

variable {s s' : ServerState} {name target : String}

theorem settles_refl (s : ServerState) : s.Settles s where
  known _ := rfl
  offline _ h := h
  stopped h := h
  banned _ h := Or.inl h

theorem Settles.bansHold (h : s.Settles s') (hs : s.BansHold) : s'.BansHold := by
  intro name hbanned hknown
  rw [h.known] at hknown
  rcases h.banned name hbanned with hbanned | hoffline
  · exact h.offline name (hs name hbanned hknown)
  · exact hoffline hknown

theorem bansHold_start (players : Keyed String (List String)) : (start players).BansHold := by
  intro name hbanned _
  cases hbanned

/-! ### Players -/

theorem contains_modify (players : Keyed String PlayerRecord) (f : PlayerRecord → PlayerRecord) :
    (players.modify target f).contains name = players.contains name := by
  simp [Keyed.contains, Keyed.find?_modify]

theorem IsOffline.modify {f : PlayerRecord → PlayerRecord} (h : s.IsOffline name)
    (hf : ∀ record, record.online = false → (f record).online = false) :
    { s with players := s.players.modify target f }.IsOffline name := by
  obtain ⟨record, hrecord, hoffline⟩ := h
  refine ⟨_, by rw [Keyed.find?_modify, hrecord, Option.map_some], ?_⟩
  split
  · exact hf record hoffline
  · exact hoffline

theorem isOffline_sendOffline (h : s.players.contains name = true) :
    (s.sendOffline name).IsOffline name := by
  obtain ⟨record, hrecord⟩ := Option.isSome_iff_exists.1 h
  refine ⟨_, by rw [sendOffline, Keyed.find?_modify, hrecord, Option.map_some], ?_⟩
  rw [if_pos rfl]

theorem settles_sendOffline (s : ServerState) (target : String) :
    s.Settles (s.sendOffline target) where
  known _ := contains_modify s.players _
  offline _ h := h.modify fun _ _ => rfl
  stopped h := h
  banned _ h := Or.inl h

end ServerState

open ServerState

/-! ### Commands -/

variable {i : Invocation console} {action : ConsoleAction} {s s' : ServerState} {name : String}
  {b : Ban}

theorem ConsoleAction.Changes.settles (h : action.Changes i s s') : s.Settles s' := by
  cases h with
  | @ban _ target reason duration =>
    have hoffline := settles_sendOffline s target
    refine ⟨hoffline.known, hoffline.offline, hoffline.stopped, fun name hbanned => ?_⟩
    by_cases hname : target = name
    · subst hname
      exact Or.inr isOffline_sendOffline
    · rw [Keyed.contains, Keyed.find?_insert, if_neg hname] at hbanned
      exact Or.inl hbanned
  | @pardon _ target =>
    refine ⟨fun _ => rfl, fun _ h => h, fun h => h, fun name hbanned => Or.inl ?_⟩
    by_cases hname : target = name
    · subst hname
      rw [Keyed.contains, Keyed.find?_erase_self] at hbanned
      cases hbanned
    · rwa [Keyed.contains, Keyed.find?_erase_of_ne hname] at hbanned
  | kick => exact settles_sendOffline s _
  | setGameMode mode _ target =>
    refine ⟨fun _ => contains_modify s.players _, fun name h => ?_, fun h => h, fun _ => Or.inl⟩
    exact h.modify fun _ hoffline => hoffline
  | stop => exact ⟨fun _ => rfl, fun _ h => h, fun _ => rfl, fun _ => Or.inl⟩
  | listBans | talk | showPermissions | listCommands | explainCommand => exact settles_refl s

def ConsoleAction.Pardons (action : ConsoleAction) (i : Invocation console) (name : String) :
    Prop :=
  action = .pardon ∧ i.argument textKind "target" = .ok name

theorem ConsoleAction.Changes.find?_bans (h : action.Changes i s s')
    (hban : s.bans.find? name = some b) (hpardons : ¬action.Pardons i name) :
    s'.bans.find? name = some b := by
  cases h with
  | @ban _ target reason duration htarget hfree =>
    have hne : target ≠ name := by
      rintro rfl
      rw [Keyed.contains, hban] at hfree
      cases hfree
    show (s.bans.insert target _).find? name = some b
    rw [Keyed.find?_insert, if_neg hne, hban]
  | @pardon _ target htarget =>
    have hne : target ≠ name := by
      rintro rfl
      exact hpardons ⟨rfl, htarget⟩
    show (s.bans.erase target).find? name = some b
    rw [Keyed.find?_erase_of_ne hne, hban]
  | kick | setGameMode | stop | listBans | talk | showPermissions | listCommands
  | explainCommand => exact hban

theorem state_pardon (htarget : i.argument textKind "target" = .ok name) {w : ConsoleWorld}
    (hbanned : w.state.bans.contains name = true) :
    ((pardon i).run.run w).2.state = { w.state with bans := w.state.bans.erase name } := by
  unfold pardon textOf
  rw [htarget]
  show ((if (!w.state.bans.contains name) = true then _ else _ : ConsoleEffect Unit).run.run
    w).2.state = _
  rw [hbanned]
  rfl

theorem act_settles (t : CommandTree console) (action : ConsoleAction) (i : Invocation console)
    (w : ConsoleWorld) :
    w.state.Settles (((consoleInterpreter t).act action i).run.run w).2.state := by
  rcases (act_atomic t action i).state_cases w with hrun | hrun
  · exact hrun.settles
  · rw [hrun]
    exact settles_refl _

theorem act_find?_bans (t : CommandTree console) {w : ConsoleWorld}
    (hban : w.state.bans.find? name = some b) (hpardons : ¬action.Pardons i name) :
    (((consoleInterpreter t).act action i).run.run w).2.state.bans.find? name = some b := by
  rcases (act_atomic t action i).state_cases w with hrun | hrun
  · exact hrun.find?_bans hban hpardons
  · rw [hrun]
    exact hban

theorem act_find?_bans_of_pardons (t : CommandTree console) {w : ConsoleWorld}
    (hban : w.state.bans.find? name = some b) (hpardons : action.Pardons i name) :
    (((consoleInterpreter t).act action i).run.run w).2.state.bans.find? name = none := by
  obtain ⟨rfl, htarget⟩ := hpardons
  have hbanned : w.state.bans.contains name = true := by rw [Keyed.contains, hban]; rfl
  show ((pardon i).run.run w).2.state.bans.find? name = none
  rw [state_pardon htarget hbanned]
  exact Keyed.find?_erase_self _ _

/-! ### Lines -/

/-- One run of a command, whatever it is given and whatever has been shown before. -/
def RunsCommand (t : CommandTree console) (s s' : ServerState) : Prop :=
  ∃ action i shown, s' = (((consoleInterpreter t).act action i).run.run ⟨s, shown⟩).2.state

def RunsLine (d : Dispatcher console) (s s' : ServerState) : Prop :=
  ∃ actor line, s' = (runConsoleLine d actor line s).2

theorem RunsCommand.settles {t : CommandTree console} (h : RunsCommand t s s') : s.Settles s' := by
  obtain ⟨action, i, shown, rfl⟩ := h
  exact act_settles t action i ⟨s, shown⟩

theorem runsCommand_of_line {aliases : Keyed String String}
    (h : RunsLine (consoleDispatcher aliases) s s') :
    ReflTransGen (RunsCommand commandTree) s s' := by
  obtain ⟨actor, line, rfl⟩ := h
  apply runConsoleLine_preserves (P := ReflTransGen (RunsCommand commandTree) s)
  · exact fun r action i _ w h => h.tail ⟨action, i, w.posted, rfl⟩
  · exact .refl

theorem settles_of_commands {t : CommandTree console} (h : ReflTransGen (RunsCommand t) s s') :
    (s.BansHold → s'.BansHold) ∧ (∀ name, s.IsOffline name → s'.IsOffline name) ∧
      (s.running = false → s'.running = false) := by
  induction h with
  | refl => exact ⟨id, fun _ => id, id⟩
  | tail _ hrun ih =>
    obtain ⟨hbans, hoffline, hstopped⟩ := ih
    have hstep := hrun.settles
    exact ⟨fun h => hstep.bansHold (hbans h), fun name h => hstep.offline name (hoffline name h),
      fun h => hstep.stopped (hstopped h)⟩

theorem bansHold_of_lines {aliases : Keyed String String} {players : Keyed String (List String)}
    (h : ReflTransGen (RunsLine (consoleDispatcher aliases)) (.start players) s) : s.BansHold := by
  induction h with
  | refl => exact bansHold_start players
  | tail _ hline ih => exact (settles_of_commands (runsCommand_of_line hline)).1 ih

/-- After any lines by anybody, all known players that are banned are offline. Every line is a chain
of runs of commands, and with each of them, as with the line, whoever is offline stays offline and a
stopped server stays stopped; a run leaves each ban as it is unless it is the pardon that ends it.
-/
theorem lines_settle (players : Keyed String (List String)) (aliases : Keyed String String) :
    let d := consoleDispatcher aliases
    (∀ s, ReflTransGen (RunsLine d) (.start players) s → s.BansHold) ∧
      (∀ s s', RunsLine d s s' → ReflTransGen (RunsCommand d.tree) s s' ∧
        (∀ name, s.IsOffline name → s'.IsOffline name) ∧
          (s.running = false → s'.running = false)) ∧
      ∀ (action : ConsoleAction) (i : Invocation console) (w : ConsoleWorld),
        let s' := (((consoleInterpreter d.tree).act action i).run.run w).2.state
        (w.state.BansHold → s'.BansHold) ∧
          (∀ name, w.state.IsOffline name → s'.IsOffline name) ∧
          (w.state.running = false → s'.running = false) ∧
          ∀ name b, w.state.bans.find? name = some b →
            (action.Pardons i name → s'.bans.find? name = none) ∧
              (¬action.Pardons i name → s'.bans.find? name = some b) := by
  intro d
  refine ⟨fun s h => bansHold_of_lines h, fun s s' hline => ?_, fun action i w => ?_⟩
  · have hruns := runsCommand_of_line hline
    obtain ⟨-, hoffline, hstopped⟩ := settles_of_commands hruns
    exact ⟨by rwa [tree_consoleDispatcher], hoffline, hstopped⟩
  · have hsettles := act_settles d.tree action i w
    refine ⟨hsettles.bansHold, hsettles.offline, hsettles.stopped, fun name b hban => ⟨?_, ?_⟩⟩
    · exact act_find?_bans_of_pardons d.tree hban
    · exact act_find?_bans d.tree hban

def Invocation.naming (target : String) : Invocation console where
  source := .console "Server"
  line := target
  context := { Context.startAt CommandTree.root 0 .inherited with
    captured := ⟨[("target", ⟨⟨0, target.utf8ByteSize⟩, .string target⟩)]⟩ }
  behind := []

theorem lines_settle_emptied :
    let d := consoleDispatcher ⟨[("again", "execute run ban")]⟩
    let halted := { emptied with running := false }
    let line := fun actor text s => (runConsoleLine d actor text s).2
    let act := fun action => (((consoleInterpreter d.tree).act action
      (.naming "Steve")).run.run ⟨halted, []⟩).2.state
    (line (.console "Server") "again Steve 3" (.start ⟨[("Steve", [])]⟩)).BansHold ∧
      (line (halted.actorFor "Steve") "gm survival" halted).IsOffline "Steve" ∧
      (line (halted.actorFor "Steve") "gm survival" halted).running = false ∧
      (act ConsoleAction.kick).BansHold ∧
      (act ConsoleAction.pardon).bans.find? "Steve" = none ∧
      (act ConsoleAction.ban).bans.find? "Steve" = some ⟨"Server", none, none⟩ := by
  intro d halted line act
  obtain ⟨hlines, hline, hact⟩ := lines_settle ⟨[("Steve", [])]⟩ ⟨[("again", "execute run ban")]⟩
  have hoffline : halted.IsOffline "Steve" := ⟨⟨[], false, .creative⟩, rfl, rfl⟩
  have hhold : halted.BansHold := by
    intro name hbanned _
    rw [Keyed.contains, Option.isSome_iff_exists] at hbanned
    obtain ⟨b, hban⟩ := hbanned
    have hname : (name, b) = ("Steve", _) := List.mem_singleton.1 (Keyed.mem_entries_of_find? hban)
    obtain rfl := (Prod.mk.inj hname).1
    exact hoffline
  have hquiet := hline halted _ ⟨halted.actorFor "Steve", "gm survival", rfl⟩
  refine ⟨?_, hquiet.2.1 "Steve" hoffline, hquiet.2.2 rfl, ?_, ?_, ?_⟩
  · exact hlines _ (.single ⟨.console "Server", "again Steve 3", rfl⟩)
  · exact (hact .kick (.naming "Steve") ⟨halted, []⟩).1 hhold
  · exact ((hact .pardon (.naming "Steve") ⟨halted, []⟩).2.2.2 "Steve" _ rfl).1 ⟨rfl, rfl⟩
  · exact ((hact .ban (.naming "Steve") ⟨halted, []⟩).2.2.2 "Steve" _ rfl).2 nofun

end CommandConsole
