import CommandConsole.Console.Permission
import CommandConsole.Keyed
import CommandConsole.Number.Bounds

/-!
# The state of the server

The server knows its players, in the order in which they were configured, and keeps the bans in
the order in which they were made. A player is online until kicked or banned. An actor is the
console or a player with rules; a player that the server does not know has none.
-/

namespace CommandConsole

inductive GameMode where
  | survival
  | creative
  | adventure
  | spectator
  deriving DecidableEq, Repr

namespace GameMode

def all : List GameMode := [survival, creative, adventure, spectator]

def name : GameMode → String
  | survival => "survival"
  | creative => "creative"
  | adventure => "adventure"
  | spectator => "spectator"

end GameMode

structure PlayerRecord where
  permissions : List String
  online : Bool
  gameMode : GameMode

/-- A ban, by whom it was made and for how many days; without days it has no end. -/
structure Ban where
  author : String
  reason : Option String
  duration : Option (Bounds Int32)

structure ServerState where
  players : Keyed String PlayerRecord
  bans : Keyed String Ban
  running : Bool

/-- An outbox, where replies are collected until they are shown. -/
abbrev OutboxId : Type := Nat

/-- Who issues a line, and the outbox for the replies. An actor replies into outbox 0 until it is
given another one. -/
inductive Actor where
  | console (name : String) (outbox : OutboxId := 0)
  | player (name : String) (rules : List PermissionRule) (outbox : OutboxId := 0)

namespace Actor

def name : Actor → String
  | console name _ | player name _ _ => name

def outbox : Actor → OutboxId
  | console _ outbox | player _ _ outbox => outbox

def withOutbox (outbox : OutboxId) : Actor → Actor
  | console name _ => console name outbox
  | player name rules _ => player name rules outbox

@[simp] theorem outbox_withOutbox (actor : Actor) (outbox : OutboxId) :
    (actor.withOutbox outbox).outbox = outbox := by
  cases actor <;> rfl

def isConsole : Actor → Bool
  | console _ _ => true
  | player _ _ _ => false

def holds : Actor → String → Bool
  | console _ _, _ => true
  | player _ rules _, permission => permits rules permission

end Actor

namespace ServerState

/-- The state at the start: all configured players are online. -/
def start (players : Keyed String (List String)) : ServerState where
  players := ⟨players.entries.map fun (name, permissions) => (name, ⟨permissions, true, .survival⟩)⟩
  bans := .empty
  running := true

def online (s : ServerState) : List String :=
  (s.players.entries.filter fun e => e.2.online).map Prod.fst

def actorFor (s : ServerState) (name : String) : Actor :=
  match s.players.find? name with
  | some record => .player name (record.permissions.map PermissionRule.ofString)
  | none => .player name []

def sendOffline (s : ServerState) (name : String) : ServerState :=
  { s with players := s.players.modify name ({ · with online := false }) }

end ServerState

end CommandConsole
