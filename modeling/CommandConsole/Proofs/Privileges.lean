import CommandConsole.Proofs.Changes
import CommandConsole.Proofs.Edits
import CommandConsole.Proofs.Unlinking

/-!
# No line goes beyond the permissions of its actor

Each part of the state is changed by some of the commands, and the nodes that demand the permission
for it stand in front of all of those: from the root, no branch and no redirect leads to one of them
but through such a node. So whoever lacks the permission cannot end a line there, whatever text the
line is, and whomever it is run as.
-/

namespace CommandConsole

open ConsoleEffect

/-! ### Parts of the state -/

namespace ServerState

def presence (s : ServerState) : List (String × Bool) :=
  s.players.entries.map fun e => (e.1, e.2.online)

def modes (s : ServerState) : List (String × GameMode) :=
  s.players.entries.map fun e => (e.1, e.2.gameMode)

def roster (s : ServerState) : List (String × List String) :=
  s.players.entries.map fun e => (e.1, e.2.permissions)

end ServerState

/-- What commands may change of the state. -/
inductive StatePart where
  | bans
  | presence
  | modes
  | running
  | roster
  deriving DecidableEq

namespace StatePart

def all : List StatePart := [bans, presence, modes, running, roster]

theorem mem_all (part : StatePart) : part ∈ all := by cases part <;> decide

def Same : StatePart → ServerState → ServerState → Prop
  | bans, s, s' => s'.bans = s.bans
  | presence, s, s' => s'.presence = s.presence
  | modes, s, s' => s'.modes = s.modes
  | running, s, s' => s'.running = s.running
  | roster, s, s' => s'.roster = s.roster

/-- The permissions of which one is needed to change a part. -/
def permissions : StatePart → List String
  | bans => ["mcadmin.ban"]
  | presence => ["mcadmin.ban", "mcadmin.kick"]
  | modes => ["mcadmin.gamemode"]
  | running | roster => []

/-- Whether gates demand what is needed to change a part. -/
def guardedBy (part : StatePart) (g : Gates console) : Bool :=
  match part with
  | running => g.requirement.isSome
  | part => g.permission.any fun name => name ∈ part.permissions

end StatePart

theorem StatePart.guardedBy_cases {part : StatePart} {g : Gates console}
    (h : part.guardedBy g = true) :
    (part = .running ∧ ∃ p, g.requirement = some p) ∨
      ∃ name, g.permission = some name ∧ name ∈ part.permissions := by
  have hpermission (h : g.permission.any (fun name => name ∈ part.permissions) = true) :
      ∃ name, g.permission = some name ∧ name ∈ part.permissions := by
    obtain ⟨name, hname, hmem⟩ := (Option.any_eq_true _ _).1 h
    exact ⟨name, hname, of_decide_eq_true hmem⟩
  cases part with
  | running => exact Or.inl ⟨rfl, Option.isSome_iff_exists.1 h⟩
  | bans | presence | modes | roster => exact Or.inr (hpermission h)

def Actor.may (actor : Actor) : StatePart → Bool
  | .running => actor.isConsole
  | part => part.permissions.any actor.holds

theorem Actor.not_holds {actor : Actor} {part : StatePart} (h : actor.may part = false)
    {name : String} (hname : name ∈ part.permissions) : actor.holds name = false := by
  have hany (h : part.permissions.any actor.holds = false) : actor.holds name = false :=
    Bool.eq_false_iff.2 (List.any_eq_false.1 h name hname)
  cases part with
  | running => cases hname
  | bans | presence | modes | roster => exact hany h

def ConsoleAction.parts : ConsoleAction → List StatePart
  | ban => [.bans, .presence]
  | pardon => [.bans]
  | kick => [.presence]
  | setGameMode _ => [.modes]
  | stop => [.running]
  | listBans | talk | showPermissions | listCommands | explainCommand => []

theorem Keyed.map_modify {κ α β : Type} [DecidableEq κ] (m : Keyed κ α) (k : κ) {f : α → α}
    {g : α → β} (h : ∀ v, g (f v) = g v) :
    (m.modify k f).entries.map (fun e => (e.1, g e.2)) = m.entries.map fun e => (e.1, g e.2) := by
  simp only [modify, List.map_map]
  apply List.map_congr_left
  intro e _
  simp only [Function.comp_apply]
  split
  · simp only [h]
  · rfl

/-- A command leaves all parts of the state alone that it is not about. -/
theorem ConsoleAction.Changes.same {i : Invocation console} {action : ConsoleAction}
    {s s' : ServerState} (h : action.Changes i s s') (part : StatePart)
    (hpart : part ∉ action.parts) : part.Same s s' := by
  cases h with
  | @ban _ target =>
    cases part with
    | bans | presence => exact absurd (by simp [parts]) hpart
    | running => rfl
    | modes | roster => exact s.players.map_modify target fun _ => rfl
  | pardon =>
    cases part with
    | bans => exact absurd (by simp [parts]) hpart
    | presence | modes | running | roster => rfl
  | @kick _ target =>
    cases part with
    | presence => exact absurd (by simp [parts]) hpart
    | bans | running => rfl
    | modes | roster => exact s.players.map_modify target fun _ => rfl
  | setGameMode mode _ target =>
    cases part with
    | modes => exact absurd (by simp [parts]) hpart
    | bans | running => rfl
    | presence | roster => exact s.players.map_modify target fun _ => rfl
  | stop =>
    cases part with
    | running => exact absurd (by simp [parts]) hpart
    | bans | presence | modes | roster => rfl
  | listBans | talk | showPermissions | listCommands | explainCommand => cases part <;> rfl

/-! ### Where a line can end -/

def Node.branches {L : Language} (n : Node L) : List NodeId := n.literals.values ++ n.arguments

namespace CommandTree

variable {L : Language} {t : CommandTree L} {source : L.Source} {layer : NodeId → Nat}

/-- A property of nodes that branches keep, and redirects, as far as they admit a source, holds of
a node with the command that a line of the source ends with. -/
theorem Filed.command_of_closed (hf : Filed t layer) {P : NodeId → Prop} (hroot : P root)
    (hbranch : ∀ id c above, P id → c ∈ (t.node id).branches → t.Admits source c above →
      P c ∧ ∀ f, (t.node c).forward = some f → P f.target)
    (r : Reader) {action : L.Action}
    (h : (t.parseFrom r source).chain.last.command = some action) :
    ∃ id, P id ∧ (t.node id).command = some action := by
  let Q : Position L → Prop := fun p => P p.node ∧
    ∀ action, p.context.command = some action → ∃ id, P id ∧ (t.node id).command = some action
  have hstep : ∀ p i q, Q p → Step t source p i q → Q q := by
    rintro p i q ⟨hnode, hcommand⟩ hs
    rcases hs.gives_or_enters with ⟨name, option, -, hg⟩ | ⟨c, hc, taken, behind, -, ha, rfl⟩
    · cases hg
      exact ⟨hnode, hcommand⟩
    · have hmem : c ∈ (t.node p.node).branches := by
        rcases hc with hn | hmem
        · exact List.mem_append_left _ (List.mem_map_of_mem (Keyed.mem_entries_of_find? hn))
        · exact List.mem_append_right _ hmem
      obtain ⟨hmine, htarget⟩ := hbranch p.node c _ hnode hmem ha
      rcases beyond_cases (t := t) p c taken behind with hq | ⟨forward, hforward, -, hq⟩
      · rw [hq]
        exact ⟨hmine, fun action h => ⟨c, hmine, h⟩⟩
      · rw [hq]
        exact ⟨htarget forward hforward, fun action h => by cases h⟩
  have hstart : Q (Position.start r.skipBlank) := ⟨hroot, fun action h => by cases h⟩
  obtain ⟨q, hq, hchain, -⟩ := hf.parseFrom_invariant source r hstart hstep
  rw [hchain, Position.last_chain] at h
  exact hq.2 action h

end CommandTree

/-! ### The commands of the console -/

namespace StatePart

/-- Whether a node neither demands what is needed to change a part nor has a command about it. -/
def spares (part : StatePart) (n : Node console) : Bool :=
  !part.guardedBy n.gates && n.command.all fun action : ConsoleAction => part ∉ action.parts

/-- Whether what is not guarded below a node that spares a part spares it as well. -/
def Encloses (part : StatePart) (t : CommandTree console) (n : Node console) : Prop :=
  part.spares n = true → ∀ c ∈ n.branches, part.guardedBy (t.node c).gates = false →
    part.spares (t.node c) = true ∧
      ∀ f ∈ (t.node c).forward, part.spares (t.node f.target) = true

end StatePart

/-- The only requirement that a command makes is that the console issues the line. -/
theorem requirement_consoleCommands {execute : NodeId} {g : Gates console}
    (hg : g ∈ Blueprint.declaredGatesIn (consoleCommands execute)) {p : console.Source → Bool}
    (hp : g.requirement = some p) : p = Actor.isConsole := by
  have hall : (Blueprint.declaredGatesIn (consoleCommands execute)).filterMap (·.requirement) =
      [Actor.isConsole] := rfl
  have hmem : p ∈ [Actor.isConsole] := hall ▸ List.mem_filterMap.2 ⟨g, hg, hp⟩
  exact List.mem_singleton.1 hmem

theorem requirement_commandTree {id : NodeId} {p : console.Source → Bool}
    (h : (commandTree.node id).gates.requirement = some p) : p = Actor.isConsole := by
  let Q (g : Gates console) : Prop := ∀ p, g.requirement = some p → p = Actor.isConsole
  have hall : CommandTree.AllGates Q commandTree := by
    refine commandTree_invariant (I := CommandTree.AllGates Q)
      (CommandTree.allGates_empty fun _ h => nomatch h) ?_
    intro execute t t' b first rest hb ht hadd
    refine ht.add? (fun g hg p hp => ?_) hadd
    exact requirement_consoleCommands (Blueprint.mem_declaredGatesIn hb hg) hp
  exact hall id p h

theorem enclosed_commandTree (part : StatePart) :
    part.spares (commandTree.node CommandTree.root) = true ∧
      ∀ id, part.Encloses commandTree (commandTree.node id) := by
  have hroot : ∀ part ∈ StatePart.all, part.spares (commandTree.node CommandTree.root) = true := by
    decide +kernel
  refine ⟨hroot part part.mem_all, fun id => ?_⟩
  refine CommandTree.forall_node size_commandTree (fun _ c hc => by cases hc) ?_ id
  have hall : ∀ part ∈ StatePart.all, ∀ id < 32, part.spares (commandTree.node id) = true →
      ∀ c ∈ (commandTree.node id).branches, part.guardedBy (commandTree.node c).gates = false →
        part.spares (commandTree.node c) = true ∧
          ∀ f ∈ (commandTree.node c).forward, part.spares (commandTree.node f.target) = true := by
    decide +kernel
  exact hall part part.mem_all

theorem refuses_of_guardedBy {part : StatePart} {actor : Actor} (hactor : actor.may part = false)
    {id : NodeId} (h : part.guardedBy (commandTree.node id).gates = true) :
    commandTree.Refuses actor id := by
  rcases part.guardedBy_cases h with ⟨rfl, p, hp⟩ | ⟨name, hname, hmem⟩
  · refine Or.inl ⟨p, hp, ?_⟩
    rw [requirement_commandTree hp]
    exact hactor
  · exact Or.inr ⟨name, hname, actor.not_holds hactor hmem⟩

theorem command_spares {part : StatePart} {actor : Actor} (hactor : actor.may part = false)
    (r : Reader) {action : ConsoleAction}
    (h : (commandTree.parseFrom r actor).chain.last.command = some action) :
    part ∉ action.parts := by
  obtain ⟨layer, hg⟩ := reachable_commandTree.grown
  obtain ⟨hroot, henclosed⟩ := enclosed_commandTree part
  have hbranch : ∀ id c above, part.spares (commandTree.node id) = true →
      c ∈ (commandTree.node id).branches → commandTree.Admits actor c above →
      part.spares (commandTree.node c) = true ∧
        ∀ f, (commandTree.node c).forward = some f →
          part.spares (commandTree.node f.target) = true := by
    intro id c above hid hc ha
    refine henclosed id hid c hc (Bool.eq_false_iff.2 fun hguarded => ?_)
    exact (refuses_of_guardedBy hactor hguarded).not_admits above ha
  obtain ⟨id, hid, hcommand⟩ := hg.filed.command_of_closed hroot hbranch r h
  obtain ⟨-, hspares⟩ := Bool.and_eq_true_iff.1 hid
  rw [hcommand] at hspares
  exact of_decide_eq_true hspares

/-! ### Lines -/

theorem StatePart.Same.trans {part : StatePart} {s s' s'' : ServerState} (h : part.Same s s')
    (h' : part.Same s' s'') : part.Same s s'' := by
  cases part <;> exact Eq.trans h' h

theorem StatePart.same_refl (part : StatePart) (s : ServerState) : part.Same s s := by
  cases part <;> rfl

theorem runConsoleLine_same {part : StatePart} {actor : Actor} (hactor : actor.may part = false)
    (aliases : Keyed String String) (line : String) (state : ServerState) :
    part.Same state (runConsoleLine (consoleDispatcher aliases) actor line state).2 := by
  refine runConsoleLine_preserves (P := part.Same state) ?_ aliases line (part.same_refl state)
  intro r action i hcommand
  apply (act_atomic commandTree action i).preserves
  exact fun s s' h hs => hs.trans (h.same part (command_spares hactor r hcommand))

/-- No line changes more of the state than its actor has the permission for, whatever aliases there
are: the bans, who is online, the game modes, and whether the server is running. The players and
their permissions stay as they are. -/
theorem runConsoleLine_privileges (aliases : Keyed String String) (actor : Actor) (line : String)
    (state : ServerState) :
    let after := (runConsoleLine (consoleDispatcher aliases) actor line state).2
    (actor.holds "mcadmin.ban" = true ∨ after.bans = state.bans) ∧
      (actor.holds "mcadmin.ban" = true ∨ actor.holds "mcadmin.kick" = true ∨
        after.presence = state.presence) ∧
      (actor.holds "mcadmin.gamemode" = true ∨ after.modes = state.modes) ∧
      (actor.isConsole = true ∨ after.running = state.running) ∧
      after.roster = state.roster := by
  intro after
  have hsame (part : StatePart) : actor.may part = true ∨ part.Same state after := by
    cases hmay : actor.may part with
    | true => exact Or.inl rfl
    | false => exact Or.inr (runConsoleLine_same hmay aliases line state)
  refine ⟨?_, ?_, ?_, hsame .running, ?_⟩
  · simpa [Actor.may, StatePart.permissions, StatePart.Same] using hsame .bans
  · simpa [Actor.may, StatePart.permissions, StatePart.Same, or_assoc] using hsame .presence
  · simpa [Actor.may, StatePart.permissions, StatePart.Same] using hsame .modes
  · simpa [Actor.may, StatePart.permissions, StatePart.Same] using hsame .roster

end CommandConsole
