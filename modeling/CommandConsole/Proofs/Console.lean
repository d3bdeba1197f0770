import CommandConsole.Console.Commands
import CommandConsole.Proofs.Reading

/-!
# The commands of the console

What holds for every tree that can be built holds for the tree of the console, whose types of
arguments read forward, up to a blank.
-/

namespace CommandConsole

open CommandTree Text

theorem ScanRelation.player (R : ScanRelation) {r r' : Reader} (h : R.At r r') :
    R.Rel r r' scanPlayer scanPlayer := by
  refine R.get_bind ?_
  rw [R.peek?_beq h (by decide)]
  split
  · next hstar =>
    exact R.bind (R.pass h (Reader.one_le_of_peek? (eq_of_beq hstar))) fun _ _ _ hs => R.pure hs _
  · refine R.bind (R.word h) fun name s s' hs => ?_
    split
    · exact R.bind (R.fail hs (by nofun)) fun _ _ _ hs => R.pure hs _
    · exact R.pure hs _

theorem isSelfContained_scanPlayer : scanPlayer.IsSelfContained :=
  fun _ _ _ _ hb h => (carrying hb).player h

theorem console_readsLocally : console.ReadsLocally := by
  intro type
  cases type with
  | builtin type => exact type.isLocal_scan
  | player => exact isSelfContained_scanPlayer.isLocal

theorem console_readsForward : console.ReadsForward := console_readsLocally.readsForward

/-! ### Registration -/

theorem register?_eq_ok {L : Language} {d d' : Dispatcher L} {b : Blueprint L} {id : NodeId}
    (h : d.register? b = .ok (d', id)) : ∃ rest, d.tree.add? root b = .ok (d'.tree, id, rest) := by
  unfold Dispatcher.register? at h
  obtain ⟨⟨tree, first, rest⟩, hadd, h⟩ := bind_eq_ok.1 h
  obtain ⟨rfl, rfl⟩ := Prod.mk.inj (Except.ok.inj h)
  exact ⟨rest, hadd⟩

theorem registerAll?_invariant {I : CommandTree console → Prop} {bs : List (Blueprint console)}
    (hstep : ∀ {t t' b first rest}, b ∈ bs → I t → t.add? root b = .ok (t', first, rest) → I t')
    {d d' : Dispatcher console} (hd : I d.tree) (h : registerAll? d bs = .ok d') : I d'.tree := by
  induction bs generalizing d with
  | nil =>
    obtain rfl := Except.ok.inj h
    exact hd
  | cons b bs ih =>
    unfold registerAll? at h
    obtain ⟨⟨d₁, id⟩, hb, h⟩ := bind_eq_ok.1 h
    obtain ⟨rest, hadd⟩ := register?_eq_ok hb
    exact ih (fun hb => hstep (List.mem_cons_of_mem _ hb)) (hstep List.mem_cons_self hd hadd) h

def consoleCommands (execute : NodeId) : List (Blueprint console) :=
  [banCommand, pardonCommand, banlistCommand, kickCommand, gameModeCommand] ++ executeRunCommand ::
    [executeAsCommand execute, talkCommand, permissionsCommand, stopCommand, helpCommand]

/-- What holds of the bare tree, and what building each command below the root keeps, holds of the
tree of all commands. -/
theorem commandTree_invariant {I : CommandTree console → Prop} (hempty : I .empty)
    (hstep : ∀ {execute t t' b first rest}, b ∈ consoleCommands execute → I t →
      t.add? root b = .ok (t', first, rest) → I t') : I commandTree := by
  unfold commandTree
  cases h : commandTree? with
  | error e => exact hempty
  | ok t =>
    unfold commandTree? at h
    obtain ⟨d₁, h₁, h⟩ := bind_eq_ok.1 h
    obtain ⟨⟨d₂, execute⟩, h₂, h⟩ := bind_eq_ok.1 h
    obtain ⟨d₃, h₃, h⟩ := bind_eq_ok.1 h
    obtain rfl := Except.ok.inj h
    have i₁ : I d₁.tree := registerAll?_invariant
      (fun {_ _ b _ _} hb => hstep (List.mem_append_left _ hb : b ∈ consoleCommands execute))
      hempty h₁
    obtain ⟨rest, hadd⟩ := register?_eq_ok h₂
    have hrun : executeRunCommand ∈ consoleCommands execute :=
      List.mem_append_right _ List.mem_cons_self
    have i₂ : I d₂.tree := hstep hrun i₁ hadd
    exact registerAll?_invariant
      (fun {_ _ b _ _} hb => hstep
        (List.mem_append_right _ (List.mem_cons_of_mem _ hb) : b ∈ consoleCommands execute)) i₂ h₃

theorem tree_consoleDispatcher (aliases : Keyed String String) :
    (consoleDispatcher aliases).tree = commandTree := by
  simp only [consoleDispatcher]

theorem reachable_commandTree : commandTree.Reachable :=
  commandTree_invariant .empty fun _ ht hadd => .add ht hadd

theorem size_commandTree : commandTree.size ≤ 32 := by decide +kernel

end CommandConsole
