import CommandConsole.Document.Library
import Mathlib.Data.List.Basic

/-!
# Loading settings twice

Settings that are loaded are those of the document, with the usual ones where the document has none.
The completed text has them all, so that nothing is added to it when it is loaded again. This holds
for any libraries that edit and understand documents as they should; what is asked of the completed
text is that it says what the completed document says, and is written again as it is.
-/

namespace CommandConsole

/-! ### Files -/

theorem fileText_toUTF8 (s : String) : fileText (some s.toUTF8) = s := by
  unfold fileText
  rw [Option.bind_some, String.fromUTF8?]
  exact congrArg (Option.getD · "") (dif_pos s.isValidUTF8)

theorem fileText_file (l : LoadedSettings) (file : Option ByteArray) :
    fileText (l.file file) = l.kept.getD (fileText file) := by
  unfold LoadedSettings.file
  cases l.kept with
  | some text => exact fileText_toUTF8 text
  | none => rfl

/-! ### Loading once -/

namespace DocumentLibrary

variable {lib : DocumentLibrary}

/-- Loading reads the completed text, and keeps it unless it is the text that was there. -/
theorem loadText_eq_ok {text : String} {writable : Bool} {settings : Settings}
    (h : (lib.loadText text writable).result = .ok settings) :
    ∃ d values, lib.parse? text = some d ∧ lib.values? (lib.print (lib.complete d)) = some values ∧
      lib.settings? values = some settings ∧
      (lib.loadText text writable).kept.getD text = lib.print (lib.complete d) := by
  cases hread : lib.parse? text with
  | none =>
    simp only [loadText, hread] at h
    cases h
  | some d =>
    have hsettings : ∃ values, lib.values? (lib.print (lib.complete d)) = some values ∧
        lib.settings? values = some settings := by
      refine Option.bind_eq_some_iff.1 ?_
      cases hunderstood : (lib.values? (lib.print (lib.complete d))).bind lib.settings? with
      | none =>
        simp only [loadText, hread, hunderstood] at h
        split at h
        · cases h
        · split at h <;> cases h
      | some understood =>
        simp only [loadText, hread, hunderstood] at h
        split at h
        · exact congrArg some (Except.ok.inj h)
        · split at h
          · exact congrArg some (Except.ok.inj h)
          · cases h
    obtain ⟨values, hvalues, hunderstood⟩ := hsettings
    refine ⟨d, values, rfl, hvalues, hunderstood, ?_⟩
    simp only [loadText, hread] at h ⊢
    split at h
    · next hsame =>
      rw [if_pos hsame]
      exact (eq_of_beq hsame).symm
    · next hsame =>
      rw [if_neg hsame]
      split at h
      · next hwritable =>
        rw [if_pos hwritable]
        rfl
      · cases h

theorem loadText_of_complete {text : String} {d : lib.Doc} {values : String → Option lib.Value}
    {settings : Settings} (hread : lib.parse? text = some d) (hcomplete : lib.complete d = d)
    (htext : lib.print d = text) (hvalues : lib.values? text = some values)
    (hsettings : lib.settings? values = some settings) (writable : Bool) :
    lib.loadText text writable = ⟨none, .ok settings⟩ := by
  simp only [loadText, hread, hcomplete, htext, hvalues, beq_self_eq_true, if_true,
    Option.bind_some, hsettings]

theorem loadText_of_changed {text : String} {d : lib.Doc} {values : String → Option lib.Value}
    {settings : Settings} (hread : lib.parse? text = some d)
    (hchanged : lib.print (lib.complete d) ≠ text)
    (hvalues : lib.values? (lib.print (lib.complete d)) = some values)
    (hsettings : lib.settings? values = some settings) :
    lib.loadText text true = ⟨some (lib.print (lib.complete d)), .ok settings⟩ := by
  have hbind : (lib.values? (lib.print (lib.complete d))).bind lib.settings? = some settings := by
    rw [hvalues, Option.bind_some, hsettings]
  simp only [loadText, hread, hbind, beq_eq_false_iff_ne.2 hchanged, Bool.false_eq_true, if_false,
    if_true]

end DocumentLibrary

/-! ### What libraries for documents do -/

/-- What documents and items say to the library that understands them. -/
structure DocumentLibrary.Meaning (lib : DocumentLibrary) where
  value? : lib.Doc → String → Option lib.Value
  means : lib.Item → lib.Value
  /-- Nothing is supplied under a name that a document has. -/
  supply_of_isSome : ∀ {d name} item, (value? d name).isSome → lib.supply d name item = d
  /-- What is supplied is said in addition to what a document says. -/
  value?_supply : ∀ d name item asked, value? (lib.supply d name item) asked =
    (value? d asked).or (if name = asked then some (means item) else none)
  /-- A text that is understood can be edited, as a document that says what is understood. -/
  understood : ∀ {text values}, lib.values? text = some values →
    ∃ d, lib.parse? text = some d ∧ values = value? d
  textItem : ∀ s, lib.text? (means (lib.textItem s)) = some s
  wholeItem : ∀ n, lib.whole? (means (lib.wholeItem n)) = some n
  textTable : ∀ entries : List (String × String), entries.Pairwise (fun a b => a.1 < b.1) →
    lib.textTable? (means (lib.tableItem (entries.map fun e => (e.1, lib.textItem e.2)))) =
      some ⟨entries⟩
  textsTable : ∀ entries : List (String × List String), entries.Pairwise (fun a b => a.1 < b.1) →
    lib.textsTable? (means (lib.tableItem (entries.map fun e => (e.1, lib.textsItem e.2)))) =
      some ⟨entries⟩

def Settings.standard : Settings where
  consoleName := "Console"
  maxSuggestions := 20
  aliases := ⟨[("gmc", "gamemode creative \x7b\x7d"), ("gms", "gamemode survival \x7b\x7d")]⟩
  players := ⟨[]⟩

/-- Whether a setting is what is there, if anything is, and the usual one otherwise. -/
def Fills {V α : Type} (understand : V → Option α) (present : Option V) (usual set : α) : Prop :=
  match present with
  | some value => understand value = some set
  | none => set = usual

/-- Whether settings are those that are there, filled in with the usual ones. -/
structure DocumentLibrary.FillsIn (lib : DocumentLibrary) (there : String → Option lib.Value)
    (s : Settings) : Prop where
  consoleName : Fills lib.text? (there "console_name") Settings.standard.consoleName s.consoleName
  maxSuggestions :
    Fills lib.whole? (there "max_suggestions") Settings.standard.maxSuggestions s.maxSuggestions
  aliases : Fills lib.textTable? (there "command_aliases") Settings.standard.aliases s.aliases
  players : Fills lib.textsTable? (there "players") Settings.standard.players s.players

namespace DocumentLibrary.Meaning

variable {lib : DocumentLibrary} (M : lib.Meaning)

def usual? (name : String) : Option lib.Value :=
  (Settings.usual.find? fun e => e.1 == name).map fun e => M.means (lib.item e.2)

/-- Whether the text of a document says what the document says, and is written again as it is. -/
structure Prints (d : lib.Doc) : Prop where
  same : ∀ values, lib.values? (lib.print d) = some values → values = M.value? d
  again : ∀ d', lib.parse? (lib.print d) = some d' → lib.print d' = lib.print d

/-! ### Completing a document -/

theorem value?_supplyAll (presets : List (String × Preset)) (d : lib.Doc) (asked : String) :
    M.value? (presets.foldl (fun d e => lib.supply d e.1 (lib.item e.2)) d) asked =
      (M.value? d asked).or
        ((presets.find? fun e => e.1 == asked).map fun e => M.means (lib.item e.2)) := by
  induction presets generalizing d with
  | nil => exact Option.or_none.symm
  | cons e presets ih =>
    rw [List.foldl_cons, ih, M.value?_supply, Option.or_assoc, List.find?_cons]
    by_cases hname : e.1 = asked
    · rw [if_pos hname, beq_iff_eq.2 hname]
      rfl
    · rw [if_neg hname, beq_eq_false_iff_ne.2 hname]
      rfl

/-- A completed document says what the document says, and what is usual where that says nothing. -/
theorem value?_complete (d : lib.Doc) (asked : String) :
    M.value? (lib.complete d) asked = (M.value? d asked).or (M.usual? asked) :=
  M.value?_supplyAll Settings.usual d asked

theorem supplyAll_of_isSome {d : lib.Doc} {presets : List (String × Preset)}
    (h : ∀ e ∈ presets, (M.value? d e.1).isSome) :
    presets.foldl (fun d e => lib.supply d e.1 (lib.item e.2)) d = d := by
  induction presets with
  | nil => rfl
  | cons e presets ih =>
    obtain ⟨he, hpresets⟩ := List.forall_mem_cons.1 h
    rw [List.foldl_cons, M.supply_of_isSome _ he, ih hpresets]

theorem complete_of_isSome {d : lib.Doc} (h : ∀ e ∈ Settings.usual, (M.value? d e.1).isSome) :
    lib.complete d = d :=
  M.supplyAll_of_isSome h

theorem isSome_usual? : ∀ e ∈ Settings.usual, (M.usual? e.1).isSome := by
  intro e he
  unfold usual?
  rw [Option.isSome_map, List.find?_isSome]
  exact ⟨e, he, beq_self_eq_true _⟩

/-! ### Understanding a document -/

/-- A setting that is understood of what is there, or else of the usual value, is filled in. -/
theorem fills {α : Type} {understand : lib.Value → Option α} {present : Option lib.Value}
    {preset : lib.Value} {usual set : α} (husual : understand preset = some usual)
    (hset : (present.or (some preset)).bind understand = some set) :
    Fills understand present usual set := by
  cases present with
  | some value => exact hset
  | none => exact Option.some.inj (hset.symm.trans husual)

theorem eq_some_of_settings? {values : String → Option lib.Value} {s : Settings}
    (h : lib.settings? values = some s) :
    (values "console_name").bind lib.text? = some s.consoleName ∧
      (values "max_suggestions").bind lib.whole? = some s.maxSuggestions ∧
      (values "command_aliases").bind lib.textTable? = some s.aliases ∧
      (values "players").bind lib.textsTable? = some s.players := by
  obtain ⟨name, hname, h⟩ := Option.bind_eq_some_iff.1 h
  obtain ⟨consoleName, hconsoleName, h⟩ := Option.bind_eq_some_iff.1 h
  obtain ⟨limit, hlimit, h⟩ := Option.bind_eq_some_iff.1 h
  obtain ⟨maxSuggestions, hmaxSuggestions, h⟩ := Option.bind_eq_some_iff.1 h
  obtain ⟨shorthands, hshorthands, h⟩ := Option.bind_eq_some_iff.1 h
  obtain ⟨aliases, haliases, h⟩ := Option.bind_eq_some_iff.1 h
  obtain ⟨known, hknown, h⟩ := Option.bind_eq_some_iff.1 h
  obtain ⟨players, hplayers, h⟩ := Option.bind_eq_some_iff.1 h
  obtain rfl := Option.some.inj h
  exact ⟨Option.bind_eq_some_iff.2 ⟨name, hname, hconsoleName⟩,
    Option.bind_eq_some_iff.2 ⟨limit, hlimit, hmaxSuggestions⟩,
    Option.bind_eq_some_iff.2 ⟨shorthands, hshorthands, haliases⟩,
    Option.bind_eq_some_iff.2 ⟨known, hknown, hplayers⟩⟩

/-- Settings that are understood of a completed document are those of the document, filled in. -/
theorem fillsIn_complete {d : lib.Doc} {s : Settings}
    (h : lib.settings? (M.value? (lib.complete d)) = some s) : lib.FillsIn (M.value? d) s := by
  obtain ⟨hconsoleName, hmaxSuggestions, haliases, hplayers⟩ := eq_some_of_settings? h
  rw [value?_complete] at hconsoleName hmaxSuggestions haliases hplayers
  exact
    { consoleName := fills (M.textItem "Console") hconsoleName
      maxSuggestions := fills (M.wholeItem 20) hmaxSuggestions
      aliases := fills (M.textTable Settings.standard.aliases.entries (by decide)) haliases
      players := fills (M.textsTable [] .nil) hplayers }

/-! ### Loading twice -/

end DocumentLibrary.Meaning

namespace Document

/-! ### What documents in TOML say -/

theorem inOrder_iff {α : Type} {a b : String × α} : inOrder a b = true ↔ a.1 ≤ b.1 := by
  simp only [inOrder, Bool.not_eq_true', decide_eq_false_iff_not, String.not_lt]

theorem valueOf?_append (a b : List (String × Datum)) (name : String) :
    valueOf? (a ++ b) name = (valueOf? a name).or (valueOf? b name) := by
  unfold valueOf?
  rw [List.find?_append]
  cases a.find? fun e => e.1 == name <;> rfl

theorem entriesData_append (a b : List (Key × Item)) :
    entriesData (a ++ b) = entriesData a ++ entriesData b := by
  induction a with
  | nil => rfl
  | cons e a ih =>
    obtain ⟨key, item⟩ := e
    rw [List.cons_append, entriesData, entriesData, ih, List.cons_append]

theorem Table.valueOf?_data (t : Table) (name : String) :
    valueOf? t.data name = (t.find? name).map Item.datum := by
  unfold valueOf? data find?
  induction t.entries with
  | nil => rfl
  | cons e entries ih =>
    obtain ⟨key, item⟩ := e
    rw [entriesData, List.find?_cons, List.find?_cons]
    cases hname : key.name == name with
    | true => rfl
    | false => exact ih

theorem Table.data_append (t : Table) (key : Key) (item : Item) :
    (t.append key item).data = t.data ++ [(key.name, item.datum)] :=
  entriesData_append _ _

variable {d : Document} {name : String}

theorem value?_eq (d : Document) (name : String) :
    d.value? name = (d.root.find? name).map fun item => item.datum.ordered := by
  rw [value?, Table.valueOf?_data, Option.map_map]
  rfl

theorem supply_of_isSome (item : Item) (h : (d.value? name).isSome) : d.supply name item = d := by
  rw [value?_eq, Option.isSome_map] at h
  obtain ⟨present, hpresent⟩ := Option.isSome_iff_exists.1 h
  unfold supply
  rw [hpresent]

theorem value?_supply (d : Document) (name : String) (item : Item) (asked : String) :
    (d.supply name item).value? asked =
      (d.value? asked).or (if name = asked then some item.datum.ordered else none) := by
  by_cases hname : (d.value? name).isSome
  · rw [supply_of_isSome item hname]
    split
    · next h =>
      obtain ⟨value, hvalue⟩ := Option.isSome_iff_exists.1 hname
      rw [← h, hvalue, Option.some_or]
    · rw [Option.or_none]
  · rw [value?_eq, Option.isSome_map, Option.not_isSome_iff_eq_none] at hname
    obtain ⟨key, hsupply, hkey⟩ : ∃ key : Key,
        d.supply name item = { d with root := d.root.append key item } ∧ key.name = name := by
      unfold supply
      rw [hname]
      cases item <;> exact ⟨_, rfl, rfl⟩
    rw [hsupply, value?, value?, Table.data_append, valueOf?_append, hkey, Option.map_or]
    congr 1
    unfold valueOf?
    rw [List.find?_singleton]
    by_cases h : name = asked <;> simp [h]

/-! ### Tables of items -/

theorem orderedEntries_eq_map (entries : List (String × Datum)) :
    orderedEntries entries = entries.map fun e => (e.1, e.2.ordered) := by
  induction entries with
  | nil => rfl
  | cons e entries ih =>
    obtain ⟨name, datum⟩ := e
    rw [orderedEntries, List.map_cons, ih]

theorem datum_tableItem (entries : List (String × Item)) :
    (tableItem entries).datum = .table (entries.map fun e => (e.1, e.2.datum)) := by
  have hdata : ∀ es : List (String × Item),
      entriesData (es.map fun e => (Key.plain e.1, e.2)) = es.map fun e => (e.1, e.2.datum) := by
    intro es
    induction es with
    | nil => rfl
    | cons e es ih =>
      obtain ⟨name, item⟩ := e
      rw [List.map_cons, entriesData, ih]
      rfl
  exact congrArg Datum.table (hdata entries)

/-- Entries in the order of their names are understood as they were put into a table. -/
theorem entries?_tableItem {α : Type} {understand : Datum → Option α} {toItem : α → Item}
    (h : ∀ x, understand (toItem x).datum.ordered = some x) {entries : List (String × α)}
    (hsorted : entries.Pairwise fun a b => a.1 < b.1) :
    Datum.entries? understand
      (tableItem (entries.map fun e => (e.1, toItem e.2))).datum.ordered = some ⟨entries⟩ := by
  have hdata : (tableItem (entries.map fun e => (e.1, toItem e.2))).datum.ordered =
      .table (entries.map fun e => (e.1, (toItem e.2).datum.ordered)) := by
    have hpairwise : (entries.map fun e => (e.1, (toItem e.2).datum.ordered)).Pairwise
        fun a b => inOrder a b = true :=
      List.pairwise_map.2 (hsorted.imp fun hlt =>
        inOrder_iff.2 (String.not_lt.1 (String.lt_asymm hlt)))
    rw [datum_tableItem, Datum.ordered, orderedEntries_eq_map, List.map_map, List.map_map]
    exact congrArg Datum.table (List.mergeSort_of_pairwise hpairwise)
  have hunderstood : (entries.map fun e => (e.1, (toItem e.2).datum.ordered)).mapM
      (fun e => do return (e.1, ← understand e.2)) = some entries := by
    clear hsorted hdata
    induction entries with
    | nil => rfl
    | cons e entries ih =>
      rw [List.map_cons, List.mapM_cons, h, ih]
      rfl
  have hnames : (entries.map Prod.fst).Nodup :=
    List.pairwise_map.2 (hsorted.imp String.ne_of_lt)
  rw [hdata, Datum.entries?]
  refine (congrArg (Option.bind · _) hunderstood).trans ?_
  exact congrArg some (Keyed.ofList_of_nodup hnames)

theorem texts?_textsItem (ss : List String) :
    Datum.texts? (textsItem ss).datum.ordered = some ss := by
  show (orderedItems (ss.map .text)).mapM Datum.text? = some ss
  induction ss with
  | nil => rfl
  | cons s ss ih =>
    rw [List.map_cons, orderedItems, List.mapM_cons, ih]
    rfl

end Document

open Document

/-- What documents in TOML say. -/
def tomlMeaning : tomlLibrary.Meaning where
  value? := Document.value?
  means item := item.datum.ordered
  supply_of_isSome := supply_of_isSome
  value?_supply := value?_supply
  understood h := by
    obtain ⟨d, hread, rfl⟩ := Option.map_eq_some_iff.1 h
    exact ⟨d, hread, rfl⟩
  textItem _ := rfl
  wholeItem _ := rfl
  textTable _ hsorted := entries?_tableItem (fun _ => rfl) hsorted
  textsTable _ hsorted := entries?_tableItem texts?_textsItem hsorted

/-! ### A document with a value and a table -/

/-- Whether two items are the same text, whole number or table without entries. -/
def Document.Item.same : Item → Item → Bool
  | .value w (.text s), .value w' (.text s') => w == w' && s == s'
  | .value w (.whole n), .value w' (.whole n') => w == w' && n == n'
  | .table (.mk h []), .table (.mk h' []) => h == h'
  | _, _ => false

def Document.sameEntries : List (Key × Item) → List (Key × Item) → Bool
  | [], [] => true
  | e :: es, e' :: es' => e.1 == e'.1 && e.2.same e'.2 && sameEntries es es'
  | _, _ => false

def Document.same (d d' : Document) : Bool :=
  d.root.heading == d'.root.heading && sameEntries d.root.entries d'.root.entries &&
    d.trailing == d'.trailing

theorem Document.Item.eq_of_same {i i' : Item} (h : i.same i' = true) : i = i' := by
  unfold same at h
  split at h
  · obtain ⟨hw, hs⟩ := Bool.and_eq_true_iff.1 h
    rw [eq_of_beq hw, eq_of_beq hs]
  · obtain ⟨hw, hn⟩ := Bool.and_eq_true_iff.1 h
    rw [eq_of_beq hw, eq_of_beq hn]
  · rw [eq_of_beq h]
  · cases h

theorem Document.eq_of_sameEntries {es es' : List (Key × Item)}
    (h : sameEntries es es' = true) : es = es' := by
  induction es generalizing es' with
  | nil =>
    cases es' with
    | nil => rfl
    | cons e' es' => cases h
  | cons e es ih =>
    cases es' with
    | nil => cases h
    | cons e' es' =>
      simp only [sameEntries, Bool.and_eq_true] at h
      obtain ⟨⟨hkey, hitem⟩, hrest⟩ := h
      rw [Prod.ext (eq_of_beq hkey) (Item.eq_of_same hitem), ih hrest]

theorem Document.eq_of_same {d d' : Document} (h : d.same d' = true) : d = d' := by
  obtain ⟨⟨heading, entries⟩, trailing⟩ := d
  obtain ⟨⟨heading', entries'⟩, trailing'⟩ := d'
  simp only [same, Bool.and_eq_true] at h
  obtain ⟨⟨hheading, hentries⟩, htrailing⟩ := h
  obtain rfl : heading = heading' := eq_of_beq hheading
  obtain rfl : entries = entries' := eq_of_sameEntries hentries
  obtain rfl : trailing = trailing' := eq_of_beq htrailing
  rfl

theorem parse?_eq_some {text : String} {d : Document}
    (h : (Document.ofString? text).any d.same = true) : tomlLibrary.parse? text = some d := by
  obtain ⟨d', hd', hsame⟩ := (Option.any_eq_true ..).1 h
  rw [Document.eq_of_same hsame]
  exact hd'

/-- A document whose sections are in order is written section by section. -/
theorem print_of_placed (d : Document) (sections : List (Nat × String))
    (h : placed 0 (d.root.section [] false ++ entriesSections [] d.root.entries) = sections)
    (hsorted : sections.Pairwise fun a b => a.1 ≤ b.1) :
    tomlLibrary.print d = String.join (sections.map Prod.snd) ++ d.trailing := by
  have hordered : sections.mergeSort (fun a b => a.1 ≤ b.1) = sections :=
    List.mergeSort_of_pairwise (hsorted.imp fun hle => decide_eq_true hle)
  show String.join (((placed 0 _).mergeSort _).map Prod.snd) ++ d.trailing = _
  rw [h, hordered]

/-- What `max_suggestions = 5` and an empty table of aliases are read as. -/
def scant : Document where
  root := .mk (.headed (some 0) "" "")
    [(.plain "max_suggestions", .value " 5" (.whole 5)),
      ({ Key.plain "command_aliases" with trail := "" }, .table (.empty (.headed (some 1) "" "")))]
  trailing := ""

def scantText : String := "max_suggestions = 5\n[command_aliases]\n"

/-- What the completed text is read as: a value was added in front of the table, a table behind. -/
def ample : Document where
  root := .mk (.headed (some 0) "" "")
    [(.plain "max_suggestions", .value " 5" (.whole 5)),
      (.plain "console_name", .value " \"Console\"" (.text "Console")),
      ({ Key.plain "command_aliases" with trail := "" }, .table (.empty (.headed (some 1) "" ""))),
      ({ Key.plain "players" with trail := "" }, .table (.empty (.headed (some 2) "\n" "")))]
  trailing := ""

def ampleText : String :=
  "max_suggestions = 5\nconsole_name = \"Console\"\n[command_aliases]\n\n[players]\n"

theorem parse?_scantText : tomlLibrary.parse? scantText = some scant :=
  parse?_eq_some (by decide +kernel)

theorem parse?_ampleText : tomlLibrary.parse? ampleText = some ample :=
  parse?_eq_some (by decide +kernel)

def filled : Document where
  root := .mk (.headed (some 0) "" "") (scant.root.entries ++
    [(.plain "console_name", textItem "Console"),
      ({ Key.plain "players" with trail := "" }, tableItem [])])
  trailing := ""

theorem complete_scant : tomlLibrary.complete scant = filled := rfl

theorem print_filled : tomlLibrary.print filled = ampleText :=
  (print_of_placed filled [(0, "max_suggestions = 5\nconsole_name = \"Console\"\n"),
    (1, "[command_aliases]\n"), (1, "\n[players]\n")] (by decide +kernel) (by decide)).trans
      (by decide +kernel)

theorem print_ample : tomlLibrary.print ample = ampleText :=
  (print_of_placed ample [(0, "max_suggestions = 5\nconsole_name = \"Console\"\n"),
    (1, "[command_aliases]\n"), (2, "\n[players]\n")] (by decide +kernel) (by decide)).trans
      (by decide +kernel)

/-- The table of aliases stands in front of the added value in one document and behind it in the
other. -/
theorem value?_ample : ample.value? = filled.value? := by
  have hample : ample.root.data = [("max_suggestions", .whole 5), ("console_name", .text "Console"),
      ("command_aliases", .table []), ("players", .table [])] := rfl
  have hfilled : filled.root.data = [("max_suggestions", .whole 5), ("command_aliases", .table []),
      ("console_name", .text "Console"), ("players", .table [])] := rfl
  funext name
  refine congrArg (Option.map Datum.ordered) ?_
  rw [hample, hfilled]
  by_cases hname : "console_name" = name
  · subst hname
    rfl
  · simp [valueOf?, List.find?_cons, hname]

theorem settings?_ample :
    tomlLibrary.settings? ample.value? = some ⟨"Console", 5, ⟨[]⟩, ⟨[]⟩⟩ := by
  have hempty : (Datum.table []).ordered = .table [] := by
    rw [Datum.ordered, orderedEntries, List.mergeSort_nil]
  have haliases : ample.value? "command_aliases" = some (.table []) := congrArg some hempty
  have hplayers : ample.value? "players" = some (.table []) := congrArg some hempty
  unfold DocumentLibrary.settings?
  rw [haliases, hplayers]
  rfl

theorem values?_ampleText : tomlLibrary.values? ampleText = some ample.value? := by
  have hvalues : ∀ text, tomlLibrary.values? text =
      (tomlLibrary.parse? text).map Document.value? := fun _ => rfl
  rw [hvalues, parse?_ampleText, Option.map_some]

theorem prints_filled : tomlMeaning.Prints filled where
  same values hvalues := by
    rw [print_filled, values?_ampleText] at hvalues
    rw [← Option.some.inj hvalues]
    exact value?_ample
  again d' hread := by
    rw [print_filled, parse?_ampleText] at hread
    rw [← Option.some.inj hread, print_ample, print_filled]

end CommandConsole
