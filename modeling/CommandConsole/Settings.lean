import CommandConsole.Keyed

/-!
# Settings

The settings are kept in a document that the server completes when it starts: what is missing is
added with its usual value, and what is there stays as it is written. One library edits documents
as they are written, another one understands what they say; nothing is asked of either here.
-/

namespace CommandConsole

structure Settings where
  /-- The name of the console. -/
  consoleName : String
  /-- How many completions are shown; a negative number is no limit. -/
  maxSuggestions : Int64
  /-- Aliases with their replacements. -/
  aliases : Keyed String String
  /-- Players with their permissions. -/
  players : Keyed String (List String)

/-- What is used of the libraries for documents. -/
structure DocumentLibrary where
  /-- Documents as they are written. -/
  Doc : Type
  /-- What can be added to a document. -/
  Item : Type
  /-- What documents say. -/
  Value : Type
  parse? : String → Option Doc
  print : Doc → String
  /-- Adds an item under a name, unless the document has the name. -/
  supply : Doc → String → Item → Doc
  textItem : String → Item
  wholeItem : Int64 → Item
  textsItem : List String → Item
  tableItem : List (String × Item) → Item
  /-- What a text says under the names of its document. -/
  values? : String → Option (String → Option Value)
  text? : Value → Option String
  whole? : Value → Option Int64
  /-- A table of texts. -/
  textTable? : Value → Option (Keyed String String)
  /-- A table of lists of texts. -/
  textsTable? : Value → Option (Keyed String (List String))

/-! ### Completing a document -/

/-- A value that a setting has if the document does not say otherwise. -/
inductive Preset where
  | text (s : String)
  | whole (n : Int64)
  | textTable (entries : List (String × String))
  | textsTable (entries : List (String × List String))

namespace DocumentLibrary

variable (lib : DocumentLibrary)

def item : Preset → lib.Item
  | .text s => lib.textItem s
  | .whole n => lib.wholeItem n
  | .textTable entries => lib.tableItem (entries.map fun (name, s) => (name, lib.textItem s))
  | .textsTable entries => lib.tableItem (entries.map fun (name, ss) => (name, lib.textsItem ss))

end DocumentLibrary

def Settings.usual : List (String × Preset) :=
  [("console_name", .text "Console"),
    ("max_suggestions", .whole 20),
    ("command_aliases",
      .textTable [("gmc", "gamemode creative \x7b\x7d"), ("gms", "gamemode survival \x7b\x7d")]),
    ("players", .textsTable [])]

namespace DocumentLibrary

variable (lib : DocumentLibrary)

def complete (d : lib.Doc) : lib.Doc :=
  Settings.usual.foldl (fun d (name, preset) => lib.supply d name (lib.item preset)) d

def settings? (values : String → Option lib.Value) : Option Settings := do
  return {
    consoleName := ← lib.text? (← values "console_name")
    maxSuggestions := ← lib.whole? (← values "max_suggestions")
    aliases := ← lib.textTable? (← values "command_aliases")
    players := ← lib.textsTable? (← values "players") }

end DocumentLibrary

/-! ### Loading -/

inductive SettingsError where
  /-- The text is no document. -/
  | malformed
  /-- The completed text cannot be kept. -/
  | unwritable
  /-- A setting is missing or of another kind. -/
  | unusable
  deriving DecidableEq, Repr

/-- The result of loading: the text that is kept from now on, if it changed, and the settings. -/
structure LoadedSettings where
  kept : Option String
  result : Except SettingsError Settings

/-- The bytes in a file after loading, given those before. -/
def LoadedSettings.file (l : LoadedSettings) (before : Option ByteArray) : Option ByteArray :=
  match l.kept with
  | some text => some text.toUTF8
  | none => before

/-- The text in a file. A file that is not there or that is no text counts as empty. -/
def fileText (file : Option ByteArray) : String := (file.bind String.fromUTF8?).getD ""

namespace DocumentLibrary

variable (lib : DocumentLibrary)

/-- Loads settings from a text; the flag says whether a new text can be kept in its place. -/
def loadText (text : String) (writable : Bool) : LoadedSettings :=
  match lib.parse? text with
  | none => ⟨none, .error .malformed⟩
  | some d =>
    let completed := lib.print (lib.complete d)
    let result := match (lib.values? completed).bind lib.settings? with
      | some settings => .ok settings
      | none => .error .unusable
    if completed == text then ⟨none, result⟩
    else if writable then ⟨some completed, result⟩
    else ⟨none, .error .unwritable⟩

def load (file : Option ByteArray) (writable : Bool) : LoadedSettings :=
  lib.loadText (fileText file) writable

end DocumentLibrary

end CommandConsole
