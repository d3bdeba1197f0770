import CommandConsole.Document.Reading
import CommandConsole.Document.Writing
import CommandConsole.Settings

/-!
# Documents in TOML as a library

As much of TOML as settings need: items are added to the table of everything in a document, and
what a document says comes with the entries of every table in the order of their names. The server
runs with this library; what is said of loading asks for no library in particular.
-/

namespace CommandConsole

namespace Document

/-! ### Adding to a document -/

/-- An item for a text without characters that are written otherwise. -/
def textItem (s : String) : Item := .value (" \"" ++ s ++ "\"") (.text s)

def wholeItem (n : Int64) : Item := .value (" " ++ Decimal.ofInt n.toInt) (.whole n)

/-- An item for texts without characters that are written otherwise. -/
def textsItem (ss : List String) : Item :=
  .value (" [" ++ String.intercalate ", " (ss.map fun s => "\"" ++ s ++ "\"") ++ "]")
    (.list (ss.map .text))

def tableItem (entries : List (String × Item)) : Item :=
  .table (.mk (.headed none "\n" "") (entries.map fun (name, item) => (.plain name, item)))

/-- A document with an item under a name that it does not have. A table is written without a space
behind its name. -/
def supply (d : Document) (name : String) (item : Item) : Document :=
  match d.root.find? name, item with
  | some _, _ => d
  | none, .value .. => { d with root := d.root.append (.plain name) item }
  | none, _ => { d with root := d.root.append { Key.plain name with trail := "" } item }

/-! ### What a document says -/

/-- The order of the entries of a table. -/
def inOrder {α : Type} (a b : String × α) : Bool := !(b.1 < a.1 : Bool)

mutual

/-- A value with the entries of every table in the order of their names. -/
def Datum.ordered : Datum → Datum
  | .list items => .list (orderedItems items)
  | .table entries => .table ((orderedEntries entries).mergeSort inOrder)
  | .text s => .text s
  | .whole n => .whole n
  | .real x => .real x
  | .truth b => .truth b
  | .moment m => .moment m

def orderedItems : List Datum → List Datum
  | [] => []
  | item :: items => item.ordered :: orderedItems items

def orderedEntries : List (String × Datum) → List (String × Datum)
  | [] => []
  | (name, datum) :: rest => (name, datum.ordered) :: orderedEntries rest

end

def valueOf? (entries : List (String × Datum)) (name : String) : Option Datum :=
  (entries.find? fun e => e.1 == name).map Prod.snd

def value? (d : Document) (name : String) : Option Datum :=
  (valueOf? d.root.data name).map Datum.ordered

namespace Datum

def text? : Datum → Option String
  | .text s => some s
  | _ => none

def whole? : Datum → Option Int64
  | .whole n => some n
  | _ => none

def texts? : Datum → Option (List String)
  | .list items => items.mapM text?
  | _ => none

/-- The name under which a moment stands as a text where a table is wanted. -/
def momentName : String := "$__toml_private_datetime"

/-- The entries of a table, each understood. A moment counts as a table with its text as the one
entry. -/
def entries? {α : Type} (understand : Datum → Option α) : Datum → Option (Keyed String α)
  | .moment m => do return Keyed.ofList [(momentName, ← understand (.text m.text))]
  | .table entries => do
    return Keyed.ofList (← entries.mapM fun (name, d) => do return (name, ← understand d))
  | _ => none

end Datum

end Document

open Document in
def tomlLibrary : DocumentLibrary where
  Doc := Document
  Item := Item
  Value := Datum
  parse? := ofString?
  print := text
  supply := supply
  textItem := textItem
  wholeItem := wholeItem
  textsItem := textsItem
  tableItem := tableItem
  values? s := (ofString? s).map value?
  text? := Datum.text?
  whole? := Datum.whole?
  textTable? := Datum.entries? Datum.text?
  textsTable? := Datum.entries? Datum.texts?

def loadSettings (text : String) (writable : Bool) : LoadedSettings :=
  tomlLibrary.loadText text writable

end CommandConsole
