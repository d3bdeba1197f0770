import CommandConsole.Text.Json
import CommandConsole.Views.Declaration

/-!
# The exported tree as text

Every entry of the exported tree is written as a record. Its flags and children are always there;
options, the redirect, the name and the type of an argument only where there are any.
-/

namespace CommandConsole

open Text

def placesData (places : List Nat) : JsonData := .list (places.map .number)

def Entry.data (e : Entry) : JsonData :=
  .record
    ([("flags", .number e.flags), ("children", placesData e.children)] ++
      (if e.options.isEmpty then [] else [("options", placesData e.options)]) ++
      (e.redirect.map fun target => ("redirect", JsonData.number target)).toList ++
      (e.name.map fun name => ("name", JsonData.text name)).toList ++
      (e.parser.map fun type => ("parser", JsonData.text type)).toList)

def exportText (entries : List Entry) : String := (JsonData.list (entries.map Entry.data)).write 0

end CommandConsole
