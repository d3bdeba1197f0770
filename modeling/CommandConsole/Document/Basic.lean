import CommandConsole.Document.Value

/-!
# Documents

A document is a text in TOML, held as the table of everything in it, together with what is written
behind its last line. It is assembled from statements, each of which is a value under a dotted key
or a heading; the values behind a heading belong to the table of the heading.
-/

namespace CommandConsole

/-- A document: the table that holds everything, and what is written behind the last line that
holds something. -/
structure Document where
  root : Document.Table
  trailing : String

namespace Document

inductive Statement where
  | entry (path : List Key) (key : Key) (written : String) (datum : Datum)
  | heading (array : Bool) (path : List Key) (key : Key) (lead trail : String)

/-- A document being assembled: its table, the path to the table that values belong to, and how
many headings there were. -/
structure Assembly where
  root : Table
  path : List Key
  headings : Nat

namespace Assembly

def start : Assembly := ⟨.empty (.headed (some 0) "" ""), [], 0⟩

def add? (a : Assembly) : Statement → Option Assembly
  | .entry path key written datum => do
    let root ← a.root.within? false (·.addValue? path key (.value written datum)) a.path
    return { a with root }
  | .heading array path key lead trail => do
    let place := a.headings + 1
    let heading := Heading.headed (some place) lead trail
    let root ←
      if array then a.root.addElement? path key heading else a.root.addTable? path key heading
    return ⟨root, path ++ [key], place⟩

end Assembly

/-- The document of some statements and what is written behind them. -/
def ofStatements? (statements : List Statement) (trailing : String) : Option Document := do
  let assembly ← statements.foldlM Assembly.add? .start
  return ⟨assembly.root, trailing⟩

end Document

end CommandConsole
