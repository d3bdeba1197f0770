import CommandConsole.Document.Scalar

/-!
# The tree of a document

A document is a tree of tables whose entries keep the order and the spelling in which they were
written. A table comes about by a heading of its own, by a dotted key in front of a value, or
because a heading further down implies it. Tables that repeat a heading in double brackets form an
array. What has been written once is not written again: a key has one value, a table at most one
heading, and dotted keys do not reach into a table with a heading.
-/

namespace CommandConsole.Document

/-- A part of a dotted key as it is written. The blanks around it depend on whether it stands
within the path or at its end. -/
structure Key where
  /-- What the key means. -/
  name : String
  /-- How the key is written. -/
  written : String
  /-- What stands between a point and the key. -/
  before : String
  /-- What stands between the key and a point. -/
  after : String
  /-- What stands in front of a path that ends with the key. -/
  lead : String
  /-- What stands behind a path that ends with the key. -/
  trail : String
  deriving DecidableEq, Repr

/-- A key written as it is, with a space in front of the equals sign. -/
def Key.plain (name : String) : Key := ⟨name, name, "", "", "", " "⟩

inductive Heading where
  /-- By a heading further down. -/
  | implied
  /-- By a dotted key in front of a value. -/
  | dotted
  /-- By a heading, with its place among all headings, and what stands in front of it and behind
  it on its line. A heading without a place follows the table that it is written after. -/
  | headed (place : Option Nat) (lead trail : String)
  deriving DecidableEq, Repr

mutual

inductive Item where
  /-- A value, with all that is written from behind the equals sign to the end of the line. -/
  | value (written : String) (datum : Datum)
  | table (t : Table)
  | array (ts : List Table)

/-- A table, with its entries in order. -/
inductive Table where
  | mk (heading : Heading) (entries : List (Key × Item))

end

namespace Table

def heading : Table → Heading
  | mk heading _ => heading

def entries : Table → List (Key × Item)
  | mk _ entries => entries

def empty (heading : Heading) : Table := mk heading []

def find? (t : Table) (name : String) : Option Item :=
  (t.entries.find? fun e => e.1.name == name).map Prod.snd

def append (t : Table) (key : Key) (item : Item) : Table :=
  mk t.heading (t.entries ++ [(key, item)])

def replace (t : Table) (name : String) (item : Item) : Table :=
  mk t.heading (t.entries.map fun (key, old) => (key, if key.name == name then item else old))

def erase (t : Table) (name : String) : Table :=
  mk t.heading (t.entries.filter fun e => e.1.name != name)

/-! ### Reaching into a table -/

/-- Changes the table that a path leads to; tables on the way come about as needed. Of an array,
the last table is meant. -/
def within? (dotted : Bool) (change : Table → Option Table) : List Key → Table → Option Table
  | [], t => change t
  | key :: path, t =>
    match t.find? key.name with
    | none => do
      let inner ← within? dotted change path (empty (if dotted then .dotted else .implied))
      return t.append key (.table inner)
    | some (.value ..) => none
    | some (.table inner) =>
      match inner.heading, dotted with
      | .headed .., true => none
      | _, _ => do return t.replace key.name (.table (← within? dotted change path inner))
    | some (.array ts) => do
      let inner ← within? dotted change path (← ts.getLast?)
      return t.replace key.name (.array (ts.dropLast ++ [inner]))

def add? (t : Table) (key : Key) (item : Item) : Option Table :=
  match t.find? key.name with
  | none => some (t.append key item)
  | some _ => none

/-- Adds a value under a dotted key. The table that it ends up in must have come about by the
dots, if there are any. -/
def addValue? (path : List Key) (key : Key) (item : Item) : Table → Option Table :=
  within? true (fun inner =>
    if (inner.heading == .dotted) == !path.isEmpty then inner.add? key item else none) path

/-- Adds a table under a heading. A table that was only implied so far moves to the end. -/
def addTable? (path : List Key) (key : Key) (heading : Heading) : Table → Option Table :=
  within? false (fun outer =>
    match outer.find? key.name with
    | none => some (outer.append key (.table (empty heading)))
    | some (.table (.mk .implied entries)) =>
      some ((outer.erase key.name).append key (.table (.mk heading entries)))
    | some _ => none) path

def addElement? (path : List Key) (key : Key) (heading : Heading) : Table → Option Table :=
  within? false (fun outer =>
    match outer.find? key.name with
    | none => some (outer.append key (.array [empty heading]))
    | some (.array ts) => some (outer.replace key.name (.array (ts ++ [empty heading])))
    | some _ => none) path

end Table

/-! ### What a table means -/

mutual

def Item.datum : Item → Datum
  | .value _ datum => datum
  | .table (.mk _ entries) => .table (entriesData entries)
  | .array ts => .list (tablesData ts)

def entriesData : List (Key × Item) → List (String × Datum)
  | [] => []
  | (key, item) :: rest => (key.name, item.datum) :: entriesData rest

def tablesData : List Table → List Datum
  | [] => []
  | .mk _ entries :: rest => .table (entriesData entries) :: tablesData rest

end

def Table.data (t : Table) : List (String × Datum) := entriesData t.entries

/-! ### How values are written -/

def writePath (path : List Key) (key : Key) : String :=
  match path with
  | [] => key.lead ++ key.written ++ key.trail
  | first :: more =>
    key.lead ++ first.written ++ first.after ++ "." ++
      String.join (more.map fun k => k.before ++ k.written ++ k.after ++ ".") ++
      key.before ++ key.written ++ key.trail

mutual

/-- The values of an item that stand in the same section, as they are written. -/
def Item.values (path : List Key) (key : Key) : Item → List String
  | .value written _ => [writePath path key ++ "=" ++ written]
  | .table (.mk .dotted entries) => entriesValues (path ++ [key]) entries
  | .table (.mk _ _) => []
  | .array _ => []

def entriesValues (path : List Key) : List (Key × Item) → List String
  | [] => []
  | (key, item) :: rest => item.values path key ++ entriesValues path rest

end

def Table.values (t : Table) : List String := entriesValues [] t.entries

end CommandConsole.Document
