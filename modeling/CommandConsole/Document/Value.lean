import CommandConsole.Document.Table

/-!
# Keys and values in a document

A key is a bare name or a text on one line; keys with points between them form a path. A value is
a text, a bare word, an array, which may go over several lines, or a table in braces on one line.
Each is taken together with how it is written. There is a limit to how deep values nest and to how
many parts a key has.
-/

namespace CommandConsole.Document

def isNamePart (c : Char) : Bool := c.isAlphanum || c == '_' || c == '-'

/-- How deep arrays and tables in braces nest at most, and how many parts a key has at most. -/
def nestingLimit : Nat := 80

namespace Take

/-! ### Keys -/

def name : Take String := do
  match ← peek? with
  | none => failure
  | some c =>
    if c == '"' || c == '\'' then shortText
    else
      let cs ← span isNamePart
      guard (!cs.isEmpty)
      return String.ofList cs

/-- Takes keys with points between them. The steps bound how many there are. -/
def keys : Nat → Take (List Key)
  | 0 => failure
  | steps + 1 => do
    let before ← spaces
    let (written, name) ← withText name
    let after ← spaces
    let key : Key := ⟨name, written, String.ofList before, String.ofList after, "", ""⟩
    if (← peek?) == some '.' then
      char '.'
      return key :: (← keys steps)
    else return [key]

/-- Takes a dotted key: the path to its last part, and that part. The blanks around the whole
belong to the last part. -/
def dottedKey : Take (List Key × Key) := do
  let parts ← keys ((← get).length + 1)
  guard (parts.length ≤ nestingLimit)
  let first ← parts.head?
  let last ← parts.getLast?
  let lead := first.before
  let trail := last.after
  match parts.dropLast with
  | [] => return ([], { last with before := "", after := "", lead, trail })
  | first :: more =>
    return ({ first with before := "" } :: more, { last with after := "", lead, trail })

/-! ### Values -/

mutual

/-- Takes a value with how it is written. The steps bound how long it is, and the room bounds how
deep it nests. -/
def value : Nat → Nat → Take (String × Datum)
  | 0, _ => failure
  | steps + 1, room => do
    match ← peek? with
    | some '[' =>
      guard (0 < room)
      char '['
      let (written, items) ← elements steps (room - 1)
      return ("[" ++ written, .list items)
    | some '\x7b' =>
      guard (0 < room)
      char '\x7b'
      if ((← get).dropWhile isSpace).head? == some '\x7d' then
        let blank := String.ofList (← spaces)
        char '\x7d'
        return ("\x7b" ++ blank ++ "\x7d", .table [])
      else
        let t ← fields steps (room - 1) (.empty (.headed none "" ""))
        return ("\x7b" ++ String.intercalate "," t.values ++ "\x7d", .table t.data)
    | some '"' | some '\'' =>
      let (written, text) ← withText anyText
      return (written, .text text)
    | _ => scalar

def elements : Nat → Nat → Take (String × List Datum)
  | 0, _ => failure
  | steps + 1, room => do
    let before := layout (← gap)
    if (← peek?) == some ']' then
      char ']'
      return (before ++ "]", [])
    else
      let (written, item) ← value steps room
      let after := layout (← gap)
      let front := before ++ written ++ after
      if (← peek?) == some ',' then
        char ','
        let (more, items) ← elements steps room
        return (front ++ "," ++ more, item :: items)
      else
        char ']'
        return (front ++ "]", [item])

def fields : Nat → Nat → Table → Take Table
  | 0, _, _ => failure
  | steps + 1, room, t => do
    let (path, key) ← dottedKey
    char '='
    let before := String.ofList (← spaces)
    let (written, datum) ← value steps room
    let after := String.ofList (← spaces)
    let t ← t.addValue? path key (.value (before ++ written ++ after) datum)
    if (← peek?) == some ',' then
      char ','
      fields steps room t
    else
      char '\x7d'
      return t

end

end Take

end CommandConsole.Document
