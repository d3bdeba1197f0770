import CommandConsole.Document.Basic

/-!
# Reading documents

Reading a document keeps all that is written, so that writing gives the text back, but for three
things: a byte order mark and the carriage returns outside texts are left out, a last line is given
its end, and values under dotted keys that share a path are brought together.
-/

namespace CommandConsole.Document

namespace Take

/-- Takes a value under a key, given what stands in front of it. -/
def entry (lead : String) : Take Statement := do
  let (path, key) ← dottedKey
  char '='
  let before := String.ofList (← spaces)
  let (written, datum) ← value ((← get).length + 1) nestingLimit
  let after := String.ofList (← lineEnd)
  return .entry path { key with lead := lead ++ key.lead } (before ++ written ++ after) datum

/-- Takes a heading behind its first bracket, given what stands in front of it. -/
def heading (lead : String) : Take Statement := do
  let array := (← peek?) == some '['
  if array then char '['
  let (path, key) ← dottedKey
  char ']'
  if array then char ']'
  return .heading array path key lead (String.ofList (← lineEnd))

/-- Takes statements up to the end of a text, and what stands behind them. The steps bound how
many there are. -/
def statements : Nat → Take (List Statement × String)
  | 0 => failure
  | steps + 1 => do
    let lead := layout (← gap)
    match ← peek? with
    | none => return ([], lead)
    | some c =>
      let statement ← if c == '[' then char '[' *> heading lead else entry lead
      let (more, trailing) ← statements steps
      return (statement :: more, trailing)

end Take

def withoutMark : List Char → List Char
  | '\uFEFF' :: cs => cs
  | cs => cs

def ofString? (text : String) : Option Document := do
  let cs := withoutMark text.toList
  let ((statements, trailing), _) ← (Take.statements (cs.length + 1)).run cs
  ofStatements? statements trailing

end CommandConsole.Document
