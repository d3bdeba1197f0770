import CommandConsole.Decimal.Digits

/-!
# Structured text

Lists and records of numbers and texts are written over several lines, two spaces deeper for every
level. An empty list or record stays on its line.
-/

namespace CommandConsole.Text

inductive JsonData where
  | number (n : Nat)
  | text (s : String)
  | list (items : List JsonData)
  | record (fields : List (String × JsonData))

/-! ### Quoting -/

def hexDigit (d : Nat) : Char := if d < 10 then Char.ofNat (48 + d) else Char.ofNat (87 + d)

/-- A character as it is written between quotes: quotes, backslashes and control characters below
the space are escaped. -/
def quotedChar (c : Char) : List Char :=
  if c == '"' then ['\\', '"']
  else if c == '\\' then ['\\', '\\']
  else if c == '\x08' then ['\\', 'b']
  else if c == '\t' then ['\\', 't']
  else if c == '\n' then ['\\', 'n']
  else if c == '\x0c' then ['\\', 'f']
  else if c == '\r' then ['\\', 'r']
  else if c.toNat < 0x20 then
    ['\\', 'u', '0', '0', hexDigit (c.toNat / 16), hexDigit (c.toNat % 16)]
  else [c]

def quoted (s : String) : String :=
  "\"" ++ String.ofList (s.toList.flatMap quotedChar) ++ "\""

/-! ### Layout -/

def indentation (depth : Nat) : String := String.ofList (List.replicate (2 * depth) ' ')

/-- Parts between brackets, each on a line of its own one level deeper. -/
def bracketed (opening closing : String) (depth : Nat) (parts : List String) : String :=
  if parts.isEmpty then opening ++ closing
  else
    opening ++ "\n" ++
      String.intercalate ",\n" (parts.map (indentation (depth + 1) ++ ·)) ++
      "\n" ++ indentation depth ++ closing

mutual

def JsonData.write (depth : Nat) : JsonData → String
  | .number n => Decimal.ofNat n
  | .text s => quoted s
  | .list items => bracketed "[" "]" depth (writeItems (depth + 1) items)
  | .record fields => bracketed "\x7b" "\x7d" depth (writeFields (depth + 1) fields)

def writeItems (depth : Nat) : List JsonData → List String
  | [] => []
  | item :: rest => item.write depth :: writeItems depth rest

def writeFields (depth : Nat) : List (String × JsonData) → List String
  | [] => []
  | (name, value) :: rest => (quoted name ++ ": " ++ value.write depth) :: writeFields depth rest

end

end CommandConsole.Text
