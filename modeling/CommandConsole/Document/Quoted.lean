import CommandConsole.Document.Take

/-!
# Texts in a document

A text stands between double quotes, where a backslash starts an escape, or between single quotes,
where every character stands for itself. Between three quotes it may go over several lines: the
end of a line right behind the opening quotes is left out, and between three double quotes a
backslash at the end of a line leaves out everything blank that follows. Any other end of a line
belongs to the text as it is written.
-/

namespace CommandConsole.Document

/-! ### Escapes -/

def hexDigit? (c : Char) : Option Nat :=
  if c.isDigit then some (c.toNat - 48)
  else if 'a' ≤ c ∧ c ≤ 'f' then some (c.toNat - 87)
  else if 'A' ≤ c ∧ c ≤ 'F' then some (c.toNat - 55)
  else none

/-- The number that digits stand for in a base, if all are digits of it. -/
def numeral? (base : Nat) (cs : List Char) : Option Nat :=
  cs.foldlM (fun n c => do
    let d ← hexDigit? c
    guard (d < base)
    return n * base + d) 0

/-- The character with a code that is written in hexadecimal; surrogates are none. -/
def scalar? (cs : List Char) : Option Char := do
  let n ← numeral? 16 cs
  guard n.isValidChar
  return Char.ofNat n

def escape? : Char → Option Char
  | 'b' => some '\x08'
  | 't' => some '\t'
  | 'n' => some '\n'
  | 'f' => some '\x0c'
  | 'r' => some '\r'
  | '"' => some '"'
  | '\\' => some '\\'
  | _ => none

def consing (c : Char) : Option (List Char × List Char) → Option (List Char × List Char) :=
  Option.map fun (cs, rest) => (c :: cs, rest)

/-- The character of an escape, given what follows the backslash, and what is left. -/
def escaped? : List Char → Option (Char × List Char)
  | 'u' :: cs => (scalar? (cs.take 4)).bind fun c =>
    if 4 ≤ cs.length then some (c, cs.drop 4) else none
  | 'U' :: cs => (scalar? (cs.take 8)).bind fun c =>
    if 8 ≤ cs.length then some (c, cs.drop 8) else none
  | e :: cs => (escape? e).map (·, cs)
  | [] => none

theorem length_lt_of_escaped? {cs rest : List Char} {c : Char}
    (h : escaped? cs = some (c, rest)) : rest.length < cs.length := by
  unfold escaped? at h
  split at h
  · obtain ⟨d, _, h⟩ := Option.bind_eq_some_iff.1 h
    split at h
    · simp only [Option.some.injEq, Prod.mk.injEq] at h
      rw [← h.2, List.length_drop, List.length_cons]
      omega
    · simp at h
  · obtain ⟨d, _, h⟩ := Option.bind_eq_some_iff.1 h
    split at h
    · simp only [Option.some.injEq, Prod.mk.injEq] at h
      rw [← h.2, List.length_drop, List.length_cons]
      omega
    · simp at h
  · obtain ⟨d, _, h⟩ := Option.map_eq_some_iff.1 h
    simp only [Prod.mk.injEq] at h
    rw [← h.2, List.length_cons]
    omega
  · simp at h

/-! ### On one line -/

/-- The text up to a double quote, and what is left behind the quote. -/
def basic? (cs : List Char) : Option (List Char × List Char) :=
  match cs with
  | [] => none
  | '"' :: rest => some ([], rest)
  | '\\' :: rest =>
    match _h : escaped? rest with
    | none => none
    | some (c, left) => consing c (basic? left)
  | c :: rest => if isPlain c then consing c (basic? rest) else none
termination_by cs.length
decreasing_by
  · exact Nat.lt_succ_of_lt (length_lt_of_escaped? _h)
  · exact Nat.lt_succ_self _

/-- The text up to a single quote, and what is left behind the quote. -/
def literal? : List Char → Option (List Char × List Char)
  | [] => none
  | c :: rest =>
    if c == '\'' then some ([], rest)
    else if isPlain c then consing c (literal? rest)
    else none

/-! ### Over several lines -/

/-- Behind three quotes, up to two quotes more still belong to the text. -/
def closing (quote : Char) : List Char → List Char × List Char
  | a :: b :: rest =>
    if a == quote && b == quote then ([a, b], rest)
    else if a == quote then ([a], b :: rest)
    else ([], a :: b :: rest)
  | [a] => if a == quote then ([a], []) else ([], [a])
  | [] => ([], [])

/-- Whether a text starts with three quotes of a kind. -/
def startsTriple (quote : Char) : List Char → Bool
  | a :: b :: c :: _ => a == quote && b == quote && c == quote
  | _ => false

/-- Whether only spaces stand before the end of the line. -/
def endsLine (cs : List Char) : Bool := startsLineEnd (cs.dropWhile isSpace)

/-- The text without the spaces and ends of lines in front. -/
def dropBlank : List Char → List Char
  | [] => []
  | c :: cs => if isSpace c || startsLineEnd (c :: cs) then dropBlank cs else c :: cs

theorem length_dropBlank_le (cs : List Char) : (dropBlank cs).length ≤ cs.length := by
  induction cs with
  | nil => exact Nat.le_refl _
  | cons c cs ih =>
    unfold dropBlank
    split
    · exact Nat.le_succ_of_le ih
    · exact Nat.le_refl _

/-- The text up to three double quotes, and what is left behind them. -/
def longBasic? (cs : List Char) : Option (List Char × List Char) :=
  match cs with
  | [] => none
  | c :: rest =>
    if startsTriple '"' (c :: rest) then some (closing '"' (rest.drop 2))
    else if c == '\\' then
      if endsLine rest then
        longBasic? (dropBlank rest)
      else
        match _h : escaped? rest with
        | none => none
        | some (d, left) => consing d (longBasic? left)
    else if isPlain c || startsLineEnd (c :: rest) then consing c (longBasic? rest)
    else none
termination_by cs.length
decreasing_by
  · exact Nat.lt_succ_of_le (length_dropBlank_le rest)
  · exact Nat.lt_succ_of_lt (length_lt_of_escaped? _h)
  · exact Nat.lt_succ_self _

/-- The text up to three single quotes, and what is left behind them. -/
def longLiteral? : List Char → Option (List Char × List Char)
  | [] => none
  | c :: rest =>
    if startsTriple '\'' (c :: rest) then some (closing '\'' (rest.drop 2))
    else if isPlain c || startsLineEnd (c :: rest) then consing c (longLiteral? rest)
    else none

/-! ### Taking texts -/

namespace Take

def shortText : Take String
  | '"' :: cs => (basic? cs).map fun (text, rest) => (String.ofList text, rest)
  | '\'' :: cs => (literal? cs).map fun (text, rest) => (String.ofList text, rest)
  | _ => none

def anyText : Take String := fun cs =>
  if startsTriple '"' cs then
    (longBasic? (dropLineEnd (cs.drop 3))).map fun (text, rest) => (String.ofList text, rest)
  else if startsTriple '\'' cs then
    (longLiteral? (dropLineEnd (cs.drop 3))).map fun (text, rest) => (String.ofList text, rest)
  else shortText cs

end Take

end CommandConsole.Document
