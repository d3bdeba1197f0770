import CommandConsole.Text.Blank

/-!
# Words

A text is split into the words between its blanks, none of which is empty.
-/

namespace CommandConsole.Text

/-- The words of a text, given the letters of a word already begun, last first. -/
def wordsFrom (begun : List Char) : List Char → List (List Char)
  | [] => if begun.isEmpty then [] else [begun.reverse]
  | c :: cs =>
    if isBlank c then
      if begun.isEmpty then wordsFrom [] cs else begun.reverse :: wordsFrom [] cs
    else wordsFrom (c :: begun) cs

def words (s : String) : List String := (wordsFrom [] s.toList).map String.ofList

end CommandConsole.Text
