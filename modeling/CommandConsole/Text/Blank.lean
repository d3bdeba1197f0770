/-!
# Blank characters

The characters with the Unicode property White_Space separate the tokens of a line. A text is
cut at them in three ways: blanks in front are skipped, blanks at both ends are trimmed, and a
token is what stands before the first blank.
-/

namespace CommandConsole.Text

/-- Whether a character has the property White_Space. -/
def isBlank (c : Char) : Bool :=
  let n := c.toNat
  (9 ≤ n && n ≤ 13) || n == 0x20 || n == 0x85 || n == 0xA0 || n == 0x1680 ||
    (0x2000 ≤ n && n ≤ 0x200A) || n == 0x2028 || n == 0x2029 || n == 0x202F || n == 0x205F ||
    n == 0x3000

/-! ### Cutting -/

def trimFront (cs : List Char) : List Char := cs.dropWhile isBlank

def trimBack (cs : List Char) : List Char := (cs.reverse.dropWhile isBlank).reverse

def trimBoth (cs : List Char) : List Char := trimBack (trimFront cs)

def trim (s : String) : String := String.ofList (trimBoth s.toList)

def token (cs : List Char) : List Char := cs.takeWhile fun c => !isBlank c

theorem token_append_dropWhile (cs : List Char) :
    token cs ++ cs.dropWhile (fun c => !isBlank c) = cs :=
  List.takeWhile_append_dropWhile

theorem not_isBlank_of_mem_token {c : Char} {cs : List Char} (h : c ∈ token cs) :
    isBlank c = false := by
  induction cs with
  | nil => simp [token] at h
  | cons d cs ih =>
    by_cases hd : isBlank d = true
    · simp [token, hd] at h
    · simp only [token, hd, List.takeWhile_cons, Bool.not_false, if_true] at h ih
      rcases List.mem_cons.1 h with rfl | h
      · simpa using hd
      · exact ih h

def endsToken : List Char → Bool
  | [] => true
  | c :: _ => isBlank c

theorem endsToken_append_token (cs : List Char) :
    endsToken (cs.dropWhile fun c => !isBlank c) = true := by
  induction cs with
  | nil => rfl
  | cons c cs ih =>
    by_cases h : isBlank c = true
    · simp [endsToken, h]
    · simpa [h] using ih

theorem token_append {word tail : List Char} (hword : ∀ d ∈ word, isBlank d = false)
    (htail : endsToken tail = true) : token (word ++ tail) = word := by
  unfold token
  rw [List.takeWhile_append_of_pos (by simpa using hword)]
  cases tail with
  | nil => simp
  | cons d tail =>
    have hd : isBlank d = true := htail
    simp [hd]

theorem token_eq_self {word : List Char} (h : ∀ d ∈ word, isBlank d = false) :
    token word = word := by
  have htoken := token_append h (show endsToken [] = true from rfl)
  rwa [List.append_nil] at htoken

end CommandConsole.Text
