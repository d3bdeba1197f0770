/-!
# Byte offsets into a text

Positions in a line count the bytes of its UTF-8 form. Cutting at an offset succeeds exactly when
the offset lies on a character boundary, and the two parts then make up the text.
-/

namespace CommandConsole.Text

def byteLength : List Char → Nat
  | [] => 0
  | c :: cs => c.utf8Size + byteLength cs

@[simp] theorem byteLength_append (a b : List Char) :
    byteLength (a ++ b) = byteLength a + byteLength b := by
  induction a with
  | nil => simp [byteLength]
  | cons c a ih => simp [byteLength, ih, Nat.add_assoc]

@[simp] theorem byteLength_reverse (a : List Char) : byteLength a.reverse = byteLength a := by
  induction a with
  | nil => rfl
  | cons c a ih => simp [byteLength, ih, Nat.add_comm]

/-! ### Cutting at an offset -/

/-- The parts before and after an offset, if it is a character boundary inside the text. -/
def splitAt? : Nat → List Char → Option (List Char × List Char)
  | 0, cs => some ([], cs)
  | _ + 1, [] => none
  | n + 1, c :: cs =>
    if c.utf8Size ≤ n + 1 then
      (splitAt? (n + 1 - c.utf8Size) cs).map fun (a, b) => (c :: a, b)
    else none
termination_by structural _ cs => cs

theorem append_of_splitAt? {n : Nat} {cs a b : List Char} (h : splitAt? n cs = some (a, b)) :
    a ++ b = cs ∧ byteLength a = n := by
  fun_induction splitAt? n cs generalizing a b with
  | case1 cs => simp_all [byteLength]
  | case2 => simp at h
  | case3 n c cs hle ih =>
    obtain ⟨⟨a', b'⟩, hs, hab⟩ := Option.map_eq_some_iff.1 h
    obtain ⟨rfl, rfl⟩ := Prod.mk.inj hab
    obtain ⟨ha, hb⟩ := ih hs
    exact ⟨by simp [ha], by simp [byteLength, hb]; omega⟩
  | case4 => simp at h

/-- The bytes from start to stop as a text, if both are character boundaries in this order. -/
def slice? (start stop : Nat) (cs : List Char) : Option (List Char) :=
  if start ≤ stop then do
    let (upTo, _) ← splitAt? stop cs
    let (_, part) ← splitAt? start upTo
    return part
  else none

/-- The last character boundary that is not after an offset. -/
def boundaryBefore : Nat → List Char → Nat
  | _, [] => 0
  | n, c :: cs => if c.utf8Size ≤ n then c.utf8Size + boundaryBefore (n - c.utf8Size) cs else 0

theorem boundaryBefore_le (n : Nat) (cs : List Char) : boundaryBefore n cs ≤ n := by
  induction cs generalizing n with
  | nil => simp [boundaryBefore]
  | cons c cs ih =>
    unfold boundaryBefore
    split
    · have := ih (n - c.utf8Size); omega
    · omega

theorem splitAt?_boundaryBefore (n : Nat) (cs : List Char) :
    ∃ a b, splitAt? (boundaryBefore n cs) cs = some (a, b) := by
  induction cs generalizing n with
  | nil => exact ⟨[], [], by simp [boundaryBefore, splitAt?]⟩
  | cons c cs ih =>
    unfold boundaryBefore
    split
    · obtain ⟨a, b, h⟩ := ih (n - c.utf8Size)
      obtain ⟨k, hk⟩ : ∃ k, c.utf8Size + boundaryBefore (n - c.utf8Size) cs = k + 1 :=
        ⟨c.utf8Size + boundaryBefore (n - c.utf8Size) cs - 1, by have := c.utf8Size_pos; omega⟩
      refine ⟨c :: a, b, ?_⟩
      rw [hk, splitAt?, if_pos (by omega)]
      rw [show k + 1 - c.utf8Size = boundaryBefore (n - c.utf8Size) cs by omega, h]
      rfl
    · exact ⟨[], c :: cs, by simp [splitAt?]⟩

/-! ### Strings -/

def bytes (s : String) : Nat := byteLength s.toList

def front? (n : Nat) (s : String) : Option String :=
  (splitAt? n s.toList).map fun p => String.ofList p.1

def back? (n : Nat) (s : String) : Option String :=
  (splitAt? n s.toList).map fun p => String.ofList p.2

def between? (start stop : Nat) (s : String) : Option String :=
  (slice? start stop s.toList).map String.ofList

end CommandConsole.Text
