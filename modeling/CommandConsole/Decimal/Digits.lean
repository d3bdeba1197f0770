/-!
# Decimal digits of whole numbers

A natural number is written with no leading zero, and reading a string of digits gives back the
number it was written from. A whole number is a natural number with a minus sign in front when
it is negative.
-/

namespace CommandConsole.Decimal

/-! ### Single digits -/

def digitChar (d : Nat) : Char := Char.ofNat (48 + d)

def digitValue (c : Char) : Nat := c.toNat - 48

theorem isDigit_digitChar {d : Nat} (h : d < 10) : (digitChar d).isDigit = true := by
  have : d = 0 ∨ d = 1 ∨ d = 2 ∨ d = 3 ∨ d = 4 ∨ d = 5 ∨ d = 6 ∨ d = 7 ∨ d = 8 ∨ d = 9 := by omega
  rcases this with h | h | h | h | h | h | h | h | h | h <;> subst h <;> rfl

@[simp] theorem digitValue_digitChar {d : Nat} (h : d < 10) : digitValue (digitChar d) = d := by
  have : d = 0 ∨ d = 1 ∨ d = 2 ∨ d = 3 ∨ d = 4 ∨ d = 5 ∨ d = 6 ∨ d = 7 ∨ d = 8 ∨ d = 9 := by omega
  rcases this with h | h | h | h | h | h | h | h | h | h <;> subst h <;> rfl

/-! ### Natural numbers -/

def tenTo (n : Nat) : Nat := Nat.pow 10 n

def digits (n : Nat) : List Char :=
  if n < 10 then [digitChar n] else digits (n / 10) ++ [digitChar (n % 10)]

def digitsValue (cs : List Char) : Nat := cs.foldl (fun n c => 10 * n + digitValue c) 0

theorem digitsValue_append_singleton (cs : List Char) (c : Char) :
    digitsValue (cs ++ [c]) = 10 * digitsValue cs + digitValue c := by
  simp [digitsValue]

theorem digitsValue_digits (n : Nat) : digitsValue (digits n) = n := by
  fun_induction digits n with
  | case1 n h => simp [digitsValue, h]
  | case2 n h ih =>
    rw [digitsValue_append_singleton, ih, digitValue_digitChar (Nat.mod_lt _ (by omega))]
    omega

theorem digits_ne_nil (n : Nat) : digits n ≠ [] := by
  unfold digits
  split <;> simp

theorem isDigit_of_mem_digits {n : Nat} {c : Char} (h : c ∈ digits n) : c.isDigit = true := by
  fun_induction digits n with
  | case1 n hn =>
    rw [List.mem_singleton.1 h]
    exact isDigit_digitChar hn
  | case2 n hn ih =>
    rcases List.mem_append.1 h with h | h
    · exact ih h
    · rw [List.mem_singleton.1 h]
      exact isDigit_digitChar (Nat.mod_lt _ (by omega))

/-! ### Whole numbers -/

def signedDigits (i : Int) : List Char :=
  if i < 0 then '-' :: digits i.natAbs else digits i.natAbs

def ofInt (i : Int) : String := String.ofList (signedDigits i)

def ofNat (n : Nat) : String := String.ofList (digits n)

def natural? (cs : List Char) : Option Nat :=
  if !cs.isEmpty && cs.all Char.isDigit then some (digitsValue cs) else none

/-- The whole number written as digits behind an optional minus sign. -/
def whole? : List Char → Option Int
  | '-' :: cs => (natural? cs).map fun n => -(n : Int)
  | cs => (natural? cs).map Int.ofNat

theorem natural?_digits (n : Nat) : natural? (digits n) = some n := by
  have hall : (digits n).all Char.isDigit = true :=
    List.all_eq_true.2 fun c hc => isDigit_of_mem_digits hc
  simp [natural?, hall, digits_ne_nil, digitsValue_digits]

theorem whole?_of_digits {cs : List Char} (h : ∀ r, cs ≠ '-' :: r) :
    whole? cs = (natural? cs).map Int.ofNat := by
  unfold whole?
  split
  · exact absurd rfl (h _)
  · rfl

theorem whole?_signedDigits (i : Int) : whole? (signedDigits i) = some i := by
  unfold signedDigits
  split
  · next h =>
    rw [whole?, natural?_digits]
    have hi : -(i.natAbs : Int) = i := by omega
    exact congrArg some hi
  · next h =>
    rw [whole?_of_digits, natural?_digits]
    · have hi : (i.natAbs : Int) = i := by omega
      exact congrArg some hi
    · intro r hr
      have : ('-').isDigit = true := isDigit_of_mem_digits (by rw [hr]; exact List.mem_cons_self ..)
      exact absurd this (by decide)

end CommandConsole.Decimal
