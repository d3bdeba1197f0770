import CommandConsole.Number.Bounds
import Mathlib.Algebra.Order.Ring.Abs
import Mathlib.Tactic.Linarith

/-!
# Squares of bounds

Squares of 32 bit numbers fit into 64 bits, so the squares of the ends compare as their absolute
values do: for a square, bounds hold as if their ends had no signs. For the square of a distance
this is what the bounds say of the distance itself as long as no end is negative.
-/

namespace CommandConsole

/-! ### Squares -/

theorem toInt_square (v : Int32) : (Squared.square v).toInt = v.toInt * v.toInt := by
  have hlow : -2 ^ 31 ≤ v.toInt := v.le_toInt
  have hhigh : v.toInt < 2 ^ 31 := v.toInt_lt
  show (v.toInt64 * v.toInt64).toInt = _
  rw [Int64.toInt_mul, Int32.toInt_toInt64, Int.bmod_eq_of_le]
  · have hsquare : 0 ≤ v.toInt * v.toInt := mul_self_nonneg _
    omega
  · have hsquare : v.toInt * v.toInt ≤ 2 ^ 31 * 2 ^ 31 := abs_le_iff_mul_self_le.1 (by
      rw [abs_of_nonneg (show (0 : Int) ≤ 2 ^ 31 by decide)]
      exact abs_le.2 ⟨hlow, hhigh.le⟩)
    omega

/-- Squares compare as the absolute values of their roots. -/
theorem square_le_square_iff (v d : Int32) :
    Squared.le Int32 (Squared.square v) (Squared.square d) = true ↔ |v.toInt| ≤ |d.toInt| := by
  rw [abs_le_iff_mul_self_le, ← toInt_square, ← toInt_square, ← Int64.le_iff_toInt_le]
  exact decide_eq_true_iff

theorem toInt_nonneg_iff {d : Int32} : 0 ≤ d.toInt ↔ 0 ≤ d :=
  (Int32.le_iff_toInt_le (x := 0) (y := d)).symm

theorem toInt_neg_iff {d : Int32} : d.toInt < 0 ↔ d < 0 :=
  (Int32.lt_iff_toInt_lt (x := d) (y := 0)).symm

namespace Bounds

theorem holds_iff (b : Bounds Int32) (d : Int32) :
    b.holds d = true ↔
      (∀ lo ∈ b.min, lo.toInt ≤ d.toInt) ∧ ∀ hi ∈ b.max, d.toInt ≤ hi.toInt := by
  obtain ⟨lo, hi⟩ := b
  cases lo <;> cases hi <;> simp [holds, Quantity.le, Int32.le_iff_toInt_le]

/-- Whether no end is negative. -/
def EndsNonneg (b : Bounds Int32) : Prop := (∀ lo ∈ b.min, 0 ≤ lo) ∧ ∀ hi ∈ b.max, 0 ≤ hi

/-- Whether no distance is within the bounds, nor would be if their ends had no signs: the upper end
is negative, and the lower one is further from zero or further than any distance. -/
def HoldForNone (b : Bounds Int32) : Prop :=
  ∃ lo ∈ b.min, ∃ hi ∈ b.max, hi < 0 ∧ (|hi.toInt| < |lo.toInt| ∨ lo = Int32.minValue)

end Bounds

namespace SquaredBounds

variable {b : SquaredBounds Int32} {d : Int32}

/-- For the square of a distance, bounds hold as if their ends had no signs. -/
theorem holdsSquare_iff (b : SquaredBounds Int32) (hd : 0 ≤ d) :
    b.holdsSquare (d.toInt64 * d.toInt64) = true ↔
      (∀ lo ∈ b.min, |lo.toInt| ≤ d.toInt) ∧ ∀ hi ∈ b.max, d.toInt ≤ |hi.toInt| := by
  have habs : |d.toInt| = d.toInt := abs_of_nonneg (toInt_nonneg_iff.2 hd)
  obtain ⟨⟨lo, hi⟩, minSquare, maxSquare, rfl, rfl⟩ := b
  show SquaredBounds.holdsSquare _ (Squared.square d) = true ↔ _
  cases lo <;> cases hi <;> simp [holdsSquare, square_le_square_iff, habs]

theorem holdsSquare_eq_holds (h : b.EndsNonneg) (hd : 0 ≤ d) :
    b.holdsSquare (d.toInt64 * d.toInt64) = b.holds d := by
  rw [Bool.eq_iff_iff, b.holdsSquare_iff hd, b.holds_iff]
  have hmin : ∀ lo ∈ b.min, |lo.toInt| = lo.toInt := fun lo hlo =>
    abs_of_nonneg (toInt_nonneg_iff.2 (h.1 lo hlo))
  have hmax : ∀ hi ∈ b.max, |hi.toInt| = hi.toInt := fun hi hhi =>
    abs_of_nonneg (toInt_nonneg_iff.2 (h.2 hi hhi))
  constructor
  · rintro ⟨hlow, hhigh⟩
    exact ⟨fun lo hlo => hmin lo hlo ▸ hlow lo hlo, fun hi hhi => hmax hi hhi ▸ hhigh hi hhi⟩
  · rintro ⟨hlow, hhigh⟩
    exact ⟨fun lo hlo => (hmin lo hlo).symm ▸ hlow lo hlo,
      fun hi hhi => (hmax hi hhi).symm ▸ hhigh hi hhi⟩

theorem not_holds_of_neg {hi : Int32} (hmax : hi ∈ b.max) (hneg : hi < 0) (hd : 0 ≤ d) :
    b.holds d = false := by
  rw [Bool.eq_false_iff, ne_eq, b.holds_iff]
  rintro ⟨-, hhigh⟩
  have hle : d.toInt ≤ hi.toInt := hhigh hi hmax
  have hlt : hi.toInt < 0 := toInt_neg_iff.2 hneg
  have hnonneg : 0 ≤ d.toInt := toInt_nonneg_iff.2 hd
  omega

theorem holdsSquare_of_holdForNone (h : b.HoldForNone) (hd : 0 ≤ d) :
    b.holdsSquare (d.toInt64 * d.toInt64) = false := by
  obtain ⟨lo, hlo, hi, hhi, -, hfar⟩ := h
  rw [Bool.eq_false_iff, ne_eq, b.holdsSquare_iff hd]
  rintro ⟨hlow, hhigh⟩
  have habove : |lo.toInt| ≤ d.toInt := hlow lo hlo
  have hbelow : d.toInt ≤ |hi.toInt| := hhigh hi hhi
  rcases hfar with hfar | rfl
  · omega
  · have hmost : d.toInt < 2 ^ 31 := d.toInt_lt
    have hleast : |Int32.minValue.toInt| = 2 ^ 31 := by decide
    omega

/-- The absolute value of a number is a distance, but for the least number. -/
theorem exists_distance {v : Int32} (h : v ≠ Int32.minValue) :
    ∃ d : Int32, 0 ≤ d ∧ d.toInt = |v.toInt| := by
  have hne : v.toInt ≠ -2 ^ 31 := fun heq => h (Int32.toInt_inj.1 heq)
  have hlow : -2 ^ 31 ≤ v.toInt := v.le_toInt
  have hroom : |v.toInt| < 2 ^ 31 := abs_lt.2 ⟨by omega, v.toInt_lt⟩
  have hnonneg : 0 ≤ |v.toInt| := abs_nonneg _
  have hvalue : (Int32.ofInt |v.toInt|).toInt = |v.toInt| :=
    Int32.toInt_ofInt_of_le (by omega) hroom
  exact ⟨Int32.ofInt |v.toInt|, toInt_nonneg_iff.1 (by rwa [hvalue]), hvalue⟩

/-- Where only the lower end is negative, zero is within the bounds and not within the squares. -/
theorem exists_neg_max_of_agree (h : b.holdsSquare ((0 : Int32).toInt64 * (0 : Int32).toInt64) =
      b.holds 0) (hends : ¬b.EndsNonneg) : ∃ hi ∈ b.max, hi < 0 := by
  by_contra hmax
  push Not at hmax
  have hmin : ¬∀ lo ∈ b.min, 0 ≤ lo := fun hmin =>
    hends ⟨hmin, fun hi hhi => Int32.not_lt.1 (hmax hi hhi)⟩
  push Not at hmin
  obtain ⟨lo, hlo, hneg⟩ := hmin
  have hlt : lo.toInt < 0 := toInt_neg_iff.2 (Int32.not_le.1 hneg)
  have hholds : b.holds 0 = true := by
    refine (b.holds_iff 0).2 ⟨fun lo' hlo' => ?_, fun hi hhi => ?_⟩
    · obtain rfl := Option.mem_unique hlo hlo'
      exact hlt.le
    · exact Int32.le_iff_toInt_le.1 (Int32.not_lt.1 (hmax hi hhi))
  rw [hholds, b.holdsSquare_iff (Int32.le_refl 0)] at h
  have hle : |lo.toInt| ≤ 0 := h.1 lo hlo
  have hpos : 0 < |lo.toInt| := abs_pos.2 hlt.ne
  omega

/-- Matching of squares that agrees with matching on all distances, at ends one of which is
negative: then nothing is matched at all. -/
theorem holdForNone_of_agree
    (h : ∀ d : Int32, 0 ≤ d → b.holdsSquare (d.toInt64 * d.toInt64) = b.holds d)
    (hends : ¬b.EndsNonneg) : b.HoldForNone := by
  obtain ⟨hi, hhi, hneg⟩ := exists_neg_max_of_agree (h 0 (Int32.le_refl 0)) hends
  have hnone : ∀ d : Int32, 0 ≤ d → ¬((∀ lo ∈ b.min, |lo.toInt| ≤ d.toInt) ∧
      ∀ hi ∈ b.max, d.toInt ≤ |hi.toInt|) := by
    intro d hd
    rw [← b.holdsSquare_iff hd, h d hd, not_holds_of_neg hhi hneg hd]
    exact Bool.false_ne_true
  have hmax : ∀ d : Int32, d.toInt ≤ |hi.toInt| → ∀ hi' ∈ b.max, d.toInt ≤ |hi'.toInt| := by
    intro d hd hi' hhi'
    rwa [← Option.mem_unique hhi hhi']
  cases hmin : b.min with
  | none => exact absurd ⟨by simp [hmin], hmax 0 (abs_nonneg _)⟩ (hnone 0 (Int32.le_refl 0))
  | some lo =>
    refine ⟨lo, hmin, hi, hhi, hneg, ?_⟩
    by_cases hleast : lo = Int32.minValue
    · exact Or.inr hleast
    · -- the absolute value of the lower end is a distance that the squares would match
      refine Or.inl (lt_of_not_ge fun hle => ?_)
      obtain ⟨d, hd, hvalue⟩ := exists_distance hleast
      refine hnone d hd ⟨fun lo' hlo' => ?_, hmax d (by rwa [hvalue])⟩
      rw [hmin] at hlo'
      obtain rfl := Option.some.inj hlo'
      exact hvalue.ge

/-- No square of an end overflows. For the square of a distance, bounds hold as if their ends had no
signs; this agrees with what holds for the distance itself, for all distances, exactly if no end is
negative or no distance is within the bounds either way. -/
theorem holdsSquare_eq_holds_iff (b : SquaredBounds Int32) :
    (∀ v : Int32, (Squared.square v).toInt = v.toInt * v.toInt) ∧
      (∀ d : Int32, 0 ≤ d → (b.holdsSquare (d.toInt64 * d.toInt64) = true ↔
        (∀ lo ∈ b.min, |lo.toInt| ≤ d.toInt) ∧ ∀ hi ∈ b.max, d.toInt ≤ |hi.toInt|)) ∧
      ((∀ d : Int32, 0 ≤ d → b.holdsSquare (d.toInt64 * d.toInt64) = b.holds d) ↔
        b.EndsNonneg ∨ b.HoldForNone) := by
  refine ⟨toInt_square, fun d hd => b.holdsSquare_iff hd, fun h => ?_, ?_⟩
  · by_cases hends : b.EndsNonneg
    · exact Or.inl hends
    · exact Or.inr (holdForNone_of_agree h hends)
  · rintro (hends | hnone) d hd
    · exact holdsSquare_eq_holds hends hd
    · obtain ⟨-, -, hi, hhi, hneg, -⟩ := id hnone
      rw [holdsSquare_of_holdForNone hnone hd, not_holds_of_neg hhi hneg hd]

theorem holdsSquare_eq_holds_iff_reach :
    let b : SquaredBounds Int32 := .ofBounds (.between 2 4)
    b.EndsNonneg ∧ b.holdsSquare ((3 : Int32).toInt64 * (3 : Int32).toInt64) = b.holds 3 ∧
      (Squared.square Int32.minValue).toInt = Int32.minValue.toInt * Int32.minValue.toInt := by
  intro b
  have hends : b.EndsNonneg := by
    refine ⟨?_, ?_⟩ <;> rintro _ ⟨⟩ <;> decide
  obtain ⟨hsquare, -, hagree⟩ := holdsSquare_eq_holds_iff b
  exact ⟨hends, hagree.2 (Or.inl hends) 3 (by decide), hsquare _⟩

/-- Within -5 and 3 there is the distance 2, but its square is not within the squares. -/
theorem holdsSquare_ne_holds :
    ∃ b : SquaredBounds Int32, SquaredBounds.ofString "-5..3" = .ok b ∧
      b.holds 2 = true ∧ b.holdsSquare ((2 : Int32).toInt64 * (2 : Int32).toInt64) = false :=
  ⟨.ofBounds (.between (-5) 3), by rfl, by decide, by decide⟩

end SquaredBounds

end CommandConsole
