import Mathlib.Data.Int.Order.Basic
import Mathlib.Tactic.Ring

/-!
# Offsets into an array, computed in 32-bit integers

Row `i` of an array with `dim` columns starts at `dim * i`. Where the product and the sum
with the column are taken in `int`, both wrap at `2 ^ 31`. An array is the function that
gives the value at each offset from its start, before it and behind it as well.

* `columnAt_intMul`   — below `2 ^ 31` a column is read where it lies;
* `RowsFit.columnAt`  — so are all columns of rows that end there;
* `columnAt_wrapped`  — at `2 ^ 31` a column is read before the start of the array;
* `rowsInside_iff`    — which rows are read inside an array of bounded length;
* `toInt_intMul_neg`  — above, a product is negative.
-/

namespace IntOffset

/-- The product of two numbers in `int`. -/
def intMul (a b : ℕ) : Int32 := Int32.ofNat a * Int32.ofNat b

/-- `array[start + pos]`, with the sum in `int`. -/
def columnAt {α : Type} (array : ℤ → α) (start : Int32) (pos : ℕ) : α :=
  array (start + Int32.ofNat pos).toInt

/-- All `n` rows of `dim` columns end at `2 ^ 31` or below. -/
def RowsFit (n dim : ℕ) : Prop := n * dim ≤ 2 ^ 31

/-- The offset lies in an array of the given length. -/
def Inside (length : ℕ) (offset : ℤ) : Prop := 0 ≤ offset ∧ offset < length

instance (length : ℕ) (offset : ℤ) : Decidable (Inside length offset) :=
  inferInstanceAs (Decidable (_ ∧ _))

theorem intMul_eq (a b : ℕ) : intMul a b = Int32.ofNat (a * b) :=
  (Int32.ofNat_mul a b).symm

theorem intMul_comm (a b : ℕ) : intMul a b = intMul b a := by
  rw [intMul_eq, intMul_eq, Nat.mul_comm]

/-- The two operations wrap as one. -/
theorem intMul_add (dim i pos : ℕ) :
    intMul dim i + Int32.ofNat pos = Int32.ofNat (dim * i + pos) := by
  rw [intMul_eq, Int32.ofNat_add]

theorem toInt_intMul {a b : ℕ} (h : a * b < 2 ^ 31) : (intMul a b).toInt = ↑(a * b) := by
  rw [intMul_eq, Int32.toInt_ofNat_of_lt h]

/-- From `2 ^ 31` on an offset wraps. -/
theorem toInt_ofNat_neg {n : ℕ} (h : 2 ^ 31 ≤ n) (h' : n < 2 ^ 32) : (Int32.ofNat n).toInt < 0 := by
  rw [Int32.toInt_ofNat', Int.bmod_def, show Int32.size = 2 ^ 32 from rfl]
  omega

theorem toInt_intMul_neg {a b : ℕ} (h : 2 ^ 31 ≤ a * b) (h' : a * b < 2 ^ 32) :
    (intMul a b).toInt < 0 := by
  rw [intMul_eq]
  exact toInt_ofNat_neg h h'

/-- **A column** is read where it lies. -/
theorem columnAt_intMul {α : Type} (array : ℤ → α) {dim i pos : ℕ} (h : dim * i + pos < 2 ^ 31) :
    columnAt array (intMul dim i) pos = array ↑(dim * i + pos) := by
  rw [columnAt, intMul_add, Int32.toInt_ofNat_of_lt h]

/-- A column of one of the first `n` rows lies before the end of the last one. -/
theorem column_lt {n dim i pos : ℕ} (hi : i < n) (hpos : pos < dim) : dim * i + pos < n * dim :=
  calc dim * i + pos < dim * (i + 1) := by rw [Nat.mul_succ]; omega
    _ ≤ dim * n := Nat.mul_le_mul_left dim hi
    _ = n * dim := Nat.mul_comm dim n

theorem RowsFit.lt {n dim i pos : ℕ} (h : RowsFit n dim) (hi : i < n) (hpos : pos < dim) :
    dim * i + pos < 2 ^ 31 :=
  Nat.lt_of_lt_of_le (column_lt hi hpos) h

/-- **Rows that fit** are read where they lie. -/
theorem RowsFit.columnAt {α : Type} {n dim i pos : ℕ} (h : RowsFit n dim) (array : ℤ → α)
    (hi : i < n) (hpos : pos < dim) :
    columnAt array (intMul dim i) pos = array ↑(dim * i + pos) :=
  columnAt_intMul array (h.lt hi hpos)

theorem RowsFit.start {n dim i : ℕ} (h : RowsFit n dim) (hi : i < n) (hd : 0 < dim) :
    (intMul dim i).toInt = ↑(dim * i) :=
  toInt_intMul (h.lt hi hd)

/-- **Where the rows do not fit**, one of the first `n` holds the offset `2 ^ 31`. -/
theorem row_of_not_fit {n dim : ℕ} (h : ¬ RowsFit n dim) :
    0 < dim ∧ 2 ^ 31 / dim < n ∧ 2 ^ 31 % dim < dim := by
  unfold RowsFit at h
  have hdim : 0 < dim := Nat.pos_of_ne_zero fun h0 => h (by simp [h0])
  exact ⟨hdim, (Nat.div_lt_iff_lt_mul hdim).mpr (not_le.mp h), Nat.mod_lt _ hdim⟩

/-- In that row, the columns from the one with that offset on are read before the start of the
array. -/
theorem columnAt_sign {α : Type} {array : ℤ → α} {dim pos : ℕ} {inside before : α}
    (hinside : ∀ k, 0 ≤ k → array k = inside) (hbefore : ∀ k < 0, array k = before)
    (hint : dim < 2 ^ 31) (hpos : pos < dim) :
    columnAt array (intMul dim (2 ^ 31 / dim)) pos =
      if pos < 2 ^ 31 % dim then inside else before := by
  have hwrapped := Nat.div_add_mod (2 ^ 31) dim
  rw [columnAt, intMul_add]
  split
  · rw [Int32.toInt_ofNat_of_lt (by omega)]
    exact hinside _ (Int.natCast_nonneg _)
  · exact hbefore _ (toInt_ofNat_neg (by omega) (by omega))

/-- That offset is read `2 ^ 31` before the start of the array. -/
theorem columnAt_wrapped {α : Type} (array : ℤ → α) (dim : ℕ) :
    columnAt array (intMul dim (2 ^ 31 / dim)) (2 ^ 31 % dim) = array (-2 ^ 31) := by
  rw [columnAt, intMul_add, Nat.div_add_mod]
  rfl

/-- Offsets that differ by a multiple of `2 ^ 32` are one. -/
theorem toInt_ofNat_inj {a b : ℕ} :
    (Int32.ofNat a).toInt = (Int32.ofNat b).toInt ↔ a % 2 ^ 32 = b % 2 ^ 32 := by
  rw [Int32.toInt_ofNat', Int32.toInt_ofNat', Int.bmod_def, Int.bmod_def,
    show Int32.size = 2 ^ 32 from rfl]
  omega

/-- Only the offsets that wrap to it are read there. -/
theorem toInt_ofNat_ne_min {n : ℕ} (h : n % 2 ^ 32 ≠ 2 ^ 31) : (Int32.ofNat n).toInt ≠ -2 ^ 31 :=
  fun hmin => h (toInt_ofNat_inj.mp
    (hmin.trans (show -2 ^ 31 = (Int32.ofNat (2 ^ 31)).toInt from rfl)))

/-- **Rows inside an array.** All columns of the first rows are read inside the array exactly
if the array holds them and their offsets do not wrap. -/
theorem rowsInside_iff {rows dim length : ℕ} :
    (∀ row < rows, ∀ pos < dim, Inside length (intMul dim row + Int32.ofNat pos).toInt) ↔
      rows * dim ≤ length ∧ rows * dim ≤ 2 ^ 31 := by
  constructor
  · intro h
    by_contra hnot
    -- the first offset that is missing, in the array or in `int`
    obtain ⟨m, hm, hmlen, hmax⟩ : ∃ m, m < rows * dim ∧ m ≤ 2 ^ 31 ∧ (m < 2 ^ 31 → m = length) := by
      rcases Nat.lt_or_ge length (2 ^ 31) with hlt | hge
      · exact ⟨length, by omega, hlt.le, fun _ => rfl⟩
      · exact ⟨2 ^ 31, by omega, le_refl _, fun h => absurd h (lt_irrefl _)⟩
    have hdim : 0 < dim := Nat.pos_of_ne_zero fun h0 => by simp [h0] at hm
    have hin := h (m / dim) ((Nat.div_lt_iff_lt_mul hdim).mpr hm) (m % dim) (Nat.mod_lt _ hdim)
    rw [intMul_add, Nat.div_add_mod] at hin
    rcases Nat.lt_or_ge m (2 ^ 31) with hlt | hge
    · have hlast := hin.2
      rw [Int32.toInt_ofNat_of_lt hlt, hmax hlt] at hlast
      exact lt_irrefl _ hlast
    · obtain rfl : m = 2 ^ 31 := by omega
      exact absurd hin.1 (by decide)
  · rintro ⟨hlen, hfit⟩ row hrow pos hpos
    have hoffset := RowsFit.lt hfit hrow hpos
    have hend := column_lt hrow hpos
    rw [intMul_add, Int32.toInt_ofNat_of_lt hoffset]
    exact ⟨by omega, by omega⟩

end IntOffset
