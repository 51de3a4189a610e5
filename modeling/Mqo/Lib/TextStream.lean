import Mathlib.Algebra.Group.Int.Defs
import Mathlib.Algebra.Group.Nat.Defs
import Mathlib.Data.List.Basic
import Mathlib.Data.Nat.Basic
import Mathlib.Tactic.Cases

/-!
# Formatted text streams

`out << number` and `in >> number` of the C++ stream library, for decimal
integers over a list of characters. Extraction skips white space, takes an
optional sign and the longest run of digits, and converts them to the target
type; it sets the fail bit, and leaves the target alone, when the stream has
failed already or is at its end.

* `extract_numeral` — extraction of a written numeral;
* `readInt_showInt` — an `int` is read back;
* `readSize_showNat` — a `size_t` is read back.
-/

namespace TextStream

-- ---------------------------------------------------------------------------
-- Writing
-- ---------------------------------------------------------------------------

/-- `out << n` for an unsigned number. -/
def showNat (n : ℕ) : List Char := Nat.toDigits 10 n

/-- `out << z` for a signed number. -/
def showInt (z : ℤ) : List Char :=
  if z < 0 then '-' :: showNat z.natAbs else showNat z.natAbs

-- ---------------------------------------------------------------------------
-- Reading
-- ---------------------------------------------------------------------------

/-- The characters still to be read, and the fail bit. -/
structure IStream where
  rest : List Char
  fail : Bool
deriving DecidableEq

/-- `isspace` of the C locale. -/
def isSpace (c : Char) : Bool := c.toNat = 32 || (9 ≤ c.toNat && c.toNat ≤ 13)

/-- An optional sign: whether it is a minus, and what follows. -/
def scanSign : List Char → Bool × List Char
  | '-' :: s => (true, s)
  | '+' :: s => (false, s)
  | s => (false, s)

/-- `in >> target`, where `convert` gives the value of a signed numeral in the
target type and tells whether it is out of range. -/
def extract (convert : Bool → ℕ → ℤ × Bool) (s : IStream) (target : ℤ) : ℤ × IStream :=
  if s.fail then (target, s)
  else
    match s.rest.dropWhile isSpace with
    | [] => (target, ⟨[], true⟩)
    | text =>
      let signed := scanSign text
      let digits := signed.2.takeWhile Char.isDigit
      let rest := signed.2.dropWhile Char.isDigit
      if digits = [] then (0, ⟨rest, true⟩)
      else
        let value := convert signed.1 (Nat.ofDigitChars 10 digits 0)
        (value.1, ⟨rest, value.2⟩)

/-- Conversion to a 32-bit `int`: a value out of range is clamped. -/
def toInt32 (neg : Bool) (v : ℕ) : ℤ × Bool :=
  let z : ℤ := if neg then -v else v
  if z < -2 ^ 31 then (-2 ^ 31, true)
  else if z ≥ 2 ^ 31 then (2 ^ 31 - 1, true)
  else (z, false)

/-- Conversion to a 64-bit `size_t`: a negative value wraps around. -/
def toSize (neg : Bool) (v : ℕ) : ℤ × Bool :=
  if v ≥ 2 ^ 64 then (2 ^ 64 - 1, true)
  else if neg then ((2 ^ 64 - v) % 2 ^ 64, false)
  else (v, false)

def readInt : IStream → ℤ → ℤ × IStream := extract toInt32

def readSize : IStream → ℤ → ℤ × IStream := extract toSize

-- ---------------------------------------------------------------------------
-- Reading back what was written
-- ---------------------------------------------------------------------------

theorem isDigit_showNat (n : ℕ) : ∀ c ∈ showNat n, c.isDigit = true :=
  fun _ hc => Nat.isDigit_of_mem_toDigits (by decide) (by decide) hc

theorem showNat_ne_nil (n : ℕ) : showNat n ≠ [] := Nat.toDigits_ne_nil

theorem ofDigitChars_showNat (n : ℕ) : Nat.ofDigitChars 10 (showNat n) 0 = n :=
  Nat.ofDigitChars_ten_toDigits

theorem toNat_of_isDigit {c : Char} (h : c.isDigit = true) : 48 ≤ c.toNat ∧ c.toNat ≤ 57 := by
  rw [Char.isDigit, Bool.and_eq_true, decide_eq_true_eq, decide_eq_true_eq] at h
  exact ⟨UInt32.le_iff_toNat_le.mp h.1, UInt32.le_iff_toNat_le.mp h.2⟩

/-- A digit is neither white space nor a sign. -/
theorem scanSign_digit {c : Char} (h : c.isDigit = true) (s : List Char) :
    isSpace c = false ∧ scanSign (c :: s) = (false, c :: s) := by
  have hc := toNat_of_isDigit h
  constructor
  · simp only [isSpace, Bool.or_eq_false_iff, Bool.and_eq_false_iff, decide_eq_false_iff_not]
    omega
  · unfold scanSign
    split
    · next heq => cases heq; exact absurd hc (by decide)
    · next heq => cases heq; exact absurd hc (by decide)
    · rfl

/-- **Extraction of a numeral.** White space, a sign and digits, ended by a
character that is no digit, are consumed and converted. -/
theorem extract_numeral (convert : Bool → ℕ → ℤ × Bool) {sp : List Char}
    (hsp : ∀ c ∈ sp, isSpace c = true) {neg : Bool} {v : ℕ} {text : List Char} {c : Char}
    (hc : c.isDigit = false) (rest : List Char)
    (htext : text = (if neg then ['-'] else []) ++ showNat v) (target : ℤ) :
    extract convert ⟨sp ++ (text ++ c :: rest), false⟩ target =
      ((convert neg v).1, ⟨c :: rest, (convert neg v).2⟩) := by
  obtain ⟨d, ds, hds⟩ := List.exists_cons_of_ne_nil (showNat_ne_nil v)
  have hdigits : ∀ x ∈ d :: ds, x.isDigit = true := hds ▸ isDigit_showNat v
  have hd := hdigits d List.mem_cons_self
  -- the text starts with a sign or a digit, and what follows the sign is the digits
  have hstart : ∃ e es, text ++ c :: rest = e :: es ∧ isSpace e = false ∧
      scanSign (e :: es) = (neg, d :: ds ++ c :: rest) := by
    cases neg with
    | true => exact ⟨'-', d :: ds ++ c :: rest, by simp [htext, hds], by decide, rfl⟩
    | false =>
      have hdigit := scanSign_digit hd (ds ++ c :: rest)
      exact ⟨d, ds ++ c :: rest, by simp [htext, hds], hdigit.1, hdigit.2⟩
  obtain ⟨e, es, htxt, he, hsign⟩ := hstart
  have hdrop : (sp ++ (text ++ c :: rest)).dropWhile isSpace = e :: es := by
    rw [htxt, List.dropWhile_append_of_pos hsp, List.dropWhile_cons_of_neg (by simp [he])]
  have htake : (d :: ds ++ c :: rest).takeWhile Char.isDigit = showNat v := by
    rw [List.takeWhile_append_of_pos hdigits, List.takeWhile_cons_of_neg (by simp [hc]),
      List.append_nil, hds]
  have hrest : (d :: ds ++ c :: rest).dropWhile Char.isDigit = c :: rest := by
    rw [List.dropWhile_append_of_pos hdigits, List.dropWhile_cons_of_neg (by simp [hc])]
  unfold extract
  simp only [Bool.false_eq_true, if_false, hdrop, hsign, htake, hrest, if_neg (showNat_ne_nil v),
    ofDigitChars_showNat]

/-- An `int` that was written is read back. -/
theorem readInt_showInt {z : ℤ} (hlo : -2 ^ 31 ≤ z) (hhi : z < 2 ^ 31) {sp : List Char}
    (hsp : ∀ c ∈ sp, isSpace c = true) {c : Char} (hc : c.isDigit = false) (rest : List Char)
    (target : ℤ) :
    readInt ⟨sp ++ (showInt z ++ c :: rest), false⟩ target = (z, ⟨c :: rest, false⟩) := by
  have htext : showInt z = (if decide (z < 0) then ['-'] else []) ++ showNat z.natAbs := by
    unfold showInt
    split <;> simp [*]
  have hvalue : toInt32 (decide (z < 0)) z.natAbs = (z, false) := by
    have habs : (if decide (z < 0) = true then -(z.natAbs : ℤ) else (z.natAbs : ℤ)) = z := by
      by_cases hz : z < 0
      · rw [if_pos (by simpa using hz)]
        omega
      · rw [if_neg (by simpa using hz)]
        omega
    unfold toInt32
    simp only [habs]
    rw [if_neg (by omega), if_neg (by omega)]
  rw [readInt, extract_numeral toInt32 hsp hc rest htext target, hvalue]

/-- A `size_t` that was written is read back. -/
theorem readSize_showNat {n : ℕ} (hn : n < 2 ^ 64) {c : Char} (hc : c.isDigit = false)
    (rest : List Char) (target : ℤ) :
    readSize ⟨showNat n ++ c :: rest, false⟩ target = ((n : ℤ), ⟨c :: rest, false⟩) := by
  have hvalue : toSize false n = ((n : ℤ), false) := by
    unfold toSize
    rw [if_neg (by omega)]
    rfl
  have := extract_numeral toSize (show ∀ x ∈ ([] : List Char), isSpace x = true by simp) hc rest
    (show showNat n = (if false then ['-'] else []) ++ showNat n by simp) target
  rw [hvalue] at this
  exact this

end TextStream
