import Mathlib.Algebra.Field.Rat
import Mathlib.Algebra.Order.Field.Basic
import Mathlib.Data.Int.Log
import Mathlib.Data.Rat.Floor
import Mathlib.Tactic.Linarith
import Mathlib.Tactic.Ring

/-!
# Rounding to a binary floating-point format

The numbers of a format are `m * 2 ^ e` with `|m| ≤ 2 ^ precision` and an exponent that is
not below the least one; they are not bounded above. A rational is rounded to the nearest of
them, and to the even one where two are equally near.

* `nearestEven_mono`      — rounding to an integer is monotone;
* `Format.round_number`   — a number of the format is kept;
* `Format.round_mono`     — rounding is monotone;
* `Format.round_round`    — and idempotent;
* `Format.abs_sub_round_le` — it errs by half a unit in the last place;
* `Format.next_le_round_mul` — a factor above 1 leads past the next number.
-/

namespace FloatRounding

-- ---------------------------------------------------------------------------
-- Integers
-- ---------------------------------------------------------------------------

/-- The nearest integer, and the even one of two. -/
def nearestEven (x : ℚ) : ℤ :=
  if Int.fract x < 1 / 2 then ⌊x⌋
  else if 1 / 2 < Int.fract x then ⌊x⌋ + 1
  else if Even ⌊x⌋ then ⌊x⌋
  else ⌊x⌋ + 1

@[simp] theorem nearestEven_intCast (n : ℤ) : nearestEven n = n := by
  rw [nearestEven, Int.fract_intCast, if_pos (by norm_num), Int.floor_intCast]

theorem floor_le_nearestEven (x : ℚ) : ⌊x⌋ ≤ nearestEven x := by
  unfold nearestEven
  split_ifs <;> omega

theorem nearestEven_le_floor (x : ℚ) : nearestEven x ≤ ⌊x⌋ + 1 := by
  unfold nearestEven
  split_ifs <;> omega

theorem abs_sub_nearestEven_le (x : ℚ) : |x - nearestEven x| ≤ 1 / 2 := by
  have hfract := Int.floor_add_fract x
  have hnonneg := Int.fract_nonneg x
  have hlt := Int.fract_lt_one x
  rw [abs_le]
  unfold nearestEven
  split_ifs with h h' h''
  · constructor <;> linarith
  · push_cast
    constructor <;> linarith
  · constructor <;> linarith
  · push_cast
    constructor <;> linarith

/-- **Monotonicity.** -/
theorem nearestEven_mono {x y : ℚ} (h : x ≤ y) : nearestEven x ≤ nearestEven y := by
  rcases (Int.floor_le_floor h).lt_or_eq with hlt | heq
  · exact (nearestEven_le_floor x).trans
      ((Int.add_one_le_of_lt hlt).trans (floor_le_nearestEven y))
  · -- the fractions are in order as well
    have hfract : Int.fract x ≤ Int.fract y := by
      rw [Int.fract, Int.fract, heq]
      linarith
    unfold nearestEven
    rw [heq]
    split_ifs <;> first | omega | linarith

theorem le_nearestEven {n : ℤ} {x : ℚ} (h : (n : ℚ) ≤ x) : n ≤ nearestEven x := by
  simpa using nearestEven_mono h

theorem nearestEven_le {n : ℤ} {x : ℚ} (h : x ≤ n) : nearestEven x ≤ n := by
  simpa using nearestEven_mono h

/-- Half a unit below an even number is rounded to it. -/
theorem le_nearestEven_of_even {n : ℤ} (hn : Even n) {x : ℚ} (h : (n : ℚ) - 1 / 2 ≤ x) :
    n ≤ nearestEven x := by
  rcases le_or_gt (n : ℚ) x with hle | hlt
  · exact le_nearestEven hle
  · have hfloor : ⌊x⌋ = n - 1 := by
      rw [Int.floor_eq_iff]
      push_cast
      constructor <;> linarith
    have hfract : 1 / 2 ≤ Int.fract x := by
      rw [Int.fract, hfloor]
      push_cast
      linarith
    have hodd : ¬ Even ⌊x⌋ := by
      rw [hfloor, Int.even_sub_one]
      exact not_not.mpr hn
    rw [nearestEven, if_neg (not_lt.mpr hfract), hfloor]
    split_ifs with h' h''
    · omega
    · exact absurd (hfloor ▸ h'') hodd
    · omega

-- ---------------------------------------------------------------------------
-- Formats
-- ---------------------------------------------------------------------------

/-- A binary floating-point format, without its largest exponent. -/
structure Format where
  precision : ℕ
  minExponent : ℤ
  precision_pos : 0 < precision

namespace Format

/-- The exponent of the last place of `x`. -/
def exponent (fmt : Format) (x : ℚ) : ℤ :=
  max (Int.log 2 |x| + 1 - fmt.precision) fmt.minExponent

/-- A unit in the last place of `x`. -/
def ulp (fmt : Format) (x : ℚ) : ℚ := 2 ^ fmt.exponent x

/-- `x`, rounded to the nearest number of the format. -/
def round (fmt : Format) (x : ℚ) : ℚ := nearestEven (x / fmt.ulp x) * fmt.ulp x

variable {fmt : Format} {x y : ℚ}

theorem ulp_pos (fmt : Format) (x : ℚ) : 0 < fmt.ulp x := zpow_pos (by norm_num) _

/-- A larger power of two is a multiple of a smaller one. -/
theorem zpow_eq_mul {a b : ℤ} (h : b ≤ a) : (2 : ℚ) ^ a = ((2 ^ (a - b).toNat : ℤ) : ℚ) * 2 ^ b := by
  have hsum : a = ((a - b).toNat : ℤ) + b := by omega
  conv_lhs => rw [hsum, zpow_add₀ (by norm_num), zpow_natCast]
  push_cast
  rfl

/-- A multiple of the unit below `x` is not above its rounding. -/
theorem le_round_of_multiple {k : ℤ} (h : k * fmt.ulp x ≤ x) : k * fmt.ulp x ≤ fmt.round x := by
  have hk : (k : ℚ) ≤ x / fmt.ulp x := (le_div_iff₀ (fmt.ulp_pos x)).mpr h
  have hle : (k : ℚ) ≤ nearestEven (x / fmt.ulp x) := by exact_mod_cast le_nearestEven hk
  exact mul_le_mul_of_nonneg_right hle (fmt.ulp_pos x).le

theorem round_le_of_multiple {k : ℤ} (h : x ≤ k * fmt.ulp x) : fmt.round x ≤ k * fmt.ulp x := by
  have hk : x / fmt.ulp x ≤ k := (div_le_iff₀ (fmt.ulp_pos x)).mpr h
  have hle : (nearestEven (x / fmt.ulp x) : ℚ) ≤ k := by exact_mod_cast nearestEven_le hk
  exact mul_le_mul_of_nonneg_right hle (fmt.ulp_pos x).le

/-- Half a unit below an even multiple is rounded up to it. -/
theorem le_round_of_even {k : ℤ} (hk : Even k) (h : k * fmt.ulp x - fmt.ulp x / 2 ≤ x) :
    k * fmt.ulp x ≤ fmt.round x := by
  have hulp := fmt.ulp_pos x
  have hhalf : (k : ℚ) - 1 / 2 ≤ x / fmt.ulp x := by
    rw [le_div_iff₀ hulp]
    linarith
  have hle : (k : ℚ) ≤ nearestEven (x / fmt.ulp x) := by
    exact_mod_cast le_nearestEven_of_even hk hhalf
  exact mul_le_mul_of_nonneg_right hle hulp.le

theorem round_multiple {k : ℤ} (h : x = k * fmt.ulp x) : fmt.round x = x := by
  have hle := fmt.le_round_of_multiple (k := k) h.symm.le
  have hge := fmt.round_le_of_multiple (k := k) h.le
  rw [← h] at hle hge
  exact le_antisymm hge hle

theorem round_nonneg (fmt : Format) (hx : 0 ≤ x) : 0 ≤ fmt.round x := by
  have h := fmt.le_round_of_multiple (x := x) (k := 0) (by simpa using hx)
  simpa using h

/-- **The error** is half a unit in the last place. -/
theorem abs_sub_round_le (fmt : Format) (x : ℚ) : |x - fmt.round x| ≤ fmt.ulp x / 2 := by
  have hulp := fmt.ulp_pos x
  have hx : x - fmt.round x = (x / fmt.ulp x - nearestEven (x / fmt.ulp x)) * fmt.ulp x := by
    rw [round, sub_mul, div_mul_cancel₀ _ hulp.ne']
  rw [hx, abs_mul, abs_of_pos hulp]
  have herror := abs_sub_nearestEven_le (x / fmt.ulp x)
  calc |x / fmt.ulp x - nearestEven (x / fmt.ulp x)| * fmt.ulp x ≤ 1 / 2 * fmt.ulp x :=
      mul_le_mul_of_nonneg_right herror hulp.le
    _ = fmt.ulp x / 2 := by ring

-- ---------------------------------------------------------------------------
-- The numbers of the format
-- ---------------------------------------------------------------------------

/-- The numbers of the format. -/
def IsNumber (fmt : Format) (x : ℚ) : Prop :=
  ∃ m e : ℤ, x = m * 2 ^ e ∧ |m| ≤ 2 ^ fmt.precision ∧ fmt.minExponent ≤ e

theorem log_lt {x : ℚ} (hx : x ≠ 0) {n : ℤ} : Int.log 2 |x| < n ↔ |x| < 2 ^ n := by
  have h := Int.lt_zpow_iff_log_lt (b := 2) one_lt_two (x := n) (abs_pos.mpr hx)
  rw [Nat.cast_ofNat] at h
  exact h.symm

theorem le_log {x : ℚ} (hx : x ≠ 0) {n : ℤ} : n ≤ Int.log 2 |x| ↔ 2 ^ n ≤ |x| := by
  rw [← not_lt, log_lt hx, not_lt]

/-- The exponent between two powers of two. -/
theorem exponent_eq {L : ℤ} (hlow : 2 ^ L ≤ x) (hhigh : x < 2 ^ (L + 1))
    (hmin : fmt.minExponent ≤ L + 1 - fmt.precision) : fmt.exponent x = L + 1 - fmt.precision := by
  have hpos : 0 < x := (zpow_pos (by norm_num) L).trans_le hlow
  have hlog : Int.log 2 |x| = L := by
    refine le_antisymm (Int.lt_add_one_iff.mp ((log_lt hpos.ne').mpr ?_)) ((le_log hpos.ne').mpr ?_)
    · rwa [abs_of_pos hpos]
    · rwa [abs_of_pos hpos]
  rw [exponent, hlog, max_eq_left hmin]

/-- The last place of a number with fewer digits than the precision is one of its own. -/
theorem exponent_le {m e : ℤ} (hm0 : m ≠ 0) (hm : |m| < 2 ^ fmt.precision)
    (he : fmt.minExponent ≤ e) : fmt.exponent (m * 2 ^ e) ≤ e := by
  have hpow : (0 : ℚ) < 2 ^ e := zpow_pos (by norm_num) e
  have hx : (m : ℚ) * 2 ^ e ≠ 0 := mul_ne_zero (by exact_mod_cast hm0) hpow.ne'
  have hlog : Int.log 2 |(m : ℚ) * 2 ^ e| < fmt.precision + e := by
    rw [log_lt hx, abs_mul, abs_of_pos hpow, zpow_add₀ (by norm_num), zpow_natCast]
    exact mul_lt_mul_of_pos_right (by exact_mod_cast hm) hpow
  rw [exponent]
  omega

theorem round_of_lt {m e : ℤ} (hm : |m| < 2 ^ fmt.precision) (he : fmt.minExponent ≤ e) :
    fmt.round (m * 2 ^ e) = m * 2 ^ e := by
  by_cases hm0 : m = 0
  · subst hm0
    rw [Int.cast_zero, zero_mul, round, zero_div]
    rw [show nearestEven 0 = 0 from nearestEven_intCast 0, Int.cast_zero, zero_mul]
  · refine round_multiple (k := m * 2 ^ (e - fmt.exponent (m * 2 ^ e)).toNat) ?_
    conv_lhs => rw [zpow_eq_mul (exponent_le hm0 hm he)]
    rw [ulp, Int.cast_mul, mul_assoc]

/-- **A number of the format** is kept. -/
theorem round_number (h : fmt.IsNumber x) : fmt.round x = x := by
  obtain ⟨m, e, rfl, hm, he⟩ := h
  rcases hm.lt_or_eq with hlt | heq
  · exact round_of_lt hlt he
  · -- a power of two is a multiple of the next place
    obtain ⟨p, hp⟩ : ∃ p, fmt.precision = p + 1 :=
      ⟨fmt.precision - 1, by have := fmt.precision_pos; omega⟩
    obtain ⟨m', rfl⟩ : ∃ m', m = 2 * m' := by
      rw [← dvd_def, ← dvd_abs, heq, hp, pow_succ]
      exact dvd_mul_left 2 _
    have hm' : |m'| < 2 ^ fmt.precision := by
      rw [abs_mul, hp, pow_succ, show |(2 : ℤ)| = 2 from rfl] at heq
      rw [hp, pow_succ]
      have hpos : (0 : ℤ) < 2 ^ p := by positivity
      omega
    have hx : ((2 * m' : ℤ) : ℚ) * 2 ^ e = m' * 2 ^ (e + 1) := by
      rw [zpow_add₀ (by norm_num), zpow_one]
      push_cast
      ring
    rw [hx]
    exact round_of_lt hm' (he.trans (by omega))

/-- Integers of no more digits than the precision are numbers. -/
theorem isNumber_intCast {n : ℤ} (hn : |n| ≤ 2 ^ fmt.precision) (hmin : fmt.minExponent ≤ 0) :
    fmt.IsNumber n :=
  ⟨n, 0, by simp, hn, hmin⟩

theorem isNumber_zpow {e : ℤ} (he : fmt.minExponent ≤ e) : fmt.IsNumber (2 ^ e) :=
  ⟨1, e, by simp, by simpa using one_le_pow₀ (by norm_num), he⟩

/-- What is rounded is a number of the format. -/
theorem isNumber_round (fmt : Format) (x : ℚ) : fmt.IsNumber (fmt.round x) := by
  refine ⟨nearestEven (x / fmt.ulp x), fmt.exponent x, rfl, ?_, le_max_right _ _⟩
  have hulp := fmt.ulp_pos x
  have hx : |x / fmt.ulp x| ≤ 2 ^ fmt.precision := by
    rw [abs_div, abs_of_pos hulp, div_le_iff₀ hulp]
    by_cases hx0 : x = 0
    · rw [show |x| = 0 by rw [hx0, abs_zero]]
      exact mul_nonneg (by positivity) hulp.le
    · have hlt : |x| < 2 ^ (Int.log 2 |x| + 1) := (log_lt hx0).mp (lt_add_one _)
      refine hlt.le.trans ?_
      rw [ulp, ← zpow_natCast, ← zpow_add₀ (by norm_num)]
      refine zpow_le_zpow_right₀ (by norm_num) ?_
      rw [exponent]
      omega
  rw [abs_le] at hx ⊢
  constructor
  · refine le_nearestEven ?_
    push_cast
    exact hx.1
  · refine nearestEven_le ?_
    push_cast
    exact hx.2

theorem round_round (fmt : Format) (x : ℚ) : fmt.round (fmt.round x) = fmt.round x :=
  round_number (fmt.isNumber_round x)

-- ---------------------------------------------------------------------------
-- Order
-- ---------------------------------------------------------------------------

theorem exponent_mono (fmt : Format) (hx : 0 < x) (h : x ≤ y) :
    fmt.exponent x ≤ fmt.exponent y := by
  have hlog : Int.log 2 |x| ≤ Int.log 2 |y| := by
    rw [abs_of_pos hx, abs_of_pos (hx.trans_le h)]
    exact Int.log_mono_right hx h
  rw [exponent, exponent]
  omega

/-- **Rounding is monotone.** -/
theorem round_mono (fmt : Format) (hx : 0 ≤ x) (h : x ≤ y) : fmt.round x ≤ fmt.round y := by
  rcases hx.eq_or_lt with rfl | hpos
  · refine le_trans (le_of_eq ?_) (fmt.round_nonneg h)
    have hzero : fmt.round (((0 : ℤ) : ℚ) * 2 ^ fmt.minExponent) = _ :=
      round_of_lt (by simp) le_rfl
    simpa using hzero
  · rcases (fmt.exponent_mono hpos h).lt_or_eq with hlt | heq
    · -- a power of two lies between the two
      have hy : 0 < y := hpos.trans_le h
      have hprec := fmt.precision_pos
      have hlogs : Int.log 2 |x| + 1 ≤ Int.log 2 |y| := by
        rw [exponent, exponent] at hlt
        omega
      have hmin : fmt.exponent y = Int.log 2 |y| + 1 - fmt.precision := by
        rw [exponent, exponent] at hlt
        rw [exponent]
        omega
      have hbelow : x ≤ 2 ^ Int.log 2 |y| := by
        have hlt := (log_lt hpos.ne').mp (Int.lt_of_add_one_le hlogs)
        rw [abs_of_pos hpos] at hlt
        exact hlt.le
      have habove : 2 ^ Int.log 2 |y| ≤ y := by
        exact ((le_log hy.ne').mp (le_refl _)).trans_eq (abs_of_pos hy)
      have hgrid : ∀ z, fmt.exponent z ≤ Int.log 2 |y| →
          (2 : ℚ) ^ Int.log 2 |y| = ((2 ^ (Int.log 2 |y| - fmt.exponent z).toNat : ℤ) : ℚ) * fmt.ulp z :=
        fun z hz => zpow_eq_mul hz
      have hxgrid := hgrid x (by omega)
      have hygrid := hgrid y (by omega)
      calc fmt.round x ≤ 2 ^ Int.log 2 |y| := by
            rw [hxgrid]
            exact round_le_of_multiple (hxgrid ▸ hbelow)
        _ ≤ fmt.round y := by
            rw [hygrid]
            exact le_round_of_multiple (hygrid ▸ habove)
    · have hulp : fmt.ulp x = fmt.ulp y := by rw [ulp, ulp, heq]
      have hdiv : x / fmt.ulp y ≤ y / fmt.ulp y := div_le_div_of_nonneg_right h (fmt.ulp_pos y).le
      rw [round, round, hulp]
      refine mul_le_mul_of_nonneg_right ?_ (fmt.ulp_pos y).le
      exact_mod_cast nearestEven_mono hdiv

/-- A number of the format that is not above `x` is not above its rounding. -/
theorem IsNumber.le_round (hx : fmt.IsNumber x) (h0 : 0 ≤ x) (h : x ≤ y) : x ≤ fmt.round y := by
  have hmono := fmt.round_mono h0 h
  rwa [round_number hx] at hmono

/-- A number of the format is a multiple of its last place. -/
theorem IsNumber.multiple (hx : fmt.IsNumber x) : ∃ k : ℤ, x = k * fmt.ulp x :=
  ⟨nearestEven (x / fmt.ulp x), (round_number hx).symm⟩

/-- The least number above 1. -/
theorem IsNumber.one_add_le (hx : fmt.IsNumber x) (h : 1 < x) :
    1 + 2 ^ (1 - fmt.precision : ℤ) ≤ x := by
  obtain ⟨k, hk⟩ := hx.multiple
  have hpos : 0 < x := one_pos.trans h
  have hlog : 0 ≤ Int.log 2 |x| := by
    rw [le_log hpos.ne', zpow_zero, abs_of_pos hpos]
    exact h.le
  have hexp : (1 - fmt.precision : ℤ) ≤ fmt.exponent x := by
    rw [exponent]
    omega
  -- both are multiples of the last place of 1
  have hprec := fmt.precision_pos
  have hone := zpow_eq_mul (show (1 - fmt.precision : ℤ) ≤ 0 by omega)
  rw [zpow_zero] at hone
  have hunit : (0 : ℚ) < 2 ^ (1 - fmt.precision : ℤ) := zpow_pos (by norm_num) _
  rw [ulp, zpow_eq_mul hexp, ← mul_assoc, ← Int.cast_mul] at hk
  rw [hk, hone] at h
  have hlt := Int.add_one_le_of_lt (by exact_mod_cast lt_of_mul_lt_mul_right h hunit.le)
  conv_lhs => rw [hone]
  rw [hk]
  calc _ = ((2 ^ (0 - (1 - fmt.precision : ℤ)).toNat + 1 : ℤ) : ℚ) * 2 ^ (1 - fmt.precision : ℤ) := by
        push_cast
        ring
    _ ≤ _ := mul_le_mul_of_nonneg_right (by exact_mod_cast hlt) hunit.le

/-- **A factor above 1** leads to the next number at least. -/
theorem next_le_round_mul (hx : fmt.IsNumber x) (hpos : 0 < x)
    (hmin : fmt.minExponent ≤ Int.log 2 |x| + 1 - fmt.precision) {ratio : ℚ}
    (hratio : 1 + 2 ^ (1 - fmt.precision : ℤ) ≤ ratio) :
    x + fmt.ulp x ≤ fmt.round (x * ratio) := by
  obtain ⟨k, hk⟩ := hx.multiple
  have hulp := fmt.ulp_pos x
  have hexp : fmt.exponent x = Int.log 2 |x| + 1 - fmt.precision := max_eq_left hmin
  have habs : |x| = x := abs_of_pos hpos
  have hlow : 2 ^ Int.log 2 |x| ≤ x := ((le_log hpos.ne').mp (le_refl _)).trans_eq habs
  have hhigh : k * fmt.ulp x < 2 ^ fmt.precision * fmt.ulp x := by
    have hlt := (log_lt hpos.ne').mp (lt_add_one (Int.log 2 |x|))
    rw [ulp, hexp, ← zpow_natCast, ← zpow_add₀ (by norm_num), add_sub_cancel, ← hexp, ← ulp, ← hk]
    exact habs.symm.trans_lt hlt
  have hk0 : 0 < k := by
    rw [hk] at hpos
    exact_mod_cast pos_of_mul_pos_left hpos hulp.le
  have hkp : k < 2 ^ fmt.precision := by exact_mod_cast lt_of_mul_lt_mul_right hhigh hulp.le
  -- the next multiple has no more digits
  have hnext : fmt.IsNumber (x + fmt.ulp x) := by
    refine ⟨k + 1, fmt.exponent x, ?_, ?_, le_max_right _ _⟩
    · calc x + fmt.ulp x = k * fmt.ulp x + fmt.ulp x := by rw [← hk]
        _ = ((k + 1 : ℤ) : ℚ) * fmt.ulp x := by
          push_cast
          ring
    · rw [abs_of_pos (by omega)]
      omega
  refine hnext.le_round (add_nonneg hpos.le hulp.le) ?_
  have hadd : fmt.ulp x ≤ x * 2 ^ (1 - fmt.precision : ℤ) := by
    rw [ulp, hexp, add_sub_assoc, zpow_add₀ (by norm_num)]
    exact mul_le_mul_of_nonneg_right hlow (zpow_pos (by norm_num) _).le
  calc x + fmt.ulp x ≤ x * (1 + 2 ^ (1 - fmt.precision : ℤ)) := by
        rw [mul_add, mul_one]
        linarith
    _ ≤ x * ratio := mul_le_mul_of_nonneg_left hratio hpos.le

end Format

end FloatRounding
