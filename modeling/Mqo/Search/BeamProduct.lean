import Mathlib.Tactic.NormNum
import Mqo.Lib.FloatRounding

/-!
# MQO — the next beam size

`beamsize *= increment_ratio` in `run_vamana.cpp` and `run_nsg.cpp`: the beam size is an `int`
and the ratio a `float`. Both the beam size and the product are rounded to `float`, and the
product is truncated to an `int` again.

* `nextBeam_eq`          — what the truncation leaves of the product;
* `floatProduct_large`   — a large beam size grows by any ratio above 1;
* `floatProduct_small_iff` — what the ratio has to add to a smaller one;
* `floatProduct_grows`   — so that a ratio that increases a beam size increases all larger ones.
-/

namespace Mqo.Search

open FloatRounding

/-- `float`; what is too large for it is kept here, and no `int` holds it either. -/
def binary32 : Format := ⟨24, -149, by decide⟩

/-- Conversion of a floating-point number to an integer, towards zero. -/
def truncate (x : ℚ) : ℤ := if 0 ≤ x then ⌊x⌋ else ⌈x⌉

/-- `beamsize * increment_ratio`, computed in `float`. -/
def floatProduct (increment_ratio : ℚ) (beamsize : ℤ) : ℚ :=
  binary32.round (binary32.round beamsize * increment_ratio)

/-- `beamsize *= increment_ratio`, where the result is an `int` if one holds it. -/
def nextBeam (increment_ratio : ℚ) (beamsize : ℤ) : Option ℤ :=
  let product := truncate (floatProduct increment_ratio beamsize)
  if -2 ^ 31 ≤ product ∧ product < 2 ^ 31 then some product else none

section Product

variable {ratio : ℚ} {b : ℤ}

theorem round_int (h0 : 0 ≤ b) (hb : b ≤ 2 ^ 24) : binary32.round b = b :=
  Format.round_number (Format.isNumber_intCast (by rw [abs_of_nonneg h0]; exact hb) (by decide))

theorem round_beam_nonneg (hb : 0 ≤ b) : 0 ≤ binary32.round b :=
  binary32.round_nonneg (by exact_mod_cast hb)

theorem floatProduct_mono (hratio : 0 ≤ ratio) (h0 : 0 ≤ b) {b' : ℤ} (h : b ≤ b') :
    floatProduct ratio b ≤ floatProduct ratio b' :=
  binary32.round_mono (mul_nonneg (round_beam_nonneg h0) hratio)
    (mul_le_mul_of_nonneg_right
      (binary32.round_mono (by exact_mod_cast h0) (by exact_mod_cast h)) hratio)

/-- The leading digit of a beam size. -/
theorem exists_leading (hb : 1 ≤ b) : ∃ L : ℤ, L = Int.log 2 |(b : ℚ)| ∧ 0 ≤ L ∧
    (2 : ℚ) ^ L ≤ b ∧ (b : ℚ) + 1 ≤ 2 ^ (L + 1) := by
  have hpos : (0 : ℚ) < b := by exact_mod_cast hb
  have habs : |(b : ℚ)| = b := abs_of_pos hpos
  have hL : 0 ≤ Int.log 2 |(b : ℚ)| := by
    rw [Format.le_log hpos.ne', zpow_zero, habs]
    exact_mod_cast hb
  refine ⟨_, rfl, hL, ((Format.le_log hpos.ne').mp le_rfl).trans_eq habs, ?_⟩
  have hlt := habs.symm.trans_lt ((Format.log_lt hpos.ne').mp (lt_add_one (Int.log 2 |(b : ℚ)|)))
  rw [Format.zpow_eq_mul (show 0 ≤ Int.log 2 |(b : ℚ)| + 1 by omega), zpow_zero, mul_one] at hlt ⊢
  exact_mod_cast Int.add_one_le_of_lt (by exact_mod_cast hlt)

/-- From `2 ^ 23` on, the last place is an integer. -/
theorem exists_ulp_eq (hb : 2 ^ 23 ≤ b) : ∃ u : ℤ, binary32.ulp (binary32.round b) = u := by
  have hround : (2 : ℚ) ^ (23 : ℤ) ≤ binary32.round b :=
    (Format.isNumber_zpow (by decide)).le_round (by norm_num) (by exact_mod_cast hb)
  have hexp := binary32.exponent_mono (by norm_num) hround
  rw [Format.exponent_eq (L := 23) le_rfl (zpow_lt_zpow_right₀ (by norm_num) (by norm_num))
    (by decide)] at hexp
  have hunit := Format.zpow_eq_mul (b := 0) hexp
  rw [zpow_zero, mul_one] at hunit
  exact ⟨_, hunit⟩

theorem exists_round_eq (hb : 2 ^ 23 ≤ b) : ∃ n : ℤ, binary32.round b = n := by
  obtain ⟨u, hu⟩ := exists_ulp_eq hb
  obtain ⟨k, hk⟩ := (binary32.isNumber_round b).multiple
  exact ⟨k * u, by rw [Int.cast_mul, ← hu]; exact hk⟩

/-- From `2 ^ 23` on, any ratio above 1 adds something. -/
theorem floatProduct_large (hratio : 1 + 2 ^ (1 - binary32.precision : ℤ) ≤ ratio)
    (hb : 2 ^ 23 ≤ b) : (b : ℚ) + 1 ≤ floatProduct ratio b := by
  obtain ⟨L, hlog, hL0, hlow, hhigh⟩ := exists_leading (show 1 ≤ b by omega)
  have hpow : (0 : ℚ) < 2 ^ L := zpow_pos (by norm_num) L
  have hL : 23 ≤ L := by
    rw [hlog, Format.le_log (hpow.trans_le hlow).ne', abs_of_pos (hpow.trans_le hlow)]
    exact_mod_cast hb
  have hnumber := binary32.isNumber_round b
  have hround : (2 : ℚ) ^ L ≤ binary32.round b :=
    (Format.isNumber_zpow (show (-149 : ℤ) ≤ L by omega)).le_round hpow.le hlow
  have hexp : binary32.exponent b = L + 1 - 24 :=
    Format.exponent_eq hlow ((lt_add_one _).trans_le hhigh) (show (-149 : ℤ) ≤ L + 1 - 24 by omega)
  have hexp' : L + 1 - 24 ≤ binary32.exponent (binary32.round b) := by
    have hmono := binary32.exponent_mono hpow hround
    rwa [Format.exponent_eq le_rfl (zpow_lt_zpow_right₀ (by norm_num) (lt_add_one L))
      (show (-149 : ℤ) ≤ L + 1 - 24 by omega)] at hmono
  -- the next number after the rounded beam size is an integer above the beam size
  have hlt : (b : ℚ) < binary32.round b + binary32.ulp (binary32.round b) := by
    have herror := (abs_le.mp (binary32.abs_sub_round_le b)).2
    have hunit := binary32.ulp_pos b
    have hulp : binary32.ulp b ≤ binary32.ulp (binary32.round b) := by
      rw [Format.ulp, Format.ulp, hexp]
      exact zpow_le_zpow_right₀ (by norm_num) hexp'
    linarith
  obtain ⟨n, hn⟩ : ∃ n : ℤ, binary32.round b + binary32.ulp (binary32.round b) = n := by
    obtain ⟨u, hu⟩ := exists_ulp_eq hb
    obtain ⟨n, hn⟩ := exists_round_eq hb
    exact ⟨n + u, by rw [hu, hn, Int.cast_add]⟩
  have hlog' : L ≤ Int.log 2 |binary32.round b| := by
    rw [Format.le_log (hpow.trans_le hround).ne', abs_of_pos (hpow.trans_le hround)]
    exact hround
  have hnext := Format.next_le_round_mul hnumber (hpow.trans_le hround)
    (show (-149 : ℤ) ≤ Int.log 2 |binary32.round b| + 1 - 24 by omega) hratio
  rw [hn] at hlt hnext
  refine le_trans ?_ hnext
  exact_mod_cast Int.add_one_le_of_lt (by exact_mod_cast hlt)

/-- Below, what the ratio has to add depends on the last place of the product. -/
theorem floatProduct_small_iff (hratio : 1 ≤ ratio) (hb : 1 ≤ b) (hsmall : b < 2 ^ 23) :
    (b : ℚ) + 1 ≤ floatProduct ratio b ↔
      1 - 2 ^ (Int.log 2 |(b : ℚ)| - 24) ≤ (b : ℚ) * (ratio - 1) := by
  obtain ⟨L, hlog, hL0, hlow, hhigh⟩ := exists_leading hb
  have hpos : (0 : ℚ) < b := by exact_mod_cast hb
  have hL : L < 23 := by
    rw [hlog, Format.log_lt hpos.ne', abs_of_pos hpos]
    exact_mod_cast hsmall
  have hmul : (b : ℚ) ≤ b * ratio := le_mul_of_one_le_right hpos.le hratio
  have hadd : (b : ℚ) * (ratio - 1) = b * ratio - b := by ring
  have hhalf : (0 : ℚ) < 2 ^ (L - 24) := zpow_pos (by norm_num) _
  rw [floatProduct, round_int (by omega) (by omega), ← hlog, hadd]
  by_cases hge : (b : ℚ) + 1 ≤ b * ratio
  · have hnumber : binary32.IsNumber ((b + 1 : ℤ) : ℚ) :=
      Format.isNumber_intCast (by rw [abs_of_pos (by omega)]; show b + 1 ≤ 2 ^ 24; omega) (by decide)
    refine ⟨fun _ => by linarith, fun _ => ?_⟩
    have hle := hnumber.le_round (y := b * ratio) (by exact_mod_cast (by omega : (0 : ℤ) ≤ b + 1))
      (by exact_mod_cast hge)
    exact_mod_cast hle
  · have hexp : binary32.exponent (b * ratio) = L + 1 - 24 :=
      Format.exponent_eq (hlow.trans hmul) ((not_le.mp hge).trans_le hhigh)
        (show (-149 : ℤ) ≤ L + 1 - 24 by omega)
    have hulp : binary32.ulp (b * ratio) = 2 ^ (L - 24) * 2 := by
      rw [Format.ulp, hexp, show L + 1 - 24 = L - 24 + 1 by ring, zpow_add₀ (by norm_num), zpow_one]
    constructor
    · intro hround
      have herror := (abs_le.mp (binary32.abs_sub_round_le (b * ratio))).1
      rw [hulp] at herror
      linarith
    · intro hclose
      -- the next beam size is an even multiple of the last place
      have hunit := Format.zpow_eq_mul (show L + 1 - 24 ≤ 0 by omega)
      rw [zpow_zero, ← hexp, ← Format.ulp] at hunit
      have hnext : ((b + 1) * 2 ^ (0 - binary32.exponent (b * ratio)).toNat : ℤ) *
          binary32.ulp (b * ratio) = (b : ℚ) + 1 := by
        rw [Int.cast_mul, mul_assoc, ← hunit]
        push_cast
        ring
      rw [← hnext]
      refine Format.le_round_of_even ?_ ?_
      · refine Even.mul_left (Int.even_pow.mpr ⟨even_two, ?_⟩) _
        rw [hexp]
        omega
      · rw [hnext, hulp]
        linarith

/-- **The truncated product.** -/
theorem nextBeam_eq (hratio : 0 ≤ ratio) (hb : 0 ≤ b) :
    nextBeam ratio b =
      if floatProduct ratio b < 2 ^ 31 then some ⌊floatProduct ratio b⌋ else none := by
  have hpos : 0 ≤ floatProduct ratio b :=
    binary32.round_nonneg (mul_nonneg (round_beam_nonneg hb) hratio)
  have hfloor := Int.floor_nonneg.mpr hpos
  have hfits : (-2 ^ 31 ≤ ⌊floatProduct ratio b⌋ ∧ ⌊floatProduct ratio b⌋ < 2 ^ 31) ↔
      floatProduct ratio b < 2 ^ 31 := by
    rw [Int.floor_lt]
    norm_cast
    exact ⟨fun h => h.2, fun h => ⟨by omega, h⟩⟩
  unfold nextBeam truncate
  rw [if_pos hpos]
  exact if_congr hfits rfl rfl

/-- **Growth.** A ratio above 1 that increases a beam size increases all larger ones: below
`2 ^ 23` it has to add the less the larger the beam size is, and adds the more. -/
theorem floatProduct_grows (hnumber : binary32.IsNumber ratio) (hratio : 1 < ratio) {lo : ℤ}
    (hlo : 1 ≤ lo) (hle : lo ≤ b) (h : (lo : ℚ) + 1 ≤ floatProduct ratio lo) :
    (b : ℚ) + 1 ≤ floatProduct ratio b := by
  rcases le_or_gt (2 ^ 23) b with hlarge | hsmall
  · exact floatProduct_large (hnumber.one_add_le hratio) hlarge
  · have hlo' : (0 : ℚ) < lo := by exact_mod_cast hlo
    have hle' : (lo : ℚ) ≤ b := by exact_mod_cast hle
    rw [floatProduct_small_iff hratio.le hlo (by omega)] at h
    rw [floatProduct_small_iff hratio.le (by omega) hsmall]
    have hlog : Int.log 2 |(lo : ℚ)| ≤ Int.log 2 |(b : ℚ)| := by
      rw [abs_of_pos hlo', abs_of_pos (hlo'.trans_le hle')]
      exact Int.log_mono_right hlo' hle'
    have hplace : (2 : ℚ) ^ (Int.log 2 |(lo : ℚ)| - 24) ≤ 2 ^ (Int.log 2 |(b : ℚ)| - 24) :=
      zpow_le_zpow_right₀ (by norm_num) (by omega)
    calc (1 : ℚ) - 2 ^ (Int.log 2 |(b : ℚ)| - 24) ≤ 1 - 2 ^ (Int.log 2 |(lo : ℚ)| - 24) :=
          sub_le_sub_left hplace 1
      _ ≤ lo * (ratio - 1) := h
      _ ≤ b * (ratio - 1) := mul_le_mul_of_nonneg_right hle' (by linarith)

/-- Where the ratio is 1, the beam size is only rounded. -/
theorem floatProduct_one (b : ℤ) : floatProduct 1 b = binary32.round b := by
  rw [floatProduct, mul_one, binary32.round_round]

end Product

end Mqo.Search
