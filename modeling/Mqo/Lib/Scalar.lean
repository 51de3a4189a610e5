import Mathlib.Algebra.Order.Field.Basic
import Mathlib.Analysis.Real.Sqrt
import Mathlib.Data.Rat.Sqrt

/-!
# Floating-point scalars

`Scalar F` lists what a C++ floating-point type offers: arithmetic, `sqrt`,
the infinity of `numeric_limits`, conversion from an integer, and `<`. Apart
from `0 < infinity` and nothing lying above `infinity` no law is assumed, so a
result proved for every `Scalar` holds whatever the rounding is and also where
a comparison involves a NaN.
`Widen F D` is the conversion of a `float` to a `double`, and `FloatOrder F` adds
that `<` is an order.

`Exact R` is exact arithmetic over an ordered field `R`, extended by the two
infinities and an incomparable `nan`, which the root of a negative number
returns. Statements "over exact reals" are statements about `Exact ℝ`; the
lemmas `fin_add`, `sqrt_fin`, … compute on its finite values.
-/

universe u

/-- The operations of a floating-point type. -/
class Scalar (F : Type u) extends Zero F, One F, Add F, Sub F, Mul F, Div F, LT F where
  sqrt : F → F
  infinity : F
  ofInt : ℤ → F
  decLt : DecidableLT F
  zero_lt_infinity : (0 : F) < infinity
  not_infinity_lt : ∀ x : F, ¬ infinity < x

instance Scalar.instDecidableLT {F : Type u} [Scalar F] : DecidableLT F := Scalar.decLt

/-- Conversion to a wider type. -/
class Widen (F D : Type u) where
  widen : F → D

export Widen (widen)

/-- In exact arithmetic `float` and `double` are the same type. -/
instance {F : Type u} : Widen F F := ⟨id⟩

@[simp] theorem widen_self {F : Type u} (x : F) : (widen x : F) = x := rfl

/-- A square root on the non-negative values of `R`. -/
class Root (R : Type u) where
  root : R → R

noncomputable instance : Root ℝ := ⟨Real.sqrt⟩

instance : Root ℚ := ⟨Rat.sqrt⟩

/-- Finite values, the infinities, and not-a-number. -/
inductive Exact (R : Type u) where
  | fin (x : R)
  | posInf
  | negInf
  | nan
deriving DecidableEq

namespace Exact

variable {R : Type u}

/-- The value of a finite number. -/
def value [Zero R] : Exact R → R
  | fin x => x
  | posInf | negInf | nan => 0

/-- Addition; the sum of opposite infinities is not a number. -/
def add [Add R] : Exact R → Exact R → Exact R
  | fin x, fin y => fin (x + y)
  | nan, _ | _, nan => nan
  | posInf, negInf | negInf, posInf => nan
  | posInf, _ | _, posInf => posInf
  | negInf, _ | _, negInf => negInf

def neg [Neg R] : Exact R → Exact R
  | fin x => fin (-x)
  | posInf => negInf
  | negInf => posInf
  | nan => nan

section Ordered

variable [Field R] [LinearOrder R]

/-- An infinity with the sign of `x`, not a number where `x` is zero. -/
def infWithSign (x : R) : Exact R :=
  if x = 0 then nan else if 0 < x then posInf else negInf

def mul : Exact R → Exact R → Exact R
  | fin x, fin y => fin (x * y)
  | nan, _ | _, nan => nan
  | posInf, fin y => infWithSign y
  | fin x, posInf => infWithSign x
  | negInf, fin y => infWithSign (-y)
  | fin x, negInf => infWithSign (-x)
  | posInf, posInf | negInf, negInf => posInf
  | posInf, negInf | negInf, posInf => negInf

def div : Exact R → Exact R → Exact R
  | fin x, fin y => if y = 0 then infWithSign x else fin (x / y)
  | nan, _ | _, nan => nan
  | fin _, posInf | fin _, negInf => fin 0
  | posInf, fin y => if y < 0 then negInf else posInf
  | negInf, fin y => if y < 0 then posInf else negInf
  | posInf, posInf | posInf, negInf | negInf, posInf | negInf, negInf => nan

/-- The root of a negative number is not a number. -/
def sqrt [Root R] : Exact R → Exact R
  | fin x => if x < 0 then nan else fin (Root.root x)
  | posInf => posInf
  | negInf => nan
  | nan => nan

end Ordered

/-- The strict order; `nan` is comparable to nothing. -/
def lt [LT R] : Exact R → Exact R → Prop
  | fin x, fin y => x < y
  | negInf, fin _ | negInf, posInf | fin _, posInf => True
  | _, _ => False

instance [LT R] : LT (Exact R) := ⟨lt⟩

instance [LT R] [DecidableLT R] : DecidableLT (Exact R) := fun a b =>
  match a, b with
  | fin x, fin y => inferInstanceAs (Decidable (x < y))
  | negInf, fin _ | negInf, posInf | fin _, posInf => isTrue trivial
  | posInf, _ | nan, _ | negInf, negInf | negInf, nan | fin _, negInf | fin _, nan =>
    isFalse fun h => by cases h

instance [Preorder R] : IsStrictOrder (Exact R) (· < ·) where
  irrefl a h := by
    cases a with
    | fin x => exact lt_irrefl x h
    | _ => cases h
  trans a b c hab hbc := by
    cases a <;> cases b <;> cases c <;>
      first | trivial | cases hab | cases hbc | exact lt_trans (α := R) hab hbc

/-- The place in a total order that extends `<`. -/
def rank : Exact R → WithBot (WithTop R)
  | fin x => ((x : WithTop R) : WithBot (WithTop R))
  | posInf => ((⊤ : WithTop R) : WithBot (WithTop R))
  | negInf | nan => ⊥

theorem rank_lt [Preorder R] {a b : Exact R} (h : a < b) : rank a < rank b := by
  cases a <;> cases b <;> first | cases h | skip
  · exact WithBot.coe_lt_coe.mpr (WithTop.coe_lt_coe.mpr h)
  · exact WithBot.coe_lt_coe.mpr (WithTop.coe_lt_top _)
  · exact WithBot.bot_lt_coe _
  · exact WithBot.bot_lt_coe _

instance [Field R] [LinearOrder R] [Root R] : Scalar (Exact R) where
  zero := fin 0
  one := fin 1
  add := add
  sub a b := add a (neg b)
  mul := mul
  div := div
  sqrt := sqrt
  infinity := posInf
  ofInt z := fin z
  decLt := inferInstance
  zero_lt_infinity := trivial
  not_infinity_lt x h := by cases x <;> cases h

-- ---------------------------------------------------------------------------
-- Computing on finite values
-- ---------------------------------------------------------------------------

section Finite

variable [Field R] [LinearOrder R] [Root R]

theorem zero_eq : (0 : Exact R) = fin 0 := rfl

@[simp] theorem fin_add (x y : R) : fin x + fin y = fin (x + y) := rfl

@[simp] theorem fin_sub (x y : R) : fin x - fin y = fin (x - y) := by
  show fin (x + -y) = fin (x - y)
  rw [sub_eq_add_neg]

@[simp] theorem fin_mul (x y : R) : fin x * fin y = fin (x * y) := rfl

theorem fin_div {y : R} (hy : y ≠ 0) (x : R) : fin x / fin y = fin (x / y) :=
  if_neg hy

@[simp] theorem ofInt_eq (z : ℤ) : (Scalar.ofInt z : Exact R) = fin (z : R) := rfl

theorem sqrt_fin {x : R} (hx : 0 ≤ x) : Scalar.sqrt (fin x) = fin (Root.root x) :=
  if_neg (not_lt.mpr hx)

theorem sqrt_fin_neg {x : R} (hx : x < 0) : Scalar.sqrt (fin x) = (nan : Exact R) :=
  if_pos hx

@[simp] theorem fin_lt_infinity (x : R) : fin x < Scalar.infinity := trivial

-- ---------------------------------------------------------------------------
-- Computing on what is not a number
-- ---------------------------------------------------------------------------

@[simp] theorem nan_add (x : Exact R) : nan + x = nan := by cases x <;> rfl

@[simp] theorem add_nan (x : Exact R) : x + nan = nan := by cases x <;> rfl

@[simp] theorem sub_nan (x : Exact R) : x - nan = nan := by cases x <;> rfl

@[simp] theorem nan_mul (x : Exact R) : nan * x = nan := by cases x <;> rfl

@[simp] theorem mul_nan (x : Exact R) : x * nan = nan := by cases x <;> rfl

@[simp] theorem sqrt_nan : Scalar.sqrt (nan : Exact R) = nan := rfl

/-- Zero times anything is zero, or not a number. -/
theorem zero_mul_cases (x : Exact R) : fin 0 * x = fin 0 ∨ fin 0 * x = nan := by
  cases x with
  | fin x => exact Or.inl (by rw [fin_mul, zero_mul])
  | posInf => exact Or.inr (if_pos rfl)
  | negInf => exact Or.inr (if_pos neg_zero)
  | nan => exact Or.inr rfl

end Finite

theorem fin_lt [LT R] {x y : R} : fin x < fin y ↔ x < y := Iff.rfl

theorem not_nan_lt [LT R] (x : Exact R) : ¬ nan < x := fun h => by cases h

@[simp] theorem fin_inj {x y : R} : fin x = fin y ↔ x = y := Exact.fin.injEq x y ▸ Iff.rfl

@[simp] theorem root_real (x : ℝ) : Root.root x = Real.sqrt x := rfl

end Exact

-- ---------------------------------------------------------------------------
-- The order
-- ---------------------------------------------------------------------------

/-- A floating-point type whose `<` is an order; some values may compare to nothing. -/
class FloatOrder (F : Type u) extends Scalar F, Preorder F, Neg F

/-- What is above a value is the value itself, or larger. -/
instance {R : Type u} [Field R] [LinearOrder R] [Root R] : FloatOrder (Exact R) where
  toScalar := inferInstance
  neg := Exact.neg
  __ := partialOrderOfSO (α := Exact R) (· < ·)
