import Mathlib.Data.List.Basic
import Mathlib.Data.Nat.Basic
import Mathlib.Tactic.Ring

/-!
# Unformatted byte streams

`read(target, count)` of the C++ stream library over a list of bytes, and the
little-endian layout of the integers that are read in this way. A read that
asks for more bytes than are left, and every read after it, fails.

* `ofBytes_toBytes` — the bytes of a number give the number back;
* `read_append`     — a read that finds all its bytes;
* `read_truncated`  — a read from a stream whose end is cut off fails, or the cut is
  behind what it has read.
-/

namespace ByteStream

-- ---------------------------------------------------------------------------
-- Layout
-- ---------------------------------------------------------------------------

/-- The number with the given bytes, the least significant one first. -/
def ofBytes : List UInt8 → ℕ
  | [] => 0
  | b :: bytes => b.toNat + 256 * ofBytes bytes

/-- The `w` low bytes of a number. -/
def toBytes : ℕ → ℕ → List UInt8
  | 0, _ => []
  | w + 1, v => UInt8.ofNat (v % 256) :: toBytes w (v / 256)

@[simp] theorem length_toBytes (w v : ℕ) : (toBytes w v).length = w := by
  induction w generalizing v with
  | zero => rfl
  | succ w ih => rw [toBytes, List.length_cons, ih]

theorem ofBytes_toBytes {w v : ℕ} (h : v < 256 ^ w) : ofBytes (toBytes w v) = v := by
  induction w generalizing v with
  | zero =>
    rw [pow_zero, Nat.lt_one_iff] at h
    rw [h]
    rfl
  | succ w ih =>
    have hlow : (UInt8.ofNat (v % 256)).toNat = v % 256 := by
      rw [UInt8.toNat_ofNat']
      exact Nat.mod_eq_of_lt (Nat.mod_lt v (by decide))
    have hhigh : v / 256 < 256 ^ w := by
      rw [Nat.div_lt_iff_lt_mul (by decide), ← pow_succ]
      exact h
    rw [toBytes, ofBytes, ih hhigh, hlow]
    omega

theorem ofBytes_lt (bytes : List UInt8) : ofBytes bytes < 256 ^ bytes.length := by
  induction bytes with
  | nil => exact Nat.one_pos
  | cons b bytes ih =>
    have hb : b.toNat < 256 := b.toNat_lt
    rw [ofBytes, List.length_cons, pow_succ]
    omega

/-- Numbers of one width are told apart by their bytes. -/
theorem ofBytes_inj {a b : List UInt8} (hlen : a.length = b.length) (h : ofBytes a = ofBytes b) :
    a = b := by
  induction a generalizing b with
  | nil => exact (List.length_eq_zero_iff.mp hlen.symm).symm
  | cons x a ih =>
    cases b with
    | nil => cases hlen
    | cons y b =>
      have hx : x.toNat < 256 := x.toNat_lt
      have hy : y.toNat < 256 := y.toNat_lt
      rw [ofBytes, ofBytes] at h
      have hxy : x = y := UInt8.toNat_inj.mp (by omega)
      rw [hxy, ih (Nat.succ.inj hlen) (by omega)]

/-- The bytes of the number that has been read from them. -/
theorem toBytes_ofBytes (bytes : List UInt8) : toBytes bytes.length (ofBytes bytes) = bytes :=
  ofBytes_inj (length_toBytes _ _) (ofBytes_toBytes (ofBytes_lt bytes))

/-- The bytes of an `int`. -/
def int32Bytes (z : Int32) : List UInt8 := toBytes 4 z.toUInt32.toNat

/-- The `int` with the given bytes. -/
def ofInt32Bytes (bytes : List UInt8) : Int32 := (UInt32.ofNat (ofBytes bytes)).toInt32

@[simp] theorem length_int32Bytes (z : Int32) : (int32Bytes z).length = 4 := length_toBytes 4 _

theorem ofInt32Bytes_int32Bytes (z : Int32) : ofInt32Bytes (int32Bytes z) = z := by
  have hlt : z.toUInt32.toNat < 256 ^ 4 := z.toUInt32.toNat_lt
  rw [ofInt32Bytes, int32Bytes, ofBytes_toBytes hlt, UInt32.ofNat_toNat, Int32.toInt32_toUInt32]

-- ---------------------------------------------------------------------------
-- Reading
-- ---------------------------------------------------------------------------

/-- The bytes still to be read, and whether all reads have succeeded. -/
structure IStream where
  rest : List UInt8
  good : Bool

/-- `read(target, count)`: the bytes that were read. -/
def read (s : IStream) (count : ℕ) : List UInt8 × IStream :=
  if s.good = true then
    if count ≤ s.rest.length then (s.rest.take count, ⟨s.rest.drop count, true⟩)
    else (s.rest, ⟨[], false⟩)
  else ([], s)

theorem read_take {count : ℕ} {bytes : List UInt8} (h : count ≤ bytes.length) :
    read ⟨bytes, true⟩ count = (bytes.take count, ⟨bytes.drop count, true⟩) := by
  unfold read
  rw [if_pos rfl, if_pos h]

theorem read_append {count : ℕ} {bytes : List UInt8} (h : bytes.length = count)
    (rest : List UInt8) : read ⟨bytes ++ rest, true⟩ count = (bytes, ⟨rest, true⟩) := by
  subst h
  rw [read_take (by simp), List.take_left, List.drop_left]

/-- Too few bytes are left: they are all taken. -/
theorem read_short {count : ℕ} {bytes : List UInt8} (h : bytes.length < count) :
    read ⟨bytes, true⟩ count = (bytes, ⟨[], false⟩) := by
  unfold read
  rw [if_pos rfl, if_neg (not_le.mpr h)]

/-- What is read, with enough bytes left or not. -/
theorem read_fst (bytes : List UInt8) (count : ℕ) :
    (read ⟨bytes, true⟩ count).1 = bytes.take count := by
  rcases Nat.lt_or_ge bytes.length count with hlt | hge
  · rw [read_short hlt, List.take_of_length_le hlt.le]
  · rw [read_take hge]

/-- Nothing is read from a stream that has failed. -/
@[simp] theorem read_failed (rest : List UInt8) (count : ℕ) :
    read ⟨rest, false⟩ count = ([], ⟨rest, false⟩) := rfl

-- ---------------------------------------------------------------------------
-- Streams whose end is cut off
-- ---------------------------------------------------------------------------

/-- `pre` is `bytes` without its end. -/
def Truncated (pre bytes : List UInt8) : Prop := pre <+: bytes ∧ pre ≠ bytes

theorem Truncated.length_lt {pre bytes : List UInt8} (h : Truncated pre bytes) :
    pre.length < bytes.length :=
  lt_of_le_of_ne h.1.length_le fun heq => h.2 (h.1.eq_of_length heq)

theorem not_truncated_nil (pre : List UInt8) : ¬ Truncated pre [] := fun h =>
  absurd h.length_lt (Nat.not_lt_zero _)

/-- The cut is inside the first part, or inside the second. -/
theorem Truncated.of_append {pre a b : List UInt8} (h : Truncated pre (a ++ b)) :
    Truncated pre a ∨ ∃ post, Truncated post b ∧ pre = a ++ post := by
  obtain ⟨hpre, hne⟩ := h
  by_cases hin : a <+: pre
  · obtain ⟨post, rfl⟩ := hin
    rw [List.prefix_append_right_inj] at hpre
    exact Or.inr ⟨post, ⟨hpre, fun heq => hne (by rw [heq])⟩, rfl⟩
  · have hshort := (List.prefix_or_prefix_of_prefix hpre (List.prefix_append a b)).resolve_right hin
    exact Or.inl ⟨hshort, fun heq => hin (heq ▸ List.prefix_refl pre)⟩

/-- **Reading the first field** of a stream whose end is cut off. -/
theorem read_truncated {count : ℕ} {pre field rest : List UInt8} (h : field.length = count)
    (hpre : Truncated pre (field ++ rest)) :
    read ⟨pre, true⟩ count = (pre, ⟨[], false⟩) ∨
      ∃ post, Truncated post rest ∧ read ⟨pre, true⟩ count = (field, ⟨post, true⟩) := by
  rcases hpre.of_append with hin | ⟨post, hpost, rfl⟩
  · exact Or.inl (read_short (h ▸ hin.length_lt))
  · exact Or.inr ⟨post, hpost, read_append h post⟩

end ByteStream
