import Mathlib.Data.List.GetD
import Mathlib.Data.Set.Insert
import Mathlib.Logic.Function.Basic
import Mqo.Lib.ByteStream

/-!
# Memory as blocks of bytes

A program keeps blocks of bytes, each allocated with a size, one for every
region of `R`. A `Span` is a stretch of bytes of one region; `bytes` reads it
and `put` writes a list of bytes from an offset on. Records that share a block
are spans of it, and what a write to one does to another follows from their
being apart.

* `bytes_put`       — what has been written is read back, in whole or in part;
* `bytes_put_apart` — a write leaves every span apart from it alone;
* `word_put`        — a number that fits its width is read back;
* `word_put_zeros`  — so is zero, anywhere in a zeroed stretch;
* `Modifies`        — a memory that differs from another one at most inside the
  given spans: the frame condition that the effects of a procedure add up to.
-/

universe u

/-- A block that has been allocated: its size, and the byte at each offset. -/
structure Block where
  size : ℕ
  byte : ℕ → UInt8

/-- The blocks of all regions. -/
abbrev Memory (R : Type u) := R → Block

/-- A stretch of bytes of a region. -/
structure Span (R : Type u) where
  region : R
  offset : ℕ
  length : ℕ
deriving DecidableEq

namespace Memory

open ByteStream

variable {R : Type u}

/-- The span is part of its block. -/
def Holds (m : Memory R) (s : Span R) : Prop := s.offset + s.length ≤ (m s.region).size

instance (m : Memory R) (s : Span R) : Decidable (Holds m s) :=
  inferInstanceAs (Decidable (s.offset + s.length ≤ (m s.region).size))

/-- Two spans without a common byte. -/
def Apart (s t : Span R) : Prop :=
  s.region ≠ t.region ∨ s.offset + s.length ≤ t.offset ∨ t.offset + t.length ≤ s.offset

/-- The first span is part of the second. -/
def Within (s t : Span R) : Prop :=
  s.region = t.region ∧ t.offset ≤ s.offset ∧ s.offset + s.length ≤ t.offset + t.length

theorem Within.refl (s : Span R) : Within s s := ⟨rfl, le_refl _, le_refl _⟩

theorem Within.trans {s t u : Span R} (h : Within s t) (h' : Within t u) : Within s u :=
  ⟨h.1.trans h'.1, h'.2.1.trans h.2.1, h.2.2.trans h'.2.2⟩

/-- What is inside a block is inside it in part. -/
theorem Holds.within {m : Memory R} {s t : Span R} (h : Holds m t) (hs : Within s t) :
    Holds m s := by
  unfold Holds at h ⊢
  rw [hs.1]
  exact hs.2.2.trans h

/-- Parts of spans that are apart are apart. -/
theorem Apart.within {s s' t t' : Span R} (h : Apart s t) (hs : Within s' s) (ht : Within t' t) :
    Apart s' t' := by
  obtain ⟨hsr, hsl, hsu⟩ := hs
  obtain ⟨htr, htl, htu⟩ := ht
  unfold Apart at h ⊢
  rcases h with h | h | h
  · exact Or.inl (by rw [hsr, htr]; exact h)
  · exact Or.inr (Or.inl (by omega))
  · exact Or.inr (Or.inr (by omega))

theorem Apart.symm {s t : Span R} (h : Apart s t) : Apart t s := by
  unfold Apart at h ⊢
  rcases h with h | h | h
  · exact Or.inl h.symm
  · exact Or.inr (Or.inr h)
  · exact Or.inr (Or.inl h)

/-- The bytes of a span. -/
def bytes (m : Memory R) (s : Span R) : List UInt8 :=
  (List.range s.length).map fun k => (m s.region).byte (s.offset + k)

@[simp] theorem length_bytes (m : Memory R) (s : Span R) : (bytes m s).length = s.length := by
  simp [bytes]

/-- Two memories that agree on the bytes of a span. -/
theorem bytes_congr {m m' : Memory R} {s : Span R}
    (h : ∀ k < s.length, (m s.region).byte (s.offset + k) = (m' s.region).byte (s.offset + k)) :
    bytes m s = bytes m' s :=
  List.map_congr_left fun k hk => h k (List.mem_range.mp hk)

/-- A part of a span. -/
theorem take_drop_bytes (m : Memory R) (r : R) (offset : ℕ) {a len length : ℕ}
    (h : a + len ≤ length) :
    ((bytes m ⟨r, offset, length⟩).drop a).take len = bytes m ⟨r, offset + a, len⟩ := by
  refine List.ext_getElem (by simp; omega) fun k hk hk' => ?_
  simp [bytes, Nat.add_assoc]

/-- Memories that agree on a span agree on its parts. -/
theorem bytes_within {m m' : Memory R} {s t : Span R} (ht : Within t s)
    (h : bytes m s = bytes m' s) : bytes m t = bytes m' t := by
  obtain ⟨region, offset, length⟩ := s
  obtain ⟨region', offset', length'⟩ := t
  obtain ⟨hregion, hlower, hupper⟩ := ht
  dsimp only at hregion hlower hupper
  subst hregion
  obtain ⟨a, rfl⟩ := Nat.exists_eq_add_of_le hlower
  have hpart : a + length' ≤ length := by omega
  rw [← take_drop_bytes m region' offset hpart, ← take_drop_bytes m' region' offset hpart]
  exact congrArg (fun bs => (bs.drop a).take length') h

/-- A block that has been filled from a list of bytes. -/
theorem bytes_filled {m : Memory R} {r : R} {bs : List UInt8} {rest : ℕ → UInt8}
    (hm : ∀ k, (m r).byte k = bs.getD k (rest k)) {len : ℕ} (hlen : bs.length = len) :
    bytes m ⟨r, 0, len⟩ = bs := by
  refine List.ext_getElem (by simp [hlen]) fun k hk hk' => ?_
  simp only [bytes, List.getElem_map, List.getElem_range, Nat.zero_add, hm]
  exact List.getD_eq_getElem bs _ hk'

/-- The number with the bytes of a span. -/
def word (m : Memory R) (s : Span R) : ℕ := ofBytes (bytes m s)

-- ---------------------------------------------------------------------------
-- Frame conditions
-- ---------------------------------------------------------------------------

/-- The blocks of `m'` are those of `m`, and differ at most inside the spans `W`. -/
structure Modifies (W : Set (Span R)) (m m' : Memory R) : Prop where
  size  : ∀ r, (m' r).size = (m r).size
  bytes : ∀ t, (∀ w ∈ W, Apart w t) → bytes m' t = bytes m t

namespace Modifies

variable {W W' : Set (Span R)} {m m' m'' : Memory R}

theorem refl (W : Set (Span R)) (m : Memory R) : Modifies W m m := ⟨fun _ => rfl, fun _ _ => rfl⟩

theorem trans (h : Modifies W m m') (h' : Modifies W m' m'') : Modifies W m m'' :=
  ⟨fun r => (h'.size r).trans (h.size r), fun t ht => (h'.bytes t ht).trans (h.bytes t ht)⟩

/-- Larger spans make a weaker condition. -/
theorem mono (h : Modifies W m m') (hW : ∀ w ∈ W, ∃ w' ∈ W', Within w w') : Modifies W' m m' := by
  refine ⟨h.size, fun t ht => h.bytes t fun w hw => ?_⟩
  obtain ⟨w', hw', hwithin⟩ := hW w hw
  exact (ht w' hw').within hwithin (Within.refl t)

theorem holds (h : Modifies W m m') {s : Span R} : Holds m' s ↔ Holds m s := by
  rw [Holds, h.size, Holds]

theorem word (h : Modifies W m m') {t : Span R} (ht : ∀ w ∈ W, Apart w t) :
    word m' t = word m t := by
  rw [Memory.word, h.bytes t ht, Memory.word]

end Modifies

-- ---------------------------------------------------------------------------
-- Writing
-- ---------------------------------------------------------------------------

variable [DecidableEq R]

/-- Writing bytes from an offset on. -/
def put (m : Memory R) (r : R) (offset : ℕ) (bs : List UInt8) : Memory R :=
  Function.update m r
    { size := (m r).size
      byte := fun i =>
        if offset ≤ i then bs.getD (i - offset) ((m r).byte i) else (m r).byte i }

@[simp] theorem size_put (m : Memory R) (r r' : R) (offset : ℕ) (bs : List UInt8) :
    (put m r offset bs r').size = (m r').size := by
  unfold put
  by_cases hr : r' = r
  · rw [hr, Function.update_self]
  · rw [Function.update_of_ne hr]

@[simp] theorem holds_put (m : Memory R) (r : R) (offset : ℕ) (bs : List UInt8) (s : Span R) :
    Holds (put m r offset bs) s ↔ Holds m s := by
  rw [Holds, size_put, Holds]

/-- **Reading back** a part of what has been written. -/
theorem bytes_put (m : Memory R) (r : R) (offset : ℕ) {bs : List UInt8} {a len : ℕ}
    (h : a + len ≤ bs.length) :
    bytes (put m r offset bs) ⟨r, offset + a, len⟩ = (bs.drop a).take len := by
  refine List.ext_getElem (by simp; omega) fun k hk hk' => ?_
  have hk : k < len := by simpa using hk
  have hin : a + k < bs.length := by omega
  have hsub : offset + a + k - offset = a + k := by omega
  simp only [bytes, put, Function.update_self, List.getElem_map, List.getElem_range,
    List.getElem_take, List.getElem_drop, hsub, List.getD_eq_getElem bs _ hin]
  rw [if_pos (by omega)]

/-- Reading back the whole of it. -/
theorem bytes_put_self (m : Memory R) (r : R) (offset : ℕ) {bs : List UInt8} {len : ℕ}
    (h : bs.length = len) : bytes (put m r offset bs) ⟨r, offset, len⟩ = bs := by
  have hput : bytes (put m r offset bs) ⟨r, offset + 0, len⟩ = (bs.drop 0).take len :=
    bytes_put m r offset (by omega)
  rw [Nat.add_zero, List.drop_zero, ← h, List.take_length] at hput
  rw [← h]
  exact hput

/-- Two writes, the second behind the first, are one. -/
theorem put_put (m : Memory R) (r : R) {offset offset' : ℕ} (as bs : List UInt8)
    (h : offset' = offset + as.length) :
    put (put m r offset as) r offset' bs = put m r offset (as ++ bs) := by
  subst h
  funext r'
  by_cases hr : r' = r
  · subst hr
    unfold put
    rw [Function.update_self, Function.update_self, Function.update_self]
    congr 1
    funext i
    dsimp only
    by_cases hbefore : offset ≤ i
    · rw [if_pos hbefore, if_pos hbefore]
      by_cases hsecond : offset + as.length ≤ i
      · rw [if_pos hsecond, List.getD_append_right _ _ _ _ (by omega), Nat.sub_add_eq,
          List.getD_eq_default as _ (by omega)]
      · rw [if_neg hsecond, List.getD_append _ _ _ _ (by omega)]
    · rw [if_neg hbefore, if_neg hbefore, if_neg (by omega)]
  · unfold put
    rw [Function.update_of_ne hr, Function.update_of_ne hr, Function.update_of_ne hr]

/-- **Frame rule.** A write leaves every span apart from it alone. -/
theorem bytes_put_apart {m : Memory R} {r : R} {offset : ℕ} {bs : List UInt8} {s : Span R}
    (h : Apart ⟨r, offset, bs.length⟩ s) : bytes (put m r offset bs) s = bytes m s := by
  refine bytes_congr fun k hk => ?_
  unfold put
  by_cases hr : s.region = r
  · have happart := h.resolve_left (not_not.mpr hr.symm)
    dsimp only at happart
    rw [hr, Function.update_self]
    dsimp only
    split
    · rw [List.getD_eq_default _ _ (by omega)]
    · rfl
  · rw [Function.update_of_ne hr]

-- ---------------------------------------------------------------------------
-- Numbers
-- ---------------------------------------------------------------------------

theorem word_put {m : Memory R} {r : R} {offset w v : ℕ} (h : v < 256 ^ w) :
    word (put m r offset (toBytes w v)) ⟨r, offset, w⟩ = v := by
  rw [word, bytes_put_self m r offset (length_toBytes w v), ofBytes_toBytes h]

/-- The bytes that `memset(pointer, 0, count)` writes. -/
def zeros (count : ℕ) : List UInt8 := List.replicate count 0

@[simp] theorem length_zeros (count : ℕ) : (zeros count).length = count := List.length_replicate

theorem ofBytes_zeros (w : ℕ) : ofBytes (zeros w) = 0 := by
  induction w with
  | zero => rfl
  | succ w ih =>
    show UInt8.toNat 0 + 256 * ofBytes (zeros w) = 0
    rw [ih]
    rfl

theorem bytes_put_zeros (m : Memory R) (r : R) (offset : ℕ) {count a len : ℕ}
    (h : a + len ≤ count) :
    bytes (put m r offset (zeros count)) ⟨r, offset + a, len⟩ = zeros len := by
  rw [bytes_put m r offset (by simpa using h), zeros, List.drop_replicate, List.take_replicate,
    Nat.min_eq_left (by omega), zeros]

theorem word_put_zeros (m : Memory R) (r : R) (offset : ℕ) {count a len : ℕ}
    (h : a + len ≤ count) : word (put m r offset (zeros count)) ⟨r, offset + a, len⟩ = 0 := by
  rw [word, bytes_put_zeros m r offset h, ofBytes_zeros]

/-- A write modifies the span that it writes. -/
theorem Modifies.of_put {W : Set (Span R)} {m : Memory R} {r : R} {offset : ℕ} {bs : List UInt8}
    {w : Span R} (hw : w ∈ W) (h : Within ⟨r, offset, bs.length⟩ w) : Modifies W m (put m r offset bs) :=
  ⟨fun r' => size_put m r r' offset bs,
    fun _ ht => bytes_put_apart ((ht w hw).within h (Within.refl _))⟩

end Memory
