import Mqo.Lib.ByteStream
import Mqo.Trajectory.Basic

/-!
# MQO — the data loaders

`load_fbin`, `load_u8bin` and `get_data` of `data_handler/`. A file starts
with the two `int` numbers `n` and `d` and goes on with `n * d` values, each a
`float` or a byte; the two loaders differ in nothing else.

* `validHeader_iff`     — the header check accepts exactly the positive pairs: the
  product in `size_t` never overflows;
* `loadBin_returns_iff` — which files are loaded, and to which matrix;
* `getData_iff`         — the same for `get_data` and the extension of the path;
* `getData_valid`       — whatever `get_data` returns has a valid header.
-/

namespace Mqo

open Prog ByteStream Exact

-- ---------------------------------------------------------------------------
-- The header
-- ---------------------------------------------------------------------------

/-- `static_cast<size_t>` of an `int`. -/
def toSizeT (z : Int32) : UInt64 := z.toInt64.toUInt64

/-- `static_cast<size_t>(n) * d` -/
def totalSize (n d : Int32) : UInt64 := toSizeT n * toSizeT d

/-- `n <= 0 || d <= 0 || total_size / d != static_cast<size_t>(n)` does not hold. -/
def ValidHeader (n d : Int32) : Prop :=
  ¬ (n ≤ 0 ∨ d ≤ 0 ∨ totalSize n d / toSizeT d ≠ toSizeT n)

instance (n d : Int32) : Decidable (ValidHeader n d) :=
  inferInstanceAs (Decidable (¬ (n ≤ 0 ∨ d ≤ 0 ∨ totalSize n d / toSizeT d ≠ toSizeT n)))

theorem toNat_toSizeT {z : Int32} (hz : 0 ≤ z.toInt) : ((toSizeT z).toNat : ℤ) = z.toInt := by
  have hpos : 0 ≤ z.toInt64 := by
    rw [Int64.le_iff_toInt_le, Int32.toInt_toInt64]
    exact hz
  rw [toSizeT, Int64.toNat_toUInt64_of_le hpos, Int64.toNatClampNeg, Int32.toInt_toInt64]
  exact Int.toNat_of_nonneg hz

/-- The product of two positive numbers fits a `size_t`. -/
theorem toNat_totalSize {n d : Int32} (hn : 0 ≤ n.toInt) (hd : 0 ≤ d.toInt) :
    ((totalSize n d).toNat : ℤ) = n.toInt * d.toInt := by
  have hn' := toNat_toSizeT hn
  have hd' := toNat_toSizeT hd
  have hfit : (toSizeT n).toNat * (toSizeT d).toNat < 2 ^ 31 * 2 ^ 31 :=
    Nat.mul_lt_mul'' (by have := n.toInt_lt; omega) (by have := d.toInt_lt; omega)
  rw [totalSize, UInt64.toNat_mul, Nat.mod_eq_of_lt (by omega), Nat.cast_mul, hn', hd']

theorem positive_iff {n d : Int32} : ¬ (n ≤ 0 ∨ d ≤ 0) ↔ 0 < n.toInt ∧ 0 < d.toInt := by
  have hle : ∀ z : Int32, z ≤ 0 ↔ z.toInt ≤ 0 := fun z => Int32.le_iff_toInt_le
  rw [hle, hle, not_or, not_le, not_le]

/-- **The header check.** -/
theorem validHeader_iff {n d : Int32} : ValidHeader n d ↔ 0 < n.toInt ∧ 0 < d.toInt := by
  unfold ValidHeader
  rw [← or_assoc, not_or, positive_iff, not_not]
  refine and_iff_left_of_imp fun ⟨hn, hd⟩ => ?_
  have hprod := toNat_totalSize hn.le hd.le
  have hn' := toNat_toSizeT hn.le
  have hd' := toNat_toSizeT hd.le
  have hmul : (totalSize n d).toNat = (toSizeT n).toNat * (toSizeT d).toNat := by
    zify
    rw [hprod, hn', hd']
  rw [← UInt64.toNat_inj, UInt64.toNat_div, hmul]
  exact Nat.mul_div_cancel _ (by omega)

-- ---------------------------------------------------------------------------
-- Loading
-- ---------------------------------------------------------------------------

/-- The contents of binary files. -/
abbrev BinaryDisk := String → Option (List UInt8)

/-- Binary files, and the names that can be written. -/
structure FileSystem where
  content : BinaryDisk
  writable : String → Bool

/-- The file of the given name is written anew. -/
def FileSystem.write (files : FileSystem) (filename : String) (bytes : List UInt8) : FileSystem :=
  { files with content := Function.update files.content filename (some bytes) }

@[simp] theorem FileSystem.content_write (files : FileSystem) (filename : String)
    (bytes : List UInt8) : (files.write filename bytes).content filename = some bytes :=
  Function.update_self ..

/-- The numbers `n` and `d`, and the array behind the pointer returned. -/
structure Loaded (α : Type) where
  n : Int32
  d : Int32
  values : List α
deriving DecidableEq

/-- `new T[count]` for elements of `size` bytes; memory is taken to suffice. -/
def newArray (size count : ℕ) : Run Unit :=
  if 2 ^ 63 ≤ size * count then fault (.exception "std::bad_array_new_length") else pure ()

theorem newArray_returns {size count : ℕ} (h : size * count < 2 ^ 63) :
    Returns (newArray size count) () := by
  rw [newArray, if_neg (not_le.mpr h)]
  exact returns_pure ()

theorem newArray_fits {size count : ℕ} (h : Returns (newArray size count) ()) :
    size * count < 2 ^ 63 := by
  by_contra hbig
  rw [newArray, if_pos (not_lt.mp hbig)] at h
  exact absurd (fails_fault _) h.not_fails

/-- The `count` elements of `size` bytes that a block of bytes holds. -/
def elements {α : Type} (size count : ℕ) (element : List UInt8 → α) (bytes : List UInt8) : List α :=
  (List.range count).map fun k => element ((bytes.drop (size * k)).take size)

/-- The body of the two loaders, for elements of `size` bytes. -/
def loadBin {α : Type} (size : ℕ) (element : List UInt8 → α) (disk : BinaryDisk)
    (filename : String) : Run (Loaded α) :=
  match disk filename with
  | none => fault (.exception ("Cannot open file: " ++ filename))
  | some bytes => do
    let readN := read ⟨bytes, true⟩ 4
    let readD := read readN.2 4
    if readD.2.good = true then
      let n := ofInt32Bytes readN.1
      let d := ofInt32Bytes readD.1
      let total_size := (totalSize n d).toNat
      if ValidHeader n d then do
        newArray size total_size
        let readData := read readD.2 (size * total_size)
        if readData.2.good = true then pure ⟨n, d, elements size total_size element readData.1⟩
        else fault (.exception ("Error reading data array from " ++ filename))
      else fault (.exception ("Invalid n or d values in " ++ filename))
    else fault (.exception ("Error reading header (n, d) from " ++ filename))

/-- `load_fbin`; `ofBits` is the `float` with the given bits. -/
def loadFbin {F : Type} (ofBits : UInt32 → F) : BinaryDisk → String → Run (Loaded F) :=
  loadBin 4 fun bytes => ofBits (UInt32.ofNat (ofBytes bytes))

/-- The value of the single-precision number with the given bits. -/
def floatOfBits (bits : UInt32) : Exact ℚ :=
  let negative := 2 ^ 31 ≤ bits.toNat
  let exponent : ℕ := bits.toNat / 2 ^ 23 % 2 ^ 8
  let fraction : ℕ := bits.toNat % 2 ^ 23
  if exponent = 255 then
    if fraction = 0 then (if negative then negInf else posInf) else nan
  else
    let magnitude : ℚ :=
      if exponent = 0 then (fraction : ℚ) / 2 ^ 149
      else ((2 ^ 23 + fraction : ℕ) : ℚ) * 2 ^ exponent / 2 ^ 150
    fin (if negative then -magnitude else magnitude)

/-- `load_u8bin` -/
def loadU8bin : BinaryDisk → String → Run (Loaded UInt8) :=
  loadBin 1 fun bytes => UInt8.ofNat (ofBytes bytes)

/-- `path.size() >= k && path.substr(path.size() - k) == extension`, with `k` the length
of the extension. -/
def hasExtension (path extension : String) : Bool := extension.toList.isSuffixOf path.toList

/-- `get_data` -/
def getData {F : Type} [Scalar F] (ofBits : UInt32 → F) (disk : BinaryDisk) (dpath : String) :
    Run (Loaded F) :=
  if hasExtension dpath ".u8bin" then do
    let u8_data ← loadU8bin disk dpath
    newArray 4 u8_data.values.length
    pure ⟨u8_data.n, u8_data.d, u8_data.values.map fun v => Scalar.ofInt v.toNat⟩
  else if hasExtension dpath ".fbin" then loadFbin ofBits disk dpath
  else fault (.exception ("Unsupported file format: " ++ dpath))

-- ---------------------------------------------------------------------------
-- Elements of a block of bytes
-- ---------------------------------------------------------------------------

section Elements

variable {α : Type} {size : ℕ} {element : List UInt8 → α}

@[simp] theorem length_elements (size count : ℕ) (element : List UInt8 → α) (bytes : List UInt8) :
    (elements size count element bytes).length = count := by
  simp [elements]

theorem elements_cons {count : ℕ} {first : List UInt8} (h : first.length = size)
    (rest : List UInt8) :
    elements size (count + 1) element (first ++ rest) =
      element first :: elements size count element rest := by
  subst h
  unfold elements
  rw [List.range_succ_eq_map, List.map_cons, List.map_map]
  congr 1
  · rw [Nat.mul_zero, List.drop_zero, List.take_left]
  · refine List.map_congr_left fun k _ => ?_
    rw [Function.comp_apply, Nat.mul_succ, Nat.add_comm, ← List.drop_drop, List.drop_left]

/-- **Elements that were written** one after the other, each in `size` bytes. -/
theorem elements_map {β : Type} {toBytes : β → List UInt8} (hsize : ∀ b, (toBytes b).length = size)
    (l : List β) (rest : List UInt8) :
    elements size l.length element (l.flatMap toBytes ++ rest) =
      l.map fun b => element (toBytes b) := by
  induction l with
  | nil => rfl
  | cons b l ih =>
    rw [List.length_cons, List.flatMap_cons, List.append_assoc, elements_cons (hsize b), ih,
      List.map_cons]

/-- They are read back. -/
theorem elements_flatMap {toBytes : α → List UInt8} (hsize : ∀ a, (toBytes a).length = size)
    (hback : ∀ a, element (toBytes a) = a) (l : List α) (rest : List UInt8) :
    elements size l.length element (l.flatMap toBytes ++ rest) = l := by
  rw [elements_map hsize, List.map_congr_left fun a _ => hback a, List.map_id']

theorem length_flatMap_bytes {β : Type} {toBytes : β → List UInt8}
    (hsize : ∀ b, (toBytes b).length = size) (l : List β) :
    (l.flatMap toBytes).length = size * l.length := by
  induction l with
  | nil => rfl
  | cons a l ih =>
    rw [List.flatMap_cons, List.length_append, hsize, ih, List.length_cons, Nat.mul_succ,
      Nat.add_comm]

/-- Only the bytes of the elements count. -/
theorem elements_take {count : ℕ} (bytes : List UInt8) :
    elements size count element (bytes.take (size * count)) =
      elements size count element bytes := by
  refine List.map_congr_left fun k hk => ?_
  have hend : size * k + size ≤ size * count := by
    rw [← Nat.mul_succ]
    exact Nat.mul_le_mul_left size (List.mem_range.mp hk)
  rw [List.drop_take, List.take_take, Nat.min_eq_left (by omega)]

/-- The first elements. -/
theorem take_elements {count total : ℕ} (h : count ≤ total) (bytes : List UInt8) :
    (elements size total element bytes).take count = elements size count element bytes := by
  rw [elements, ← List.map_take, List.take_range, Nat.min_eq_left h, elements]

/-- Elements that tell their bytes apart. -/
theorem elements_inj (hinj : ∀ x y : List UInt8, x.length = size → y.length = size →
      element x = element y → x = y) {count : ℕ} {a b : List UInt8}
    (ha : a.length = size * count) (hb : b.length = size * count)
    (h : elements size count element a = elements size count element b) : a = b := by
  induction count generalizing a b with
  | zero =>
    rw [Nat.mul_zero, List.length_eq_zero_iff] at ha hb
    rw [ha, hb]
  | succ count ih =>
    rw [Nat.mul_succ] at ha hb
    have hfirst : ∀ {l : List UInt8}, l.length = size * count + size →
        (l.take size).length = size := fun hl => by
      rw [List.length_take]
      omega
    rw [← List.take_append_drop size a, ← List.take_append_drop size b,
      elements_cons (hfirst ha), elements_cons (hfirst hb), List.cons.injEq] at h
    rw [← List.take_append_drop size a, ← List.take_append_drop size b,
      hinj _ _ (hfirst ha) (hfirst hb) h.1,
      ih (by rw [List.length_drop]; omega) (by rw [List.length_drop]; omega) h.2]

end Elements

-- ---------------------------------------------------------------------------
-- What is accepted
-- ---------------------------------------------------------------------------

/-- The number `n` of the rows that a file names. -/
def headerN (bytes : List UInt8) : Int32 := ofInt32Bytes (bytes.take 4)

/-- The dimension `d` that a file names. -/
def headerD (bytes : List UInt8) : Int32 := ofInt32Bytes ((bytes.drop 4).take 4)

/-- `n * d` for the header of a file. -/
def matrixSize (bytes : List UInt8) : ℕ := ((headerN bytes).toInt * (headerD bytes).toInt).toNat

/-- A file with positive numbers `n` and `d`, and at least `n * d` elements of `size` bytes
behind them. -/
def HoldsMatrix (size : ℕ) (bytes : List UInt8) : Prop :=
  8 ≤ bytes.length ∧ 0 < (headerN bytes).toInt ∧ 0 < (headerD bytes).toInt ∧
    8 + size * matrixSize bytes ≤ bytes.length

/-- The matrix in a file. -/
def matrixOf {α : Type} (size : ℕ) (element : List UInt8 → α) (bytes : List UInt8) : Loaded α :=
  ⟨headerN bytes, headerD bytes, elements size (matrixSize bytes) element (bytes.drop 8)⟩

section Header

variable (n d : Int32) (rest : List UInt8)

@[simp] theorem headerN_append : headerN (int32Bytes n ++ (int32Bytes d ++ rest)) = n := by
  rw [headerN, List.take_left' (length_int32Bytes n), ofInt32Bytes_int32Bytes]

@[simp] theorem headerD_append : headerD (int32Bytes n ++ (int32Bytes d ++ rest)) = d := by
  rw [headerD, List.drop_left' (length_int32Bytes n), List.take_left' (length_int32Bytes d),
    ofInt32Bytes_int32Bytes]

theorem drop_header : (int32Bytes n ++ (int32Bytes d ++ rest)).drop 8 = rest := by
  rw [show 8 = 4 + 4 from rfl, ← List.drop_drop, List.drop_left' (length_int32Bytes n),
    List.drop_left' (length_int32Bytes d)]

theorem length_header : (int32Bytes n ++ (int32Bytes d ++ rest)).length = 8 + rest.length := by
  rw [List.length_append, List.length_append, length_int32Bytes, length_int32Bytes]
  omega

@[simp] theorem matrixSize_append :
    matrixSize (int32Bytes n ++ (int32Bytes d ++ rest)) = (n.toInt * d.toInt).toNat := by
  rw [matrixSize, headerN_append, headerD_append]

/-- A file whose header has been written in front of the elements. -/
theorem holdsMatrix_append (size : ℕ) :
    HoldsMatrix size (int32Bytes n ++ (int32Bytes d ++ rest)) ↔
      0 < n.toInt ∧ 0 < d.toInt ∧ size * (n.toInt * d.toInt).toNat ≤ rest.length := by
  rw [HoldsMatrix, headerN_append, headerD_append, matrixSize_append, length_header,
    Nat.add_le_add_iff_left]
  exact ⟨fun h => h.2, fun h => ⟨Nat.le_add_right 8 _, h⟩⟩

end Header

section Accepting

variable {α : Type} {size : ℕ} {element : List UInt8 → α} {disk : BinaryDisk} {filename : String}
  {bytes : List UInt8}

/-- The number of the elements always fits a `ptrdiff_t`; the number of their bytes may not. -/
theorem matrixSize_lt (hd : 0 < (headerD bytes).toInt) : matrixSize bytes < 2 ^ 63 := by
  have hprod : (headerN bytes).toInt * (headerD bytes).toInt ≤ 2 ^ 31 * 2 ^ 31 :=
    mul_le_mul (headerN bytes).toInt_lt.le (headerD bytes).toInt_lt.le hd.le (by decide)
  rw [matrixSize]
  omega

theorem matrixSize_eq (hn : 0 < (headerN bytes).toInt) (hd : 0 < (headerD bytes).toInt) :
    matrixSize bytes = (headerN bytes).toInt.toNat * (headerD bytes).toInt.toNat := by
  rw [matrixSize, Int.toNat_mul hn.le hd.le]

theorem totalSize_header (hn : 0 < (headerN bytes).toInt) (hd : 0 < (headerD bytes).toInt) :
    (totalSize (headerN bytes) (headerD bytes)).toNat = matrixSize bytes := by
  rw [matrixSize, ← toNat_totalSize hn.le hd.le, Int.toNat_natCast]

/-- A file without a header. -/
theorem loadBin_short (hfile : disk filename = some bytes) (h : bytes.length < 8) :
    loadBin size element disk filename =
      fault (.exception ("Error reading header (n, d) from " ++ filename)) := by
  have hgood : (read (read ⟨bytes, true⟩ 4).2 4).2.good = false := by
    rcases Nat.lt_or_ge bytes.length 4 with hlt | hge
    · rw [read_short hlt, read_failed]
    · rw [read_take hge, read_short (by rw [List.length_drop]; omega)]
  unfold loadBin
  rw [hfile]
  simp only [hgood, Bool.false_eq_true, if_false]

/-- A file with a header. -/
theorem loadBin_header (hfile : disk filename = some bytes) (h : 8 ≤ bytes.length) :
    loadBin size element disk filename =
      if ValidHeader (headerN bytes) (headerD bytes) then do
        let total_size := (totalSize (headerN bytes) (headerD bytes)).toNat
        newArray size total_size
        let readData := read ⟨bytes.drop 8, true⟩ (size * total_size)
        if readData.2.good = true then
          pure ⟨headerN bytes, headerD bytes, elements size total_size element readData.1⟩
        else fault (.exception ("Error reading data array from " ++ filename))
      else fault (.exception ("Invalid n or d values in " ++ filename)) := by
  unfold loadBin
  rw [hfile]
  simp only [read_take (show 4 ≤ bytes.length by omega),
    read_take (show 4 ≤ (bytes.drop 4).length by rw [List.length_drop]; omega), List.drop_drop,
    if_true, headerN, headerD]
  rfl

/-- **What is accepted**, and what is then loaded. -/
theorem loadBin_returns_iff (hfile : disk filename = some bytes) {m : Loaded α} :
    Returns (loadBin size element disk filename) m ↔
      HoldsMatrix size bytes ∧ size * matrixSize bytes < 2 ^ 63 ∧
        m = matrixOf size element bytes := by
  constructor
  · intro h
    rcases Nat.lt_or_ge bytes.length 8 with hlt | hge
    · rw [loadBin_short hfile hlt] at h
      exact absurd (fails_fault _) h.not_fails
    · rw [loadBin_header hfile hge] at h
      split at h
      · next hvalid =>
        obtain ⟨hn, hd⟩ := validHeader_iff.mp hvalid
        rw [totalSize_header hn hd] at h
        obtain ⟨⟨⟩, hnew, h⟩ := h.of_bind
        have hmemory : size * matrixSize bytes < 2 ^ 63 := newArray_fits hnew
        rcases Nat.lt_or_ge (bytes.drop 8).length (size * matrixSize bytes) with hshort | hlong
        · simp only [read_short hshort, Bool.false_eq_true, if_false] at h
          exact absurd (fails_fault _) h.not_fails
        · simp only [read_take hlong, if_true] at h
          rw [elements_take] at h
          rw [List.length_drop] at hlong
          exact ⟨⟨hge, hn, hd, by omega⟩, hmemory, h.of_pure⟩
      · exact absurd (fails_fault _) h.not_fails
  · rintro ⟨⟨hlen, hn, hd, hdata⟩, hmemory, rfl⟩
    have hlong : size * matrixSize bytes ≤ (bytes.drop 8).length := by
      rw [List.length_drop]
      omega
    rw [loadBin_header hfile hlen, if_pos (validHeader_iff.mpr ⟨hn, hd⟩), totalSize_header hn hd]
    refine (newArray_returns hmemory).bind ?_
    simp only [read_take hlong, if_true, elements_take]
    exact returns_pure _

/-- Whatever is loaded comes from a file that holds a matrix. -/
theorem exists_of_loadBin {m : Loaded α} (h : Returns (loadBin size element disk filename) m) :
    ∃ bytes, disk filename = some bytes ∧ HoldsMatrix size bytes ∧
      size * matrixSize bytes < 2 ^ 63 ∧ m = matrixOf size element bytes := by
  cases hfile : disk filename with
  | none =>
    rw [loadBin, hfile] at h
    exact absurd (fails_fault _) h.not_fails
  | some bytes => exact ⟨bytes, rfl, (loadBin_returns_iff hfile).mp h⟩

/-- It has a valid header and all its values. -/
theorem loadBin_valid {m : Loaded α} (h : Returns (loadBin size element disk filename) m) :
    ValidHeader m.n m.d ∧ m.values.length = (totalSize m.n m.d).toNat := by
  obtain ⟨bytes, -, ⟨-, hn, hd, -⟩, -, rfl⟩ := exists_of_loadBin h
  refine ⟨validHeader_iff.mpr ⟨hn, hd⟩, ?_⟩
  rw [matrixOf, length_elements, totalSize_header hn hd]

/-- The array could be allocated. -/
theorem loadBin_fits {m : Loaded α} (h : Returns (loadBin size element disk filename) m) :
    size * (totalSize m.n m.d).toNat < 2 ^ 63 := by
  obtain ⟨bytes, -, ⟨-, hn, hd, -⟩, hmemory, rfl⟩ := exists_of_loadBin h
  rwa [matrixOf, totalSize_header hn hd]

/-- **A file that is loaded**: a header, the elements, and whatever comes behind them. -/
theorem loadBin_returns {n d : Int32} (h : ValidHeader n d) {data rest : List UInt8}
    (hdata : data.length = size * (totalSize n d).toNat)
    (hfile : disk filename = some (int32Bytes n ++ (int32Bytes d ++ (data ++ rest))))
    (hmemory : size * (totalSize n d).toNat < 2 ^ 63) :
    Returns (loadBin size element disk filename)
      ⟨n, d, elements size (totalSize n d).toNat element data⟩ := by
  obtain ⟨hn, hd⟩ := validHeader_iff.mp h
  have htotal : (n.toInt * d.toInt).toNat = (totalSize n d).toNat := by
    rw [← toNat_totalSize hn.le hd.le, Int.toNat_natCast]
  have hvalues : elements size (totalSize n d).toNat element (data ++ rest) =
      elements size (totalSize n d).toNat element data := by
    rw [← elements_take, List.take_left' hdata]
  rw [loadBin_returns_iff hfile, holdsMatrix_append, matrixSize_append, matrixOf, headerN_append,
    headerD_append, matrixSize_append, drop_header, htotal, hvalues, List.length_append, hdata]
  exact ⟨⟨hn, hd, Nat.le_add_right _ _⟩, hmemory, rfl⟩

/-- What is not loaded ends in an exception. -/
theorem loadBin_ends (size : ℕ) (element : List UInt8 → α) (disk : BinaryDisk)
    (filename : String) : (∃ m, Returns (loadBin size element disk filename) m) ∨
      ∃ what, Fails (loadBin size element disk filename) (.exception what) := by
  unfold loadBin
  split
  · exact Or.inr ⟨_, fails_fault _⟩
  · dsimp only
    split
    · split
      · unfold newArray
        split
        · exact Or.inr ⟨_, (fails_fault _).bind⟩
        · split
          · exact Or.inl ⟨_, (returns_pure ()).bind (returns_pure _)⟩
          · exact Or.inr ⟨_, (returns_pure ()).bind_ends (fails_fault _)⟩
      · exact Or.inr ⟨_, fails_fault _⟩
    · exact Or.inr ⟨_, fails_fault _⟩

end Accepting

-- ---------------------------------------------------------------------------
-- The two extensions
-- ---------------------------------------------------------------------------

/-- No path has both extensions. -/
theorem not_u8bin_of_fbin {path : String} (h : hasExtension path ".fbin" = true) :
    hasExtension path ".u8bin" = false := by
  rw [← Bool.not_eq_true]
  intro hu8
  have hsuffix := List.suffix_of_suffix_length_le (List.isSuffixOf_iff_suffix.mp h)
    (List.isSuffixOf_iff_suffix.mp hu8) (by decide)
  revert hsuffix
  decide

theorem getData_fbin {F : Type} [Scalar F] (ofBits : UInt32 → F) (disk : BinaryDisk)
    {path : String} (h : hasExtension path ".fbin" = true) :
    getData ofBits disk path = loadFbin ofBits disk path := by
  rw [getData, not_u8bin_of_fbin h, if_neg Bool.false_ne_true, if_pos h]

/-- What `get_data` makes of a file of bytes. -/
theorem getData_u8bin_iff {F : Type} [Scalar F] {ofBits : UInt32 → F} {disk : BinaryDisk}
    {path : String} (h : hasExtension path ".u8bin" = true) {m : Loaded F} :
    Returns (getData ofBits disk path) m ↔
      ∃ u8_data, Returns (loadU8bin disk path) u8_data ∧ 4 * u8_data.values.length < 2 ^ 63 ∧
        m = ⟨u8_data.n, u8_data.d, u8_data.values.map fun v => Scalar.ofInt v.toNat⟩ := by
  rw [getData, if_pos h]
  constructor
  · intro hret
    obtain ⟨u8_data, hload, hret⟩ := hret.of_bind
    obtain ⟨⟨⟩, hnew, hret⟩ := hret.of_bind
    exact ⟨u8_data, hload, newArray_fits hnew, hret.of_pure⟩
  · rintro ⟨u8_data, hload, hmemory, rfl⟩
    exact hload.bind ((newArray_returns hmemory).bind (returns_pure _))

/-- The branch of `get_data` for a path: whether it reads numbers of type `float`. -/
def readsFloats (path : String) : Option Bool :=
  if hasExtension path ".u8bin" then some false
  else if hasExtension path ".fbin" then some true
  else none

/-- `sizeof(float)` or `sizeof(uint8_t)` -/
def elementSize (isFloat : Bool) : ℕ := if isFloat then 4 else 1

/-- The number that `get_data` makes of the bytes of an element. -/
def elementOf {F : Type} [Scalar F] (ofBits : UInt32 → F) (isFloat : Bool) (bytes : List UInt8) :
    F :=
  if isFloat then ofBits (UInt32.ofNat (ofBytes bytes))
  else Scalar.ofInt (UInt8.ofNat (ofBytes bytes)).toNat

/-- **What `get_data` accepts**, and what it then returns. -/
theorem getData_iff {F : Type} [Scalar F] {ofBits : UInt32 → F} {disk : BinaryDisk} {path : String}
    {isFloat : Bool} {bytes : List UInt8} (hpath : readsFloats path = some isFloat)
    (hfile : disk path = some bytes) {m : Loaded F} :
    Returns (getData ofBits disk path) m ↔
      HoldsMatrix (elementSize isFloat) bytes ∧ 4 * matrixSize bytes < 2 ^ 63 ∧
        m = matrixOf (elementSize isFloat) (elementOf ofBits isFloat) bytes := by
  unfold readsFloats at hpath
  split at hpath
  · next hu8 =>
    obtain rfl := Option.some.inj hpath
    rw [getData_u8bin_iff hu8]
    have hmap : (matrixOf 1 (fun b => UInt8.ofNat (ofBytes b)) bytes).values.map
        (fun v => (Scalar.ofInt v.toNat : F)) =
        elements 1 (matrixSize bytes) (elementOf ofBits false) (bytes.drop 8) :=
      List.map_map
    constructor
    · rintro ⟨u8_data, hload, hmemory, rfl⟩
      obtain ⟨hholds, -, rfl⟩ := (loadBin_returns_iff hfile).mp hload
      rw [hmap]
      rw [matrixOf, length_elements] at hmemory
      exact ⟨hholds, hmemory, rfl⟩
    · rintro ⟨hholds, hmemory, rfl⟩
      refine ⟨_, (loadBin_returns_iff hfile).mpr ⟨hholds, ?_, rfl⟩, ?_, ?_⟩
      · omega
      · rwa [matrixOf, length_elements]
      · rw [hmap]
        rfl
  · split at hpath
    · next hfbin =>
      obtain rfl := Option.some.inj hpath
      rw [getData_fbin ofBits disk hfbin, loadFbin, loadBin_returns_iff hfile]
      rfl
    · cases hpath

/-- Another path is not supported. -/
theorem getData_unsupported {F : Type} [Scalar F] (ofBits : UInt32 → F) (disk : BinaryDisk)
    {path : String} (h : readsFloats path = none) :
    getData ofBits disk path = fault (.exception ("Unsupported file format: " ++ path)) := by
  unfold readsFloats at h
  unfold getData
  split at h
  · cases h
  · next hu8 =>
    split at h
    · cases h
    · next hfbin => rw [if_neg hu8, if_neg hfbin]

/-- Whatever `get_data` returns has a valid header. -/
theorem getData_valid {F : Type} [Scalar F] {ofBits : UInt32 → F} {disk : BinaryDisk}
    {dpath : String} {m : Loaded F} (h : Returns (getData ofBits disk dpath) m) :
    ValidHeader m.n m.d ∧ m.values.length = (totalSize m.n m.d).toNat := by
  unfold getData at h
  split at h
  · obtain ⟨u8_data, hload, h⟩ := h.of_bind
    obtain ⟨-, -, h⟩ := h.of_bind
    obtain rfl := h.of_pure
    have hvalid := loadBin_valid hload
    exact ⟨hvalid.1, by rw [← hvalid.2]; exact List.length_map _⟩
  · split at h
    · exact loadBin_valid h
    · exact absurd (fails_fault _) h.not_fails

end Mqo
