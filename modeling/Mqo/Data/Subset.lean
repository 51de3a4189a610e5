import Mqo.Data.Loader

/-!
# MQO — random subsets of a data set

`sample_and_save_subset_fbin` and `sample_and_save_subset_u8bin` of `data_handler/`: some
rows of a file, chosen by a shuffle of the row numbers `l`, …, `r`, are written to another
file of the same format. The two functions differ in the element type only. A `float` is
its bit pattern here, since the rows are copied and never computed with.

* `copyRows_eq`       — the copying loop lines up the chosen rows;
* `sampleAndSaveSubsetBin_returns` — a call that passes the checks, and what it writes;
* `load_and_subset`   — which files are loaded, and that a subset is loaded again with rows
  of the source.
-/

namespace Mqo

open Prog ByteStream

-- ---------------------------------------------------------------------------
-- The functions
-- ---------------------------------------------------------------------------

/-- Row `k` of the array. -/
def Loaded.row {α : Type} (m : Loaded α) (k : ℕ) : List α :=
  (m.values.drop (k * m.d.toInt.toNat)).take m.d.toInt.toNat

/-- `for (int i = l; i <= r; i++) indices.push_back(i);` -/
def indexRange (l r : Int32) : List Int32 :=
  (List.range (r.toInt - l.toInt + 1).toNat).map fun k : ℕ => Int32.ofInt (l.toInt + k)

/-- `std::copy(src + start, src + start + count, dst + position)` -/
def copyBlock {α : Type} (src : List α) (start count : ℕ) (dst : List α) (position : ℕ) : List α :=
  dst.take position ++ (src.drop start).take count ++ dst.drop (position + count)

/-- The loop that copies the rows named by `indices` to `subset_data`. -/
def copyRows {α : Type} (data : Loaded α) (indices : List Int32) (sample_size : ℕ)
    (subset_data : List α) : List α :=
  (List.range sample_size).foldl (fun dst i =>
    copyBlock data.values (totalSize (indices.getD i 0) data.d).toNat data.d.toInt.toNat dst
      (totalSize (Int32.ofNat i) data.d).toNat) subset_data

/-- The body of the two functions, for elements of `size` bytes. `blank` is what a new array
holds, `shuffle` the outcome of `std::shuffle`. -/
def sampleAndSaveSubsetBin {α : Type} (size : ℕ) (element : List UInt8 → α)
    (toBytes : α → List UInt8) (blank : α) (shuffle : List Int32 → List Int32)
    (files : FileSystem) (path : String) (l r sample_size : Int32) (output_filename : String) :
    Run FileSystem := do
  let data ← loadBin size element files.content path
  if l < 0 ∨ data.n ≤ r ∨ r < l then
    fault (.exception "Invalid range [l, r]. Must be within [0, n-1] and l <= r.")
  else
    let range_size := r - l + 1
    if sample_size ≤ 0 ∨ range_size < sample_size then
      fault (.exception "Invalid sample_size. Must be > 0 and <= (r - l + 1).")
    else do
      let indices := (shuffle (indexRange l r)).take sample_size.toInt.toNat
      let subset_size := (totalSize sample_size data.d).toNat
      newArray size subset_size
      let subset_data := copyRows data indices sample_size.toInt.toNat
        (List.replicate subset_size blank)
      if files.writable output_filename = true then
        pure (files.write output_filename
          (int32Bytes sample_size ++ (int32Bytes data.d ++ subset_data.flatMap toBytes)))
      else fault (.exception ("Cannot open file for writing: " ++ output_filename))

/-- The bits of a `float` as they are read and written. -/
def ofFloatBytes (bytes : List UInt8) : UInt32 := UInt32.ofNat (ofBytes bytes)

def floatBytes (bits : UInt32) : List UInt8 := toBytes 4 bits.toNat

def ofU8Bytes (bytes : List UInt8) : UInt8 := UInt8.ofNat (ofBytes bytes)

def u8Bytes (v : UInt8) : List UInt8 := toBytes 1 v.toNat

/-- `sample_and_save_subset_fbin` -/
def sampleAndSaveSubsetFbin := sampleAndSaveSubsetBin 4 ofFloatBytes floatBytes 0

/-- `sample_and_save_subset_u8bin` -/
def sampleAndSaveSubsetU8bin := sampleAndSaveSubsetBin 1 ofU8Bytes u8Bytes 0

-- ---------------------------------------------------------------------------
-- Numbers
-- ---------------------------------------------------------------------------

theorem toNat_offset {z d : Int32} (hz : 0 ≤ z.toInt) (hd : 0 ≤ d.toInt) :
    (totalSize z d).toNat = z.toInt.toNat * d.toInt.toNat := by
  zify
  rw [toNat_totalSize hz hd, Int.toNat_of_nonneg hz, Int.toNat_of_nonneg hd]

/-- `r - l + 1` does not overflow for row numbers. -/
theorem toInt_rangeSize {l r : Int32} (hl : 0 ≤ l.toInt) (hlr : l.toInt ≤ r.toInt)
    (hr : r.toInt + 1 < 2 ^ 31) : (r - l + 1).toInt = r.toInt - l.toInt + 1 := by
  have hsub : (r - l).toInt = r.toInt - l.toInt := by
    rw [Int32.toInt_sub]
    exact Int.bmod_eq_of_le (by omega) (by omega)
  rw [Int32.toInt_add, hsub]
  exact Int.bmod_eq_of_le (by simp; omega) (by simp; omega)

section Indices

variable {l r : Int32}

theorem toInt_index (hl : 0 ≤ l.toInt) {k : ℕ} (hk : k < (r.toInt - l.toInt + 1).toNat) :
    (Int32.ofInt (l.toInt + k)).toInt = l.toInt + k := by
  have hr := r.toInt_lt
  exact Int32.toInt_ofInt_of_le (by omega) (by omega)

theorem mem_indexRange (hl : 0 ≤ l.toInt) {i : Int32} (h : i ∈ indexRange l r) :
    l.toInt ≤ i.toInt ∧ i.toInt ≤ r.toInt := by
  obtain ⟨k, hk, rfl⟩ := List.mem_map.mp h
  rw [List.mem_range] at hk
  rw [toInt_index hl hk]
  omega

theorem nodup_indexRange (hl : 0 ≤ l.toInt) : (indexRange l r).Nodup := by
  refine List.Nodup.map_on (fun j hj k hk heq => ?_) List.nodup_range
  rw [List.mem_range] at hj hk
  have hval := congrArg Int32.toInt heq
  rw [toInt_index hl hj, toInt_index hl hk] at hval
  omega

theorem length_indexRange : (indexRange l r).length = (r.toInt - l.toInt + 1).toNat := by
  rw [indexRange, List.length_map, List.length_range]

end Indices

-- ---------------------------------------------------------------------------
-- Rows
-- ---------------------------------------------------------------------------

section Rows

variable {α β : Type}

/-- The rows of equal length that are lined up in an array. -/
theorem length_rows {f : β → List α} {d : ℕ} {l : List β} (h : ∀ x ∈ l, (f x).length = d) :
    (l.flatMap f).length = l.length * d := by
  induction l with
  | nil => rw [List.flatMap_nil, List.length_nil, List.length_nil, Nat.zero_mul]
  | cons x l ih =>
    rw [List.flatMap_cons, List.length_append, h x List.mem_cons_self,
      ih fun y hy => h y (List.mem_cons_of_mem _ hy), List.length_cons, Nat.succ_mul, Nat.add_comm]

theorem row_flatMap {f : β → List α} {d : ℕ} {l : List β} (h : ∀ x ∈ l, (f x).length = d) {k : ℕ}
    (hk : k < l.length) : ((l.flatMap f).drop (k * d)).take d = f l[k] := by
  induction l generalizing k with
  | nil => exact absurd hk (Nat.not_lt_zero k)
  | cons x l ih =>
    have hx := h x List.mem_cons_self
    rw [List.flatMap_cons]
    cases k with
    | zero =>
      rw [Nat.zero_mul, List.drop_zero, List.getElem_cons_zero]
      exact List.take_left' hx
    | succ k =>
      rw [Nat.succ_mul, Nat.add_comm, ← List.drop_drop, List.drop_left' hx, List.getElem_cons_succ]
      exact ih (fun y hy => h y (List.mem_cons_of_mem _ hy)) (Nat.lt_of_succ_lt_succ hk)

/-- A block behind the part of the array that is complete. -/
theorem copyBlock_append {src : List α} {start count : ℕ} {filled rest : List α} {position : ℕ}
    (hfilled : filled.length = position) :
    copyBlock src start count (filled ++ rest) position =
      filled ++ (src.drop start).take count ++ rest.drop count := by
  subst hfilled
  rw [copyBlock, List.take_left, ← List.drop_drop, List.drop_left]

variable {m : Loaded α}

theorem length_row_of_lt (hlen : m.values.length = (totalSize m.n m.d).toNat)
    (hd : 0 ≤ m.d.toInt) {z : Int32} (hz : 0 ≤ z.toInt) (hzn : z.toInt < m.n.toInt) :
    (m.row z.toInt.toNat).length = m.d.toInt.toNat := by
  rw [toNat_offset (hz.trans hzn.le) hd] at hlen
  have hlast : (z.toInt.toNat + 1) * m.d.toInt.toNat ≤ m.n.toInt.toNat * m.d.toInt.toNat :=
    Nat.mul_le_mul_right _ (by omega)
  rw [Nat.succ_mul] at hlast
  rw [Loaded.row, List.length_take, List.length_drop, hlen]
  omega

/-- **The copying loop** fills the array with the chosen rows. -/
theorem copyRows_eq (hlen : m.values.length = (totalSize m.n m.d).toNat) (hd : 0 ≤ m.d.toInt)
    {indices : List Int32} (hmem : ∀ i ∈ indices, 0 ≤ i.toInt ∧ i.toInt < m.n.toInt)
    {sample_size : ℕ} (hcount : indices.length = sample_size) (hsmall : sample_size < 2 ^ 31)
    {subset_data : List α} (hsub : subset_data.length = sample_size * m.d.toInt.toNat) :
    copyRows m indices sample_size subset_data =
      indices.flatMap fun i => m.row i.toInt.toNat := by
  have hrow : ∀ i ∈ indices, (m.row i.toInt.toNat).length = m.d.toInt.toNat := fun i hi =>
    length_row_of_lt hlen hd (hmem i hi).1 (hmem i hi).2
  -- after `k` rounds the first `k` rows are in place, and nothing else has changed
  have hloop : ∀ k ≤ sample_size, copyRows m indices k subset_data =
      ((indices.take k).flatMap fun i => m.row i.toInt.toNat) ++
        subset_data.drop (k * m.d.toInt.toNat) := by
    intro k
    induction k with
    | zero =>
      intro _
      rw [Nat.zero_mul, List.drop_zero, List.take_zero, List.flatMap_nil, List.nil_append]
      rfl
    | succ k ih =>
      intro hk
      have hlt : k < indices.length := by omega
      have hi := hmem indices[k] (List.getElem_mem hlt)
      have hto : (totalSize (Int32.ofNat k) m.d).toNat = k * m.d.toInt.toNat := by
        have hval : (Int32.ofNat k).toInt = k := Int32.toInt_ofNat_of_lt (by omega)
        rw [toNat_offset (by rw [hval]; exact Int.natCast_nonneg k) hd, hval, Int.toNat_natCast]
      have hfilled : ((indices.take k).flatMap fun i => m.row i.toInt.toNat).length =
          k * m.d.toInt.toNat := by
        rw [length_rows fun i hi => hrow i (List.mem_of_mem_take hi), List.length_take,
          Nat.min_eq_left hlt.le]
      have hnext : copyRows m indices (k + 1) subset_data =
          copyBlock m.values (totalSize (indices.getD k 0) m.d).toNat m.d.toInt.toNat
            (copyRows m indices k subset_data) (totalSize (Int32.ofNat k) m.d).toNat := by
        rw [copyRows, List.range_succ, List.foldl_append]
        rfl
      have hindex : indices.getD k 0 = indices[k] := by
        rw [List.getD_eq_getElem?_getD, List.getElem?_eq_getElem hlt, Option.getD_some]
      rw [hnext, ih (by omega), hto, copyBlock_append hfilled, hindex, toNat_offset hi.1 hd,
        List.drop_drop, ← Nat.succ_mul, List.take_add_one, List.getElem?_eq_getElem hlt,
        Option.toList_some, List.flatMap_append, List.flatMap_singleton]
      rfl
  rw [hloop sample_size le_rfl, ← hcount, List.take_length, hcount, ← hsub, List.drop_length,
    List.append_nil]

end Rows

-- ---------------------------------------------------------------------------
-- A subset is loaded again
-- ---------------------------------------------------------------------------

/-- The two checks of the request. -/
def PassesChecks (n l r sample_size : Int32) : Prop :=
  ¬ (l < 0 ∨ n ≤ r ∨ r < l) ∧ ¬ (sample_size ≤ 0 ∨ r - l + 1 < sample_size)

instance (n l r sample_size : Int32) : Decidable (PassesChecks n l r sample_size) :=
  inferInstanceAs (Decidable
    (¬ (l < 0 ∨ n ≤ r ∨ r < l) ∧ ¬ (sample_size ≤ 0 ∨ r - l + 1 < sample_size)))

/-- What the checks say about the numbers. -/
theorem PassesChecks.bounds {n l r sample_size : Int32} (h : PassesChecks n l r sample_size) :
    0 ≤ l.toInt ∧ r.toInt < n.toInt ∧ 0 < sample_size.toInt ∧
      sample_size.toInt ≤ r.toInt - l.toInt + 1 := by
  obtain ⟨hrange, hsize⟩ := h
  rw [not_or, not_or, Int32.not_lt, Int32.not_le, Int32.not_lt, Int32.le_iff_toInt_le,
    Int32.lt_iff_toInt_lt, Int32.le_iff_toInt_le] at hrange
  rw [not_or, Int32.not_le, Int32.not_lt, Int32.lt_iff_toInt_lt, Int32.le_iff_toInt_le] at hsize
  obtain ⟨hl, hr, hlr⟩ := hrange
  have hn := n.toInt_lt
  have hzero : (0 : Int32).toInt = 0 := rfl
  rw [hzero] at hl hsize
  rw [toInt_rangeSize hl hlr (by omega)] at hsize
  exact ⟨hl, hr, hsize⟩

section Subsets

variable {α : Type} {size : ℕ} {element : List UInt8 → α} {toBytes : α → List UInt8} {blank : α}
  {shuffle : List Int32 → List Int32} {files : FileSystem} {path output_filename : String}
  {l r sample_size : Int32} {m : Loaded α}

/-- The row numbers that a shuffle chooses. -/
theorem chosen_indices (hcheck : PassesChecks m.n l r sample_size)
    (hshuffle : (shuffle (indexRange l r)).Perm (indexRange l r)) :
    ((shuffle (indexRange l r)).take sample_size.toInt.toNat).length = sample_size.toInt.toNat ∧
      ((shuffle (indexRange l r)).take sample_size.toInt.toNat).Nodup ∧
      ∀ i ∈ (shuffle (indexRange l r)).take sample_size.toInt.toNat,
        l.toInt ≤ i.toInt ∧ i.toInt ≤ r.toInt := by
  obtain ⟨hl, -, -, hsize⟩ := hcheck.bounds
  refine ⟨?_, ?_, fun i hi => ?_⟩
  · rw [List.length_take, hshuffle.length_eq, length_indexRange]
    omega
  · exact (hshuffle.nodup_iff.mpr (nodup_indexRange hl)).sublist (List.take_sublist _ _)
  · exact mem_indexRange hl (hshuffle.mem_iff.mp (List.mem_of_mem_take hi))

/-- A row between `l` and `r` is a whole row of the source. -/
theorem row_in_source (hload : Returns (loadBin size element files.content path) m)
    (hcheck : PassesChecks m.n l r sample_size) {i : Int32}
    (hi : l.toInt ≤ i.toInt ∧ i.toInt ≤ r.toInt) :
    (0 ≤ i.toInt ∧ i.toInt < m.n.toInt) ∧ (m.row i.toInt.toNat).length = m.d.toInt.toNat := by
  obtain ⟨hl, hr, -, -⟩ := hcheck.bounds
  obtain ⟨hvalid, hlen⟩ := loadBin_valid hload
  have hnonneg : 0 ≤ i.toInt := hl.trans hi.1
  have hlt : i.toInt < m.n.toInt := lt_of_le_of_lt hi.2 hr
  exact ⟨⟨hnonneg, hlt⟩, length_row_of_lt hlen (validHeader_iff.mp hvalid).2.le hnonneg hlt⟩

/-- A subset is not larger than its source. -/
theorem subset_fits (hload : Returns (loadBin size element files.content path) m)
    (hcheck : PassesChecks m.n l r sample_size) :
    size * (totalSize sample_size m.d).toNat < 2 ^ 63 := by
  obtain ⟨hl, hr, hpos, hsize⟩ := hcheck.bounds
  obtain ⟨hvalid, -⟩ := loadBin_valid hload
  obtain ⟨hn, hd⟩ := validHeader_iff.mp hvalid
  refine lt_of_le_of_lt (Nat.mul_le_mul_left size ?_) (loadBin_fits hload)
  rw [toNat_offset hpos.le hd.le, toNat_offset hn.le hd.le]
  exact Nat.mul_le_mul_right _ (by omega)

/-- **A call that passes the checks**, and what it writes. -/
theorem sampleAndSaveSubsetBin_returns
    (hload : Returns (loadBin size element files.content path) m)
    (hcheck : PassesChecks m.n l r sample_size)
    (hshuffle : (shuffle (indexRange l r)).Perm (indexRange l r))
    (hopen : files.writable output_filename = true) :
    Returns (sampleAndSaveSubsetBin size element toBytes blank shuffle files path l r sample_size
        output_filename)
      (files.write output_filename (int32Bytes sample_size ++ (int32Bytes m.d ++
        (((shuffle (indexRange l r)).take sample_size.toInt.toNat).flatMap
          fun i => m.row i.toInt.toNat).flatMap toBytes))) := by
  obtain ⟨-, -, hpos, -⟩ := hcheck.bounds
  obtain ⟨hvalid, hlen⟩ := loadBin_valid hload
  obtain ⟨-, hd⟩ := validHeader_iff.mp hvalid
  obtain ⟨hcount, -, hmem⟩ := chosen_indices hcheck hshuffle
  have hsmall := sample_size.toInt_lt
  have hfresh : (List.replicate (totalSize sample_size m.d).toNat blank).length =
      sample_size.toInt.toNat * m.d.toInt.toNat := by
    rw [List.length_replicate, toNat_offset hpos.le hd.le]
  have hrows := copyRows_eq hlen hd.le (fun i hi => (row_in_source hload hcheck (hmem i hi)).1)
    hcount (by omega) hfresh
  unfold sampleAndSaveSubsetBin
  refine hload.bind ?_
  dsimp only
  rw [if_neg hcheck.1, if_neg hcheck.2]
  refine (newArray_returns (subset_fits hload hcheck)).bind ?_
  rw [if_pos hopen, hrows]
  exact returns_pure _

/-- **What was written is loaded again**, row by row. -/
theorem subset_reloads (hbytes : ∀ a, (toBytes a).length = size)
    (hback : ∀ a, element (toBytes a) = a)
    (hload : Returns (loadBin size element files.content path) m)
    (hcheck : PassesChecks m.n l r sample_size) {indices : List Int32}
    (hcount : indices.length = sample_size.toInt.toNat)
    (hmem : ∀ i ∈ indices, l.toInt ≤ i.toInt ∧ i.toInt ≤ r.toInt) {disk : BinaryDisk}
    (hfile : disk output_filename = some (int32Bytes sample_size ++ (int32Bytes m.d ++
      (indices.flatMap fun i => m.row i.toInt.toNat).flatMap toBytes))) :
    Returns (loadBin size element disk output_filename)
      ⟨sample_size, m.d, indices.flatMap fun i => m.row i.toInt.toNat⟩ := by
  obtain ⟨-, -, hpos, -⟩ := hcheck.bounds
  obtain ⟨hvalid, -⟩ := loadBin_valid hload
  obtain ⟨-, hd⟩ := validHeader_iff.mp hvalid
  have htotal : (indices.flatMap fun i => m.row i.toInt.toNat).length =
      (totalSize sample_size m.d).toNat := by
    rw [toNat_offset hpos.le hd.le, ← hcount]
    exact length_rows fun i hi => (row_in_source hload hcheck (hmem i hi)).2
  have hdata : ((indices.flatMap fun i => m.row i.toInt.toNat).flatMap toBytes).length =
      size * (totalSize sample_size m.d).toNat := by
    rw [length_flatMap_bytes hbytes, htotal]
  have hvalues := elements_flatMap hbytes hback (indices.flatMap fun i => m.row i.toInt.toNat) []
  rw [List.append_nil, htotal] at hvalues
  rw [← List.append_nil ((indices.flatMap _).flatMap toBytes)] at hfile
  have hreturns : Returns (loadBin size element disk output_filename) _ :=
    loadBin_returns (validHeader_iff.mpr ⟨hpos, hd⟩) hdata hfile (subset_fits hload hcheck)
  rwa [hvalues] at hreturns

end Subsets

-- ---------------------------------------------------------------------------
-- The two formats
-- ---------------------------------------------------------------------------

/-- A loader accepts exactly the files that hold a matrix, as long as the matrix can be
allocated at all; on every other file it throws. -/
def AcceptsMatrices {α : Type} (size : ℕ) (load : BinaryDisk → String → Run (Loaded α)) : Prop :=
  ∀ (disk : BinaryDisk) (filename : String) (bytes : List UInt8), disk filename = some bytes →
    (size * matrixSize bytes < 2 ^ 63 →
      ((∃ m, Returns (load disk filename) m) ↔ HoldsMatrix size bytes)) ∧
    (¬ HoldsMatrix size bytes → ∃ what, Fails (load disk filename) (.exception what))

/-- For every request that passes the checks and every outcome of the shuffle, the file that is
written holds rows of the source. -/
def SubsetReloads {α : Type} (load : BinaryDisk → String → Run (Loaded α))
    (sample : (List Int32 → List Int32) → FileSystem → String → Int32 → Int32 → Int32 → String →
      Run FileSystem) : Prop :=
  ∀ (shuffle : List Int32 → List Int32) (files : FileSystem) (path output_filename : String)
    (l r sample_size : Int32) (m : Loaded α), Returns (load files.content path) m →
    PassesChecks m.n l r sample_size → (∀ indices, (shuffle indices).Perm indices) →
    files.writable output_filename = true →
    ∃ (files' : FileSystem) (m' : Loaded α) (indices : List Int32),
      Returns (sample shuffle files path l r sample_size output_filename) files' ∧
      Returns (load files'.content output_filename) m' ∧
      m'.n = sample_size ∧ m'.d = m.d ∧
      indices.length = sample_size.toInt.toNat ∧ indices.Nodup ∧
      (∀ i ∈ indices, l.toInt ≤ i.toInt ∧ i.toInt ≤ r.toInt) ∧
      ∀ (k : ℕ) (hk : k < indices.length),
        m'.row k = m.row indices[k].toInt.toNat ∧ (m'.row k).length = m.d.toInt.toNat

theorem acceptsMatrices_loadBin {α : Type} (size : ℕ) (element : List UInt8 → α) :
    AcceptsMatrices size (loadBin size element) := by
  intro disk filename bytes hfile
  refine ⟨fun hmemory => ⟨fun ⟨m, h⟩ => ((loadBin_returns_iff hfile).mp h).1, fun h =>
    ⟨_, (loadBin_returns_iff hfile).mpr ⟨h, hmemory, rfl⟩⟩⟩, fun hnot => ?_⟩
  refine (loadBin_ends size element disk filename).resolve_left fun ⟨m, h⟩ => ?_
  exact hnot ((loadBin_returns_iff hfile).mp h).1

theorem subsetReloads_bin {α : Type} {size : ℕ} {element : List UInt8 → α}
    {toBytes : α → List UInt8} (hbytes : ∀ a, (toBytes a).length = size)
    (hback : ∀ a, element (toBytes a) = a) (blank : α) :
    SubsetReloads (loadBin size element) (sampleAndSaveSubsetBin size element toBytes blank) := by
  intro shuffle files path output_filename l r sample_size m hload hcheck hshuffle hopen
  obtain ⟨hcount, hnodup, hmem⟩ := chosen_indices hcheck (hshuffle (indexRange l r))
  have hrow : ∀ i ∈ (shuffle (indexRange l r)).take sample_size.toInt.toNat,
      (m.row i.toInt.toNat).length = m.d.toInt.toNat :=
    fun i hi => (row_in_source hload hcheck (hmem i hi)).2
  refine ⟨_, _, _, sampleAndSaveSubsetBin_returns hload hcheck (hshuffle _) hopen,
    subset_reloads hbytes hback hload hcheck hcount hmem (FileSystem.content_write ..), rfl, rfl,
    hcount, hnodup, hmem, fun k hk => ?_⟩
  have hcopy := row_flatMap hrow hk
  refine ⟨hcopy, ?_⟩
  rw [Loaded.row, hcopy]
  exact hrow _ (List.getElem_mem hk)

theorem length_floatBytes (bits : UInt32) : (floatBytes bits).length = 4 := length_toBytes 4 _

theorem ofFloatBytes_floatBytes (bits : UInt32) : ofFloatBytes (floatBytes bits) = bits := by
  rw [ofFloatBytes, floatBytes, ofBytes_toBytes bits.toNat_lt, UInt32.ofNat_toNat]

theorem length_u8Bytes (v : UInt8) : (u8Bytes v).length = 1 := length_toBytes 1 _

theorem ofU8Bytes_u8Bytes (v : UInt8) : ofU8Bytes (u8Bytes v) = v := by
  rw [ofU8Bytes, u8Bytes, ofBytes_toBytes v.toNat_lt, UInt8.ofNat_toNat]

/-- **Loading and sampling**, for both formats. -/
theorem load_and_subset :
    ((∀ (F : Type) (ofBits : UInt32 → F), AcceptsMatrices 4 (loadFbin ofBits)) ∧
      SubsetReloads (loadFbin id) sampleAndSaveSubsetFbin) ∧
    AcceptsMatrices 1 loadU8bin ∧ SubsetReloads loadU8bin sampleAndSaveSubsetU8bin :=
  ⟨⟨fun _ _ => acceptsMatrices_loadBin 4 _,
      subsetReloads_bin length_floatBytes ofFloatBytes_floatBytes 0⟩,
    acceptsMatrices_loadBin 1 _, subsetReloads_bin length_u8Bytes ofU8Bytes_u8Bytes 0⟩

/-- Three rows of two bytes. -/
def threeRows : FileSystem where
  content filename :=
    if filename = "base.u8bin" then some [3, 0, 0, 0, 2, 0, 0, 0, 10, 11, 20, 21, 30, 31] else none
  writable _ := true

theorem load_and_subset_threeRows :
    ∃ (files' : FileSystem) (m' : Loaded UInt8),
      Returns (sampleAndSaveSubsetU8bin List.reverse threeRows "base.u8bin" 1 2 2 "query.u8bin")
        files' ∧
      Returns (loadU8bin files'.content "query.u8bin") m' ∧ m'.n = 2 ∧ m'.d = 2 := by
  have hload : Returns (loadU8bin threeRows.content "base.u8bin")
      ⟨3, 2, [10, 11, 20, 21, 30, 31]⟩ :=
    returns_of_value (n := 0) (by decide)
  obtain ⟨files', m', -, hsample, hreload, hn, hd, -⟩ := load_and_subset.2.2 List.reverse threeRows
    "base.u8bin" "query.u8bin" 1 2 2 _ hload (by decide) List.reverse_perm rfl
  exact ⟨files', m', hsample, hreload, hn, hd⟩

end Mqo
