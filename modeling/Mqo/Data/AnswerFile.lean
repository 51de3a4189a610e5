import Mqo.Data.Loader

/-!
# MQO — the file of the answers

`save2DvecToBinary` and `load2DvecFromBinary` of `data_handler/answer_handler.hpp`: the
number of vectors, and for each vector its length and its numbers. The lengths are
`size_t`, the numbers `int`, all in the byte order of the machine.

* `loadInnerVecs_returns`   — the loop over the inner vectors reads back what was written,
  whatever comes behind it;
* `loadInnerVecs_truncated` — it fails where the end of that is cut off;
* `load2Dvec_save2Dvec`     — both for whole files.
-/

namespace Mqo

open Prog ByteStream

-- ---------------------------------------------------------------------------
-- The functions
-- ---------------------------------------------------------------------------

/-- `max_size()` of a vector whose elements have `size` bytes. -/
def maxSize (size : ℕ) : ℕ := (2 ^ 63 - 1) / size

/-- The check in front of an allocation of `count` elements; memory is taken to suffice. -/
def checkLength (what : String) (size count : ℕ) : Run Unit :=
  if maxSize size < count then fault (.exception what) else pure ()

/-- `vector<vector<int>>`: no vector is longer than its `max_size()`. -/
structure IntVectors where
  rows     : List (List Int32)
  outer_le : rows.length ≤ maxSize 24
  inner_le : ∀ row ∈ rows, row.length ≤ maxSize 4

/-- What the loop of `save2DvecToBinary` writes for one inner vector. -/
def innerBytes (innerVec : List Int32) : List UInt8 :=
  toBytes 8 innerVec.length ++
    if 0 < innerVec.length then innerVec.flatMap int32Bytes else []

/-- All that `save2DvecToBinary` writes. -/
def vecBytes (data : List (List Int32)) : List UInt8 :=
  toBytes 8 data.length ++ data.flatMap innerBytes

/-- What `save2DvecToBinary` returns, the files it leaves, and what it prints. -/
structure SaveResult where
  ok : Bool
  files : FileSystem
  cerr : String

/-- `save2DvecToBinary`; writing to a file that could be opened succeeds. -/
def save2DvecToBinary (files : FileSystem) (data : List (List Int32)) (filename : String) :
    SaveResult :=
  if files.writable filename then ⟨true, files.write filename (vecBytes data), ""⟩
  else ⟨false, files, "Error: Could not open file " ++ filename ++ " for writing.\n"⟩

/-- What `load2DvecFromBinary` returns, the vectors it leaves in `data`, and what it
prints. -/
structure LoadResult where
  ok : Bool
  data : List (List Int32)
  cerr : String
deriving DecidableEq

/-- The loop over the inner vectors that are still to come; as many as there are in `data`
have been read. -/
def loadInnerVecs (filename : String) : ℕ → IStream → List (List Int32) → Run LoadResult
  | 0, _, data => pure ⟨true, data, ""⟩
  | k + 1, inFile, data => do
    let size := read inFile 8
    if size.2.good = true then do
      let innerSize := ofBytes size.1
      checkLength "vector::_M_default_append" 4 innerSize
      if 0 < innerSize then
        let payload := read size.2 (4 * innerSize)
        if payload.2.good = true then
          loadInnerVecs filename k payload.2
            (data ++ [elements 4 innerSize ofInt32Bytes payload.1])
        else pure ⟨false, data, "Error: Failed to read data for inner vector " ++
          toString data.length ++ " from file " ++ filename ++ ".\n"⟩
      else loadInnerVecs filename k size.2 (data ++ [[]])
    else pure ⟨false, data, "Error: Failed to read the size of inner vector " ++
      toString data.length ++ " from file " ++ filename ++ ".\n"⟩

/-- `load2DvecFromBinary`; `data` are the vectors before. -/
def load2DvecFromBinary (disk : BinaryDisk) (data : List (List Int32)) (filename : String) :
    Run LoadResult :=
  match disk filename with
  | none => pure ⟨false, data, "Error: Could not open file " ++ filename ++ " for reading.\n"⟩
  | some bytes => do
    let size := read ⟨bytes, true⟩ 8
    if size.2.good = true then do
      let outerSize := ofBytes size.1
      checkLength "vector::reserve" 24 outerSize
      loadInnerVecs filename outerSize size.2 []
    else pure ⟨false, [], "Error: Failed to read the outer size from file " ++ filename ++ ".\n"⟩

-- ---------------------------------------------------------------------------
-- One inner vector
-- ---------------------------------------------------------------------------

theorem checkLength_returns {what : String} {size count : ℕ} (h : count ≤ maxSize size) :
    Returns (checkLength what size count) () := by
  rw [checkLength, if_neg (not_lt.mpr h)]
  exact returns_pure ()

/-- The length of a vector fits its field. -/
theorem ofBytes_size {size count : ℕ} (h : count ≤ maxSize size) :
    ofBytes (toBytes 8 count) = count := by
  refine ofBytes_toBytes (lt_of_le_of_lt (h.trans (Nat.div_le_self _ _)) ?_)
  decide

variable {filename : String} {row : List Int32}

/-- The bytes of an inner vector, without a case for the empty one. -/
theorem innerBytes_eq (row : List Int32) :
    innerBytes row = toBytes 8 row.length ++ row.flatMap int32Bytes := by
  unfold innerBytes
  split
  · rfl
  · next hempty =>
    rw [List.length_eq_zero_iff.mp (Nat.eq_zero_of_not_pos hempty)]
    rfl

theorem elements_row (row : List Int32) :
    elements 4 row.length ofInt32Bytes (row.flatMap int32Bytes) = row := by
  have h := elements_flatMap length_int32Bytes ofInt32Bytes_int32Bytes row []
  rwa [List.append_nil] at h

theorem length_row (row : List Int32) : (row.flatMap int32Bytes).length = 4 * row.length :=
  length_flatMap_bytes length_int32Bytes row

/-- **One iteration**: an inner vector at the front of the stream is read. -/
theorem loadInnerVecs_succ (h : row.length ≤ maxSize 4) (k : ℕ) (rest : List UInt8)
    (data : List (List Int32)) {r : LoadResult}
    (hrest : Returns (loadInnerVecs filename k ⟨rest, true⟩ (data ++ [row])) r) :
    Returns (loadInnerVecs filename (k + 1) ⟨innerBytes row ++ rest, true⟩ data) r := by
  rw [innerBytes_eq, List.append_assoc, loadInnerVecs, read_append (length_toBytes 8 _),
    ofBytes_size h]
  dsimp only
  rw [if_pos rfl]
  refine (checkLength_returns h).bind ?_
  by_cases hrow : 0 < row.length
  · rw [if_pos hrow, read_append (length_row row), elements_row]
    exact hrest
  · have hnil : row = [] := List.length_eq_zero_iff.mp (Nat.eq_zero_of_not_pos hrow)
    subst hnil
    rw [if_neg hrow]
    exact hrest

/-- An iteration on a stream that ends inside the inner vector. -/
theorem loadInnerVecs_cut (h : row.length ≤ maxSize 4) (k : ℕ) (data : List (List Int32))
    {pre : List UInt8} (hpre : Truncated pre (innerBytes row)) :
    ∃ r, Returns (loadInnerVecs filename (k + 1) ⟨pre, true⟩ data) r ∧ r.ok = false := by
  rw [innerBytes_eq] at hpre
  rw [loadInnerVecs]
  rcases read_truncated (length_toBytes 8 _) hpre with hfail | ⟨post, hpost, hread⟩
  · rw [hfail]
    exact ⟨_, returns_pure _, rfl⟩
  · rw [hread, ofBytes_size h]
    dsimp only
    rw [if_pos rfl]
    have hlen := hpost.length_lt
    rw [length_row] at hlen
    rw [if_pos (show 0 < row.length by omega), read_short hlen]
    exact ⟨_, (checkLength_returns h).bind (returns_pure _), rfl⟩

-- ---------------------------------------------------------------------------
-- All inner vectors
-- ---------------------------------------------------------------------------

/-- **The loop** reads back what was written. -/
theorem loadInnerVecs_returns {rows : List (List Int32)} (h : ∀ row ∈ rows, row.length ≤ maxSize 4)
    (rest : List UInt8) (data : List (List Int32)) :
    Returns (loadInnerVecs filename rows.length ⟨rows.flatMap innerBytes ++ rest, true⟩ data)
      ⟨true, data ++ rows, ""⟩ := by
  induction rows generalizing data with
  | nil =>
    rw [List.append_nil]
    exact returns_pure _
  | cons row rows ih =>
    have hrest := ih (fun row hrow => h row (List.mem_cons_of_mem _ hrow)) (data ++ [row])
    rw [List.append_assoc, List.singleton_append] at hrest
    rw [List.flatMap_cons, List.append_assoc]
    exact loadInnerVecs_succ (h row List.mem_cons_self) rows.length _ data hrest

variable (filename) in
/-- **The loop on a stream that was cut off**: it fails in the inner vector that is no longer
whole. -/
theorem loadInnerVecs_truncated {rows : List (List Int32)}
    (h : ∀ row ∈ rows, row.length ≤ maxSize 4) (data : List (List Int32)) {pre : List UInt8}
    (hpre : Truncated pre (rows.flatMap innerBytes)) :
    ∃ r, Returns (loadInnerVecs filename rows.length ⟨pre, true⟩ data) r ∧ r.ok = false := by
  induction rows generalizing data pre with
  | nil => exact absurd hpre (not_truncated_nil pre)
  | cons row rows ih =>
    rcases hpre.of_append with hin | ⟨post, hpost, rfl⟩
    · exact loadInnerVecs_cut (h row List.mem_cons_self) rows.length data hin
    · obtain ⟨r, hret, hok⟩ :=
        ih (fun row hrow => h row (List.mem_cons_of_mem _ hrow)) (data ++ [row]) hpost
      exact ⟨r, loadInnerVecs_succ (h row List.mem_cons_self) rows.length post data hret, hok⟩

-- ---------------------------------------------------------------------------
-- Whole files
-- ---------------------------------------------------------------------------

variable {disk : BinaryDisk}

/-- A file that starts with what was written. -/
theorem load2Dvec_returns (v : IntVectors) {rest : List UInt8}
    (hfile : disk filename = some (vecBytes v.rows ++ rest)) (data : List (List Int32)) :
    Returns (load2DvecFromBinary disk data filename) ⟨true, v.rows, ""⟩ := by
  unfold load2DvecFromBinary
  rw [hfile]
  dsimp only
  rw [vecBytes, List.append_assoc, read_append (length_toBytes 8 _), ofBytes_size v.outer_le]
  dsimp only
  rw [if_pos rfl]
  exact (checkLength_returns v.outer_le).bind (loadInnerVecs_returns v.inner_le rest [])

/-- A file whose end is missing. -/
theorem load2Dvec_truncated (v : IntVectors) {pre : List UInt8}
    (hpre : Truncated pre (vecBytes v.rows)) (hfile : disk filename = some pre)
    (data : List (List Int32)) :
    ∃ r, Returns (load2DvecFromBinary disk data filename) r ∧ r.ok = false := by
  unfold load2DvecFromBinary
  rw [hfile]
  dsimp only
  rcases read_truncated (length_toBytes 8 _) hpre with hfail | ⟨post, hpost, hread⟩
  · rw [hfail]
    exact ⟨_, returns_pure _, rfl⟩
  · obtain ⟨r, hret, hok⟩ := loadInnerVecs_truncated filename v.inner_le [] hpost
    rw [hread, ofBytes_size v.outer_le]
    dsimp only
    rw [if_pos rfl]
    exact ⟨r, (checkLength_returns v.outer_le).bind hret, hok⟩

/-- **Saving and loading.** The vectors that were saved are loaded again, also with other bytes
behind them; no file that lacks the end of what was written is loaded. -/
theorem load2Dvec_save2Dvec (v : IntVectors) {files : FileSystem} {filename : String}
    (hopen : files.writable filename = true) :
    ∃ bytes, (save2DvecToBinary files v.rows filename).ok = true ∧
      (save2DvecToBinary files v.rows filename).files.content filename = some bytes ∧
      (∀ data, Returns (load2DvecFromBinary
        (save2DvecToBinary files v.rows filename).files.content data filename)
        ⟨true, v.rows, ""⟩) ∧
      ∀ (disk : BinaryDisk) (name : String) (data : List (List Int32)),
        (∀ pre, pre <+: bytes → pre ≠ bytes → disk name = some pre →
          ∃ r, Returns (load2DvecFromBinary disk data name) r ∧ r.ok = false) ∧
        ∀ rest, disk name = some (bytes ++ rest) →
          Returns (load2DvecFromBinary disk data name) ⟨true, v.rows, ""⟩ := by
  have hsave : save2DvecToBinary files v.rows filename =
      ⟨true, files.write filename (vecBytes v.rows), ""⟩ := if_pos hopen
  rw [hsave]
  refine ⟨vecBytes v.rows, rfl, files.content_write _ _, fun data => ?_, fun disk name data =>
    ⟨fun pre hpre hne hfile => load2Dvec_truncated v ⟨hpre, hne⟩ hfile data,
      fun rest hfile => load2Dvec_returns v hfile data⟩⟩
  have hfile : (files.write filename (vecBytes v.rows)).content filename =
      some (vecBytes v.rows ++ []) := by
    rw [List.append_nil]
    exact files.content_write _ _
  exact load2Dvec_returns v hfile data

/-- Three vectors, one of them empty. -/
def sampleVectors : IntVectors where
  rows := [[7, -1], [], [3]]
  outer_le := by decide
  inner_le := by decide

/-- An empty disk on which every name can be written. -/
def emptyFiles : FileSystem := ⟨fun _ => none, fun _ => true⟩

theorem load2Dvec_save2Dvec_sample :
    ∃ bytes, bytes.length = 44 ∧
      (save2DvecToBinary emptyFiles sampleVectors.rows "answer.bin").files.content "answer.bin" =
        some bytes ∧
      ∀ pre, pre <+: bytes → pre ≠ bytes →
        ∃ r, Returns (load2DvecFromBinary (fun _ => some pre) [] "answer.bin") r ∧ r.ok = false := by
  obtain ⟨bytes, -, hsaved, -, hload⟩ :=
    load2Dvec_save2Dvec sampleVectors (show emptyFiles.writable "answer.bin" = true from rfl)
  refine ⟨bytes, ?_, hsaved, fun pre hpre hne => (hload _ _ _).1 pre hpre hne rfl⟩
  obtain rfl := Option.some.inj (hsaved.symm.trans (emptyFiles.content_write _ _))
  rfl

end Mqo
