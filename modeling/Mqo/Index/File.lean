import Mqo.Data.Loader
import Mqo.Index.Build
import Mqo.Lib.FileStream

/-!
# MQO — saving and loading an HNSW index

`saveIndex` and `loadIndex` of `hnsw_exp/hnswlib/hnswalg.h`, byte for byte: the
members of the header, the records of all elements, and for each element the
size of its upper lists and the lists. `loadIndex` walks over the sizes once to
check that they end at the end of the file, goes back, and reads.

* `saveIndex_returns` — what is written for an index that has been filled;
* `readHeader_saved`, `checkFile_returns`, `loadElements_returns` — the three passes
  over such a file;
* `loadIndex_returns` — the index that is read back holds the same rows under the
  same labels.
-/

namespace Mqo.Index

open Prog Memory ByteStream
open Mqo.Search.Hnsw (VisitedList VisitedListPool)

-- ---------------------------------------------------------------------------
-- Saving
-- ---------------------------------------------------------------------------

section Save

variable {L : Layout} (s : HierarchicalNSW L)

/-- What the calls of `writeBinaryPOD` write before the records. -/
def headerBytes : List UInt8 :=
  toBytes 8 L.offsetLevel0 ++ (toBytes 8 L.max_elements ++ (toBytes 8 s.cur_element_count ++
  (toBytes 8 L.size_data_per_element ++ (toBytes 8 L.label_offset ++ (toBytes 8 L.offsetData ++
  (int32Bytes (Int32.ofInt s.maxlevel) ++ (toBytes 4 s.enterpoint_node ++ (toBytes 8 L.maxM ++
  (toBytes 8 L.maxM0 ++ (toBytes 8 L.M ++ (toBytes 8 L.mult.toNat ++
  toBytes 8 L.ef_construction)))))))))))

/-- `linkListSize`, an `unsigned int`. -/
def linkListSize (i : ℕ) : ℕ :=
  (if 0 < s.element_levels i then L.size_links_per_element * s.element_levels i else 0) % 2 ^ 32

/-- What is written for the upper lists of an element. -/
def writeLists (output : List UInt8) (i : ℕ) : Run (List UInt8) := do
  let lists ←
    if linkListSize s i ≠ 0 then load s.memory ⟨.linkLists i, 0, linkListSize s i⟩ else pure []
  pure (output ++ (toBytes 4 (linkListSize s i) ++ lists))

/-- `saveIndex`: the contents of the file. -/
def saveIndex : Run (List UInt8) := do
  let records ←
    load s.memory ⟨.data_level0_memory, 0, s.cur_element_count * L.size_data_per_element⟩
  (List.range s.cur_element_count).foldlM (writeLists s) (headerBytes s ++ records)

end Save

-- ---------------------------------------------------------------------------
-- Loading
-- ---------------------------------------------------------------------------

/-- `readBinaryPOD` for a number of `w` bytes. -/
def readPod (input : FileStream) (w : ℕ) : ℕ × FileStream :=
  let r := input.read w
  (ofBytes r.1, r.2)

/-- The members that the file starts with. -/
structure Header where
  offsetLevel0 : ℕ
  max_elements : ℕ
  cur_element_count : ℕ
  size_data_per_element : ℕ
  label_offset : ℕ
  offsetData : ℕ
  maxlevel : ℤ
  enterpoint_node : ℕ
  maxM : ℕ
  maxM0 : ℕ
  M : ℕ
  mult : UInt64
  ef_construction : ℕ

/-- The calls of `readBinaryPOD` before the records. -/
def readHeader (input : FileStream) : Header × FileStream :=
  let offsetLevel0 := readPod input 8
  let max_elements := readPod offsetLevel0.2 8
  let cur_element_count := readPod max_elements.2 8
  let size_data_per_element := readPod cur_element_count.2 8
  let label_offset := readPod size_data_per_element.2 8
  let offsetData := readPod label_offset.2 8
  let maxlevel := offsetData.2.read 4
  let enterpoint_node := readPod maxlevel.2 4
  let maxM := readPod enterpoint_node.2 8
  let maxM0 := readPod maxM.2 8
  let M := readPod maxM0.2 8
  let mult := readPod M.2 8
  let ef_construction := readPod mult.2 8
  ({ offsetLevel0 := offsetLevel0.1
     max_elements := max_elements.1
     cur_element_count := cur_element_count.1
     size_data_per_element := size_data_per_element.1
     label_offset := label_offset.1
     offsetData := offsetData.1
     maxlevel := (ofInt32Bytes maxlevel.1).toInt
     enterpoint_node := enterpoint_node.1
     maxM := maxM.1
     maxM0 := maxM0.1
     M := M.1
     mult := UInt64.ofNat mult.1
     ef_construction := ef_construction.1 }, ef_construction.2)

/-- The layout that `loadIndex` works with; `max_elements_i` is its last argument. -/
def loadedLayout (header : Header) (max_elements_i data_size : ℕ) : Layout where
  max_elements :=
    if max_elements_i < header.cur_element_count then header.max_elements else max_elements_i
  M := header.M
  maxM := header.maxM
  maxM0 := header.maxM0
  ef_construction := header.ef_construction
  mult := header.mult
  size_links_level0 := header.maxM0 * 4 + 4
  size_data_per_element := header.size_data_per_element
  size_links_per_element := header.maxM * 4 + 4
  offsetData := header.offsetData
  offsetLevel0 := header.offsetLevel0
  label_offset := header.label_offset
  data_size := data_size

/-- One step of the walk over the sizes. -/
def checkSize (total_filesize : ℕ) (input : FileStream) (_i : ℕ) : Run FileStream :=
  if input.tellg < 0 ∨ (total_filesize : ℤ) ≤ input.tellg then
    fault (.exception "Index seems to be corrupted or unsupported")
  else
    let linkListSize := readPod input 4
    pure (if linkListSize.1 ≠ 0 then linkListSize.2.skip linkListSize.1 else linkListSize.2)

/-- The optional check: from the first record to the end of the file. -/
def checkFile (total_filesize : ℕ) (header : Header) (input : FileStream) : Run FileStream := do
  let checked ← (List.range header.cur_element_count).foldlM (checkSize total_filesize)
    (input.skip (header.cur_element_count * header.size_data_per_element))
  if checked.tellg ≠ total_filesize then
    fault (.exception "Index seems to be corrupted or unsupported")
  else pure checked.clear

/-- The members that are filled element by element, and the stream. -/
structure LoadState where
  memory : Memory Region
  element_levels : ℕ → ℕ
  label_lookup : ℕ → Option ℕ
  input : FileStream

/-- One element: its label is entered, and its upper lists are read. -/
def loadElement (L : Layout) (malloc : ℕ → UInt8) (s : LoadState) (i : ℕ) : Run LoadState := do
  let label ← L.getExternalLabel s.memory i
  let linkListSize := readPod s.input 4
  let lists := linkListSize.2.read linkListSize.1
  pure
    (if linkListSize.1 = 0 then
      { memory := s.memory
        element_levels := Function.update s.element_levels i 0
        label_lookup := Function.update s.label_lookup label (some i)
        input := linkListSize.2 }
    else
      { memory := Function.update s.memory (.linkLists i)
          ⟨linkListSize.1, fun k => lists.1.getD k (malloc k)⟩
        element_levels :=
          Function.update s.element_levels i (linkListSize.1 / L.size_links_per_element)
        label_lookup := Function.update s.label_lookup label (some i)
        input := lists.2 })

/-- One element that is marked as deleted is counted. -/
def countDeleted (L : Layout) (m : Memory Region) (num_deleted i : ℕ) : Run ℕ := do
  let deleted ← L.isMarkedDeleted m i
  pure (if deleted then num_deleted + 1 else num_deleted)

/-- An index with the layout that was read. -/
structure LoadedIndex where
  layout : Layout
  index : HierarchicalNSW layout

/-- What `loadIndex` does after the check; `input` is back at the first record. -/
def loadElements {K : Type} (P : Platform K) (L : Layout) (draws : ℕ → LevelDraw) (header : Header)
    (input : FileStream) : Run LoadedIndex := do
  let records := input.read (header.cur_element_count * L.size_data_per_element)
  let memory : Memory Region
    | .data_level0_memory =>
      ⟨L.max_elements * L.size_data_per_element, fun k => records.1.getD k (P.malloc k)⟩
    | .linkLists _ => ⟨0, P.malloc⟩
  let s ← (List.range header.cur_element_count).foldlM (loadElement L P.malloc)
    ⟨memory, fun _ => 0, fun _ => none, records.2⟩
  let num_deleted ← (List.range header.cur_element_count).foldlM (countDeleted L s.memory) 0
  pure
    { layout := L
      index :=
        { cur_element_count := header.cur_element_count
          num_deleted := num_deleted
          maxlevel := header.maxlevel
          enterpoint_node := header.enterpoint_node
          memory := s.memory
          element_levels := s.element_levels
          label_lookup := s.label_lookup
          visited_list_pool := ⟨[VisitedList.new P.newList]⟩
          level_generator := draws } }

/-- `loadIndex`; `draws` are the levels that the new index would draw. -/
def loadIndex {K : Type} (P : Platform K) (space : SpaceInterface K) (draws : ℕ → LevelDraw)
    (disk : BinaryDisk) (location : String) (max_elements_i : ℕ) : Run LoadedIndex :=
  match disk location with
  | none => fault (.exception "Cannot open file")
  | some bytes => do
    let header := readHeader ⟨bytes, 0, true⟩
    let checked ← checkFile bytes.length header.1 header.2
    loadElements P (loadedLayout header.1 max_elements_i space.get_data_size) draws header.1
      (checked.seekg header.2.tellg.toNat)

-- ---------------------------------------------------------------------------
-- What is saved
-- ---------------------------------------------------------------------------

section RoundTrip

variable {L : Layout} {row : ℕ → List UInt8} {n : ℕ} {s : HierarchicalNSW L}

/-- The records of the elements. -/
def recordBytes (s : HierarchicalNSW L) : List UInt8 :=
  bytes s.memory ⟨.data_level0_memory, 0, s.cur_element_count * L.size_data_per_element⟩

/-- The span of the upper lists of an element. -/
def upperSpan (s : HierarchicalNSW L) (i : ℕ) : Span Region :=
  ⟨.linkLists i, 0, s.element_levels i * L.size_links_per_element⟩

/-- The size and the upper lists of an element. -/
def entryBytes (s : HierarchicalNSW L) (i : ℕ) : List UInt8 :=
  toBytes 4 (s.element_levels i * L.size_links_per_element) ++ bytes s.memory (upperSpan s i)

/-- The whole file. -/
def fileBytes (s : HierarchicalNSW L) : List UInt8 :=
  headerBytes s ++ (recordBytes s ++ (List.range s.cur_element_count).flatMap (entryBytes s))

variable (hL : L.WellFormed) (hs : Built L row n s)

include hL hs

omit hL in
/-- A loop over the elements only meets elements. -/
theorem split_lt {pre post : List ℕ} {i : ℕ}
    (hsplit : List.range s.cur_element_count = pre ++ i :: post) : i < n := by
  have hmem : i ∈ List.range s.cur_element_count := by
    rw [hsplit]
    simp
  rw [hs.count] at hmem
  exact List.mem_range.mp hmem

/-- The upper lists of an element fit an `unsigned int`. -/
theorem upper_lt {i : ℕ} (hi : i < n) : s.element_levels i * L.size_links_per_element < 2 ^ 32 := by
  have hlevel := hs.level_le i hi
  have hsize : L.size_links_per_element ≤ 40004 := by
    have := hL.links
    have := hL.maxM
    have := hL.M_le
    omega
  calc s.element_levels i * L.size_links_per_element
      ≤ 1074 * 40004 := Nat.mul_le_mul hlevel hsize
    _ < 2 ^ 32 := by decide

theorem linkListSize_eq {i : ℕ} (hi : i < n) :
    linkListSize s i = s.element_levels i * L.size_links_per_element := by
  have hlt := upper_lt hL hs hi
  unfold linkListSize
  split
  · rw [Nat.mul_comm, Nat.mod_eq_of_lt hlt]
  · next hzero =>
    rw [Nat.eq_zero_of_not_pos hzero, Nat.zero_mul, Nat.zero_mod]

theorem writeLists_returns {i : ℕ} (hi : i < n) (output : List UInt8) :
    Returns (writeLists s output i) (output ++ entryBytes s i) := by
  unfold writeLists
  rw [linkListSize_eq hL hs hi]
  by_cases hzero : s.element_levels i * L.size_links_per_element = 0
  · rw [if_neg (not_not.mpr hzero)]
    have hnil : bytes s.memory (upperSpan s i) = [] := by
      rw [← List.length_eq_zero_iff, length_bytes]
      exact hzero
    unfold entryBytes
    rw [hnil]
    exact (returns_pure _).bind (returns_pure _)
  · rw [if_pos hzero]
    refine (load_returns ?_).bind (returns_pure _)
    show 0 + s.element_levels i * L.size_links_per_element ≤ (s.memory (.linkLists i)).size
    rw [Nat.zero_add]
    exact hs.graph.upper i hi

/-- **Saving.** -/
theorem saveIndex_returns : Returns (saveIndex s) (fileBytes s) := by
  have hrecords : Returns (load s.memory
      ⟨.data_level0_memory, 0, s.cur_element_count * L.size_data_per_element⟩) (recordBytes s) := by
    refine load_returns ?_
    show 0 + s.cur_element_count * L.size_data_per_element ≤ (s.memory .data_level0_memory).size
    rw [hs.graph.level0, Nat.zero_add, hs.count]
    exact Nat.mul_le_mul_right _ hs.graph.capacity
  obtain ⟨file, hfold, hfile⟩ := foldlM_returns (f := writeLists s)
    (fun pre file => file = (headerBytes s ++ recordBytes s) ++ pre.flatMap (entryBytes s))
    (l := List.range s.cur_element_count)
    (fun pre i post file hsplit hfile => by
      have hi := split_lt hs hsplit
      refine ⟨_, writeLists_returns hL hs hi file, ?_⟩
      rw [hfile, List.flatMap_append, List.flatMap_singleton, List.append_assoc, List.append_assoc])
    (s := headerBytes s ++ recordBytes s) (by simp)
  rw [List.append_assoc] at hfile
  rw [hfile] at hfold
  exact hrecords.bind hfold

-- ---------------------------------------------------------------------------
-- The header
-- ---------------------------------------------------------------------------

omit hL hs in
theorem readPod_reached {w v : ℕ} (h : v < 256 ^ w) (before rest : List UInt8) :
    readPod (.reached before (toBytes w v ++ rest)) w = (v, .reached (before ++ toBytes w v) rest) := by
  unfold readPod
  rw [FileStream.read_reached (length_toBytes w v)]
  dsimp only
  rw [ofBytes_toBytes h]

omit hL hs in
/-- The members of an index that go into the header. -/
def headerOf (s : HierarchicalNSW L) : Header where
  offsetLevel0 := L.offsetLevel0
  max_elements := L.max_elements
  cur_element_count := s.cur_element_count
  size_data_per_element := L.size_data_per_element
  label_offset := L.label_offset
  offsetData := L.offsetData
  maxlevel := s.maxlevel
  enterpoint_node := s.enterpoint_node
  maxM := L.maxM
  maxM0 := L.maxM0
  M := L.M
  mult := L.mult
  ef_construction := L.ef_construction

/-- **The header** is read back. -/
theorem readHeader_saved (hpos : 0 < n) (rest : List UInt8) :
    readHeader (.reached [] (headerBytes s ++ rest)) =
      (headerOf s, .reached (headerBytes s) rest) := by
  have hcount := hs.count
  have hcapacity := hs.graph.capacity
  obtain ⟨hmax, -, hM, hmaxM, hmaxM0, -, hef, hdata, hlevel0, hsize, -, hoffset, hfirst, hlabel⟩ := hL
  obtain ⟨hep, hlevel⟩ := hs.entry.resolve_left fun h => by omega
  have hmaxlevel : (Int32.ofInt s.maxlevel).toInt = s.maxlevel := by
    have := hs.level_le s.enterpoint_node hep
    exact Int32.toInt_ofInt_of_le (by omega) (by omega)
  have hmult : L.mult.toNat < 256 ^ 8 := L.mult.toNat_lt
  unfold readHeader headerBytes headerOf
  simp only [List.append_assoc,
    readPod_reached (w := 8) (v := L.offsetLevel0) (by omega),
    readPod_reached (w := 8) (v := L.max_elements) (by omega),
    readPod_reached (w := 8) (v := s.cur_element_count) (by omega),
    readPod_reached (w := 8) (v := L.size_data_per_element) (by omega),
    readPod_reached (w := 8) (v := L.label_offset) (by omega),
    readPod_reached (w := 8) (v := L.offsetData) (by omega),
    FileStream.read_reached (length_int32Bytes (Int32.ofInt s.maxlevel)),
    readPod_reached (w := 4) (v := s.enterpoint_node) (by omega),
    readPod_reached (w := 8) (v := L.maxM) (by omega),
    readPod_reached (w := 8) (v := L.maxM0) (by omega),
    readPod_reached (w := 8) (v := L.M) (by omega), readPod_reached (w := 8) hmult,
    readPod_reached (w := 8) (v := L.ef_construction) (by omega),
    ofInt32Bytes_int32Bytes, hmaxlevel, UInt64.ofNat_toNat, List.nil_append]

omit hs in
/-- The layout comes back as it was. -/
theorem loadedLayout_saved (hpos : 0 < s.cur_element_count) :
    loadedLayout (headerOf s) 0 L.data_size = L := by
  unfold loadedLayout headerOf
  rw [if_pos hpos, ← hL.level0, ← hL.links]

-- ---------------------------------------------------------------------------
-- The walk over the sizes
-- ---------------------------------------------------------------------------

omit hL hs in
@[simp] theorem length_entryBytes (s : HierarchicalNSW L) (i : ℕ) :
    (entryBytes s i).length = 4 + s.element_levels i * L.size_links_per_element := by
  simp [entryBytes, upperSpan]

/-- One size is read, and its lists are skipped. -/
theorem checkSize_returns {i : ℕ} (hi : i < n) (before rest : List UInt8) {total : ℕ}
    (htotal : total = (before ++ (entryBytes s i ++ rest)).length) :
    Returns (checkSize total (.reached before (entryBytes s i ++ rest)) i)
      (.reached (before ++ entryBytes s i) rest) := by
  have hlt := upper_lt hL hs hi
  have hsize : s.element_levels i * L.size_links_per_element < 256 ^ 4 := by omega
  have hinside : ¬ ((FileStream.reached before (entryBytes s i ++ rest)).tellg < 0 ∨
      (total : ℤ) ≤ (FileStream.reached before (entryBytes s i ++ rest)).tellg) := by
    rw [FileStream.tellg_reached, htotal, List.length_append, List.length_append, length_entryBytes]
    omega
  unfold checkSize
  rw [if_neg hinside]
  unfold entryBytes
  rw [List.append_assoc, readPod_reached hsize]
  dsimp only
  split
  · rw [FileStream.skip_reached (by simp [upperSpan]), List.append_assoc]
    exact returns_pure _
  · next hzero =>
    have hnil : bytes s.memory (upperSpan s i) = [] := by
      rw [← List.length_eq_zero_iff, length_bytes]
      exact not_not.mp hzero
    rw [hnil, List.append_nil, List.nil_append]
    exact returns_pure _

/-- **The check** of a saved file ends at its end. -/
theorem checkFile_returns : Returns (checkFile (fileBytes s).length (headerOf s)
      (.reached (headerBytes s)
        (recordBytes s ++ (List.range s.cur_element_count).flatMap (entryBytes s))))
    (.reached (fileBytes s) []) := by
  have hrecords : (recordBytes s).length = s.cur_element_count * L.size_data_per_element :=
    length_bytes _ _
  obtain ⟨checked, hfold, -, hchecked⟩ := FileStream.entries_returns
    (f := checkSize (fileBytes s).length) id (entryBytes s) (fun _ _ => True)
    (l := List.range s.cur_element_count)
    (fun pre i post input hsplit _ hinput => by
      have hi := split_lt hs hsplit
      obtain rfl : input = _ := hinput
      refine ⟨_, checkSize_returns hL hs hi _ _ ?_, trivial, rfl⟩
      rw [fileBytes, hsplit]
      simp only [List.flatMap_append, List.flatMap_cons, List.append_assoc])
    (s := .reached (headerBytes s ++ recordBytes s)
      ((List.range s.cur_element_count).flatMap (entryBytes s))) trivial rfl
  obtain rfl : checked = _ := hchecked
  have hend : (headerBytes s ++ recordBytes s) ++
      (List.range s.cur_element_count).flatMap (entryBytes s) = fileBytes s := by
    rw [fileBytes, List.append_assoc]
  rw [hend] at hfold
  unfold checkFile
  have hskip : FileStream.skip (.reached (headerBytes s)
      (recordBytes s ++ (List.range s.cur_element_count).flatMap (entryBytes s)))
        ((headerOf s).cur_element_count * (headerOf s).size_data_per_element) =
      .reached (headerBytes s ++ recordBytes s)
        ((List.range s.cur_element_count).flatMap (entryBytes s)) :=
    FileStream.skip_reached hrecords _ _
  rw [hskip]
  refine Returns.bind hfold ?_
  rw [FileStream.tellg_reached, if_neg (not_not.mpr rfl), FileStream.clear_reached]
  exact returns_pure _

-- ---------------------------------------------------------------------------
-- Loading the elements
-- ---------------------------------------------------------------------------

omit hL hs in
/-- The elements in `pre` have been loaded: their levels, their upper lists and the
entries for their labels. -/
structure LoadInv (s : HierarchicalNSW L) (level0 : Block) (pre : List ℕ) (t : LoadState) : Prop where
  level0 : t.memory .data_level0_memory = level0
  level  : ∀ i ∈ pre, t.element_levels i = s.element_levels i
  size   : ∀ i ∈ pre, s.element_levels i * L.size_links_per_element ≤ (t.memory (.linkLists i)).size
  upper  : ∀ i ∈ pre, bytes t.memory (upperSpan s i) = bytes s.memory (upperSpan s i)
  lookup : ∀ i, t.label_lookup i = if i ∈ pre then some i else none

omit hL hs in
/-- What is loaded for an element is found again; the other elements are as before. -/
theorem LoadInv.snoc {level0 : Block} {pre : List ℕ} {t : LoadState} (h : LoadInv s level0 pre t)
    {i : ℕ} (hi : i ∉ pre) (block : Block)
    (hsize : s.element_levels i * L.size_links_per_element ≤ block.size)
    (hupper : ∀ k < s.element_levels i * L.size_links_per_element,
      block.byte k = (s.memory (.linkLists i)).byte k) (input : FileStream) :
    LoadInv s level0 (pre ++ [i])
      { memory := Function.update t.memory (.linkLists i) block
        element_levels := Function.update t.element_levels i (s.element_levels i)
        label_lookup := Function.update t.label_lookup i (some i)
        input := input } := by
  have hother : ∀ j ∈ pre, j ≠ i := fun j hj heq => hi (heq ▸ hj)
  have hregion : ∀ j ∈ pre, Function.update t.memory (.linkLists i) block (.linkLists j) =
      t.memory (.linkLists j) :=
    fun j hj => Function.update_of_ne (fun heq => hother j hj (by injection heq)) ..
  refine
    { level0 := ?_
      level := fun j hj => ?_
      size := fun j hj => ?_
      upper := fun j hj => ?_
      lookup := fun j => ?_ }
  · dsimp only
    rw [Function.update_of_ne (by rintro ⟨⟩)]
    exact h.level0
  · rcases List.mem_append.mp hj with hj | hj
    · exact (Function.update_of_ne (hother j hj) ..).trans (h.level j hj)
    · rw [List.mem_singleton.mp hj]
      exact Function.update_self ..
  · dsimp only
    rcases List.mem_append.mp hj with hj | hj
    · rw [hregion j hj]
      exact h.size j hj
    · rw [List.mem_singleton.mp hj, Function.update_self]
      exact hsize
  · dsimp only
    rcases List.mem_append.mp hj with hj | hj
    · rw [← h.upper j hj]
      exact bytes_congr fun k _ => by
        show (Function.update t.memory (.linkLists i) block (.linkLists j)).byte _ = _
        rw [hregion j hj]
        rfl
    · rw [List.mem_singleton.mp hj]
      refine bytes_congr fun k hk => ?_
      show (Function.update t.memory (.linkLists i) block (.linkLists i)).byte (0 + k) =
        (s.memory (.linkLists i)).byte (0 + k)
      rw [Function.update_self, Nat.zero_add]
      exact hupper k hk
  · dsimp only
    by_cases hj : j = i
    · rw [hj, Function.update_self, if_pos (by simp)]
    · rw [Function.update_of_ne hj, h.lookup j]
      simp [hj]

omit hs in
theorem size_links_pos : 0 < L.size_links_per_element := by
  have := hL.links
  omega

omit hL in
/-- The records that have been read are those that were saved. -/
theorem bytes_loaded {level0 : Block} {rest : ℕ → UInt8}
    (hlevel0 : ∀ k, level0.byte k = (recordBytes s).getD k (rest k)) {m : Memory Region}
    (hm : m .data_level0_memory = level0) {i : ℕ} (hi : i < n) {t : Span Region}
    (ht : Within t (L.record i)) : bytes m t = bytes s.memory t := by
  have hrecord : Within (L.record i) (⟨.data_level0_memory, 0,
      s.cur_element_count * L.size_data_per_element⟩ : Span Region) := by
    refine ⟨rfl, Nat.zero_le _, ?_⟩
    show i * L.size_data_per_element + L.size_data_per_element ≤
      0 + s.cur_element_count * L.size_data_per_element
    rw [hs.count, Nat.zero_add]
    exact slot_le hi
  have hfilled : ∀ k, (m .data_level0_memory).byte k = (recordBytes s).getD k (rest k) := by
    rw [hm]
    exact hlevel0
  exact bytes_within (ht.trans hrecord) (bytes_filled hfilled (length_bytes _ _))

/-- **One element** is loaded. -/
theorem loadElement_returns (malloc : ℕ → UInt8) {level0 : Block} {rest : ℕ → UInt8}
    (hsize0 : level0.size = L.max_elements * L.size_data_per_element)
    (hlevel0 : ∀ k, level0.byte k = (recordBytes s).getD k (rest k)) {pre : List ℕ} {t : LoadState}
    (h : LoadInv s level0 pre t) {i : ℕ} (hi : i < n) (hpre : i ∉ pre) {before after : List UInt8}
    (hinput : t.input = .reached before (entryBytes s i ++ after)) :
    ∃ t', Returns (loadElement L malloc t i) t' ∧ LoadInv s level0 (pre ++ [i]) t' ∧
      t'.input = .reached (before ++ entryBytes s i) after := by
  have hlabel : Returns (L.getExternalLabel t.memory i) i := by
    have hholds : Holds t.memory (L.record i) :=
      holds_record (by rw [h.level0, hsize0]) (hi.trans_le hs.graph.capacity)
    have hret := loadWord_returns (hholds.within (label_within hL i))
    rw [word, bytes_loaded hs hlevel0 h.level0 hi (label_within hL i), ← word,
      hs.label i hi] at hret
    exact hret
  have hlt : s.element_levels i * L.size_links_per_element < 256 ^ 4 := by
    have := upper_lt hL hs hi
    omega
  have hpod : readPod t.input 4 = (s.element_levels i * L.size_links_per_element,
      .reached (before ++ toBytes 4 (s.element_levels i * L.size_links_per_element))
        (bytes s.memory (upperSpan s i) ++ after)) := by
    rw [hinput, entryBytes, List.append_assoc, readPod_reached hlt]
  have hread := FileStream.read_reached (length_bytes s.memory (upperSpan s i))
    (before ++ toBytes 4 (s.element_levels i * L.size_links_per_element)) after
  rw [List.append_assoc, ← entryBytes] at hread
  have hslpe := size_links_pos hL
  refine ⟨_, hlabel.bind (returns_pure _), ?_⟩
  rw [hpod]
  dsimp only
  split
  · next hzero =>
    have hlevel : s.element_levels i = 0 :=
      (Nat.mul_eq_zero.mp hzero).resolve_right hslpe.ne'
    have hsnoc := h.snoc hpre (t.memory (.linkLists i))
      (by rw [hzero]; exact Nat.zero_le _) (fun k hk => by rw [hzero] at hk; omega)
      (.reached (before ++ toBytes 4 (s.element_levels i * L.size_links_per_element))
        (bytes s.memory (upperSpan s i) ++ after))
    rw [Function.update_eq_self, hlevel] at hsnoc
    have hnil : bytes s.memory (upperSpan s i) = [] := by
      rw [← List.length_eq_zero_iff, length_bytes]
      exact hzero
    rw [hlevel]
    refine ⟨hsnoc, ?_⟩
    rw [entryBytes, hnil, List.append_nil, List.nil_append, hlevel]
  · next hpos =>
    have hsnoc := h.snoc hpre
      ⟨s.element_levels i * L.size_links_per_element,
        fun k => (bytes s.memory (upperSpan s i)).getD k (malloc k)⟩ (le_refl _)
      (fun k hk => by
        dsimp only
        rw [List.getD_eq_getElem _ _ (by rw [length_bytes]; exact hk)]
        simp [bytes, upperSpan])
      (.reached (before ++ entryBytes s i) after)
    rw [show (upperSpan s i).length = s.element_levels i * L.size_links_per_element from rfl] at hread
    rw [hread, Nat.mul_div_cancel _ hslpe]
    exact ⟨hsnoc, rfl⟩

omit hs in
/-- The upper lists of an element are inside what is saved for it. -/
theorem list_within_upper {i level : ℕ} (hlevel : level + 1 ≤ s.element_levels i) :
    Within (L.list i (level + 1)) (upperSpan s i) := by
  refine (list_succ_within hL i level).trans ⟨rfl, Nat.zero_le _, ?_⟩
  show level * L.size_links_per_element + L.size_links_per_element ≤
    0 + s.element_levels i * L.size_links_per_element
  rw [Nat.zero_add]
  exact slot_le hlevel

/-- The graph is there again. -/
theorem LoadInv.graph {level0 : Block} {rest : ℕ → UInt8}
    (hsize0 : level0.size = L.max_elements * L.size_data_per_element)
    (hlevel0 : ∀ k, level0.byte k = (recordBytes s).getD k (rest k)) {t : LoadState}
    (ht : LoadInv s level0 (List.range n) t) :
    Graph L t.element_levels n (fun _ => n) t.memory := by
  have hrecord : ∀ i < n, ∀ r, Within r (L.record i) → bytes t.memory r = bytes s.memory r :=
    fun i hi r hr => bytes_loaded hs hlevel0 ht.level0 hi hr
  refine hs.graph.congr (fun i hi => ht.level i (List.mem_range.mpr hi))
    (by rw [ht.level0, hs.graph.level0]; exact hsize0)
    (fun i hi => ht.size i (List.mem_range.mpr hi)) (fun i hi level hlevel => ?_) (fun i hi => ?_)
  · cases level with
    | zero => exact hrecord i hi _ (list_zero_within hL i)
    | succ level =>
      exact bytes_within (list_within_upper hL hlevel) (ht.upper i (List.mem_range.mpr hi))
  · rw [word, hrecord i hi _ (mark_within hL i), word]

/-- The elements loaded are those that were saved. -/
theorem LoadInv.built {level0 : Block} {rest : ℕ → UInt8}
    (hsize0 : level0.size = L.max_elements * L.size_data_per_element)
    (hlevel0 : ∀ k, level0.byte k = (recordBytes s).getD k (rest k)) {t : LoadState}
    (ht : LoadInv s level0 (List.range n) t) (num_deleted : ℕ)
    (pool : VisitedListPool L.max_elements) (draws : ℕ → LevelDraw) :
    Built L row n
      { cur_element_count := s.cur_element_count
        num_deleted := num_deleted
        maxlevel := s.maxlevel
        enterpoint_node := s.enterpoint_node
        memory := t.memory
        element_levels := t.element_levels
        label_lookup := t.label_lookup
        visited_list_pool := pool
        level_generator := draws } where
  count := hs.count
  graph := ht.graph hL hs hsize0 hlevel0
  label i hi := by
    show word t.memory _ = i
    rw [word, bytes_loaded hs hlevel0 ht.level0 hi (label_within hL i), ← word]
    exact hs.label i hi
  data i hi := (bytes_loaded hs hlevel0 ht.level0 hi (data_within hL i)).trans (hs.data i hi)
  lookup i hi := by
    show t.label_lookup i = none
    rw [ht.lookup i, if_neg (by rw [List.mem_range]; omega)]
  level_le i hi := by
    show t.element_levels i ≤ 1074
    rw [ht.level i (List.mem_range.mpr hi)]
    exact hs.level_le i hi
  entry := by
    refine hs.entry.imp_right fun hentry => ⟨hentry.1, ?_⟩
    show s.maxlevel = t.element_levels s.enterpoint_node
    rw [ht.level _ (List.mem_range.mpr hentry.1)]
    exact hentry.2

/-- **The elements** of a saved index. -/
theorem loadElements_returns {K : Type} (P : Platform K) (draws : ℕ → LevelDraw) :
    ∃ index, Returns (loadElements P L draws (headerOf s) (.reached (headerBytes s)
        (recordBytes s ++ (List.range s.cur_element_count).flatMap (entryBytes s)))) ⟨L, index⟩ ∧
      Built L row n index ∧ index.num_deleted = 0 ∧ ∀ i < n, index.label_lookup i = some i := by
  set level0 : Block := ⟨L.max_elements * L.size_data_per_element,
    fun k => (recordBytes s).getD k (P.malloc k)⟩ with hblock
  have hlevel0 : ∀ k, level0.byte k = (recordBytes s).getD k (P.malloc k) := fun _ => rfl
  let memory : Memory Region
    | .data_level0_memory => level0
    | .linkLists _ => ⟨0, P.malloc⟩
  obtain ⟨t, hfold, ht, -⟩ := FileStream.entries_returns
    (f := loadElement L P.malloc) LoadState.input (entryBytes s)
    (fun pre t => LoadInv s level0 pre t) (l := List.range n)
    (fun pre i post t hsplit ht hinput => by
      have hnodup := hsplit ▸ List.nodup_range (n := n)
      have hi : i < n := List.mem_range.mp (by rw [hsplit]; simp)
      have hpre : i ∉ pre := fun hmem =>
        (List.nodup_append.mp hnodup).2.2 i hmem i List.mem_cons_self rfl
      exact loadElement_returns hL hs P.malloc rfl hlevel0 ht hi hpre hinput)
    (s := ⟨memory, fun _ => 0, fun _ => none, .reached (headerBytes s ++ recordBytes s)
      ((List.range n).flatMap (entryBytes s))⟩)
    { level0 := rfl
      level := fun i hi => absurd hi List.not_mem_nil
      size := fun i hi => absurd hi List.not_mem_nil
      upper := fun i hi => absurd hi List.not_mem_nil
      lookup := fun i => rfl } rfl
  have hgraph := ht.graph hL hs rfl hlevel0
  obtain ⟨num_deleted, hdeleted, rfl⟩ := range_returns (f := countDeleted L t.memory)
    (fun _ num_deleted => num_deleted = 0) (n := n)
    (fun i hi num_deleted hzero =>
      ⟨num_deleted, (hgraph.isMarkedDeleted_returns hL hi).bind (returns_pure _), hzero⟩)
    (s := 0) rfl
  refine ⟨_, ?_, ht.built hL hs rfl hlevel0 0 ⟨[VisitedList.new P.newList]⟩ draws, rfl,
    fun i hi => ?_⟩
  · have hrecords : (recordBytes s).length =
        (headerOf s).cur_element_count * L.size_data_per_element := length_bytes _ _
    have hread := FileStream.read_reached hrecords (headerBytes s)
      ((List.range s.cur_element_count).flatMap (entryBytes s))
    unfold loadElements
    rw [hread]
    dsimp only
    rw [show (headerOf s).cur_element_count = n from hs.count, hs.count]
    exact hfold.bind (hdeleted.bind (returns_pure _))
  · show t.label_lookup i = some i
    rw [ht.lookup i, if_pos (List.mem_range.mpr hi)]

/-- **Loading** what has been saved. -/
theorem loadIndex_returns (hpos : 0 < n) {K : Type} (P : Platform K) (space : SpaceInterface K)
    (hspace : space.get_data_size = L.data_size) (draws : ℕ → LevelDraw) {disk : BinaryDisk}
    {location : String} (hfile : disk location = some (fileBytes s)) :
    ∃ index, Returns (loadIndex P space draws disk location 0) ⟨L, index⟩ ∧
      Built L row n index ∧ index.num_deleted = 0 ∧ ∀ i < n, index.label_lookup i = some i := by
  obtain ⟨index, hload, hrest⟩ := loadElements_returns hL hs P draws
  refine ⟨index, ?_, hrest⟩
  have hheader := readHeader_saved hL hs hpos
    (recordBytes s ++ (List.range s.cur_element_count).flatMap (entryBytes s))
  have hcheck := checkFile_returns hL hs
  have hback := FileStream.seekg_reached (headerBytes s)
    (recordBytes s ++ (List.range s.cur_element_count).flatMap (entryBytes s)) []
  unfold loadIndex
  rw [hfile]
  dsimp only
  rw [show (⟨fileBytes s, 0, true⟩ : FileStream) = .reached [] (headerBytes s ++
    (recordBytes s ++ (List.range s.cur_element_count).flatMap (entryBytes s))) from rfl, hheader]
  refine hcheck.bind ?_
  dsimp only
  rw [hspace, loadedLayout_saved hL (hs.count ▸ hpos), FileStream.tellg_reached, Int.toNat_natCast]
  rw [List.append_nil] at hback
  rw [fileBytes, hback]
  exact hload

end RoundTrip

end Mqo.Index
