import Mqo.Lib.Memory
import Mqo.Search.VisitedList

/-!
# MQO — the records of an HNSW index

How `HierarchicalNSW` of `hnsw_exp/hnswlib/hnswalg.h` lays out its memory. The
record of an element in `data_level0_memory_` holds its level-0 list, its
vector and its label; the lists of its upper levels are in a block of their own,
`linkLists_[id]`. A list is a 4-byte word, whose two low bytes are the number of
links and whose third one carries the deletion mark, and the links after it.

A pointer is a region and an offset. An access outside the block it is made to
is a fault.

* `Layout.new_wellFormed`  — the constructor makes the parts of a record fit;
* `list_apart`             — two lists never share a byte;
* `list_apart_data`, `list_apart_label`, `part_apart_mark` — nor does a list with
  a vector or a label, or what is written of it with a deletion mark;
* `getLinks_returns`, `appendLink_returns`, `writeLinks_returns` — reading a list,
  adding a link to it and overwriting it.
-/

namespace Mqo.Index

open Prog Memory ByteStream

-- ---------------------------------------------------------------------------
-- Layout
-- ---------------------------------------------------------------------------

/-- The members that the constructor computes; `mult` is a `double`, given by its bits. -/
structure Layout where
  max_elements : ℕ
  M : ℕ
  maxM : ℕ
  maxM0 : ℕ
  ef_construction : ℕ
  mult : UInt64
  size_links_level0 : ℕ
  size_data_per_element : ℕ
  size_links_per_element : ℕ
  offsetData : ℕ
  offsetLevel0 : ℕ
  label_offset : ℕ
  data_size : ℕ
deriving DecidableEq

/-- The parts of a record follow each other, and the counts fit the bytes they have. -/
structure Layout.WellFormed (L : Layout) : Prop where
  max_lt : L.max_elements < 2 ^ 31
  M_pos : 0 < L.M
  M_le : L.M ≤ 10000
  maxM : L.maxM = L.M
  maxM0 : L.maxM0 = L.M * 2
  ef : L.M ≤ L.ef_construction
  ef_lt : L.ef_construction < 2 ^ 64
  data_lt : L.data_size < 2 ^ 63
  level0 : L.size_links_level0 = L.maxM0 * 4 + 4
  size : L.size_data_per_element = L.size_links_level0 + L.data_size + 8
  links : L.size_links_per_element = L.maxM * 4 + 4
  data : L.offsetData = L.size_links_level0
  first : L.offsetLevel0 = 0
  label : L.label_offset = L.size_links_level0 + L.data_size

namespace Layout

/-- The layout that the constructor computes; `mult` gives the bits of `1 / log(1.0 * M)`. -/
def new (mult : ℕ → UInt64) (data_size max_elements M ef_construction : ℕ) : Layout :=
  let M := if M ≤ 10000 then M else 10000
  let maxM := M
  let maxM0 := M * 2
  let size_links_level0 := maxM0 * 4 + 4
  { max_elements := max_elements
    M := M
    maxM := maxM
    maxM0 := maxM0
    ef_construction := max ef_construction M
    mult := mult M
    size_links_level0 := size_links_level0
    size_data_per_element := size_links_level0 + data_size + 8
    size_links_per_element := maxM * 4 + 4
    offsetData := size_links_level0
    offsetLevel0 := 0
    label_offset := size_links_level0 + data_size
    data_size := data_size }

theorem new_wellFormed (mult : ℕ → UInt64) {data_size max_elements M ef_construction : ℕ}
    (hdata : data_size < 2 ^ 63) (hmax : max_elements < 2 ^ 31) (hM : 1 ≤ M)
    (hef : ef_construction < 2 ^ 64) :
    (new mult data_size max_elements M ef_construction).WellFormed where
  max_lt := hmax
  M_pos := by
    show 0 < if M ≤ 10000 then M else 10000
    split <;> omega
  M_le := by
    show (if M ≤ 10000 then M else 10000) ≤ 10000
    split <;> omega
  maxM := rfl
  maxM0 := rfl
  ef := le_max_right _ _
  ef_lt := by
    refine max_lt hef ?_
    show (if M ≤ 10000 then M else 10000) < 2 ^ 64
    split <;> omega
  data_lt := hdata
  level0 := rfl
  size := rfl
  links := rfl
  data := rfl
  first := rfl
  label := rfl

end Layout

-- ---------------------------------------------------------------------------
-- Pointers
-- ---------------------------------------------------------------------------

/-- The blocks of an index. -/
inductive Region where
  | data_level0_memory
  | linkLists (id : ℕ)
deriving DecidableEq

/-- A pointer to the first word of a list. -/
structure Pointer where
  region : Region
  offset : ℕ
deriving DecidableEq

namespace Pointer

/-- The number of links. -/
def countSpan (p : Pointer) : Span Region := ⟨p.region, p.offset, 2⟩

/-- The first word. -/
def headSpan (p : Pointer) : Span Region := ⟨p.region, p.offset, 4⟩

/-- Link `j`. -/
def linkSpan (p : Pointer) (j : ℕ) : Span Region := ⟨p.region, p.offset + 4 + 4 * j, 4⟩

/-- The first `n` links. -/
def linksSpan (p : Pointer) (n : ℕ) : Span Region := ⟨p.region, p.offset + 4, 4 * n⟩

/-- The list, with room for `n` links. -/
def listSpan (p : Pointer) (n : ℕ) : Span Region := ⟨p.region, p.offset, 4 + 4 * n⟩

theorem countSpan_within (p : Pointer) (n : ℕ) : Within p.countSpan (p.listSpan n) :=
  ⟨rfl, le_refl _, by show p.offset + 2 ≤ p.offset + (4 + 4 * n); omega⟩

theorem headSpan_within (p : Pointer) (n : ℕ) : Within p.headSpan (p.listSpan n) :=
  ⟨rfl, le_refl _, by show p.offset + 4 ≤ p.offset + (4 + 4 * n); omega⟩

theorem linksSpan_within (p : Pointer) {k n : ℕ} (h : k ≤ n) :
    Within (p.linksSpan k) (p.listSpan n) :=
  ⟨rfl, by show p.offset ≤ p.offset + 4; omega,
    by show p.offset + 4 + 4 * k ≤ p.offset + (4 + 4 * n); omega⟩

theorem linkSpan_within (p : Pointer) {j n : ℕ} (h : j < n) :
    Within (p.linkSpan j) (p.linksSpan n) :=
  ⟨rfl, by show p.offset + 4 ≤ p.offset + 4 + 4 * j; omega,
    by show p.offset + 4 + 4 * j + 4 ≤ p.offset + 4 + 4 * n; omega⟩

theorem count_apart_link (p : Pointer) (j : ℕ) : Apart p.countSpan (p.linkSpan j) :=
  Or.inr (Or.inl (by show p.offset + 2 ≤ p.offset + 4 + 4 * j; omega))

theorem link_apart_link (p : Pointer) {i j : ℕ} (h : i ≠ j) :
    Apart (p.linkSpan i) (p.linkSpan j) := by
  rcases Nat.lt_or_gt_of_ne h with h | h
  · exact Or.inr (Or.inl (by show p.offset + 4 + 4 * i + 4 ≤ p.offset + 4 + 4 * j; omega))
  · exact Or.inr (Or.inr (by show p.offset + 4 + 4 * j + 4 ≤ p.offset + 4 + 4 * i; omega))

end Pointer

namespace Layout

variable (L : Layout)

/-- `get_linklist0` -/
def getLinklist0 (internal_id : ℕ) : Pointer :=
  ⟨.data_level0_memory, internal_id * L.size_data_per_element + L.offsetLevel0⟩

/-- `get_linklist` -/
def getLinklist (internal_id level : ℕ) : Pointer :=
  ⟨.linkLists internal_id, (level - 1) * L.size_links_per_element⟩

/-- `get_linklist_at_level` -/
def getLinklistAtLevel (internal_id level : ℕ) : Pointer :=
  if level = 0 then L.getLinklist0 internal_id else L.getLinklist internal_id level

/-- `Mcurmax`: the links that a list has room for. -/
def Mcurmax (level : ℕ) : ℕ := if level = 0 then L.maxM0 else L.maxM

/-- The byte with the deletion mark. -/
def markSpan (internal_id : ℕ) : Span Region :=
  ⟨.data_level0_memory, (L.getLinklist0 internal_id).offset + 2, 1⟩

/-- `getDataByInternalId` -/
def dataSpan (internal_id : ℕ) : Span Region :=
  ⟨.data_level0_memory, internal_id * L.size_data_per_element + L.offsetData, L.data_size⟩

/-- `getExternalLabeLp` -/
def labelSpan (internal_id : ℕ) : Span Region :=
  ⟨.data_level0_memory, internal_id * L.size_data_per_element + L.label_offset, 8⟩

/-- The list of an element at a level. -/
def list (internal_id level : ℕ) : Span Region :=
  (L.getLinklistAtLevel internal_id level).listSpan (L.Mcurmax level)

/-- What may be written of a list: the number of links, and the links. -/
def listParts (internal_id level : ℕ) : Set (Span Region) :=
  {(L.getLinklistAtLevel internal_id level).countSpan,
    (L.getLinklistAtLevel internal_id level).linksSpan (L.Mcurmax level)}

end Layout

-- ---------------------------------------------------------------------------
-- What is apart
-- ---------------------------------------------------------------------------

section Apart

variable {L : Layout}

/-- A slot of a table ends before the next one starts. -/
theorem slot_le {size i n : ℕ} (h : i < n) : i * size + size ≤ n * size := by
  rw [← Nat.succ_mul]
  exact Nat.mul_le_mul_right size h

/-- Slots of a table do not overlap. -/
theorem slot_apart (region : Region) {size i j : ℕ} (h : i ≠ j) :
    Apart (⟨region, i * size, size⟩ : Span Region) ⟨region, j * size, size⟩ := by
  rcases Nat.lt_or_gt_of_ne h with h | h
  · exact Or.inr (Or.inl (slot_le h))
  · exact Or.inr (Or.inr (slot_le h))

/-- The whole record of an element. -/
def Layout.record (L : Layout) (internal_id : ℕ) : Span Region :=
  ⟨.data_level0_memory, internal_id * L.size_data_per_element, L.size_data_per_element⟩

/-- The block of level 0 holds the records below the capacity. -/
theorem holds_record {m : Memory Region}
    (hsize : (m .data_level0_memory).size = L.max_elements * L.size_data_per_element) {id : ℕ}
    (hid : id < L.max_elements) : Holds m (L.record id) :=
  (slot_le hid).trans hsize.ge

theorem list_zero_within (hL : L.WellFormed) (id : ℕ) : Within (L.list id 0) (L.record id) := by
  refine ⟨rfl, Nat.le_add_right _ _, ?_⟩
  show id * L.size_data_per_element + L.offsetLevel0 + (4 + 4 * L.maxM0) ≤
    id * L.size_data_per_element + L.size_data_per_element
  have := hL.size
  have := hL.level0
  have := hL.first
  omega

theorem data_within (hL : L.WellFormed) (id : ℕ) : Within (L.dataSpan id) (L.record id) := by
  refine ⟨rfl, Nat.le_add_right _ _, ?_⟩
  show id * L.size_data_per_element + L.offsetData + L.data_size ≤
    id * L.size_data_per_element + L.size_data_per_element
  have := hL.size
  have := hL.data
  omega

theorem label_within (hL : L.WellFormed) (id : ℕ) : Within (L.labelSpan id) (L.record id) := by
  refine ⟨rfl, Nat.le_add_right _ _, ?_⟩
  show id * L.size_data_per_element + L.label_offset + 8 ≤
    id * L.size_data_per_element + L.size_data_per_element
  have := hL.size
  have := hL.label
  omega

theorem mark_within (hL : L.WellFormed) (id : ℕ) : Within (L.markSpan id) (L.record id) := by
  refine ⟨rfl, by show id * L.size_data_per_element ≤ id * L.size_data_per_element + L.offsetLevel0 + 2; omega, ?_⟩
  show id * L.size_data_per_element + L.offsetLevel0 + 2 + 1 ≤
    id * L.size_data_per_element + L.size_data_per_element
  have := hL.size
  have := hL.level0
  have := hL.first
  omega

theorem list_succ_within (hL : L.WellFormed) (id level : ℕ) :
    Within (L.list id (level + 1))
      ⟨.linkLists id, level * L.size_links_per_element, L.size_links_per_element⟩ := by
  refine ⟨rfl, le_refl _, ?_⟩
  show level * L.size_links_per_element + (4 + 4 * L.maxM) ≤
    level * L.size_links_per_element + L.size_links_per_element
  have := hL.links
  omega

/-- Two different lists. -/
theorem list_apart (hL : L.WellFormed) {id id' level level' : ℕ}
    (h : id ≠ id' ∨ level ≠ level') : Apart (L.list id level) (L.list id' level') := by
  cases level with
  | zero =>
    cases level' with
    | zero =>
      have hid : id ≠ id' := h.resolve_right fun hne => hne rfl
      exact (slot_apart _ hid).within (list_zero_within hL id) (list_zero_within hL id')
    | succ level' => exact Or.inl (by rintro ⟨⟩)
  | succ level =>
    cases level' with
    | zero => exact Or.inl (by rintro ⟨⟩)
    | succ level' =>
      by_cases hid : id = id'
      · subst hid
        have hlevel : level ≠ level' := fun heq => h.elim (fun hne => hne rfl) fun hne => hne (by rw [heq])
        exact (slot_apart _ hlevel).within (list_succ_within hL id level)
          (list_succ_within hL id level')
      · exact Or.inl fun heq => hid (by injection heq)

/-- What lies behind the level-0 list in a record shares no byte with any list. -/
theorem list_apart_behind (hL : L.WellFormed) {t : Span Region} (id : ℕ) {id' : ℕ} (level : ℕ)
    (hrecord : Within t (L.record id'))
    (hbehind : id' * L.size_data_per_element + L.size_links_level0 ≤ t.offset) :
    Apart (L.list id level) t := by
  cases level with
  | zero =>
    by_cases hid : id = id'
    · subst hid
      refine Or.inr (Or.inl ?_)
      show id * L.size_data_per_element + L.offsetLevel0 + (4 + 4 * L.maxM0) ≤ t.offset
      have := hL.level0
      have := hL.first
      omega
    · exact (slot_apart _ hid).within (list_zero_within hL id) hrecord
  | succ level => exact Or.inl (by rw [hrecord.1]; rintro ⟨⟩)

theorem list_apart_data (hL : L.WellFormed) (id level id' : ℕ) :
    Apart (L.list id level) (L.dataSpan id') :=
  list_apart_behind hL id level (data_within hL id') (by
    show _ ≤ id' * L.size_data_per_element + L.offsetData
    rw [hL.data])

theorem list_apart_label (hL : L.WellFormed) (id level id' : ℕ) :
    Apart (L.list id level) (L.labelSpan id') :=
  list_apart_behind hL id level (label_within hL id') (by
    show _ ≤ id' * L.size_data_per_element + L.label_offset
    rw [hL.label]
    omega)

/-- The parts of a list are inside it. -/
theorem part_within {id level : ℕ} {w : Span Region} (hw : w ∈ L.listParts id level) :
    Within w (L.list id level) := by
  rcases hw with rfl | rfl
  · exact Pointer.countSpan_within _ _
  · exact Pointer.linksSpan_within _ (le_refl _)

/-- Writing a list does not touch the deletion marks. -/
theorem part_apart_mark (hL : L.WellFormed) {id level : ℕ} {w : Span Region}
    (hw : w ∈ L.listParts id level) (id' : ℕ) : Apart w (L.markSpan id') := by
  cases level with
  | zero =>
    by_cases hid : id = id'
    · subst hid
      rcases hw with rfl | rfl
      · exact Or.inr (Or.inl (le_refl _))
      · refine Or.inr (Or.inr ?_)
        show (L.getLinklist0 id).offset + 2 + 1 ≤ (L.getLinklist0 id).offset + 4
        omega
    · exact (slot_apart _ hid).within
        ((part_within hw).trans (list_zero_within hL id)) (mark_within hL id')
  | succ level =>
    obtain ⟨hregion, -, -⟩ := part_within hw
    exact Or.inl (by rw [hregion]; rintro ⟨⟩)

end Apart

-- ---------------------------------------------------------------------------
-- Accesses
-- ---------------------------------------------------------------------------

/-- Reading a stretch of memory. -/
def load (m : Memory Region) (s : Span Region) : Run (List UInt8) :=
  if Holds m s then pure (bytes m s) else fault .outOfRange

/-- Reading a number. -/
def loadWord (m : Memory Region) (s : Span Region) : Run ℕ := do
  let bs ← load m s
  pure (ofBytes bs)

/-- Writing a stretch of memory. -/
def store (m : Memory Region) (region : Region) (offset : ℕ) (bs : List UInt8) :
    Run (Memory Region) :=
  if Holds m ⟨region, offset, bs.length⟩ then pure (put m region offset bs) else fault .outOfRange

/-- `getListCount` -/
def getListCount (m : Memory Region) (ptr : Pointer) : Run ℕ := loadWord m ptr.countSpan

/-- `setListCount` -/
def setListCount (m : Memory Region) (ptr : Pointer) (size : ℕ) : Run (Memory Region) :=
  store m ptr.region ptr.offset (toBytes 2 size)

/-- `data[j]` -/
def getLink (m : Memory Region) (ptr : Pointer) (j : ℕ) : Run ℕ := loadWord m (ptr.linkSpan j)

/-- `data[j] = id` -/
def setLink (m : Memory Region) (ptr : Pointer) (j id : ℕ) : Run (Memory Region) :=
  store m ptr.region (ptr.offset + 4 + 4 * j) (toBytes 4 id)

/-- The links that a loop over a list reads. -/
def getLinks (m : Memory Region) (ptr : Pointer) : Run (List ℕ) := do
  let size ← getListCount m ptr
  let datal ← load m (ptr.linksSpan size)
  pure ((List.range size).map fun j => ofBytes ((datal.drop (4 * j)).take 4))

/-- `data[sz] = id; setListCount(ptr, sz + 1)` -/
def appendLink (m : Memory Region) (ptr : Pointer) (sz id : ℕ) : Run (Memory Region) := do
  let m ← setLink m ptr sz id
  setListCount m ptr (sz + 1)

/-- `data[idx] = id` for the ids of a list, from position `idx` on; `check` comes before
each write. -/
def writeLinks (check : Memory Region → ℕ → ℕ → Run Unit) (ptr : Pointer) :
    ℕ → List ℕ → Memory Region → Run (Memory Region)
  | _, [], m => pure m
  | idx, id :: ids, m => do
    check m idx id
    let m ← setLink m ptr idx id
    writeLinks check ptr (idx + 1) ids m

/-- `getDataByInternalId`, and the vector behind the pointer. -/
def Layout.getDataByInternalId (L : Layout) (m : Memory Region) (internal_id : ℕ) :
    Run (List UInt8) :=
  load m (L.dataSpan internal_id)

/-- `getExternalLabel` -/
def Layout.getExternalLabel (L : Layout) (m : Memory Region) (internal_id : ℕ) : Run ℕ :=
  loadWord m (L.labelSpan internal_id)

/-- `isMarkedDeleted`: the lowest bit of the mark. -/
def Layout.isMarkedDeleted (L : Layout) (m : Memory Region) (internal_id : ℕ) : Run Bool := do
  let mark ← loadWord m (L.markSpan internal_id)
  pure (mark % 2 = 1)

-- ---------------------------------------------------------------------------
-- What the memory holds
-- ---------------------------------------------------------------------------

/-- The number of links of a list. -/
def count (m : Memory Region) (ptr : Pointer) : ℕ := word m ptr.countSpan

/-- Link `j`. -/
def link (m : Memory Region) (ptr : Pointer) (j : ℕ) : ℕ := word m (ptr.linkSpan j)

/-- The links of a list. -/
def links (m : Memory Region) (ptr : Pointer) : List ℕ :=
  (List.range (count m ptr)).map (link m ptr)

@[simp] theorem length_links (m : Memory Region) (ptr : Pointer) :
    (links m ptr).length = count m ptr := by
  simp [links]

/-- A list is known from its number of links and each of them. -/
theorem links_eq {m : Memory Region} {ptr : Pointer} {ids : List ℕ}
    (hcount : count m ptr = ids.length) (hlink : ∀ j, (h : j < ids.length) → link m ptr j = ids[j]) :
    links m ptr = ids := by
  refine List.ext_getElem (by rw [length_links, hcount]) fun j hj hj' => ?_
  simp only [links, List.getElem_map, List.getElem_range]
  exact hlink j hj'

theorem load_returns {m : Memory Region} {s : Span Region} (h : Holds m s) :
    Returns (load m s) (bytes m s) := by
  rw [load, if_pos h]
  exact returns_pure _

theorem loadWord_returns {m : Memory Region} {s : Span Region} (h : Holds m s) :
    Returns (loadWord m s) (word m s) :=
  (load_returns h).map

theorem store_returns {m : Memory Region} {region : Region} {offset len : ℕ} {bs : List UInt8}
    (hlen : bs.length = len) (h : Holds m ⟨region, offset, len⟩) :
    Returns (store m region offset bs) (put m region offset bs) := by
  rw [store, hlen, if_pos h]
  exact returns_pure _

/-- The list has room for `n` links, as many as it has at least. -/
structure Fits (m : Memory Region) (ptr : Pointer) (n : ℕ) : Prop where
  holds : Holds m (ptr.listSpan n)
  count_le : count m ptr ≤ n

theorem getListCount_returns {m : Memory Region} {ptr : Pointer} {n : ℕ}
    (h : Holds m (ptr.listSpan n)) : Returns (getListCount m ptr) (count m ptr) :=
  loadWord_returns (h.within (ptr.countSpan_within n))

/-- **Reading a list.** -/
theorem getLinks_returns {m : Memory Region} {ptr : Pointer} {n : ℕ} (h : Fits m ptr n) :
    Returns (getLinks m ptr) (links m ptr) := by
  have hdatal := load_returns (h.holds.within (ptr.linksSpan_within h.count_le))
  have hlinks : links m ptr = (List.range (count m ptr)).map fun j =>
      ofBytes (((bytes m (ptr.linksSpan (count m ptr))).drop (4 * j)).take 4) := by
    refine List.map_congr_left fun j hj => ?_
    have hj := List.mem_range.mp hj
    rw [Pointer.linksSpan, take_drop_bytes m ptr.region (ptr.offset + 4) (by omega)]
    rfl
  rw [hlinks]
  exact (getListCount_returns h.holds).bind (hdatal.bind (returns_pure _))

theorem getLink_returns {m : Memory Region} {ptr : Pointer} {n j : ℕ}
    (h : Holds m (ptr.listSpan n)) (hj : j < n) : Returns (getLink m ptr j) (link m ptr j) :=
  loadWord_returns (h.within ((ptr.linkSpan_within hj).trans (ptr.linksSpan_within (le_refl n))))

/-- Writing the number of links. -/
theorem setListCount_returns {m : Memory Region} {ptr : Pointer} {n : ℕ}
    (h : Holds m (ptr.listSpan n)) {size : ℕ} (hsize : size < 2 ^ 16) :
    ∃ m', Returns (setListCount m ptr size) m' ∧ Modifies {ptr.countSpan} m m' ∧
      count m' ptr = size ∧ ∀ j, link m' ptr j = link m ptr j := by
  have hframe : Modifies {ptr.countSpan} m (put m ptr.region ptr.offset (toBytes 2 size)) :=
    Modifies.of_put (Set.mem_singleton _) (by rw [length_toBytes]; exact Within.refl _)
  refine ⟨_, store_returns (length_toBytes 2 size) (h.within (ptr.countSpan_within n)), hframe,
    word_put (by omega), fun j => hframe.word fun w hw => ?_⟩
  rw [Set.mem_singleton_iff.mp hw]
  exact ptr.count_apart_link j

/-- Writing a link. -/
theorem setLink_returns {m : Memory Region} {ptr : Pointer} {n j id : ℕ}
    (h : Holds m (ptr.listSpan n)) (hj : j < n) (hid : id < 2 ^ 32) :
    ∃ m', Returns (setLink m ptr j id) m' ∧ Modifies {ptr.linksSpan n} m m' ∧
      count m' ptr = count m ptr ∧ link m' ptr j = id ∧ ∀ i, i ≠ j → link m' ptr i = link m ptr i := by
  have hwithin := ptr.linkSpan_within hj
  have hframe : Modifies {ptr.linkSpan j} m
      (put m ptr.region (ptr.offset + 4 + 4 * j) (toBytes 4 id)) :=
    Modifies.of_put (Set.mem_singleton _) (by rw [length_toBytes]; exact Within.refl _)
  refine ⟨_, store_returns (length_toBytes 4 id)
      (h.within (hwithin.trans (ptr.linksSpan_within (le_refl n)))),
    hframe.mono fun w hw => ⟨_, Set.mem_singleton _, by rw [Set.mem_singleton_iff.mp hw]; exact hwithin⟩,
    hframe.word fun w hw => ?_, word_put (by omega), fun i hi => hframe.word fun w hw => ?_⟩
  · rw [Set.mem_singleton_iff.mp hw]
    exact (ptr.count_apart_link j).symm
  · rw [Set.mem_singleton_iff.mp hw]
    exact ptr.link_apart_link hi.symm

/-- **Adding a link** behind the last one. -/
theorem appendLink_returns {m : Memory Region} {ptr : Pointer} {n id : ℕ} (h : Fits m ptr n)
    (hroom : count m ptr < n) (hn : n < 2 ^ 16) (hid : id < 2 ^ 32) :
    ∃ m', Returns (appendLink m ptr (count m ptr) id) m' ∧
      Modifies {ptr.countSpan, ptr.linksSpan n} m m' ∧ links m' ptr = links m ptr ++ [id] := by
  obtain ⟨m₁, hset, hframe₁, -, hnew, hold⟩ := setLink_returns h.holds hroom hid
  obtain ⟨m₂, hsize, hframe₂, hcount, hlink⟩ :=
    setListCount_returns (hframe₁.holds.mpr h.holds) (show count m ptr + 1 < 2 ^ 16 by omega)
  have hin : ∀ w ∈ ({ptr.countSpan} : Set (Span Region)),
      ∃ w' ∈ ({ptr.countSpan, ptr.linksSpan n} : Set (Span Region)), Within w w' :=
    fun w hw => ⟨w, Or.inl (Set.mem_singleton_iff.mp hw), Within.refl w⟩
  have hin' : ∀ w ∈ ({ptr.linksSpan n} : Set (Span Region)),
      ∃ w' ∈ ({ptr.countSpan, ptr.linksSpan n} : Set (Span Region)), Within w w' :=
    fun w hw => ⟨w, Or.inr hw, Within.refl w⟩
  refine ⟨m₂, hset.bind hsize, (hframe₁.mono hin').trans (hframe₂.mono hin), ?_⟩
  refine links_eq (by rw [hcount, List.length_append, length_links, List.length_singleton])
    fun j hj => ?_
  rw [List.length_append, length_links, List.length_singleton] at hj
  rw [hlink]
  rcases Nat.lt_or_ge j (count m ptr) with hlt | hge
  · rw [hold j (by omega), List.getElem_append_left (by rw [length_links]; exact hlt)]
    simp [links]
  · have hj : j = count m ptr := by omega
    subst hj
    rw [hnew, List.getElem_append_right (by rw [length_links])]
    simp

/-- **Overwriting links** from position `idx` on; a check at a position sees the link that
was there before. -/
theorem writeLinks_returns (check : Memory Region → ℕ → ℕ → Run Unit) {ptr : Pointer} {n : ℕ}
    {ids : List ℕ} (hids : ∀ id ∈ ids, id < 2 ^ 32) (idx : ℕ) (hlen : idx + ids.length ≤ n)
    {m : Memory Region} (h : Holds m (ptr.listSpan n))
    (hcheck : ∀ m' j id, idx ≤ j → j < n → id ∈ ids → Holds m' (ptr.listSpan n) →
      link m' ptr j = link m ptr j → Returns (check m' j id) ()) :
    ∃ m', Returns (writeLinks check ptr idx ids m) m' ∧ Modifies {ptr.linksSpan n} m m' ∧
      count m' ptr = count m ptr ∧ (∀ j < idx, link m' ptr j = link m ptr j) ∧
      ∀ k, (hk : k < ids.length) → link m' ptr (idx + k) = ids[k] := by
  induction ids generalizing idx m with
  | nil => exact ⟨m, returns_pure m, Modifies.refl _ m, rfl, fun _ _ => rfl,
      fun k hk => absurd hk (Nat.not_lt_zero k)⟩
  | cons id ids ih =>
    rw [List.length_cons] at hlen
    obtain ⟨m₁, hset, hframe₁, hcount₁, hnew, hold⟩ :=
      setLink_returns h (show idx < n by omega) (hids id List.mem_cons_self)
    obtain ⟨m₂, hrest, hframe₂, hcount₂, hbelow, hlinks⟩ :=
      ih (fun id' hid' => hids id' (List.mem_cons_of_mem _ hid')) (idx + 1) (by omega)
        (hframe₁.holds.mpr h) (fun m' j id' hj hjn hid' hm' hlink =>
          hcheck m' j id' (by omega) hjn (List.mem_cons_of_mem _ hid') hm'
            (hlink.trans (hold j (by omega))))
    have hfirst := hcheck m idx id (le_refl _) (by omega) List.mem_cons_self h rfl
    refine ⟨m₂, hfirst.bind (hset.bind hrest), hframe₁.trans hframe₂, hcount₂.trans hcount₁,
      fun j hj => (hbelow j (by omega)).trans (hold j (by omega)), fun k hk => ?_⟩
    cases k with
    | zero =>
      rw [Nat.add_zero, hbelow idx (by omega), hnew]
      rfl
    | succ k =>
      rw [show idx + (k + 1) = idx + 1 + k by omega, hlinks k (by simpa using hk)]
      rfl

-- ---------------------------------------------------------------------------
-- Rewriting lists
-- ---------------------------------------------------------------------------

/-- What may be written when the lists in `S` are rewritten. -/
def Layout.parts (L : Layout) (S : ℕ → ℕ → Prop) : Set (Span Region) :=
  {w | ∃ id level, S id level ∧ w ∈ L.listParts id level}

/-- The list of an element at a level now consists of `ids`; nothing else has changed. -/
structure Rewrites (L : Layout) (id level : ℕ) (m m' : Memory Region) (ids : List ℕ) : Prop where
  frame : Modifies (L.parts fun i l => i = id ∧ l = level) m m'
  links : links m' (L.getLinklistAtLevel id level) = ids

section Frame

variable {L : Layout} {m m' : Memory Region}

/-- The numbers inside a list depend on its bytes only. -/
theorem word_congr {ptr : Pointer} {n a w : ℕ} (hw : a + w ≤ 4 + 4 * n)
    (h : bytes m' (ptr.listSpan n) = bytes m (ptr.listSpan n)) :
    word m' ⟨ptr.region, ptr.offset + a, w⟩ = word m ⟨ptr.region, ptr.offset + a, w⟩ := by
  rw [word, word, ← take_drop_bytes m' ptr.region ptr.offset hw,
    ← take_drop_bytes m ptr.region ptr.offset hw]
  exact congrArg (fun bs => ofBytes ((bs.drop a).take w)) h

theorem link_congr {ptr : Pointer} {n j : ℕ} (hj : j < n)
    (h : bytes m' (ptr.listSpan n) = bytes m (ptr.listSpan n)) : link m' ptr j = link m ptr j := by
  unfold link Pointer.linkSpan
  rw [Nat.add_assoc]
  exact word_congr (by omega) h

theorem links_congr {ptr : Pointer} {n : ℕ} (hcount : count m ptr ≤ n)
    (h : bytes m' (ptr.listSpan n) = bytes m (ptr.listSpan n)) : links m' ptr = links m ptr := by
  have hcount' : count m' ptr = count m ptr := word_congr (a := 0) (w := 2) (by omega) h
  unfold links
  rw [hcount']
  exact List.map_congr_left fun j hj => link_congr ((List.mem_range.mp hj).trans_le hcount) h

/-- Rewriting fewer lists is a special case. -/
theorem parts_mono {S S' : ℕ → ℕ → Prop} (h : Modifies (L.parts S) m m')
    (hS : ∀ id level, S id level → S' id level) : Modifies (L.parts S') m m' :=
  h.mono fun w ⟨id, level, hin, hw⟩ => ⟨w, ⟨id, level, hS id level hin, hw⟩, Within.refl w⟩

/-- The parts of one list. -/
theorem parts_of_list {id level : ℕ} (h : Modifies (L.listParts id level) m m') :
    Modifies (L.parts fun i l => i = id ∧ l = level) m m' :=
  h.mono fun w hw => ⟨w, ⟨id, level, ⟨rfl, rfl⟩, hw⟩, Within.refl w⟩

variable (hL : L.WellFormed) {S : ℕ → ℕ → Prop} (h : Modifies (L.parts S) m m')

include hL h

/-- **Frame rules.** The other lists keep their bytes. -/
theorem bytes_list {id level : ℕ} (hS : ¬ S id level) :
    bytes m' (L.list id level) = bytes m (L.list id level) := by
  refine h.bytes _ fun w ⟨id', level', hin, hw⟩ => ?_
  have hne : id' ≠ id ∨ level' ≠ level := by
    by_contra hsame
    push Not at hsame
    exact hS (hsame.1 ▸ hsame.2 ▸ hin)
  exact (list_apart hL hne).within (part_within hw) (Within.refl _)

/-- The vectors stay. -/
theorem bytes_data (id : ℕ) : bytes m' (L.dataSpan id) = bytes m (L.dataSpan id) :=
  h.bytes _ fun _ ⟨id', level', _, hw⟩ =>
    (list_apart_data hL id' level' id).within (part_within hw) (Within.refl _)

/-- The labels stay. -/
theorem word_label (id : ℕ) : word m' (L.labelSpan id) = word m (L.labelSpan id) :=
  h.word fun _ ⟨id', level', _, hw⟩ =>
    (list_apart_label hL id' level' id).within (part_within hw) (Within.refl _)

/-- The deletion marks stay. -/
theorem word_mark (id : ℕ) : word m' (L.markSpan id) = word m (L.markSpan id) :=
  h.word fun _ ⟨_, _, _, hw⟩ => part_apart_mark hL hw id

end Frame

end Mqo.Index
