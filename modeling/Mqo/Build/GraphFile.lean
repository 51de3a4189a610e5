import Mqo.Data.Loader
import Mqo.Lib.FileStream
import Mqo.Search.NsgRecall

/-!
# MQO — the files of an NSG index

`Save` and `Load` of `nsg/src/index_nsg.cpp`: `width`, the navigating point, and for each
node the length of its list and the list. `Load` reads lists until the end of the file and
checks nothing. `Save` of `efanna_graph/src/index_graph.cpp` writes the kNN graph, and
`Load_nn_graph` reads it: the number of neighbours, which is taken from the first list, and
the list, for each node; the number of nodes is computed from the size of the file.

* `load_save`          — an index that was saved is loaded again;
* `load_truncated`     — so is a file whose end is missing, with fewer lists or the last one cut;
* `loadNnGraph_save`   — the kNN graph is read back.
-/

namespace Mqo.Build.Nsg

open Prog ByteStream Search.Nsg

-- ---------------------------------------------------------------------------
-- The functions of the NSG index
-- ---------------------------------------------------------------------------

/-- The bytes of a list of `unsigned` numbers. -/
def idBytes (ids : List ℕ) : List UInt8 := ids.flatMap (toBytes 4)

/-- What the loop of `Save` writes for one node. -/
def listBytes (ids : List ℕ) : List UInt8 := toBytes 4 ids.length ++ idBytes ids

/-- All that `Save` writes. -/
def saveBytes (index : IndexNSG) (width : ℕ) : List UInt8 :=
  toBytes 4 width ++ (toBytes 4 index.ep ++
    (List.range index.nd).flatMap fun i => listBytes (index.final_graph i))

/-- `Save(filename)`; what is written to a file that could not be opened is lost. -/
def save (index : IndexNSG) (width : ℕ) (files : FileSystem) (filename : String) : FileSystem :=
  if files.writable filename then files.write filename (saveBytes index width) else files

/-- The members that `Load` sets. -/
structure GraphMembers where
  width : ℕ
  ep : ℕ
  final_graph : List (List ℕ)
deriving DecidableEq

/-- `read` into an `unsigned` that holds `old`: the bytes that are there replace its low ones. -/
def readUnsigned (old : ℕ) (s : IStream) : ℕ × IStream :=
  let r := read s 4
  (ofBytes (r.1 ++ (toBytes 4 old).drop r.1.length), r.2)

/-- The state of the loop of `Load`. -/
structure ListStream where
  final_graph : List (List ℕ)
  input : IStream

/-- One pass of `while (!in.eof())`. A read that finds too few bytes is what sets `eof`; the
elements of `tmp` that it leaves alone are zero. -/
def loadStep (s : ListStream) : Run (ListStream ⊕ List (List ℕ)) :=
  if s.input.good = false then pure (.inr s.final_graph)
  else
    let k := read s.input 4
    if k.2.good = false then pure (.inr s.final_graph)
    else
      let tmp := read k.2 (4 * ofBytes k.1)
      pure (.inl ⟨s.final_graph ++ [elements 4 (ofBytes k.1) ofBytes tmp.1], tmp.2⟩)

/-- `Load(filename)`. On a file that cannot be opened the reads fail without `eof`; `k` is
the number that is then in memory where no number was read to. -/
def load (m : GraphMembers) (k : ℕ) (disk : BinaryDisk) (filename : String) : Run GraphMembers :=
  match disk filename with
  | none => loop (fun m => pure (.inl { m with final_graph := m.final_graph ++ [List.replicate k 0] })) m
  | some bytes => do
    let width := readUnsigned m.width ⟨bytes, true⟩
    let ep := readUnsigned m.ep width.2
    let final_graph ← loop loadStep ⟨m.final_graph, ep.2⟩
    pure ⟨width.1, ep.1, final_graph⟩

-- ---------------------------------------------------------------------------
-- Lists of ids
-- ---------------------------------------------------------------------------

/-- The numbers fit an `unsigned`. -/
def Fits (ids : List ℕ) : Prop := ids.length < 2 ^ 32 ∧ ∀ id ∈ ids, id < 2 ^ 32

theorem length_idBytes (ids : List ℕ) : (idBytes ids).length = 4 * ids.length :=
  length_flatMap_bytes (length_toBytes 4) ids

/-- What is read for a list that was written. -/
theorem elements_idBytes {ids : List ℕ} (h : ∀ id ∈ ids, id < 2 ^ 32) :
    elements 4 ids.length ofBytes (idBytes ids) = ids := by
  have hread : elements 4 ids.length ofBytes (ids.flatMap (toBytes 4) ++ []) =
      ids.map fun id => ofBytes (toBytes 4 id) := elements_map (length_toBytes 4) ids []
  rw [List.append_nil] at hread
  rw [idBytes, hread, List.map_congr_left fun id hid => ofBytes_toBytes (h id hid), List.map_id']

/-- A list of which only the first bytes are there: numbers before the cut are right, behind it
they are zero. -/
structure CutList (ids cut : List ℕ) : Prop where
  length : cut.length = ids.length
  before : ∃ c < 4 * ids.length, ∀ t, (∀ id, 4 * (t + 1) ≤ c → ids[t]? = some id → cut[t]? = some id) ∧
    (c ≤ 4 * t → t < ids.length → cut[t]? = some 0)

theorem getElem?_elements {size count : ℕ} {element : List UInt8 → ℕ} (bytes : List UInt8) {t : ℕ}
    (ht : t < count) :
    (elements size count element bytes)[t]? = some (element ((bytes.drop (size * t)).take size)) := by
  rw [elements, List.getElem?_map, List.getElem?_range ht]
  rfl

/-- What is read where the bytes of a list end early. -/
theorem cutList_take {ids : List ℕ} (h : ∀ id ∈ ids, id < 2 ^ 32) {c : ℕ} (hc : c < 4 * ids.length) :
    CutList ids (elements 4 ids.length ofBytes ((idBytes ids).take c)) where
  length := length_elements 4 _ _ _
  before := by
    refine ⟨c, hc, fun t => ⟨fun id ht hid => ?_, fun ht hlt => ?_⟩⟩
    · have hlt : t < ids.length := (List.getElem?_eq_some_iff.mp hid).1
      have hwhole : (elements 4 ids.length ofBytes (idBytes ids))[t]? = _ := getElem?_elements _ hlt
      rw [elements_idBytes h, hid] at hwhole
      rw [hwhole, getElem?_elements _ hlt, List.drop_take, List.take_take, Nat.min_eq_left (by omega)]
    · rw [getElem?_elements _ hlt, List.drop_eq_nil_of_le (by
        rw [List.length_take]
        omega), List.take_nil]
      rfl

-- ---------------------------------------------------------------------------
-- Loading
-- ---------------------------------------------------------------------------

theorem readUnsigned_append {v : ℕ} (h : v < 2 ^ 32) (old : ℕ) (rest : List UInt8) :
    readUnsigned old ⟨toBytes 4 v ++ rest, true⟩ = (v, ⟨rest, true⟩) := by
  unfold readUnsigned
  rw [read_append (length_toBytes 4 v)]
  dsimp only
  rw [length_toBytes, List.drop_eq_nil_of_le (by rw [length_toBytes]), List.append_nil,
    ofBytes_toBytes h]

section Lists

variable {ids : List ℕ} {lists : List (List ℕ)}

/-- **One pass** reads the list at the front of the stream. -/
theorem loadStep_list (h : Fits ids) (final_graph : List (List ℕ)) (rest : List UInt8) :
    Returns (loadStep ⟨final_graph, ⟨listBytes ids ++ rest, true⟩⟩)
      (.inl ⟨final_graph ++ [ids], ⟨rest, true⟩⟩) := by
  unfold loadStep
  rw [if_neg (by simp), listBytes, List.append_assoc, read_append (length_toBytes 4 _)]
  dsimp only
  rw [if_neg (by simp), ofBytes_toBytes h.1, read_append (length_idBytes ids), elements_idBytes h.2]
  exact returns_pure _

/-- The loop reads the lists at the front of the stream. -/
theorem loop_lists (h : ∀ ids ∈ lists, Fits ids) (final_graph : List (List ℕ)) (rest : List UInt8)
    {r : Except Fault (List (List ℕ))}
    (hrest : Ends (loop loadStep ⟨final_graph ++ lists, ⟨rest, true⟩⟩) r) :
    Ends (loop loadStep ⟨final_graph, ⟨lists.flatMap listBytes ++ rest, true⟩⟩) r := by
  induction lists generalizing final_graph with
  | nil => simpa using hrest
  | cons ids lists ih =>
    rw [List.flatMap_cons, List.append_assoc]
    refine loop_next (loadStep_list (h ids List.mem_cons_self) final_graph _)
      (ih (fun l hl => h l (List.mem_cons_of_mem _ hl)) (final_graph ++ [ids]) ?_)
    rwa [List.append_assoc]

/-- The end of the file, or of a stream that has failed. -/
theorem loop_end (final_graph : List (List ℕ)) {input : IStream}
    (h : input.good = false ∨ input.rest.length < 4) :
    Returns (loop loadStep ⟨final_graph, input⟩) final_graph := by
  refine loop_done ?_
  obtain ⟨rest, good⟩ := input
  unfold loadStep
  cases good with
  | false => exact returns_pure _
  | true =>
    rw [if_neg (by simp), read_short (h.resolve_left (by simp))]
    exact returns_pure _

/-- What the loop makes of lists whose end is cut off: those that are whole, and perhaps
one more, whose end is missing. -/
theorem loop_truncated (h : ∀ ids ∈ lists, Fits ids) (final_graph : List (List ℕ))
    {pre : List UInt8} (hpre : Truncated pre (lists.flatMap listBytes)) :
    ∃ m, ∃ hm : m < lists.length, ∃ last,
      Returns (loop loadStep ⟨final_graph, ⟨pre, true⟩⟩) (final_graph ++ lists.take m ++ last) ∧
      (last = [] ∨ ∃ cut, last = [cut] ∧ CutList lists[m] cut) := by
  induction lists generalizing final_graph pre with
  | nil => exact absurd hpre (not_truncated_nil pre)
  | cons ids lists ih =>
    have hids := h ids List.mem_cons_self
    rcases hpre.of_append with hin | ⟨post, hpost, rfl⟩
    · refine ⟨0, Nat.succ_pos _, ?_⟩
      rw [List.take_zero, List.append_nil]
      rcases read_truncated (length_toBytes 4 _) hin with hfail | ⟨post, hpost, hread⟩
      · refine ⟨[], ?_, Or.inl rfl⟩
        rw [List.append_nil]
        refine loop_done ?_
        unfold loadStep
        rw [if_neg (by simp), hfail]
        exact returns_pure _
      · -- the length is there, but not the whole list
        have hlen := hpost.length_lt
        rw [length_idBytes] at hlen
        have hcut := cutList_take hids.2 hlen
        rw [← List.prefix_iff_eq_take.mp hpost.1] at hcut
        have hstep : Returns (loadStep ⟨final_graph, ⟨pre, true⟩⟩)
            (.inl ⟨final_graph ++ [elements 4 ids.length ofBytes post], ⟨[], false⟩⟩) := by
          unfold loadStep
          rw [if_neg (by simp), hread]
          dsimp only
          rw [if_neg (by simp), ofBytes_toBytes hids.1, read_short hlen]
          exact returns_pure _
        exact ⟨_, loop_next hstep (loop_end _ (Or.inl rfl)), Or.inr ⟨_, rfl, hcut⟩⟩
    · obtain ⟨m, hm, last, hret, hlast⟩ :=
        ih (fun l hl => h l (List.mem_cons_of_mem _ hl)) (final_graph ++ [ids]) hpost
      refine ⟨m + 1, Nat.succ_lt_succ hm, last, ?_, hlast⟩
      rw [List.take_succ_cons]
      rw [List.append_assoc final_graph, List.singleton_append] at hret
      exact loop_next (loadStep_list hids final_graph post) hret

end Lists

/-- The lists of an index with at most 2^32 nodes, none longer than `width`. -/
theorem fits_final_graph {index : IndexNSG} {width : ℕ} (hnd : index.nd ≤ 2 ^ 32)
    (hwidth : width < 2 ^ 32) (hlen : ∀ i < index.nd, (index.final_graph i).length ≤ width) :
    ∀ ids ∈ (List.range index.nd).map index.final_graph, Fits ids := by
  intro ids hids
  obtain ⟨i, hi, rfl⟩ := List.mem_map.mp hids
  have hi := List.mem_range.mp hi
  exact ⟨(hlen i hi).trans_lt hwidth, fun id hid => (index.graph_lt i hi id hid).trans_le hnd⟩

section SaveLoad

variable (index : IndexNSG) {width : ℕ} (hnd : index.nd ≤ 2 ^ 32) (hwidth : width < 2 ^ 32)
  (hlen : ∀ i < index.nd, (index.final_graph i).length ≤ width)

/-- The bytes of the lists, for a list of lists. -/
theorem saveBytes_eq (width : ℕ) : saveBytes index width = toBytes 4 width ++ (toBytes 4 index.ep ++
    ((List.range index.nd).map index.final_graph).flatMap listBytes) := by
  rw [saveBytes, List.flatMap_map]

include hnd hwidth

/-- A file that starts with `width` and the navigating point. -/
theorem load_of_loop {rest : List UInt8} {lists : List (List ℕ)} {m : GraphMembers}
    (hloop : Returns (loop loadStep ⟨m.final_graph, ⟨rest, true⟩⟩) lists) (k : ℕ) {disk : BinaryDisk}
    {filename : String}
    (hfile : disk filename = some (toBytes 4 width ++ (toBytes 4 index.ep ++ rest))) :
    Returns (load m k disk filename) ⟨width, index.ep, lists⟩ := by
  unfold load
  rw [hfile]
  dsimp only
  rw [readUnsigned_append hwidth]
  dsimp only
  rw [readUnsigned_append (index.ep_lt.trans_le hnd)]
  exact hloop.bind (returns_pure _)

include hlen

/-- **Loading** what has been saved: the lists are put behind those that are there. -/
theorem load_save (m : GraphMembers) (k : ℕ) {files : FileSystem} {filename : String}
    (hopen : files.writable filename = true) :
    Returns (load m k (save index width files filename).content filename)
      ⟨width, index.ep, m.final_graph ++ (List.range index.nd).map index.final_graph⟩ := by
  have hfile : (save index width files filename).content filename = some (saveBytes index width) := by
    rw [save, if_pos hopen, FileSystem.content_write]
  rw [saveBytes_eq] at hfile
  refine load_of_loop index hnd hwidth ?_ k hfile
  have hlists := loop_lists (fits_final_graph hnd hwidth hlen) m.final_graph []
    (loop_end _ (Or.inr (by decide)))
  rwa [List.append_nil] at hlists

end SaveLoad

/-- The file of four nodes, cut off inside the list of the second one. -/
def cutLineGraph : BinaryDisk := fun _ => some ((saveBytes lineGraph 2).take 30)

/-- A file that cannot be opened is read for ever. -/
theorem load_missing (m : GraphMembers) (k : ℕ) {disk : BinaryDisk} {filename : String}
    (hfile : disk filename = none) : Diverges (load m k disk filename) := by
  unfold load
  rw [hfile]
  exact loop_diverges (fun _ => True) (fun s _ => ⟨_, returns_pure _, trivial⟩) trivial

-- ---------------------------------------------------------------------------
-- The kNN graph
-- ---------------------------------------------------------------------------

/-- What the loop of `IndexGraph::Save` writes for a node whose list has all of `GK` ids. -/
def knnBytes (GK : ℕ) (ids : List ℕ) : List UInt8 := toBytes 4 GK ++ idBytes (ids.take GK)

/-- `IndexGraph::Save`: the contents of the file. -/
def knnSave (final_graph : List (List ℕ)) : Run (List UInt8) :=
  match final_graph with
  | [] => fault .outOfRange
  | first :: _ => final_graph.foldlM (fun out ids =>
      if ids.length < first.length then fault .outOfRange
      else pure (out ++ knnBytes first.length ids)) []

/-- The lists of `k` ids that are read; the length in front of each is skipped. -/
def readLists (k : ℕ) : ℕ → FileStream → List (List ℕ)
  | 0, _ => []
  | num + 1, input =>
    let ids := (input.skip 4).read (4 * k)
    elements 4 k ofBytes ids.1 :: readLists k num ids.2

/-- `Load_nn_graph(filename)` of `IndexNSG`, for a file that can be opened: `k + 1` is computed
as an `unsigned`, and so is the number of nodes at the end. -/
def loadNnGraph (bytes : List UInt8) : Run (List (List ℕ)) := do
  let k := readUnsigned 0 ⟨bytes, true⟩
  let divisor := (k.1 + 1) % 2 ^ 32
  if divisor = 0 then fault .outOfRange
  else pure (readLists k.1 (bytes.length / divisor / 4 % 2 ^ 32) ⟨bytes, 0, true⟩)

/-- `Load(filename)` of `IndexGraph`, in `size_t`. -/
def knnLoad (bytes : List UInt8) : List (List ℕ) :=
  let k := readUnsigned 0 ⟨bytes, true⟩
  readLists k.1 (bytes.length / (k.1 + 1) / 4) ⟨bytes, 0, true⟩

section Knn

variable {GK : ℕ} {lists : List (List ℕ)}

theorem length_knnBytes {ids : List ℕ} (h : GK ≤ ids.length) :
    (knnBytes GK ids).length = 4 * (GK + 1) := by
  rw [knnBytes, List.length_append, length_toBytes, length_idBytes, List.length_take,
    Nat.min_eq_left h]
  omega

theorem length_knnFile (h : ∀ ids ∈ lists, GK ≤ ids.length) :
    (lists.flatMap (knnBytes GK)).length = 4 * (GK + 1) * lists.length := by
  induction lists with
  | nil => rfl
  | cons ids lists ih =>
    rw [List.flatMap_cons, List.length_append, length_knnBytes (h ids List.mem_cons_self),
      ih fun l hl => h l (List.mem_cons_of_mem _ hl), List.length_cons]
    ring

/-- What `Save` leaves: the first `GK` ids of each list, where the first list has `GK`. -/
theorem knnSave_returns {first : List ℕ} (h : ∀ ids ∈ first :: lists, first.length ≤ ids.length) :
    Returns (knnSave (first :: lists)) ((first :: lists).flatMap (knnBytes first.length)) := by
  let f : List UInt8 → List ℕ → Run (List UInt8) := fun out ids =>
    if ids.length < first.length then fault .outOfRange else pure (out ++ knnBytes first.length ids)
  obtain ⟨out, hret, hout⟩ := foldlM_returns
    (fun pre (out : List UInt8) => out = pre.flatMap (knnBytes first.length)) (l := first :: lists)
    (f := f) (fun pre ids post out hsplit hout => by
      have hmem : ids ∈ first :: lists := by rw [hsplit]; simp
      refine ⟨out ++ knnBytes first.length ids, ?_, by
        rw [hout, List.flatMap_append, List.flatMap_singleton]⟩
      rw [show f out ids = _ from if_neg (not_lt.mpr (h ids hmem))]
      exact returns_pure _)
    (s := []) rfl
  exact hout ▸ hret

/-- **The lists** are read one after the other. -/
theorem readLists_reached (h : ∀ ids ∈ lists, GK ≤ ids.length)
    (hfits : ∀ ids ∈ lists, ∀ id ∈ ids, id < 2 ^ 32) (before : List UInt8) :
    readLists GK lists.length (.reached before (lists.flatMap (knnBytes GK))) =
      lists.map (List.take GK) := by
  induction lists generalizing before with
  | nil => rfl
  | cons ids lists ih =>
    have hlen : (idBytes (ids.take GK)).length = 4 * GK := by
      rw [length_idBytes, List.length_take, Nat.min_eq_left (h ids List.mem_cons_self)]
    have hids := elements_idBytes fun id hid =>
      hfits ids List.mem_cons_self id (List.mem_of_mem_take (i := GK) hid)
    rw [List.length_take, Nat.min_eq_left (h ids List.mem_cons_self)] at hids
    rw [List.length_cons, readLists, List.flatMap_cons, knnBytes, List.append_assoc,
      FileStream.skip_reached (length_toBytes 4 GK), FileStream.read_reached hlen]
    dsimp only
    rw [hids, ih (fun l hl => h l (List.mem_cons_of_mem _ hl))
      (fun l hl => hfits l (List.mem_cons_of_mem _ hl)), List.map_cons]

variable {first : List ℕ} (h : ∀ ids ∈ first :: lists, first.length ≤ ids.length)
  (hfits : ∀ ids ∈ first :: lists, ∀ id ∈ ids, id < 2 ^ 32)

include h hfits

/-- The number of neighbours is that of the first list, and the size of the file gives the number of
lists. -/
theorem knnFile (hGK : first.length < 2 ^ 32) {divisor : ℕ} (hdivisor : divisor = first.length + 1) :
    (readUnsigned 0 ⟨(first :: lists).flatMap (knnBytes first.length), true⟩).1 = first.length ∧
      ((first :: lists).flatMap (knnBytes first.length)).length / divisor / 4 =
        (first :: lists).length ∧
      readLists first.length (first :: lists).length
        ⟨(first :: lists).flatMap (knnBytes first.length), 0, true⟩ =
        (first :: lists).map (List.take first.length) := by
  refine ⟨?_, ?_, readLists_reached h hfits []⟩
  · rw [List.flatMap_cons, knnBytes, List.append_assoc, readUnsigned_append hGK]
  · rw [length_knnFile h, hdivisor, Nat.div_div_eq_div_mul, Nat.mul_comm (_ + 1) 4,
      Nat.mul_div_cancel_left _ (by omega)]

/-- `Load_nn_graph` on the file that `Save` wrote. -/
theorem loadNnGraph_returns (hGK : first.length + 1 < 2 ^ 32)
    (hnum : (first :: lists).length < 2 ^ 32) :
    Returns (loadNnGraph ((first :: lists).flatMap (knnBytes first.length)))
      ((first :: lists).map (List.take first.length)) := by
  obtain ⟨hk, hsize, hread⟩ := knnFile h hfits (by omega) rfl
  unfold loadNnGraph
  dsimp only
  rw [hk, Nat.mod_eq_of_lt hGK, if_neg (Nat.succ_ne_zero _), hsize, Nat.mod_eq_of_lt hnum, hread]
  exact returns_pure _

/-- **The kNN graph** that `Save` wrote is read by `Load_nn_graph` and by `Load`; of lists
that are longer than the first one, only as many ids as that one has are there. -/
theorem loadNnGraph_save (hGK : first.length + 1 < 2 ^ 32)
    (hnum : (first :: lists).length < 2 ^ 32) :
    ∃ bytes, Returns (knnSave (first :: lists)) bytes ∧
      Returns (loadNnGraph bytes) ((first :: lists).map (List.take first.length)) ∧
      knnLoad bytes = (first :: lists).map (List.take first.length) := by
  obtain ⟨hk, hsize, hread⟩ := knnFile h hfits (by omega) rfl
  refine ⟨_, knnSave_returns h, loadNnGraph_returns h hfits hGK hnum, ?_⟩
  unfold knnLoad
  dsimp only
  rw [hk, hsize, hread]

end Knn

/-- Three nodes with two neighbours each. -/
theorem threeNodes_knn : ∃ bytes, Returns (knnSave [[1, 2], [0, 2], [0, 1]]) bytes ∧
    Returns (loadNnGraph bytes) [[1, 2], [0, 2], [0, 1]] ∧
    knnLoad bytes = [[1, 2], [0, 2], [0, 1]] :=
  loadNnGraph_save (by decide) (by decide) (by decide) (by decide)

end Mqo.Build.Nsg
