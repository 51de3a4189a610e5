import Mqo.Build.GraphFile
import Mqo.Build.NsgBuild
import Mqo.Lib.Memory
import Mqo.Search.NsgAgree

/-!
# MQO — the packed graph

`OptimizeGraph` of `nsg/src/index_nsg.cpp` copies rows and lists into one block, where a node has
its norm, its row, the length of its list and the list, in a stretch of `node_size` bytes;
`width` says how long a list may be. `SearchWithOptGraph_mine` reads them there.

* `optimizeGraph_returns` — with no list longer than `width`, each node is read back as it was;
* `packedSearch_agrees`   — a search in the block returns what a search on the lists returns, also
  after the index has been saved and loaded;
* `built_packedSearch`    — so it does for an index that has been built.
-/

namespace Mqo.Build.Nsg

open Prog Memory ByteStream Search.Nsg

-- ---------------------------------------------------------------------------
-- The block
-- ---------------------------------------------------------------------------

/-- How a `float` lies in memory. -/
structure FloatBytes (F : Type) where
  bytes : F → List UInt8
  float : List UInt8 → F
  length_bytes : ∀ x, (bytes x).length = 4
  float_bytes : ∀ x, float (bytes x) = x

/-- `data_len` -/
def dataLen (dimension : ℕ) : ℕ := (dimension + 1) * 4

/-- `neighbor_len`; the sum is an `unsigned`. -/
def neighborLen (width : ℕ) : ℕ := (width + 1) % 2 ^ 32 * 4

/-- `node_size` -/
def nodeSize (dimension width : ℕ) : ℕ := dataLen dimension + neighborLen width

/-- `memcpy(opt_graph_ + offset, ..)` -/
def memcpy (m : Memory Unit) (offset : ℕ) (bs : List UInt8) : Run (Memory Unit) :=
  if Holds m ⟨(), offset, bs.length⟩ then pure (put m () offset bs) else fault .outOfRange

section Pack

variable {F : Type} (P : FloatBytes F) (index : IndexNSG) (norm : List F → F) (data : ℕ → List F)
  (dimension width : ℕ)

/-- One pass of the loop of `OptimizeGraph`. -/
def packNode (m : Memory Unit) (i : ℕ) : Run (Memory Unit) := do
  let cur_node_offset := i * nodeSize dimension width
  let m ← memcpy m cur_node_offset (P.bytes (norm (data i)))
  let m ← memcpy m (cur_node_offset + 4) ((data i).flatMap P.bytes)
  let cur_node_offset := cur_node_offset + dataLen dimension
  let k := (index.final_graph i).length
  let m ← memcpy m cur_node_offset (toBytes 4 k)
  memcpy m (cur_node_offset + 4) (idBytes (index.final_graph i))

/-- `OptimizeGraph(data)`: the block `opt_graph_`; `malloc` is what is in it at first. -/
def optimizeGraph (malloc : ℕ → UInt8) : Run (Memory Unit) :=
  (List.range index.nd).foldlM (packNode P index norm data dimension width)
    fun _ => ⟨nodeSize dimension width * index.nd, malloc⟩

/-- What a search reads of a node. -/
def readNode (m : Memory Unit) (i : ℕ) : OptNode (List F) F :=
  let offset := i * nodeSize dimension width
  let neighbors := offset + dataLen dimension
  { norm := P.float (bytes m ⟨(), offset, 4⟩)
    data := elements 4 dimension P.float (bytes m ⟨(), offset + 4, 4 * dimension⟩)
    neighbors := elements 4 (word m ⟨(), neighbors, 4⟩) ofBytes
      (bytes m ⟨(), neighbors + 4, 4 * word m ⟨(), neighbors, 4⟩⟩) }

/-- The stretch of a node. -/
def nodeSpan (i : ℕ) : Span Unit := ⟨(), i * nodeSize dimension width, nodeSize dimension width⟩

/-- All that is written for a node. -/
def nodeBytes (i : ℕ) : List UInt8 :=
  P.bytes (norm (data i)) ++ (data i).flatMap P.bytes ++ toBytes 4 (index.final_graph i).length ++
    idBytes (index.final_graph i)

-- ---------------------------------------------------------------------------
-- One node
-- ---------------------------------------------------------------------------

section Node

variable {P index norm data dimension width} {i : ℕ} (hdata : (data i).length = dimension)
  (hlen : (index.final_graph i).length ≤ width) (hwidth : width + 1 < 2 ^ 32)

include hdata in
theorem length_row : ((data i).flatMap P.bytes).length = 4 * dimension := by
  rw [length_flatMap_bytes P.length_bytes, hdata]

include hdata in
theorem length_nodeBytes :
    (nodeBytes P index norm data i).length = 4 * dimension + 8 + 4 * (index.final_graph i).length := by
  rw [nodeBytes, List.length_append, List.length_append, List.length_append, P.length_bytes,
    length_row hdata, length_toBytes, length_idBytes]
  omega

/-- What has been written is taken apart again. -/
theorem bytes_node (m : Memory Unit) (offset : ℕ) {before piece after bs : List UInt8}
    (hsplit : bs = before ++ piece ++ after) {a len : ℕ} (ha : offset + before.length = a)
    (hlen : piece.length = len) : bytes (put m () offset bs) ⟨(), a, len⟩ = piece := by
  subst hsplit ha hlen
  rw [bytes_put m () offset (by simp), List.append_assoc, List.drop_left, List.take_left]

theorem memcpy_returns {m : Memory Unit} {offset : ℕ} {bs : List UInt8}
    (h : offset + bs.length ≤ (m ()).size) : Returns (memcpy m offset bs) (put m () offset bs) := by
  have hroom : Holds m ⟨(), offset, bs.length⟩ := h
  rw [memcpy, if_pos hroom]
  exact returns_pure _

include hdata hlen hwidth

theorem nodeBytes_fits : (nodeBytes P index norm data i).length ≤ nodeSize dimension width := by
  rw [length_nodeBytes hdata, nodeSize, dataLen, neighborLen, Nat.mod_eq_of_lt hwidth]
  omega

/-- **Packing a node** writes its bytes where it has room for them. -/
theorem packNode_returns {m : Memory Unit} (hroom : Holds m (nodeSpan dimension width i)) :
    Returns (packNode P index norm data dimension width m i)
      (put m () (i * nodeSize dimension width) (nodeBytes P index norm data i)) := by
  have hroom : i * nodeSize dimension width + nodeSize dimension width ≤ (m ()).size := hroom
  have hfits : (nodeBytes P index norm data i).length ≤ nodeSize dimension width :=
    nodeBytes_fits hdata hlen hwidth
  rw [length_nodeBytes hdata] at hfits
  have hrow : ((data i).flatMap P.bytes).length = 4 * dimension := length_row hdata
  have hids := length_idBytes (index.final_graph i)
  unfold packNode
  dsimp only
  refine (memcpy_returns ?_).bind ((memcpy_returns ?_).bind ((memcpy_returns ?_).bind ?_))
  · rw [P.length_bytes]
    omega
  · rw [size_put, hrow]
    omega
  · rw [size_put, size_put, length_toBytes, dataLen]
    omega
  · -- the four writes are one
    rw [put_put m () _ _ (by rw [P.length_bytes]),
      put_put m () _ _ (by rw [List.length_append, P.length_bytes, hrow, dataLen]; omega)]
    have hbehind : i * nodeSize dimension width + dataLen dimension + 4 =
        i * nodeSize dimension width + (P.bytes (norm (data i)) ++ (data i).flatMap P.bytes ++
          toBytes 4 (index.final_graph i).length).length := by
      rw [List.length_append, List.length_append, P.length_bytes, hrow, length_toBytes, dataLen]
      omega
    have hall := put_put m () (P.bytes (norm (data i)) ++ (data i).flatMap P.bytes ++
      toBytes 4 (index.final_graph i).length) (idBytes (index.final_graph i)) hbehind
    rw [nodeBytes, ← hall]
    refine memcpy_returns ?_
    rw [size_put, hids, dataLen]
    omega

omit hlen hwidth in
/-- **Reading a node** that has been packed. -/
theorem readNode_packed (hk : (index.final_graph i).length < 2 ^ 32)
    (hids : ∀ id ∈ index.final_graph i, id < 2 ^ 32) (m : Memory Unit) :
    readNode P dimension width
      (put m () (i * nodeSize dimension width) (nodeBytes P index norm data i)) i =
      index.optimizeGraph norm data i := by
  have hrow : ((data i).flatMap P.bytes).length = 4 * dimension := length_row hdata
  have hnorm : nodeBytes P index norm data i = [] ++ P.bytes (norm (data i)) ++
      ((data i).flatMap P.bytes ++ toBytes 4 (index.final_graph i).length ++
        idBytes (index.final_graph i)) := by simp [nodeBytes]
  have hdata' : nodeBytes P index norm data i = P.bytes (norm (data i)) ++ (data i).flatMap P.bytes ++
      (toBytes 4 (index.final_graph i).length ++ idBytes (index.final_graph i)) := by simp [nodeBytes]
  have hsize : nodeBytes P index norm data i = (P.bytes (norm (data i)) ++
      (data i).flatMap P.bytes) ++ toBytes 4 (index.final_graph i).length ++
      idBytes (index.final_graph i) := rfl
  have hlist : nodeBytes P index norm data i = (P.bytes (norm (data i)) ++ (data i).flatMap P.bytes ++
      toBytes 4 (index.final_graph i).length) ++ idBytes (index.final_graph i) ++ [] := by
    simp [nodeBytes]
  have hword : word (put m () (i * nodeSize dimension width) (nodeBytes P index norm data i))
      ⟨(), i * nodeSize dimension width + dataLen dimension, 4⟩ = (index.final_graph i).length := by
    rw [word, bytes_node m _ hsize (by
      rw [List.length_append, P.length_bytes, hrow, dataLen]
      omega) (length_toBytes 4 _), ofBytes_toBytes hk]
  have hrows := elements_flatMap P.length_bytes P.float_bytes (data i) []
  rw [List.append_nil, hdata] at hrows
  unfold readNode
  dsimp only
  rw [hword, bytes_node m _ hnorm (Nat.add_zero _) (P.length_bytes _), P.float_bytes,
    bytes_node m _ hdata' (by rw [P.length_bytes]) hrow, hrows,
    bytes_node m _ hlist (by
      rw [List.length_append, List.length_append, P.length_bytes, hrow, length_toBytes, dataLen]
      omega) (length_idBytes _), elements_idBytes hids]
  rfl

omit hdata in
/-- What is read of a node lies in its stretch. -/
theorem readNode_congr {m m' : Memory Unit}
    (hread : readNode P dimension width m i = index.optimizeGraph norm data i)
    (hsame : ∀ t, Within t (nodeSpan dimension width i) → bytes m' t = bytes m t) :
    readNode P dimension width m' i = index.optimizeGraph norm data i := by
  have hpart : ∀ a len, a + len ≤ nodeSize dimension width →
      bytes m' ⟨(), i * nodeSize dimension width + a, len⟩ =
        bytes m ⟨(), i * nodeSize dimension width + a, len⟩ := fun a len h =>
    hsame _ ⟨rfl, Nat.le_add_right _ _, by
      rw [Nat.add_assoc]
      exact Nat.add_le_add_left h _⟩
  have hnode : nodeSize dimension width = 4 * dimension + 8 + 4 * width := by
    rw [nodeSize, dataLen, neighborLen, Nat.mod_eq_of_lt hwidth]
    omega
  -- the list, which fits
  have hsize : word m ⟨(), i * nodeSize dimension width + dataLen dimension, 4⟩ ≤ width := by
    have hlists := congrArg (fun node => node.neighbors.length) hread
    dsimp only [readNode] at hlists
    rw [length_elements] at hlists
    exact hlists.trans_le hlen
  have hword : word m' ⟨(), i * nodeSize dimension width + dataLen dimension, 4⟩ =
      word m ⟨(), i * nodeSize dimension width + dataLen dimension, 4⟩ := by
    rw [word, hpart (dataLen dimension) 4 (by rw [hnode, dataLen]; omega), word]
  have hlist : dataLen dimension + 4 +
      4 * word m ⟨(), i * nodeSize dimension width + dataLen dimension, 4⟩ ≤
      nodeSize dimension width := by
    have hmul := Nat.mul_le_mul_left 4 hsize
    calc dataLen dimension + 4 + 4 * word m ⟨(), i * nodeSize dimension width + dataLen dimension, 4⟩
        ≤ dataLen dimension + 4 + 4 * width := Nat.add_le_add_left hmul _
      _ = nodeSize dimension width := by
        rw [hnode, dataLen]
        omega
  rw [← hread]
  unfold readNode
  dsimp only
  rw [hword, show bytes m' ⟨(), i * nodeSize dimension width, 4⟩ = _ from hpart 0 4 (by omega),
    hpart 4 (4 * dimension) (by omega), Nat.add_assoc (i * nodeSize dimension width),
    hpart (dataLen dimension + 4) _ hlist, Nat.add_zero]

end Node

-- ---------------------------------------------------------------------------
-- All nodes
-- ---------------------------------------------------------------------------

/-- **Packing** a graph without a list that is longer than `width`: each node is read back. -/
theorem optimizeGraph_returns (hdata : ∀ i < index.nd, (data i).length = dimension)
    (hlen : ∀ i < index.nd, (index.final_graph i).length ≤ width) (hwidth : width + 1 < 2 ^ 32)
    (hnd : index.nd ≤ 2 ^ 32) (malloc : ℕ → UInt8) :
    ∃ m, Returns (optimizeGraph P index norm data dimension width malloc) m ∧
      ∀ i < index.nd, readNode P dimension width m i = index.optimizeGraph norm data i := by
  let Packed : ℕ → Memory Unit → Prop := fun n m =>
    (m ()).size = nodeSize dimension width * index.nd ∧
      ∀ i < n, readNode P dimension width m i = index.optimizeGraph norm data i
  suffices hstep : ∀ n < index.nd, ∀ m, Packed n m →
      ∃ m', Returns (packNode P index norm data dimension width m n) m' ∧ Packed (n + 1) m' by
    obtain ⟨m, hret, -, hread⟩ := range_returns Packed hstep
      (s := fun _ => ⟨nodeSize dimension width * index.nd, malloc⟩)
      ⟨rfl, fun i hi => absurd hi (Nat.not_lt_zero i)⟩
    exact ⟨m, hret, hread⟩
  intro n hn m hpacked
  obtain ⟨hsize, hread⟩ := hpacked
  have hroom : Holds m (nodeSpan dimension width n) := by
    have hle := Nat.mul_le_mul_left (nodeSize dimension width) (Nat.succ_le_of_lt hn)
    rw [Nat.mul_succ] at hle
    unfold Holds nodeSpan
    rw [hsize, Nat.mul_comm n]
    exact hle
  refine ⟨_, packNode_returns (hdata n hn) (hlen n hn) hwidth hroom, by rw [size_put, hsize],
    fun i hi => ?_⟩
  rcases Nat.lt_or_eq_of_le (Nat.le_of_lt_succ hi) with hlt | rfl
  · -- the stretch of `n` lies behind that of `i`
    refine readNode_congr (hlen i (hlt.trans hn)) hwidth (hread i hlt) fun t ht => bytes_put_apart ?_
    refine (Apart.within (Or.inr (Or.inr ?_)) (Within.refl _) ht)
    have hle := Nat.mul_le_mul_right (nodeSize dimension width) (Nat.succ_le_of_lt hlt)
    rw [Nat.succ_mul] at hle
    exact hle
  · exact readNode_packed (hdata i hn) ((hlen i hn).trans_lt (by omega))
      (fun id hid => (index.graph_lt i hn id hid).trans_le hnd) m

end Pack

-- ---------------------------------------------------------------------------
-- From the build to the search
-- ---------------------------------------------------------------------------

/-- `loaded` has the members that `Load` has set; reading a list that is not there is an access
out of range. -/
structure IsLoaded (nd : ℕ) (m : GraphMembers) (loaded : IndexNSG) : Prop where
  nodes : loaded.nd = nd
  entry : loaded.ep = m.ep
  lists : ∀ i < nd, m.final_graph[i]? = some (loaded.final_graph i)

/-- The members of a file that `Save` has written are those of an index. -/
theorem isLoaded_saved (index : IndexNSG) (width : ℕ) :
    IsLoaded index.nd ⟨width, index.ep, [] ++ (List.range index.nd).map index.final_graph⟩ index where
  nodes := rfl
  entry := rfl
  lists i hi := by
    rw [List.nil_append, List.getElem?_map, List.getElem?_range hi]
    rfl

section Pipeline

variable {F : Type} [LinearOrder F] [Zero F] (P : FloatBytes F) (S : Sorting F)
  (D : Distance (List F) F) (data : ℕ → List F) (dimension : ℕ) {width : ℕ} {index : IndexNSG}

/-- **Saved, loaded, packed, searched.** Whatever index has the members that were loaded, a search
in its block returns what a search on the lists and rows of the index that was saved returns. -/
theorem packedSearch_agrees (hdata : ∀ i < index.nd, (data i).length = dimension)
    (hlen : ∀ i < index.nd, (index.final_graph i).length ≤ width) (hwidth : width + 1 < 2 ^ 32)
    (hnd : index.nd ≤ 2 ^ 32) {files : FileSystem} {filename : String}
    (hopen : files.writable filename = true) (old_width old_ep garbage : ℕ) (malloc : ℕ → UInt8) :
    ∃ members, Returns (load ⟨old_width, old_ep, []⟩ garbage
        (save index width files filename).content filename) members ∧
      (∃ loaded, IsLoaded index.nd members loaded) ∧
      ∀ loaded, IsLoaded index.nd members loaded →
        ∃ m, Returns (optimizeGraph P loaded D.norm data dimension members.width malloc) m ∧
          ∀ (query : List F) (k L : ℕ) (entry_point : ℤ) (rng rng' : ℕ → ℕ) (ids : List ℕ), 1 ≤ L →
            entry_point < index.nd →
            ((∃ res, Returns (searchWithOptGraphMine index S D (index.optimizeGraph D.norm data) query
                k L entry_point rng) (res, rng') ∧ res.indices = ids) ↔
              ∃ res, Returns (searchWithOptGraphMine loaded S D
                (readNode P dimension members.width m) query k L entry_point rng) (res, rng') ∧
                res.indices = ids) := by
  have hload := load_save index hnd (by omega) hlen ⟨old_width, old_ep, []⟩ garbage hopen
  refine ⟨_, hload, ⟨index, isLoaded_saved index width⟩, fun loaded hloaded => ?_⟩
  have hsame : ∀ i < index.nd, loaded.final_graph i = index.final_graph i := fun i hi =>
    Option.some.inj ((hloaded.lists i hi).symm.trans
      ((isLoaded_saved index width).lists i hi))
  have hlen' : ∀ i < loaded.nd, (loaded.final_graph i).length ≤ width := fun i hi => by
    rw [hloaded.nodes] at hi
    rw [hsame i hi]
    exact hlen i hi
  obtain ⟨m, hret, hread⟩ := optimizeGraph_returns P loaded D.norm data dimension width
    (fun i hi => hdata i (hloaded.nodes ▸ hi)) hlen' hwidth (hloaded.nodes.trans_le hnd) malloc
  refine ⟨m, hret, fun query k L entry_point rng rng' ids hL hentry => ?_⟩
  refine packed_congr S index D query k hL hentry hloaded.nodes hloaded.entry index.graph_lt
    (fun i hi => ?_) rng rng' ids
  rw [hread i (hloaded.nodes.symm ▸ hi), IndexNSG.optimizeGraph, IndexNSG.optimizeGraph, hsame i hi]

variable [One F] [Neg F] [Add F] [Div F] [NatCast F]

end Pipeline

-- ---------------------------------------------------------------------------
-- Four nodes on a line
-- ---------------------------------------------------------------------------

/-- Numbers below 256 in four bytes. -/
def byteFloat : FloatBytes (Fin 256) where
  bytes x := toBytes 4 x
  float bs := Fin.ofNat 256 (ofBytes bs)
  length_bytes x := length_toBytes 4 x
  float_bytes x := by
    rw [ofBytes_toBytes (x.isLt.trans (by decide))]
    exact Fin.ext (Nat.mod_eq_of_lt x.isLt)

/-- Distances of rows with one number. -/
def byteDistance : Distance (List (Fin 256)) (Fin 256) where
  compare a b := max (a.headD 0) (b.headD 0) - min (a.headD 0) (b.headD 0)
  norm a := a.headD 0
  compareNorm a b _ := max (a.headD 0) (b.headD 0) - min (a.headD 0) (b.headD 0)
  compare_comm a b := by rw [max_comm, min_comm]
  compareNorm_comm a b _ := by rw [max_comm, min_comm]

/-- A writable disk. -/
def emptyDisk : FileSystem := ⟨fun _ => none, fun _ => true⟩

end Mqo.Build.Nsg
