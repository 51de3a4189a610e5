import Mqo.Build.GraphFile
import Mqo.Build.VamanaLink

/-!
# MQO — the file of a Vamana graph

`save_graph` and `load_impl` of `DiskANN/src/in_mem_graph_store.cpp`. The file begins with its own
size, and `load_impl` reads lists until it has come to that size. The stream throws on a read that
finds too few bytes.

* `loadImpl_returns_iff`  — exactly what is accepted: a header, lists that fill the size in it, and
  anything behind them;
* `loadImpl_saveGraph`    — what was saved is loaded, also from a file that has been longer before;
* `loadImpl_truncated`    — a file whose end is missing is never accepted;
* `built_searched`        — so the graph that `link` has built is the one that is searched.
-/

namespace Mqo.Build.Vamana

open Prog ByteStream Nsg

-- ---------------------------------------------------------------------------
-- Writing
-- ---------------------------------------------------------------------------

/-- The members of `InMemGraphStore` that its files are about. -/
structure InMemGraphStore where
  graph : List (List ℕ)
  max_observed_degree : ℕ
  max_range_of_graph : ℕ
deriving DecidableEq

/-- A file that is open for writing, over the bytes it had before. -/
structure OStream where
  bytes : List UInt8
  pos : ℕ

namespace OStream

/-- `write` -/
def write (s : OStream) (data : List UInt8) : OStream :=
  ⟨s.bytes.take s.pos ++ data ++ s.bytes.drop (s.pos + data.length), s.pos + data.length⟩

/-- `seekp(pos, beg)` -/
def seekp (s : OStream) (pos : ℕ) : OStream := { s with pos := pos }

end OStream

/-- The state of the loop of `save_graph`. -/
structure SaveState where
  out : OStream
  index_size : ℕ
  max_degree : ℕ

/-- One pass of the loop of `save_graph`. -/
def saveStep (store : InMemGraphStore) (s : SaveState) (i : ℕ) : Run SaveState :=
  match store.graph[i]? with
  | none => fault .outOfRange
  | some ids => pure ⟨s.out.write (listBytes ids), s.index_size + 4 * (ids.length + 1),
      if s.max_degree < ids.length then ids.length else s.max_degree⟩

/-- `save_graph`, on a file that holds `old`: what the file holds then. -/
def saveGraph (store : InMemGraphStore) (num_points num_frozen_points start : ℕ) (old : List UInt8) :
    Run (List UInt8) := do
  let out := (((OStream.mk old 0).write (toBytes 8 24)).write
    (toBytes 4 store.max_observed_degree)).write (toBytes 4 start)
  let s ← (List.range num_points).foldlM (saveStep store) ⟨out.write (toBytes 8 num_frozen_points), 24, 0⟩
  pure (((s.out.seekp 0).write (toBytes 8 s.index_size)).write (toBytes 4 s.max_degree)).bytes

-- ---------------------------------------------------------------------------
-- Reading
-- ---------------------------------------------------------------------------

/-- What a stream throws that has `exceptions(badbit | failbit)`. -/
def iosFailure : Fault := .exception "basic_ios::clear: iostream error"

/-- `read` from such a stream: the bytes read, and those that are left. -/
def readOrThrow (rest : List UInt8) (count : ℕ) : Run (List UInt8 × List UInt8) :=
  let r := read ⟨rest, true⟩ count
  if r.2.good then pure (r.1, r.2.rest) else fault iosFailure

/-- A read of an unsigned number of `size` bytes. -/
def readNumber (size : ℕ) (rest : List UInt8) : Run (ℕ × List UInt8) := do
  let r ← readOrThrow rest size
  pure (ofBytes r.1, r.2)

/-- The state of the loop of `load_impl`. -/
structure LoadState where
  graph : List (List ℕ)
  rest : List UInt8
  bytes_read : ℕ
  nodes_read : ℕ
  max_range_of_graph : ℕ

/-- One pass of `while (bytes_read != expected_file_size)`. -/
def loadStep (expected_file_size : ℕ) (s : LoadState) : Run (LoadState ⊕ LoadState) :=
  if s.bytes_read ≠ expected_file_size then do
    let k ← readNumber 4 s.rest
    let tmp ← readOrThrow k.2 (4 * k.1)
    if s.graph.length ≤ s.nodes_read then fault .outOfRange
    else pure (.inl ⟨s.graph.set s.nodes_read (elements 4 k.1 ofBytes tmp.1), tmp.2,
      s.bytes_read + 4 * (k.1 + 1), s.nodes_read + 1, max s.max_range_of_graph k.1⟩)
  else pure (.inr s)

/-- What `load_impl` returns: `nodes_read`, `start` and `file_frozen_pts`. -/
structure LoadedGraph where
  store : InMemGraphStore
  nodes_read : ℕ
  start : ℕ
  file_frozen_pts : ℕ

/-- `resize_graph`, which only ever makes it larger here. -/
def resizeGraph (graph : List (List ℕ)) (new_size : ℕ) : List (List ℕ) :=
  graph ++ List.replicate (new_size - graph.length) []

/-- `load_impl` -/
def loadImpl (store : InMemGraphStore) (disk : BinaryDisk) (filename : String)
    (expected_num_points : ℕ) : Run LoadedGraph :=
  match disk filename with
  | none => fault iosFailure
  | some bytes => do
    let expected_file_size ← readNumber 8 bytes
    let max_observed_degree ← readNumber 4 expected_file_size.2
    let start ← readNumber 4 max_observed_degree.2
    let file_frozen_pts ← readNumber 8 start.2
    let graph := if store.graph.length < expected_num_points then
      resizeGraph store.graph expected_num_points else store.graph
    let s ← loop (loadStep expected_file_size.1)
      ⟨graph, file_frozen_pts.2, 24, 0, store.max_range_of_graph⟩
    pure ⟨⟨s.graph, max_observed_degree.1, s.max_range_of_graph⟩, s.nodes_read, start.1, file_frozen_pts.1⟩

-- ---------------------------------------------------------------------------
-- Fields
-- ---------------------------------------------------------------------------

theorem readOrThrow_returns_iff {rest rest' x : List UInt8} {count : ℕ} :
    Returns (readOrThrow rest count) (x, rest') ↔ x.length = count ∧ rest = x ++ rest' := by
  unfold readOrThrow
  rcases Nat.lt_or_ge rest.length count with hlt | hge
  · rw [read_short hlt]
    constructor
    · intro h
      exact absurd (fails_fault _) h.not_fails
    · rintro ⟨hlen, rfl⟩
      rw [List.length_append] at hlt
      omega
  · rw [read_take hge]
    constructor
    · intro h
      obtain ⟨rfl, rfl⟩ := Prod.mk.inj h.of_pure
      exact ⟨by simp [hge], (List.take_append_drop count rest).symm⟩
    · rintro ⟨rfl, rfl⟩
      rw [List.take_left, List.drop_left]
      exact returns_pure _

theorem readNumber_returns_iff {rest rest' : List UInt8} {size v : ℕ} :
    Returns (readNumber size rest) (v, rest') ↔ v < 256 ^ size ∧ rest = toBytes size v ++ rest' := by
  constructor
  · intro h
    obtain ⟨⟨x, rest''⟩, hx, hpure⟩ := h.of_bind
    obtain ⟨rfl, rfl⟩ := Prod.mk.inj hpure.of_pure
    obtain ⟨rfl, rfl⟩ := readOrThrow_returns_iff.mp hx
    exact ⟨ofBytes_lt x, by rw [toBytes_ofBytes]⟩
  · rintro ⟨hv, rfl⟩
    refine (readOrThrow_returns_iff.mpr ⟨length_toBytes size v, rfl⟩).bind ?_
    dsimp only
    rw [ofBytes_toBytes hv]
    exact returns_pure _

theorem readOrThrow_fails {rest : List UInt8} {count : ℕ} (h : rest.length < count) :
    Fails (readOrThrow rest count) iosFailure := by
  unfold readOrThrow
  rw [read_short h]
  exact fails_fault _

/-- A field of a file whose end is missing. -/
theorem readNumber_truncated {pre rest : List UInt8} {size v : ℕ}
    (hpre : Truncated pre (toBytes size v ++ rest)) :
    Fails (readNumber size pre) iosFailure ∨ ∃ post, Truncated post rest ∧ pre = toBytes size v ++ post := by
  refine hpre.of_append.imp_left fun hin => (readOrThrow_fails ?_).bind
  have hlt := hin.length_lt
  rwa [length_toBytes] at hlt

/-- The bytes from which `elements` has read a list. -/
theorem idBytes_elements {k : ℕ} {x : List UInt8} (h : x.length = 4 * k) :
    idBytes (elements 4 k ofBytes x) = x := by
  induction k generalizing x with
  | zero =>
    rw [List.length_eq_zero_iff.mp h]
    rfl
  | succ k ih =>
    obtain ⟨first, rest, hfirst, rfl⟩ : ∃ first rest, first.length = 4 ∧ x = first ++ rest :=
      ⟨x.take 4, x.drop 4, by rw [List.length_take]; omega, (List.take_append_drop 4 x).symm⟩
    rw [List.length_append] at h
    have hback : toBytes 4 (ofBytes first) = first := hfirst ▸ toBytes_ofBytes first
    rw [elements_cons hfirst, idBytes, List.flatMap_cons, ← idBytes, ih (by omega), hback]

/-- The numbers that `elements` has read. -/
theorem elements_lt {k : ℕ} {x : List UInt8} {id : ℕ} (h : id ∈ elements 4 k ofBytes x) : id < 2 ^ 32 := by
  obtain ⟨i, -, rfl⟩ := List.mem_map.mp h
  refine (ofBytes_lt _).trans_le ?_
  exact Nat.pow_le_pow_right (by decide) (List.length_take_le _ _)

-- ---------------------------------------------------------------------------
-- The loop of `load_impl`
-- ---------------------------------------------------------------------------

/-- The state after `lists` have been read, with `rest` still to be read. -/
def stateAfter (graph : List (List ℕ)) (range : ℕ) (lists : List (List ℕ)) (rest : List UInt8) :
    LoadState where
  graph := lists ++ graph.drop lists.length
  rest := rest
  bytes_read := 24 + (lists.flatMap listBytes).length
  nodes_read := lists.length
  max_range_of_graph := lists.foldl (fun range ids => max range ids.length) range

section Loop

variable {graph : List (List ℕ)} {range size : ℕ} {lists : List (List ℕ)} {ids : List ℕ}
  {rest : List UInt8}

theorem length_listBytes (ids : List ℕ) : (listBytes ids).length = 4 * (ids.length + 1) := by
  rw [listBytes, List.length_append, length_toBytes, length_idBytes]
  omega

/-- The next list. -/
theorem stateAfter_next (hroom : lists.length < graph.length) (rest : List UInt8) :
    stateAfter graph range (lists ++ [ids]) rest =
      ⟨(lists ++ graph.drop lists.length).set lists.length ids, rest,
        24 + (lists.flatMap listBytes).length + 4 * (ids.length + 1), lists.length + 1,
        max (lists.foldl (fun range ids => max range ids.length) range) ids.length⟩ := by
  have hgraph : lists ++ [ids] ++ graph.drop (lists ++ [ids]).length =
      (lists ++ graph.drop lists.length).set lists.length ids := by
    rw [List.set_append_right _ _ le_rfl, Nat.sub_self, List.drop_eq_getElem_cons hroom,
      List.set_cons_zero, List.length_append, List.length_singleton, List.append_assoc,
      List.singleton_append]
  unfold stateAfter
  rw [hgraph, List.flatMap_append, List.flatMap_singleton, List.length_append, length_listBytes,
    List.foldl_append, List.length_append, ← Nat.add_assoc]
  rfl

/-- **One pass**: exactly a list is read. -/
theorem loadStep_returns_iff (hle : lists.length ≤ graph.length) {s : LoadState} :
    Returns (loadStep size (stateAfter graph range lists rest)) (.inl s) ↔
      24 + (lists.flatMap listBytes).length ≠ size ∧ lists.length < graph.length ∧ ∃ ids rest', Fits ids ∧
        rest = listBytes ids ++ rest' ∧ s = stateAfter graph range (lists ++ [ids]) rest' := by
  have hlen : (lists ++ graph.drop lists.length).length = graph.length := by
    rw [List.length_append, List.length_drop]
    omega
  constructor
  · intro h
    unfold loadStep at h
    split at h
    · next hgo =>
      obtain ⟨⟨k, rest₁⟩, hk, h⟩ := h.of_bind
      obtain ⟨⟨x, rest₂⟩, hx, h⟩ := h.of_bind
      obtain ⟨hklt, hrest⟩ := readNumber_returns_iff.mp hk
      obtain ⟨hxlen, rfl⟩ := readOrThrow_returns_iff.mp hx
      dsimp only at h
      split at h
      · exact absurd (fails_fault _) h.not_fails
      · next hroom =>
        rw [show (stateAfter graph range lists rest).graph = lists ++ graph.drop lists.length from rfl,
          hlen] at hroom
        have hroom' : lists.length < graph.length := not_le.mp hroom
        refine ⟨hgo, hroom', elements 4 k ofBytes x, rest₂, ⟨?_, fun id hid => elements_lt hid⟩, ?_, ?_⟩
        · rw [length_elements]
          exact hklt
        · rw [listBytes, length_elements, idBytes_elements hxlen, List.append_assoc]
          exact hrest
        · rw [stateAfter_next hroom', length_elements]
          exact Sum.inl.inj h.of_pure
    · cases h.of_pure
  · rintro ⟨hgo, hroom, ids, rest', hids, rfl, rfl⟩
    unfold loadStep
    rw [if_pos (show (stateAfter graph range lists (listBytes ids ++ rest')).bytes_read ≠ size from hgo)]
    refine (readNumber_returns_iff.mpr ⟨hids.1, List.append_assoc _ _ _⟩).bind ?_
    refine (readOrThrow_returns_iff.mpr ⟨length_idBytes ids, rfl⟩).bind ?_
    dsimp only
    rw [elements_idBytes hids.2, stateAfter_next hroom]
    have hroom' : ¬ (lists ++ graph.drop lists.length).length ≤ lists.length := by omega
    exact (if_neg hroom').symm ▸ returns_pure _

/-- **The loop**: exactly lists that fill the size are read. -/
theorem loop_returns_iff (hle : lists.length ≤ graph.length) {s : LoadState} :
    Returns (loop (loadStep size) (stateAfter graph range lists rest)) s ↔
      ∃ more rest', (∀ ids ∈ more, Fits ids) ∧ rest = more.flatMap listBytes ++ rest' ∧
        lists.length + more.length ≤ graph.length ∧
        24 + ((lists ++ more).flatMap listBytes).length = size ∧
        s = stateAfter graph range (lists ++ more) rest' := by
  constructor
  · intro h
    refine loop_inv (fun t => ∃ more rest', (∀ ids ∈ more, Fits ids) ∧
        rest = more.flatMap listBytes ++ rest' ∧ lists.length + more.length ≤ graph.length ∧
        t = stateAfter graph range (lists ++ more) rest')
      (fun s => ∃ more rest', (∀ ids ∈ more, Fits ids) ∧ rest = more.flatMap listBytes ++ rest' ∧
        lists.length + more.length ≤ graph.length ∧
        24 + ((lists ++ more).flatMap listBytes).length = size ∧
        s = stateAfter graph range (lists ++ more) rest') ?_ ?_
      ⟨[], rest, fun ids hids => absurd hids List.not_mem_nil, rfl, hle, by rw [List.append_nil]⟩ h
    · rintro _ t ⟨more, rest', hfits, rfl, hmore, rfl⟩ hret
      rw [← List.length_append] at hmore
      obtain ⟨-, hroom, ids, rest'', hids, rfl, rfl⟩ := (loadStep_returns_iff hmore).mp hret
      refine ⟨more ++ [ids], rest'', fun l hl => ?_, by simp, ?_, by rw [List.append_assoc]⟩
      · rcases List.mem_append.mp hl with hl | hl
        · exact hfits l hl
        · rw [List.mem_singleton.mp hl]
          exact hids
      · rw [List.length_append] at hroom
        rw [List.length_append, List.length_singleton]
        omega
    · rintro _ t ⟨more, rest', hfits, hrest, hmore, rfl⟩ hret
      refine ⟨more, rest', hfits, hrest, hmore, ?_⟩
      unfold loadStep at hret
      split at hret
      · -- a pass that goes on does not leave the loop
        obtain ⟨k, -, hret⟩ := hret.of_bind
        obtain ⟨x, -, hret⟩ := hret.of_bind
        split at hret
        · exact absurd (fails_fault _) hret.not_fails
        · cases hret.of_pure
      · next hstop => exact ⟨not_not.mp hstop, Sum.inr.inj hret.of_pure⟩
  · rintro ⟨more, rest', hfits, rfl, hmore, hsize, rfl⟩
    induction more generalizing lists with
    | nil =>
      rw [List.append_nil] at hsize ⊢
      refine loop_done ?_
      rw [loadStep, if_neg (show ¬ (stateAfter graph range lists _).bytes_read ≠ size from
        not_not.mpr hsize)]
      exact returns_pure _
    | cons ids more ih =>
      have hne : 24 + (lists.flatMap listBytes).length ≠ size := by
        rw [List.flatMap_append, List.flatMap_cons, List.length_append, List.length_append,
          length_listBytes] at hsize
        omega
      rw [List.length_cons] at hmore
      have hnext : Returns (loadStep size (stateAfter graph range lists
          ((ids :: more).flatMap listBytes ++ rest'))) (.inl (stateAfter graph range (lists ++ [ids])
            (more.flatMap listBytes ++ rest'))) := by
        refine (loadStep_returns_iff hle).mpr ⟨hne, by omega, ids, _, hfits ids List.mem_cons_self, ?_, rfl⟩
        rw [List.flatMap_cons, List.append_assoc]
      refine loop_next hnext ?_
      have happ : lists ++ ids :: more = lists ++ [ids] ++ more := by simp
      rw [happ] at hsize ⊢
      refine ih ?_ (fun l hl => hfits l (List.mem_cons_of_mem _ hl)) ?_ hsize
      · rw [List.length_append, List.length_singleton]
        omega
      · rw [List.length_append, List.length_singleton]
        omega

/-- **Lists whose end is missing** do not fill the size. -/
theorem loop_truncated {more : List (List ℕ)} (hfits : ∀ ids ∈ more, Fits ids)
    (hle : lists.length + more.length ≤ graph.length)
    (hsize : 24 + ((lists ++ more).flatMap listBytes).length = size) {pre : List UInt8}
    (hpre : Truncated pre (more.flatMap listBytes)) :
    Fails (loop (loadStep size) (stateAfter graph range lists pre)) iosFailure := by
  induction more generalizing lists pre with
  | nil => exact absurd hpre (not_truncated_nil pre)
  | cons ids more ih =>
    have hids := hfits ids List.mem_cons_self
    have hne : 24 + (lists.flatMap listBytes).length ≠ size := by
      rw [List.flatMap_append, List.flatMap_cons, List.length_append, List.length_append,
        length_listBytes] at hsize
      omega
    rw [List.length_cons] at hle
    rcases hpre.of_append with hin | ⟨post, hpost, rfl⟩
    · refine loop_fails ?_
      rw [loadStep, if_pos (show (stateAfter graph range lists pre).bytes_read ≠ size from hne)]
      rcases readNumber_truncated hin with hfail | ⟨post, hpost, rfl⟩
      · exact hfail.bind
      · -- the length is there, but not the whole list
        have hlt := hpost.length_lt
        rw [length_idBytes] at hlt
        exact (readNumber_returns_iff.mpr ⟨hids.1, rfl⟩).bind_ends (readOrThrow_fails hlt).bind
    · have hnext : Returns (loadStep size (stateAfter graph range lists (listBytes ids ++ post)))
          (.inl (stateAfter graph range (lists ++ [ids]) post)) :=
        (loadStep_returns_iff (by omega)).mpr ⟨hne, by omega, ids, post, hids, rfl, rfl⟩
      refine loop_next hnext (ih (fun l hl => hfits l (List.mem_cons_of_mem _ hl)) ?_ ?_ hpost)
      · rw [List.length_append, List.length_singleton]
        omega
      · rwa [List.append_assoc, List.singleton_append]

end Loop

-- ---------------------------------------------------------------------------
-- What is accepted
-- ---------------------------------------------------------------------------

/-- A file with the given lists, and `rest` behind them. -/
def fileBytes (max_observed_degree start file_frozen_pts : ℕ) (lists : List (List ℕ))
    (rest : List UInt8) : List UInt8 :=
  toBytes 8 (24 + (lists.flatMap listBytes).length) ++ (toBytes 4 max_observed_degree ++
    (toBytes 4 start ++ (toBytes 8 file_frozen_pts ++ (lists.flatMap listBytes ++ rest))))

/-- The numbers of a file fit their fields. -/
structure FieldsFit (max_observed_degree start file_frozen_pts : ℕ) (lists : List (List ℕ)) : Prop where
  size   : 24 + (lists.flatMap listBytes).length < 2 ^ 64
  degree : max_observed_degree < 2 ^ 32
  start  : start < 2 ^ 32
  frozen : file_frozen_pts < 2 ^ 64
  lists  : ∀ ids ∈ lists, Fits ids

theorem length_resizeGraph (graph : List (List ℕ)) (new_size : ℕ) :
    (resizeGraph graph new_size).length = max graph.length new_size := by
  rw [resizeGraph, List.length_append, List.length_replicate]
  omega

/-- The graph is resized if it is too small. -/
theorem resized (graph : List (List ℕ)) (new_size : ℕ) :
    (if graph.length < new_size then resizeGraph graph new_size else graph) = resizeGraph graph new_size := by
  split
  · rfl
  · next hge =>
    rw [resizeGraph, Nat.sub_eq_zero_of_le (not_lt.mp hge), List.replicate_zero, List.append_nil]

/-- **What `load_impl` accepts**, and what it returns for it: the lists stand in front of those that
were there, and nothing behind the size in the header matters. -/
theorem loadImpl_returns_iff {store : InMemGraphStore} {disk : BinaryDisk} {filename : String}
    {expected_num_points : ℕ} {r : LoadedGraph} :
    Returns (loadImpl store disk filename expected_num_points) r ↔
      ∃ max_observed_degree start file_frozen_pts lists rest,
        FieldsFit max_observed_degree start file_frozen_pts lists ∧
        lists.length ≤ max store.graph.length expected_num_points ∧
        disk filename = some (fileBytes max_observed_degree start file_frozen_pts lists rest) ∧
        r = ⟨⟨lists ++ (resizeGraph store.graph expected_num_points).drop lists.length, max_observed_degree,
          lists.foldl (fun range ids => max range ids.length) store.max_range_of_graph⟩, lists.length,
          start, file_frozen_pts⟩ := by
  have hinit : ∀ rest, (⟨resizeGraph store.graph expected_num_points, rest, 24, 0,
      store.max_range_of_graph⟩ : LoadState) = stateAfter (resizeGraph store.graph expected_num_points)
        store.max_range_of_graph [] rest := fun rest => rfl
  have hzero : ([] : List (List ℕ)).length ≤ (resizeGraph store.graph expected_num_points).length :=
    Nat.zero_le _
  unfold loadImpl
  cases hfile : disk filename with
  | none =>
    constructor
    · intro h
      exact absurd (fails_fault _) h.not_fails
    · rintro ⟨_, _, _, _, _, -, -, hnone, -⟩
      cases hnone
  | some bytes =>
    dsimp only
    rw [resized]
    constructor
    · intro h
      obtain ⟨⟨size, rest₁⟩, hsize, h⟩ := h.of_bind
      obtain ⟨⟨degree, rest₂⟩, hdegree, h⟩ := h.of_bind
      obtain ⟨⟨start, rest₃⟩, hstart, h⟩ := h.of_bind
      obtain ⟨⟨frozen, rest₄⟩, hfrozen, h⟩ := h.of_bind
      obtain ⟨s, hloop, h⟩ := h.of_bind
      obtain ⟨hsizelt, hrest₀⟩ := readNumber_returns_iff.mp hsize
      obtain ⟨hdegreelt, hrest₁⟩ := readNumber_returns_iff.mp hdegree
      obtain ⟨hstartlt, hrest₂⟩ := readNumber_returns_iff.mp hstart
      obtain ⟨hfrozenlt, hrest₃⟩ := readNumber_returns_iff.mp hfrozen
      dsimp only at hrest₁ hrest₂ hrest₃ hloop
      rw [hinit] at hloop
      obtain ⟨lists, rest, hfits, hrest₄, hlen, htotal, rfl⟩ := (loop_returns_iff hzero).mp hloop
      rw [List.nil_append] at htotal h
      rw [List.length_nil, Nat.zero_add, length_resizeGraph] at hlen
      refine ⟨degree, start, frozen, lists, rest, ⟨?_, hdegreelt, hstartlt, hfrozenlt, hfits⟩, hlen, ?_,
        h.of_pure⟩
      · rw [htotal]
        exact hsizelt
      · rw [fileBytes, htotal, hrest₀, hrest₁, hrest₂, hrest₃, hrest₄]
    · rintro ⟨degree, start, frozen, lists, rest, hfit, hlen, hbytes, rfl⟩
      obtain rfl := Option.some.inj hbytes
      refine (readNumber_returns_iff.mpr ⟨hfit.size, rfl⟩).bind
        ((readNumber_returns_iff.mpr ⟨hfit.degree, rfl⟩).bind
          ((readNumber_returns_iff.mpr ⟨hfit.start, rfl⟩).bind
            ((readNumber_returns_iff.mpr ⟨hfit.frozen, rfl⟩).bind ?_)))
      dsimp only
      rw [hinit]
      refine Returns.bind ((loop_returns_iff hzero).mpr ⟨lists, rest, hfit.lists, rfl, ?_, rfl, rfl⟩)
        (returns_pure _)
      rw [List.length_nil, Nat.zero_add, length_resizeGraph]
      exact hlen

/-- **A file whose end is missing** is never accepted. -/
theorem loadImpl_truncated {max_observed_degree start file_frozen_pts : ℕ} {lists : List (List ℕ)}
    (hfit : FieldsFit max_observed_degree start file_frozen_pts lists) {pre : List UInt8}
    (hpre : Truncated pre (fileBytes max_observed_degree start file_frozen_pts lists []))
    {store : InMemGraphStore} {expected_num_points : ℕ}
    (hlen : lists.length ≤ max store.graph.length expected_num_points) {disk : BinaryDisk}
    {filename : String} (hfile : disk filename = some pre) :
    Fails (loadImpl store disk filename expected_num_points) iosFailure := by
  unfold loadImpl
  rw [hfile]
  dsimp only
  rcases readNumber_truncated hpre with hfail | ⟨pre₁, hpre₁, rfl⟩
  · exact hfail.bind
  refine (readNumber_returns_iff.mpr ⟨hfit.size, rfl⟩).bind_ends ?_
  rcases readNumber_truncated hpre₁ with hfail | ⟨pre₂, hpre₂, rfl⟩
  · exact hfail.bind
  refine (readNumber_returns_iff.mpr ⟨hfit.degree, rfl⟩).bind_ends ?_
  rcases readNumber_truncated hpre₂ with hfail | ⟨pre₃, hpre₃, rfl⟩
  · exact hfail.bind
  refine (readNumber_returns_iff.mpr ⟨hfit.start, rfl⟩).bind_ends ?_
  rcases readNumber_truncated hpre₃ with hfail | ⟨pre₄, hpre₄, rfl⟩
  · exact hfail.bind
  refine (readNumber_returns_iff.mpr ⟨hfit.frozen, rfl⟩).bind_ends ?_
  rw [List.append_nil] at hpre₄
  rw [resized]
  have hroom : ([] : List (List ℕ)).length + lists.length ≤
      (resizeGraph store.graph expected_num_points).length := by
    rw [List.length_nil, Nat.zero_add, length_resizeGraph]
    exact hlen
  exact (loop_truncated hfit.lists hroom rfl hpre₄).bind

-- ---------------------------------------------------------------------------
-- What is written
-- ---------------------------------------------------------------------------

/-- A stream that has written `written` over the front of `old`. -/
def OStream.onto (written old : List UInt8) : OStream :=
  ⟨written ++ old.drop written.length, written.length⟩

theorem OStream.write_onto (written old data : List UInt8) :
    (onto written old).write data = onto (written ++ data) old := by
  unfold onto OStream.write
  simp [List.drop_append, List.drop_drop]

/-- Going back to the front and writing the first two fields again. -/
theorem OStream.rewrite_front {a b a' b' : List UInt8} (ha : a'.length = a.length)
    (hb : b'.length = b.length) (tail : List UInt8) (pos : ℕ) :
    ((((OStream.mk (a ++ (b ++ tail)) pos).seekp 0).write a').write b').bytes = a' ++ (b' ++ tail) := by
  unfold seekp OStream.write
  simp [ha, hb, List.drop_append]

/-- `max_degree` after the loop of `save_graph`. -/
def maxDegree (lists : List (List ℕ)) : ℕ := lists.foldl (fun degree ids => max degree ids.length) 0

theorem maxDegree_le {lists : List (List ℕ)} {bound : ℕ} (h : ∀ ids ∈ lists, ids.length ≤ bound) :
    maxDegree lists ≤ bound := by
  induction lists using List.reverseRecOn with
  | nil => exact Nat.zero_le _
  | append_singleton lists ids ih =>
    rw [maxDegree, List.foldl_append]
    refine max_le (ih fun l hl => h l (List.mem_append_left _ hl)) ?_
    exact h ids (List.mem_append_right _ (List.mem_singleton_self ids))

/-- **Writing a graph** over the front of a file. -/
theorem saveGraph_returns {store : InMemGraphStore} {num_points : ℕ}
    (hn : num_points ≤ store.graph.length) (num_frozen_points start : ℕ) (old : List UInt8) :
    Returns (saveGraph store num_points num_frozen_points start old)
      (fileBytes (maxDegree (store.graph.take num_points)) start num_frozen_points
        (store.graph.take num_points)
        (old.drop (24 + ((store.graph.take num_points).flatMap listBytes).length))) := by
  let head := toBytes 8 24 ++ (toBytes 4 store.max_observed_degree ++ (toBytes 4 start ++
    toBytes 8 num_frozen_points))
  obtain ⟨s, hret, hout, hsize, hdegree⟩ := range_returns (f := saveStep store) (n := num_points)
    (fun i s => s.out = .onto (head ++ (store.graph.take i).flatMap listBytes) old ∧
      s.index_size = 24 + ((store.graph.take i).flatMap listBytes).length ∧
      s.max_degree = maxDegree (store.graph.take i))
    (fun i hi s ⟨hout, hsize, hdegree⟩ => by
      have hlt : i < store.graph.length := hi.trans_le hn
      have htake : store.graph.take (i + 1) = store.graph.take i ++ [store.graph[i]] := by
        rw [List.take_add_one, List.getElem?_eq_getElem hlt, Option.toList_some]
      unfold saveStep
      rw [List.getElem?_eq_getElem hlt, htake, List.flatMap_append, List.flatMap_singleton]
      refine ⟨_, returns_pure _, ?_, ?_, ?_⟩
      · dsimp only
        rw [hout, OStream.write_onto, List.append_assoc]
      · dsimp only
        rw [hsize, List.length_append, length_listBytes, Nat.add_assoc]
      · dsimp only
        rw [hdegree, maxDegree, maxDegree, List.foldl_append]
        simp only [List.foldl_cons, List.foldl_nil]
        split <;> omega)
    (s := ⟨.onto head old, 24, 0⟩) ⟨by simp, rfl, rfl⟩
  have hhead : ((((OStream.mk old 0).write (toBytes 8 24)).write (toBytes 4 store.max_observed_degree)).write
      (toBytes 4 start)).write (toBytes 8 num_frozen_points) = .onto head old := by
    rw [show OStream.mk old 0 = .onto [] old from rfl, OStream.write_onto, OStream.write_onto,
      OStream.write_onto, OStream.write_onto]
    simp [head]
  unfold saveGraph
  dsimp only
  rw [hhead]
  refine hret.bind ?_
  rw [hout, hsize, hdegree]
  have hfront : OStream.onto (head ++ (store.graph.take num_points).flatMap listBytes) old =
      ⟨toBytes 8 24 ++ (toBytes 4 store.max_observed_degree ++ (toBytes 4 start ++
        (toBytes 8 num_frozen_points ++ ((store.graph.take num_points).flatMap listBytes ++
          old.drop (24 + ((store.graph.take num_points).flatMap listBytes).length))))),
        24 + ((store.graph.take num_points).flatMap listBytes).length⟩ := by
    have hlen : head.length = 24 := by simp [head]
    rw [OStream.onto, List.length_append, hlen]
    simp only [head, List.append_assoc]
  rw [hfront, OStream.rewrite_front (by simp) (by simp)]
  exact returns_pure _

/-- **The round trip**: the graph that was saved over the front of any file is loaded, in front of
the lists that were there. -/
theorem loadImpl_saveGraph {store : InMemGraphStore} {num_points num_frozen_points start : ℕ}
    (hn : num_points ≤ store.graph.length)
    (hfit : FieldsFit (maxDegree (store.graph.take num_points)) start num_frozen_points
      (store.graph.take num_points)) (old : List UInt8) :
    ∃ bytes, Returns (saveGraph store num_points num_frozen_points start old) bytes ∧
      ∀ (store' : InMemGraphStore) (disk : BinaryDisk) (filename : String) (expected_num_points : ℕ),
        disk filename = some bytes → num_points ≤ max store'.graph.length expected_num_points →
        Returns (loadImpl store' disk filename expected_num_points)
          ⟨⟨store.graph.take num_points ++
              (resizeGraph store'.graph expected_num_points).drop num_points,
            maxDegree (store.graph.take num_points),
            (store.graph.take num_points).foldl (fun range ids => max range ids.length)
              store'.max_range_of_graph⟩, num_points, start, num_frozen_points⟩ := by
  have hlen : (store.graph.take num_points).length = num_points := by
    rw [List.length_take, Nat.min_eq_left hn]
  refine ⟨_, saveGraph_returns hn num_frozen_points start old,
    fun store' disk filename expected_num_points hfile hle => ?_⟩
  refine loadImpl_returns_iff.mpr ⟨_, start, num_frozen_points, store.graph.take num_points, _, hfit, ?_,
    hfile, ?_⟩
  · rw [hlen]
    exact hle
  · rw [hlen]

/-- Three nodes in a row. -/
def rowStore : InMemGraphStore := ⟨[[1], [0, 2], [1]], 5, 0⟩

theorem rowStore_fits : FieldsFit 2 1 0 [[1], [0, 2], [1]] :=
  ⟨by decide, by decide, by decide, by decide, by unfold Fits; decide⟩

/-- Over a file that has been longer. -/
theorem rowStore_loaded : ∃ bytes, Returns (saveGraph rowStore 3 0 1 (List.replicate 100 7)) bytes ∧
    Returns (loadImpl ⟨[], 0, 0⟩ (fun _ => some bytes) "vamana" 3)
      ⟨⟨[[1], [0, 2], [1]], 2, 2⟩, 3, 1, 0⟩ := by
  obtain ⟨bytes, hsave, hload⟩ := loadImpl_saveGraph (show 3 ≤ rowStore.graph.length by decide)
    rowStore_fits (List.replicate 100 7)
  exact ⟨bytes, hsave, hload ⟨[], 0, 0⟩ (fun _ => some bytes) "vamana" 3 rfl (by decide)⟩

/-- The file of three nodes, cut off inside its last list. -/
theorem rowStore_truncated : Fails (loadImpl ⟨[], 0, 0⟩
    (fun _ => some ((fileBytes 2 1 0 [[1], [0, 2], [1]] []).take 50)) "vamana" 3) iosFailure :=
  loadImpl_truncated rowStore_fits ⟨List.take_prefix 50 _, by decide⟩ (by decide) rfl

-- ---------------------------------------------------------------------------
-- From building to searching
-- ---------------------------------------------------------------------------

section Built

open Search.Vamana Threads

variable {V K : Type} [LinearOrder K] [Zero K] [One K] [Add K] [Mul K] [Div K] [Neg K]
  {B : Builder V K}

/-- The index that a loaded graph gives with the points of the builder. -/
structure LoadedIndex (B : Builder V K) (graph : ℕ → List ℕ) (r : LoadedGraph) (index : Index V K) :
    Prop where
  max_points : index.max_points = B.index.max_points
  frozen     : index.num_frozen_pts = r.file_frozen_pts
  start      : index.start = r.start
  metric     : index.dist_metric = B.index.dist_metric
  data_store : index.data_store = B.index.data_store
  compare    : index.compare = B.index.compare
  graph      : ∀ i < B.total, index.graph_store i = r.store.graph.getD i [] ∧
    index.graph_store i = graph i

/-- The graph that the threads leave is cleaned up, saved over `old`, loaded and searched. What the
threads have made of `max_observed_degree` is not in the file. -/
def Served (B : Builder V K) (linked : ℕ → List ℕ) (old : List UInt8) : Prop :=
  ∃ graph bytes, Returns (B.cleanup linked) graph ∧
    (∀ degree range, Returns (saveGraph ⟨(List.range B.total).map graph, degree, range⟩ B.total
      B.index.num_frozen_pts B.index.start old) bytes) ∧
    ∀ (store : InMemGraphStore) (disk : BinaryDisk) (filename : String),
      store.graph.length ≤ B.total → disk filename = some bytes →
      ∃ r index, Returns (loadImpl store disk filename B.total) r ∧ r.nodes_read = B.total ∧
        LoadedIndex B graph r index ∧
        ∀ (query : V) (k L : ℕ), 1 ≤ k → k ≤ L → ∀ scratch : InMemQueryScratch K,
          ∃ res, Returns (index.search query k L (-1) scratch) res ∧
            ClosestWritten index query k L r.start res.1

omit [Add K] [Div K] [Neg K] in
/-- The lists of a graph that has been cleaned up fit the file. -/
theorem fieldsFit_of_cleaned {linked graph : ℕ → List ℕ} (h : B.Cleaned linked graph)
    (hfrozen : B.index.num_frozen_pts = 0) (hpoints : B.total < 2 ^ 32)
    (hsize : 24 + B.total * (4 * (B.parameters.indexingRange + 1)) < 2 ^ 64) :
    FieldsFit (maxDegree ((List.range B.total).map graph)) B.index.start B.index.num_frozen_pts
      ((List.range B.total).map graph) := by
  have hlen : ∀ i < B.total, (graph i).length ≤ B.total := by
    intro i hi
    have hsub : graph i ⊆ List.range B.total := fun u hu => List.mem_range.mpr ((h.lists i hi).mem u hu).1
    have hle := ((h.lists i hi).nodup.subperm hsub).length_le
    rwa [List.length_range] at hle
  refine ⟨lt_of_le_of_lt ?_ hsize, ?_, B.index.start_lt.trans hpoints, by rw [hfrozen]; decide, fun ids hids => ?_⟩
  · rw [List.length_flatMap, List.map_map]
    have hsum := List.sum_le_card_nsmul ((List.range B.total).map
      (List.length ∘ listBytes ∘ graph)) (4 * (B.parameters.indexingRange + 1)) (by
        intro n hn
        obtain ⟨i, hi, rfl⟩ := List.mem_map.mp hn
        have hdegree := (h.lists i (List.mem_range.mp hi)).length
        rw [Function.comp_apply, Function.comp_apply, length_listBytes]
        omega)
    rw [List.length_map, List.length_range, smul_eq_mul] at hsum
    exact Nat.add_le_add_left hsum 24
  · refine (maxDegree_le fun ids hids => ?_).trans_lt hpoints
    obtain ⟨i, hi, rfl⟩ := List.mem_map.mp hids
    exact hlen i (List.mem_range.mp hi)
  · obtain ⟨i, hi, rfl⟩ := List.mem_map.mp hids
    have hi := List.mem_range.mp hi
    exact ⟨(hlen i hi).trans_lt hpoints, fun id hid => lt_trans ((h.lists i hi).mem id hid).1 hpoints⟩

/-- **From building to searching**, whatever the order in which the threads have taken their steps:
the index that is loaded has the graph that was built, and its searches find the closest of
the points they evaluate. -/
theorem built_searched {Id : Type} [DecidableEq Id] {work : Id → List ℕ}
    (hP : B.parameters.Valid B.floats) (hfrozen : B.index.num_frozen_pts = 0)
    (hwork : ∀ t, ∀ n ∈ work t, n < B.total) {s : State Id (Thread K) (ℕ → List ℕ)}
    (hrun : Threads.Run (B.act Set.univ) (Builder.initial K work) s) (hpoints : B.total < 2 ^ 32)
    (hsize : 24 + B.total * (4 * (B.parameters.indexingRange + 1)) < 2 ^ 64) (old : List UInt8) :
    Served B s.shared old := by
  have hlists := ((Builder.link_keeps (Z := {u | u < B.total})
    ⟨hP, hfrozen, B.index.start_lt, fun _ hu => hu⟩ fun t (_ : t ∈ Set.univ) => hwork t).run hrun
      (Builder.initial_holds work)).1
  obtain ⟨graph, hclean, hcleaned⟩ := Builder.cleanup_returns hP hlists
  have hfit := fieldsFit_of_cleaned hcleaned hfrozen hpoints hsize
  have htake : ((List.range B.total).map graph).take B.total = (List.range B.total).map graph :=
    List.take_of_length_le (by simp)
  have hsave : ∀ degree range, Returns (saveGraph ⟨(List.range B.total).map graph, degree, range⟩
      B.total B.index.num_frozen_pts B.index.start old) _ := fun degree range =>
    saveGraph_returns (by simp) B.index.num_frozen_pts B.index.start old
  simp only [htake] at hsave
  refine ⟨graph, _, hclean, hsave, fun store disk filename hstore hfile => ?_⟩
  -- the file has a list for every place
  have hroom : ((List.range B.total).map graph).length ≤ max store.graph.length B.total := by simp
  have hload := loadImpl_returns_iff.mpr ⟨_, _, _, _, _, hfit, hroom, hfile, rfl⟩
  have hdrop : (resizeGraph store.graph B.total).drop ((List.range B.total).map graph).length = [] := by
    refine List.drop_eq_nil_of_le ?_
    rw [length_resizeGraph, List.length_map, List.length_range]
    exact max_le hstore le_rfl
  rw [hdrop, List.append_nil] at hload
  let index : Index V K := { B.index with
    graph_store := graph
    graph_lt := fun i hi u hu => ((hcleaned.lists i hi).mem u hu).1 }
  refine ⟨_, index, hload, by simp, ⟨rfl, rfl, rfl, rfl, rfl, rfl, fun i hi => ⟨?_, rfl⟩⟩,
    fun query k L hk hkL scratch => ?_⟩
  · rw [List.getD_eq_getElem?_getD, List.getElem?_map, List.getElem?_range hi]
    rfl
  · obtain ⟨res, scratch', hret, -, hclosest, -⟩ := search_spec (show index.num_frozen_pts = 0 from
      hfrozen) query (hk.trans hkL) hkL (show (-1 : ℤ) ≤ -1 by omega)
      (show (-1 : ℤ) < index.max_points by omega) scratch
    exact ⟨_, hret, hclosest hk⟩

/-- What is searched after two threads have built their graph. -/
theorem twoHeaps_searched : ∃ s : State (Fin 2) (Thread ℚ) (ℕ → List ℕ),
    (∀ t, s.own t = .idle []) ∧ Served Builder.twoHeapsBuilder s.shared [] := by
  obtain ⟨s, hrun, hdone, -⟩ := Builder.finishes_within (T := Set.univ) (B := Builder.twoHeapsBuilder)
    ⟨Builder.twoHeapsBuilder_valid, rfl, Builder.twoHeaps.start_lt, fun _ hu => hu⟩ rfl
    (fun t _ => Builder.chunk_lt t) (Builder.initial_holds Builder.chunk)
  exact ⟨s, fun t => hdone t trivial, built_searched Builder.twoHeapsBuilder_valid rfl Builder.chunk_lt
    hrun (by decide) (by decide) []⟩

end Built

end Mqo.Build.Vamana
