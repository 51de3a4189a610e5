import Mqo.Data.AnswerFile
import Mqo.Data.Subset

/-!
# MQO — the first rows of a data set

`sample_and_save_norandom` of `data_handler/scripts/subsample.cpp` copies the first rows of
a file to another one. It never asks whether its reads succeeded: the numbers of a header
that is missing keep what was in the variables, and the rows that are missing are zero. The
element type it takes from the first `.fbin` anywhere in the path.

* `norandom_refused`, `norandom_written` — what it throws, and what it writes otherwise;
* `sampleAndSaveNorandom_iff` — when the output holds the first rows of the input.
-/

namespace Mqo

open Prog ByteStream

-- ---------------------------------------------------------------------------
-- The function
-- ---------------------------------------------------------------------------

/-- `fin.read((char*)&z, sizeof(int))` for a variable with the given value. -/
def readInto (z : Int32) (s : IStream) : Int32 × IStream :=
  let r := read s 4
  (ofInt32Bytes (r.1 ++ (int32Bytes z).drop r.1.length), r.2)

/-- `filepath.find(".fbin") != string::npos` -/
def isFloat (filepath : String) : Bool := decide (".fbin".toList <:+: filepath.toList)

/-- The files that `sample_and_save_norandom` leaves, and the exception it throws. -/
structure NorandomResult where
  files : FileSystem
  thrown : Option String

/-- `sample_and_save_norandom`. The variables `n` and `dim` are not initialised: `n₀` and `dim₀`
is what they hold. An input that is opened for writing itself is empty then, except for the
`readAhead` bytes behind the header that the stream has already taken from it. -/
def sampleAndSaveNorandom (readAhead : ℕ) (n₀ dim₀ : Int32) (files : FileSystem)
    (filepath : String) (samplesize : Int32) (savepath : String) : NorandomResult :=
  match files.content filepath with
  | none => ⟨files, some ("Cannot open input file: " ++ filepath)⟩
  | some bytes =>
    let n := readInto n₀ ⟨bytes, true⟩
    let dim := readInto dim₀ n.2
    if n.1 < samplesize then ⟨files, some "Requested sample size exceeds dataset size."⟩
    else if files.writable savepath = true then
      let fin := if savepath = filepath then ⟨dim.2.rest.take readAhead, dim.2.good⟩ else dim.2
      let vecsize := (totalSize samplesize dim.1).toNat
      let size := elementSize (isFloat filepath)
      if maxSize size < vecsize then
        -- the header is in the file when the vector is constructed
        ⟨files.write savepath (int32Bytes samplesize ++ (int32Bytes dim.1 ++ [])),
          some "cannot create std::vector larger than max_size()"⟩
      else
        let found := (read fin (size * vecsize)).1
        let buffer := found ++ List.replicate (size * vecsize - found.length) 0
        ⟨files.write savepath (int32Bytes samplesize ++ (int32Bytes dim.1 ++ buffer)), none⟩
    else ⟨files, some ("Cannot open output file: " ++ savepath)⟩

-- ---------------------------------------------------------------------------
-- What is asked of it
-- ---------------------------------------------------------------------------

/-- Both paths have the same extension. -/
def SameExtension (filepath savepath : String) : Prop :=
  hasExtension savepath ".u8bin" = hasExtension filepath ".u8bin" ∧
    hasExtension savepath ".fbin" = hasExtension filepath ".fbin"

/-- `sample_and_save_norandom` throws, and leaves nothing new that is loaded; or it takes the
element type that `get_data` takes, and `get_data` loads its output as exactly the first rows
of what it loads from the input. -/
def SamplesFirstRows (readAhead : ℕ) (n₀ dim₀ : Int32) (files : FileSystem) (filepath : String)
    (samplesize : Int32) (savepath : String) : Prop :=
  let result := sampleAndSaveNorandom readAhead n₀ dim₀ files filepath samplesize savepath
  (result.thrown ≠ none ∧ (result.files = files ∨ ∀ (F : Type) [Scalar F] (ofBits : UInt32 → F)
    (m' : Loaded F), ¬ Returns (getData ofBits result.files.content savepath) m')) ∨
  (result.thrown = none ∧ readsFloats filepath = some (isFloat filepath) ∧
    ∀ (F : Type) [Scalar F] (ofBits : UInt32 → F), ∃ m m' : Loaded F,
      Returns (getData ofBits files.content filepath) m ∧
      Returns (getData ofBits result.files.content savepath) m' ∧
      m'.n = samplesize ∧ m'.d = m.d ∧
      m'.values = m.values.take (samplesize.toInt.toNat * m.d.toInt.toNat))

/-- The checks that end in an exception. -/
def Refused (n₀ dim₀ : Int32) (files : FileSystem) (filepath : String) (samplesize : Int32)
    (savepath : String) : Prop :=
  ∀ bytes, files.content filepath = some bytes →
    (readInto n₀ ⟨bytes, true⟩).1 < samplesize ∨ files.writable savepath = false ∨
      maxSize (elementSize (isFloat filepath)) <
        (totalSize samplesize (readInto dim₀ (readInto n₀ ⟨bytes, true⟩).2).1).toNat

/-- The path tells the element type, the file is loaded by `get_data`, and what is lost of it
when it is overwritten itself is zero. -/
def FirstRowsRead (readAhead : ℕ) (files : FileSystem) (filepath : String) (samplesize : Int32)
    (savepath : String) : Prop :=
  readsFloats filepath = some (isFloat filepath) ∧
    ∃ bytes, files.content filepath = some bytes ∧
      HoldsMatrix (elementSize (isFloat filepath)) bytes ∧ 4 * matrixSize bytes < 2 ^ 63 ∧
      (savepath = filepath → ∀ b ∈ (((bytes.drop 8).take (elementSize (isFloat filepath) *
        (totalSize samplesize (headerD bytes)).toNat)).drop readAhead), b = 0)

-- ---------------------------------------------------------------------------
-- What it does
-- ---------------------------------------------------------------------------

variable {readAhead : ℕ} {n₀ dim₀ : Int32} {files : FileSystem} {filepath savepath : String}
  {samplesize : Int32}

theorem SameExtension.readsFloats (h : SameExtension filepath savepath) :
    readsFloats savepath = readsFloats filepath := by
  rw [Mqo.readsFloats, Mqo.readsFloats, h.1, h.2]

/-- A variable is overwritten by a read that succeeds. -/
theorem readInto_take (z : Int32) {bytes : List UInt8} (h : 4 ≤ bytes.length) :
    readInto z ⟨bytes, true⟩ = (ofInt32Bytes (bytes.take 4), ⟨bytes.drop 4, true⟩) := by
  have hlen : (bytes.take 4).length = 4 := by rw [List.length_take, Nat.min_eq_left h]
  have hrest : (int32Bytes z).drop 4 = [] := List.drop_eq_nil_of_le (length_int32Bytes z).le
  rw [readInto, read_take h]
  dsimp only
  rw [hlen, hrest, List.append_nil]

/-- The two numbers of a header that is there. -/
theorem readInto_header (n₀ dim₀ : Int32) {bytes : List UInt8} (h : 8 ≤ bytes.length) :
    (readInto n₀ ⟨bytes, true⟩).1 = headerN bytes ∧
      readInto dim₀ (readInto n₀ ⟨bytes, true⟩).2 = (headerD bytes, ⟨bytes.drop 8, true⟩) := by
  rw [readInto_take n₀ (show 4 ≤ bytes.length by omega),
    readInto_take dim₀ (show 4 ≤ (bytes.drop 4).length by rw [List.length_drop]; omega),
    List.drop_drop]
  exact ⟨rfl, rfl⟩

/-- The rest of a file whose header promises elements is not empty. -/
theorem getData_headerOnly {F : Type} [Scalar F] {ofBits : UInt32 → F} {disk : BinaryDisk}
    {n d : Int32} (hfile : disk savepath = some (int32Bytes n ++ (int32Bytes d ++ [])))
    (m : Loaded F) :
    ¬ Returns (getData ofBits disk savepath) m := by
  cases hpath : readsFloats savepath with
  | none =>
    rw [getData_unsupported ofBits disk hpath]
    exact fun h => h.not_fails (fails_fault _)
  | some isFloat =>
    intro h
    obtain ⟨hholds, -⟩ := (getData_iff hpath hfile).mp h
    rw [holdsMatrix_append, List.length_nil] at hholds
    obtain ⟨hn, hd, hsize⟩ := hholds
    have hprod := mul_pos hn hd
    have hpos : 0 < elementSize isFloat := by cases isFloat <;> decide
    have := Nat.mul_pos hpos (show 0 < (n.toInt * d.toInt).toNat by omega)
    omega

/-- **What is refused** leaves nothing new that is loaded. -/
theorem norandom_refused (readAhead : ℕ)
    (h : Refused n₀ dim₀ files filepath samplesize savepath) :
    SamplesFirstRows readAhead n₀ dim₀ files filepath samplesize savepath := by
  refine Or.inl ?_
  unfold sampleAndSaveNorandom
  cases hfile : files.content filepath with
  | none => exact ⟨Option.some_ne_none _, Or.inl rfl⟩
  | some bytes =>
    dsimp only
    split
    · exact ⟨Option.some_ne_none _, Or.inl rfl⟩
    · next hn =>
      split
      · next hopen =>
        rcases h bytes hfile with hlt | hclosed | hlong
        · exact absurd hlt hn
        · rw [hclosed] at hopen
          cases hopen
        · rw [if_pos hlong]
          exact ⟨Option.some_ne_none _, Or.inr fun F _ ofBits m' =>
            getData_headerOnly (files.content_write ..) m'⟩
      · exact ⟨Option.some_ne_none _, Or.inl rfl⟩

-- ---------------------------------------------------------------------------
-- What is written
-- ---------------------------------------------------------------------------

/-- What is left behind the header when the output has been opened. -/
def payload (readAhead : ℕ) (filepath savepath : String) (bytes : List UInt8) : List UInt8 :=
  if savepath = filepath then (bytes.drop 8).take readAhead else bytes.drop 8

/-- The vector of `count` bytes that is filled from it. -/
def filled (count : ℕ) (rest : List UInt8) : List UInt8 :=
  rest.take count ++ List.replicate (count - (rest.take count).length) 0

theorem length_filled (count : ℕ) (rest : List UInt8) : (filled count rest).length = count := by
  rw [filled, List.length_append, List.length_replicate, List.length_take]
  omega

/-- All checks are passed. -/
theorem of_not_refused (h : ¬ Refused n₀ dim₀ files filepath samplesize savepath) :
    ∃ bytes, files.content filepath = some bytes ∧
      ¬ (readInto n₀ ⟨bytes, true⟩).1 < samplesize ∧ files.writable savepath = true ∧
      ¬ maxSize (elementSize (isFloat filepath)) <
        (totalSize samplesize (readInto dim₀ (readInto n₀ ⟨bytes, true⟩).2).1).toNat := by
  rw [Refused, not_forall] at h
  obtain ⟨bytes, h⟩ := h
  rw [Classical.not_imp, not_or, not_or, Bool.not_eq_false] at h
  exact ⟨bytes, h⟩

/-- Nothing is thrown then. -/
theorem norandom_thrown (readAhead : ℕ)
    (h : ¬ Refused n₀ dim₀ files filepath samplesize savepath) :
    (sampleAndSaveNorandom readAhead n₀ dim₀ files filepath samplesize savepath).thrown = none := by
  obtain ⟨bytes, hfile, hn, hopen, hlong⟩ := of_not_refused h
  unfold sampleAndSaveNorandom
  rw [hfile]
  dsimp only
  rw [if_neg hn, if_pos hopen, if_neg hlong]

/-- **What is written** when the input has a header. -/
theorem norandom_written (readAhead : ℕ) {bytes : List UInt8}
    (hfile : files.content filepath = some bytes) (hlen : 8 ≤ bytes.length)
    (h : ¬ Refused n₀ dim₀ files filepath samplesize savepath) :
    sampleAndSaveNorandom readAhead n₀ dim₀ files filepath samplesize savepath =
      ⟨files.write savepath (int32Bytes samplesize ++ (int32Bytes (headerD bytes) ++
        filled (elementSize (isFloat filepath) * (totalSize samplesize (headerD bytes)).toNat)
          (payload readAhead filepath savepath bytes))), none⟩ := by
  have hdim := (readInto_header n₀ dim₀ hlen).2
  obtain ⟨bytes', hfile', hn, hopen, hlong⟩ := of_not_refused h
  obtain rfl := Option.some.inj (hfile.symm.trans hfile')
  unfold sampleAndSaveNorandom
  rw [hfile]
  dsimp only
  rw [if_neg hn, if_pos hopen, if_neg hlong, hdim]
  have hstream : (if savepath = filepath then ⟨(bytes.drop 8).take readAhead, true⟩
      else ⟨bytes.drop 8, true⟩ : IStream) = ⟨payload readAhead filepath savepath bytes, true⟩ := by
    unfold payload
    split <;> rfl
  dsimp only
  rw [hstream, read_fst]
  rfl

/-- The vector holds the first bytes of the file, unless some of them were lost and not zero. -/
theorem filled_payload_iff {bytes : List UInt8} {count : ℕ} (h : count ≤ (bytes.drop 8).length) :
    filled count (payload readAhead filepath savepath bytes) = (bytes.drop 8).take count ↔
      (savepath = filepath → ∀ b ∈ ((bytes.drop 8).take count).drop readAhead, b = 0) := by
  have hlen : ((bytes.drop 8).take count).length = count := by
    rw [List.length_take, Nat.min_eq_left h]
  unfold payload
  split
  · next heq =>
    have hread : ((bytes.drop 8).take readAhead).take count =
        ((bytes.drop 8).take count).take readAhead := by
      rw [List.take_take, List.take_take, Nat.min_comm]
    have hkept : (((bytes.drop 8).take count).take readAhead).length = min readAhead count := by
      rw [List.length_take, hlen]
    have hlost : (((bytes.drop 8).take count).drop readAhead).length =
        count - (((bytes.drop 8).take count).take readAhead).length := by
      rw [List.length_drop, hkept, hlen]
      omega
    rw [filled, hread]
    nth_rewrite 3 [← List.take_append_drop readAhead ((bytes.drop 8).take count)]
    rw [List.append_cancel_left_eq, eq_comm, List.eq_replicate_iff]
    exact ⟨fun hzero _ => hzero.2, fun hzero => ⟨hlost, hzero heq⟩⟩
  · next hne =>
    rw [filled, hlen, Nat.sub_self, List.replicate_zero, List.append_nil]
    exact iff_of_true rfl fun heq => absurd heq hne

-- ---------------------------------------------------------------------------
-- The rows
-- ---------------------------------------------------------------------------

/-- Numbers that tell the bytes of an element apart. -/
theorem elementOf_inj (isFloat : Bool) (x y : List UInt8) (hx : x.length = elementSize isFloat)
    (hy : y.length = elementSize isFloat)
    (h : elementOf (fun bits : UInt32 => Exact.fin (bits.toNat : ℚ)) isFloat x =
      elementOf (fun bits : UInt32 => Exact.fin (bits.toNat : ℚ)) isFloat y) : x = y := by
  refine ofBytes_inj (hx.trans hy.symm) ?_
  have hlt := ofBytes_lt x
  have hlt' := ofBytes_lt y
  rw [hx] at hlt
  rw [hy] at hlt'
  cases isFloat with
  | true =>
    have hwidth : 256 ^ elementSize true = 2 ^ 32 := by decide
    have hval := Nat.cast_injective (Exact.fin.inj h)
    rw [hwidth] at hlt hlt'
    rwa [UInt32.toNat_ofNat', UInt32.toNat_ofNat', Nat.mod_eq_of_lt hlt,
      Nat.mod_eq_of_lt hlt'] at hval
  | false =>
    have hwidth : 256 ^ elementSize false = 2 ^ 8 := by decide
    have hval := Int.ofNat.inj (Int.cast_injective (Exact.fin.inj h))
    rw [hwidth] at hlt hlt'
    rwa [UInt8.toNat_ofNat', UInt8.toNat_ofNat', Nat.mod_eq_of_lt hlt,
      Nat.mod_eq_of_lt hlt'] at hval

/-- The header promises at least as many elements as are taken. -/
theorem count_le {bytes : List UInt8} (hs : 1 ≤ samplesize.toInt)
    (hn : samplesize.toInt ≤ (headerN bytes).toInt) (hd : 0 < (headerD bytes).toInt) :
    (totalSize samplesize (headerD bytes)).toNat ≤ matrixSize bytes := by
  rw [toNat_offset (by omega) hd.le, matrixSize_eq (by omega) hd]
  exact Nat.mul_le_mul_right _ (by omega)

/-- The output, loaded. -/
theorem getData_output (readAhead : ℕ) (hext : SameExtension filepath savepath)
    (hpath : readsFloats filepath = some (isFloat filepath)) {bytes : List UInt8}
    (hfile : files.content filepath = some bytes) (hlen : 8 ≤ bytes.length)
    (h : ¬ Refused n₀ dim₀ files filepath samplesize savepath) (hs : 1 ≤ samplesize.toInt)
    (hn : samplesize.toInt ≤ (headerN bytes).toInt) (hd : 0 < (headerD bytes).toInt)
    (hmemory : 4 * matrixSize bytes < 2 ^ 63) {F : Type} [Scalar F] (ofBits : UInt32 → F)
    (m' : Loaded F) :
    Returns (getData ofBits (sampleAndSaveNorandom readAhead n₀ dim₀ files filepath samplesize
        savepath).files.content savepath) m' ↔
      m' = ⟨samplesize, headerD bytes, elements (elementSize (isFloat filepath))
        (totalSize samplesize (headerD bytes)).toNat (elementOf ofBits (isFloat filepath))
        (filled (elementSize (isFloat filepath) * (totalSize samplesize (headerD bytes)).toNat)
          (payload readAhead filepath savepath bytes))⟩ := by
  have htotal : (samplesize.toInt * (headerD bytes).toInt).toNat =
      (totalSize samplesize (headerD bytes)).toNat := by
    rw [toNat_offset (by omega) hd.le, Int.toNat_mul (by omega) hd.le]
  have hcount := count_le hs hn hd
  rw [norandom_written readAhead hfile hlen h,
    getData_iff (hext.readsFloats.trans hpath) (files.content_write ..), holdsMatrix_append,
    matrixSize_append, matrixOf, headerN_append, headerD_append, matrixSize_append, drop_header,
    htotal, length_filled]
  exact ⟨fun h => h.2.2, fun h => ⟨⟨by omega, hd, le_rfl⟩, by omega, h⟩⟩

/-- The first rows of what is loaded from the input. -/
theorem take_matrixOf {F : Type} {size : ℕ} {element : List UInt8 → F} {bytes : List UInt8}
    (hs : 1 ≤ samplesize.toInt) (hn : samplesize.toInt ≤ (headerN bytes).toInt)
    (hd : 0 < (headerD bytes).toInt) :
    (matrixOf size element bytes).values.take
        (samplesize.toInt.toNat * (headerD bytes).toInt.toNat) =
      elements size (totalSize samplesize (headerD bytes)).toNat element
        ((bytes.drop 8).take (size * (totalSize samplesize (headerD bytes)).toNat)) := by
  rw [← toNat_offset (by omega) hd.le, elements_take, ← take_elements (count_le hs hn hd)]
  rfl

/-- A file whose output is right has been loaded, and its first rows were still there. -/
theorem samplesFirstRows_iff_of_not_refused (readAhead : ℕ) (hs : 1 ≤ samplesize.toInt)
    (hext : SameExtension filepath savepath)
    (h : ¬ Refused n₀ dim₀ files filepath samplesize savepath) :
    SamplesFirstRows readAhead n₀ dim₀ files filepath samplesize savepath ↔
      FirstRowsRead readAhead files filepath samplesize savepath := by
  have hthrown := norandom_thrown readAhead h
  obtain ⟨bytes, hfile, hlt, -, -⟩ := of_not_refused h
  -- what both sides know about the input
  have hinput : HoldsMatrix (elementSize (isFloat filepath)) bytes → 8 ≤ bytes.length ∧
      samplesize.toInt ≤ (headerN bytes).toInt ∧ 0 < (headerD bytes).toInt ∧
      elementSize (isFloat filepath) * (totalSize samplesize (headerD bytes)).toNat ≤
        (bytes.drop 8).length := by
    rintro ⟨hlen, -, hd, hdata⟩
    rw [(readInto_header n₀ dim₀ hlen).1, Int32.not_lt, Int32.le_iff_toInt_le] at hlt
    have hcount := Nat.mul_le_mul_left (elementSize (isFloat filepath)) (count_le hs hlt hd)
    exact ⟨hlen, hlt, hd, by rw [List.length_drop]; omega⟩
  constructor
  · rintro (⟨hne, -⟩ | ⟨-, hpath, hrows⟩)
    · exact absurd hthrown hne
    · obtain ⟨m, m', hin, hout, -, hd', hvalues⟩ :=
        hrows (Exact ℚ) fun bits => Exact.fin (bits.toNat : ℚ)
      obtain ⟨hholds, hmemory, rfl⟩ := (getData_iff hpath hfile).mp hin
      obtain ⟨hlen, hn, hd, hdata⟩ := hinput hholds
      refine ⟨hpath, bytes, hfile, hholds, hmemory, (filled_payload_iff hdata).mp ?_⟩
      obtain rfl :=
        (getData_output readAhead hext hpath hfile hlen h hs hn hd hmemory _ m').mp hout
      refine elements_inj (elementOf_inj _) (length_filled _ _) ?_
        (hvalues.trans (take_matrixOf hs hn hd))
      rw [List.length_take, Nat.min_eq_left hdata]
  · rintro ⟨hpath, bytes', hfile', hholds, hmemory, hzero⟩
    obtain rfl := Option.some.inj (hfile.symm.trans hfile')
    obtain ⟨hlen, hn, hd, hdata⟩ := hinput hholds
    refine Or.inr ⟨hthrown, hpath, fun F _ ofBits => ?_⟩
    have hout := getData_output readAhead hext hpath hfile hlen h hs hn hd hmemory ofBits
    refine ⟨_, _, (getData_iff hpath hfile).mpr ⟨hholds, hmemory, rfl⟩, (hout _).mpr rfl, rfl, rfl,
      ?_⟩
    rw [(filled_payload_iff hdata).mpr hzero]
    exact (take_matrixOf hs hn hd).symm

/-- The element types agree for a path with the extension `.fbin`, and for one with the extension
`.u8bin` that has no `.fbin` in it. -/
theorem readsFloats_eq_isFloat (path : String) : readsFloats path = some (isFloat path) ↔
    hasExtension path ".fbin" = true ∨
      (hasExtension path ".u8bin" = true ∧ isFloat path = false) := by
  unfold readsFloats
  split
  · next hu8 =>
    have hfbin : hasExtension path ".fbin" = false := by
      rw [← Bool.not_eq_true]
      intro h
      rw [not_u8bin_of_fbin h] at hu8
      cases hu8
    rw [Option.some.injEq, eq_comm, hfbin]
    exact ⟨fun h => Or.inr ⟨hu8, h⟩, fun h => (h.resolve_left Bool.false_ne_true).2⟩
  · next hu8 =>
    split
    · next hfbin =>
      have hcontains : isFloat path = true :=
        decide_eq_true (List.isSuffixOf_iff_suffix.mp hfbin).isInfix
      rw [hcontains]
      exact iff_of_true rfl (Or.inl hfbin)
    · next hfbin =>
      exact iff_of_false (fun h => by cases h) fun h => h.elim hfbin fun h => hu8 h.1

/-- **When the first rows are saved.** -/
theorem sampleAndSaveNorandom_iff (readAhead : ℕ) (n₀ dim₀ : Int32) (files : FileSystem)
    (filepath savepath : String) (samplesize : Int32) (hs : 1 ≤ samplesize.toInt)
    (hext : SameExtension filepath savepath) :
    SamplesFirstRows readAhead n₀ dim₀ files filepath samplesize savepath ↔
      Refused n₀ dim₀ files filepath samplesize savepath ∨
        FirstRowsRead readAhead files filepath samplesize savepath := by
  by_cases h : Refused n₀ dim₀ files filepath samplesize savepath
  · exact iff_of_true (norandom_refused readAhead h) (Or.inl h)
  · rw [samplesFirstRows_iff_of_not_refused readAhead hs hext h]
    exact ⟨Or.inr, fun hor => hor.resolve_left h⟩

/-- A file of two numbers, and one that lacks the second of them. -/
def numberFiles : FileSystem where
  content filename :=
    if filename = "whole.fbin" then some [2, 0, 0, 0, 1, 0, 0, 0, 0, 0, 128, 63, 0, 0, 0, 64]
    else if filename = "cut.fbin" then some [2, 0, 0, 0, 1, 0, 0, 0, 0, 0, 128, 63] else none
  writable _ := true

theorem sampleAndSaveNorandom_whole :
    SamplesFirstRows 0 0 0 numberFiles "whole.fbin" 1 "query.fbin" := by
  have hread : FirstRowsRead 0 numberFiles "whole.fbin" 1 "query.fbin" :=
    ⟨by decide, _, rfl, ⟨by decide, by decide, by decide, by decide⟩, by decide,
      fun h => absurd h (by decide)⟩
  exact (sampleAndSaveNorandom_iff 0 0 0 numberFiles "whole.fbin" "query.fbin" 1 (by decide)
    ⟨by decide, by decide⟩).mpr (Or.inr hread)

/-- The missing number is taken to be zero: the output is loaded where the input is not. -/
theorem sampleAndSaveNorandom_cut :
    (1 ≤ (2 : Int32).toInt ∧ SameExtension "cut.fbin" "query.fbin") ∧
      (sampleAndSaveNorandom 0 0 0 numberFiles "cut.fbin" 2 "query.fbin").thrown = none ∧
      Returns (getData floatOfBits (sampleAndSaveNorandom 0 0 0 numberFiles "cut.fbin" 2
        "query.fbin").files.content "query.fbin") ⟨2, 1, [Exact.fin 1, Exact.fin 0]⟩ ∧
      ¬ SamplesFirstRows 0 0 0 numberFiles "cut.fbin" 2 "query.fbin" := by
  have hthrown :
      (sampleAndSaveNorandom 0 0 0 numberFiles "cut.fbin" 2 "query.fbin").thrown = none := by decide
  have hout : Returns (getData floatOfBits (sampleAndSaveNorandom 0 0 0 numberFiles "cut.fbin" 2
      "query.fbin").files.content "query.fbin") ⟨2, 1, [Exact.fin 1, Exact.fin 0]⟩ :=
    returns_of_value (n := 0) (by decide +kernel)
  refine ⟨⟨by decide, by decide, by decide⟩, hthrown, hout, ?_⟩
  rintro (⟨hne, -⟩ | ⟨-, hpath, hrows⟩)
  · exact hne hthrown
  · obtain ⟨m, m', hin, -⟩ := hrows (Exact ℚ) floatOfBits
    obtain ⟨⟨-, -, -, hdata⟩, -⟩ := (getData_iff hpath rfl).mp hin
    revert hdata
    decide

end Mqo
