import Mqo.Data.Subset

/-!
# MQO — from bytes to floats

`convert_u8bin_to_fbin` of `data_handler/scripts/convert_type.cpp` reads the format of
`load_u8bin` with a decoder of its own: row by row, and with the header of the output
already written when it finds that rows are missing.

* `convertRows_full`, `convertRows_short` — the loop over the rows on a file that has them
  all, and on one that has not;
* `getData_convert` — `get_data` sees the same matrix in the output as in the input; from
  what `load_u8bin` rejects nothing is written that `load_fbin` accepts.
-/

namespace Mqo

open Prog ByteStream

-- ---------------------------------------------------------------------------
-- The function
-- ---------------------------------------------------------------------------

section Convert

variable {F : Type} [Scalar F]

/-- The bytes of `frow`, for the row that has been read. -/
def floatRow (toBits : F → UInt32) (row : List UInt8) : List UInt8 :=
  row.flatMap fun v => floatBytes (toBits (Scalar.ofInt v.toNat))

/-- The loop over the rows from row `i` on, of which there are as many as the second number
says: what it writes to `out`, and what it prints. -/
def convertRows (toBits : F → UInt32) (d : ℕ) : ℕ → ℕ → IStream → List UInt8 × String
  | _, 0, _ => ([], "")
  | i, k + 1, input =>
    let row := read input d
    -- `in.gcount() != d`
    if row.1.length ≠ d then ([], "Unexpected end of file at row " ++ toString i ++ "\n")
    else
      let rows := convertRows toBits d (i + 1) k row.2
      (floatRow toBits row.1 ++ rows.1, rows.2)

/-- The files that `convert_u8bin_to_fbin` leaves, and what it prints. -/
structure ConvertResult where
  files : FileSystem
  cerr : String

/-- `convert_u8bin_to_fbin`. The numbers `n` and `d` start at 0, so a read that finds too few
bytes leaves 0 in the others. `overwritten` is what is left of the input when it is opened for
writing itself. -/
def convertU8binToFbin (toBits : F → UInt32) (overwritten : IStream → IStream)
    (files : FileSystem) (input_path output_path : String) : ConvertResult :=
  match files.content input_path with
  | none => ⟨files, "Failed to open " ++ input_path ++ "\n"⟩
  | some bytes =>
    let readN := read ⟨bytes, true⟩ 4
    let readD := read readN.2 4
    let n := ofInt32Bytes readN.1
    let d := ofInt32Bytes readD.1
    if n ≤ 0 ∨ d ≤ 0 then ⟨files, "Invalid header: n or d is non-positive\n"⟩
    else if files.writable output_path = true then
      let input := if output_path = input_path then overwritten readD.2 else readD.2
      let rows := convertRows toBits d.toInt.toNat 0 n.toInt.toNat input
      ⟨files.write output_path (int32Bytes n ++ (int32Bytes d ++ rows.1)), rows.2⟩
    else ⟨files, "Failed to open " ++ output_path ++ "\n"⟩

-- ---------------------------------------------------------------------------
-- The rows
-- ---------------------------------------------------------------------------

variable (toBits : F → UInt32)

theorem length_floatRow (row : List UInt8) : (floatRow toBits row).length = 4 * row.length :=
  length_flatMap_bytes (fun _ => length_floatBytes _) row

theorem floatRow_append (row row' : List UInt8) :
    floatRow toBits (row ++ row') = floatRow toBits row ++ floatRow toBits row' :=
  List.flatMap_append

theorem convertRows_succ (i k : ℕ) {d : ℕ} {bytes : List UInt8} (h : d ≤ bytes.length) :
    convertRows toBits d i (k + 1) ⟨bytes, true⟩ =
      (floatRow toBits (bytes.take d) ++ (convertRows toBits d (i + 1) k ⟨bytes.drop d, true⟩).1,
        (convertRows toBits d (i + 1) k ⟨bytes.drop d, true⟩).2) := by
  rw [convertRows, read_take h]
  exact if_neg (not_not.mpr (by rw [List.length_take, Nat.min_eq_left h]))

/-- **All rows are there.** -/
theorem convertRows_full {d : ℕ} (i k : ℕ) {bytes : List UInt8} (h : d * k ≤ bytes.length) :
    convertRows toBits d i k ⟨bytes, true⟩ = (floatRow toBits (bytes.take (d * k)), "") := by
  induction k generalizing i bytes with
  | zero => rw [Nat.mul_zero, List.take_zero]; rfl
  | succ k ih =>
    rw [Nat.mul_succ] at h
    rw [convertRows_succ toBits i k (by omega), ih (i + 1) (by rw [List.length_drop]; omega),
      ← floatRow_append, Nat.mul_succ, Nat.add_comm, List.take_add]

/-- **Rows are missing**: fewer are written than the header says. -/
theorem convertRows_short {d : ℕ} (hd : 0 < d) (i k : ℕ) {bytes : List UInt8}
    (h : bytes.length < d * k) :
    (convertRows toBits d i k ⟨bytes, true⟩).1.length < 4 * (d * k) := by
  induction k generalizing i bytes with
  | zero => exact absurd h (Nat.not_lt_zero _)
  | succ k ih =>
    rw [Nat.mul_succ] at h ⊢
    rcases Nat.lt_or_ge bytes.length d with hlt | hge
    · rw [convertRows, read_short hlt]
      dsimp only
      rw [if_pos hlt.ne, List.length_nil]
      omega
    · have hrest := ih (i + 1) (show (bytes.drop d).length < d * k by rw [List.length_drop]; omega)
      rw [convertRows_succ toBits i k hge, List.length_append, length_floatRow, List.length_take]
      omega

/-- Nothing is read from a stream that has failed. -/
theorem convertRows_failed {d : ℕ} (hd : 0 < d) (i k : ℕ) (rest : List UInt8) :
    (convertRows toBits d i k ⟨rest, false⟩).1 = [] := by
  cases k with
  | zero => rfl
  | succ k =>
    rw [convertRows, read_failed]
    dsimp only
    rw [List.length_nil, if_pos hd.ne]

-- ---------------------------------------------------------------------------
-- The whole file
-- ---------------------------------------------------------------------------

variable (overwritten : IStream → IStream) {files : FileSystem} {input_path output_path : String}
  {bytes : List UInt8}

/-- A file with a header, and another file to write to. -/
theorem convert_header (hne : input_path ≠ output_path)
    (hfile : files.content input_path = some bytes) (h : 8 ≤ bytes.length) :
    convertU8binToFbin toBits overwritten files input_path output_path =
      if headerN bytes ≤ 0 ∨ headerD bytes ≤ 0 then
        ⟨files, "Invalid header: n or d is non-positive\n"⟩
      else if files.writable output_path = true then
        let rows := convertRows toBits (headerD bytes).toInt.toNat 0 (headerN bytes).toInt.toNat
          ⟨bytes.drop 8, true⟩
        ⟨files.write output_path (int32Bytes (headerN bytes) ++
          (int32Bytes (headerD bytes) ++ rows.1)), rows.2⟩
      else ⟨files, "Failed to open " ++ output_path ++ "\n"⟩ := by
  unfold convertU8binToFbin
  rw [hfile]
  simp only [read_take (show 4 ≤ bytes.length by omega),
    read_take (show 4 ≤ (bytes.drop 4).length by rw [List.length_drop]; omega), List.drop_drop,
    if_neg hne.symm, headerN, headerD]
  rfl

/-- A header is written, but not the elements it promises. -/
def WritesTooLittle (files files' : FileSystem) (output_path : String) : Prop :=
  ∃ (n d : Int32) (rows : List UInt8), 0 < n.toInt ∧ 0 < d.toInt ∧
    rows.length < 4 * (n.toInt * d.toInt).toNat ∧
    files' = files.write output_path (int32Bytes n ++ (int32Bytes d ++ rows))

/-- A file without a header: its stream has failed before the first row. -/
theorem convert_short (hne : input_path ≠ output_path)
    (hfile : files.content input_path = some bytes) (h : bytes.length < 8) :
    (convertU8binToFbin toBits overwritten files input_path output_path).files = files ∨
      WritesTooLittle files
        (convertU8binToFbin toBits overwritten files input_path output_path).files output_path := by
  have hstream : (read (read ⟨bytes, true⟩ 4).2 4).2 = ⟨[], false⟩ := by
    rcases Nat.lt_or_ge bytes.length 4 with hlt | hge
    · rw [read_short hlt, read_failed]
    · rw [read_take hge, read_short (by rw [List.length_drop]; omega)]
  unfold convertU8binToFbin
  rw [hfile]
  dsimp only
  rw [hstream]
  split
  · exact Or.inl rfl
  · next hpos =>
    obtain ⟨hn, hd⟩ := positive_iff.mp hpos
    have hprod := mul_pos hn hd
    split
    · rw [if_neg hne.symm, convertRows_failed toBits (by omega)]
      exact Or.inr ⟨_, _, [], hn, hd, by rw [List.length_nil]; omega, rfl⟩
    · exact Or.inl rfl

/-- A file with a header that does not hold its matrix. -/
theorem convert_lacking (hne : input_path ≠ output_path)
    (hfile : files.content input_path = some bytes) (h : 8 ≤ bytes.length)
    (hlacks : ¬ HoldsMatrix 1 bytes) :
    (convertU8binToFbin toBits overwritten files input_path output_path).files = files ∨
      WritesTooLittle files
        (convertU8binToFbin toBits overwritten files input_path output_path).files output_path := by
  rw [convert_header toBits overwritten hne hfile h]
  split
  · exact Or.inl rfl
  · next hpos =>
    obtain ⟨hn, hd⟩ := positive_iff.mp hpos
    split
    · refine Or.inr ⟨_, _, _, hn, hd, ?_, rfl⟩
      have hsize := (Nat.mul_comm _ _).trans (matrixSize_eq hn hd).symm
      have hshort : (bytes.drop 8).length < matrixSize bytes := by
        by_contra hlong
        rw [List.length_drop] at hlong
        exact hlacks ⟨h, hn, hd, by omega⟩
      rw [← hsize] at hshort
      have hrows := convertRows_short toBits (by omega) 0 (headerN bytes).toInt.toNat hshort
      rwa [hsize, matrixSize] at hrows
    · exact Or.inl rfl

/-- **Whatever is rejected** leaves nothing behind that is loaded. -/
theorem convert_rejected (ofBits : UInt32 → F) (hne : input_path ≠ output_path)
    (hreject : ¬ ∃ u8_data, Returns (loadU8bin files.content input_path) u8_data) :
    (convertU8binToFbin toBits overwritten files input_path output_path).files = files ∨
      ∃ what, Fails (loadFbin ofBits
        (convertU8binToFbin toBits overwritten files input_path output_path).files.content
        output_path) (.exception what) := by
  cases hfile : files.content input_path with
  | none =>
    refine Or.inl ?_
    rw [convertU8binToFbin, hfile]
  | some bytes =>
    have hwrites : (convertU8binToFbin toBits overwritten files input_path output_path).files =
        files ∨ WritesTooLittle files
          (convertU8binToFbin toBits overwritten files input_path output_path).files output_path := by
      rcases Nat.lt_or_ge bytes.length 8 with hlt | hge
      · exact convert_short toBits overwritten hne hfile hlt
      · refine convert_lacking toBits overwritten hne hfile hge fun hholds => hreject ?_
        have hfits := matrixSize_lt hholds.2.2.1
        exact ⟨_, (loadBin_returns_iff hfile).mpr ⟨hholds, by rwa [Nat.one_mul], rfl⟩⟩
    refine hwrites.imp_right ?_
    rintro ⟨n, d, rows, -, -, hlen, hwritten⟩
    rw [hwritten]
    refine (acceptsMatrices_loadBin 4 _ _ _ _ (files.content_write ..)).2 fun hholds => ?_
    rw [holdsMatrix_append] at hholds
    omega

/-- **Whatever is accepted**: all rows are converted. -/
theorem convert_accepted (hne : input_path ≠ output_path)
    (hfile : files.content input_path = some bytes) (hholds : HoldsMatrix 1 bytes)
    (hopen : files.writable output_path = true) :
    (convertU8binToFbin toBits overwritten files input_path output_path).files =
      files.write output_path (int32Bytes (headerN bytes) ++ (int32Bytes (headerD bytes) ++
        floatRow toBits ((bytes.drop 8).take (matrixSize bytes)))) := by
  obtain ⟨hlen, hn, hd, hdata⟩ := hholds
  have hsize := (Nat.mul_comm _ _).trans (matrixSize_eq hn hd).symm
  rw [convert_header toBits overwritten hne hfile hlen, if_neg (positive_iff.mpr ⟨hn, hd⟩),
    if_pos hopen]
  dsimp only
  rw [convertRows_full toBits 0 _ (by rw [hsize, List.length_drop]; omega), hsize]

-- ---------------------------------------------------------------------------
-- Both decoders
-- ---------------------------------------------------------------------------

/-- The elements of a file of bytes are its bytes. -/
theorem elements_u8 {count : ℕ} {data : List UInt8} (h : count ≤ data.length) :
    elements 1 count ofU8Bytes data = data.take count := by
  have hlen : (data.take count).length = count := by rw [List.length_take, Nat.min_eq_left h]
  have hbytes : (data.take count).flatMap u8Bytes = data.take count := by
    rw [show u8Bytes = fun v => [v] from funext fun v => ?_, List.flatMap_singleton']
    rw [u8Bytes, toBytes, toBytes, Nat.mod_eq_of_lt v.toNat_lt, UInt8.ofNat_toNat]
  have hback := elements_flatMap length_u8Bytes ofU8Bytes_u8Bytes (data.take count)
    (data.drop count)
  rwa [hbytes, hlen, List.take_append_drop] at hback

/-- The elements of what is written for them. -/
theorem elements_floatRow {ofBits : UInt32 → F}
    (hbits : ∀ v : UInt8, ofBits (toBits (Scalar.ofInt v.toNat)) = Scalar.ofInt v.toNat)
    (row : List UInt8) :
    elements 4 row.length (fun bytes => ofBits (UInt32.ofNat (ofBytes bytes)))
      (floatRow toBits row) = row.map fun v => Scalar.ofInt v.toNat := by
  have hmap : elements 4 row.length (fun bytes => ofBits (ofFloatBytes bytes))
      (floatRow toBits row ++ []) = _ :=
    elements_map (fun v : UInt8 => length_floatBytes (toBits (Scalar.ofInt v.toNat))) row []
  rw [List.append_nil] at hmap
  refine hmap.trans (List.map_congr_left fun v _ => ?_)
  rw [ofFloatBytes_floatBytes, hbits]

/-- **Whatever is accepted**, for `get_data`. -/
theorem convert_agrees {ofBits : UInt32 → F}
    (hbits : ∀ v : UInt8, ofBits (toBits (Scalar.ofInt v.toNat)) = Scalar.ofInt v.toNat)
    (hin : hasExtension input_path ".u8bin" = true) (hout : hasExtension output_path ".fbin" = true)
    (hopen : files.writable output_path = true) {u8_data : Loaded UInt8}
    (hload : Returns (loadU8bin files.content input_path) u8_data) (m : Loaded F) :
    Returns (getData ofBits files.content input_path) m ↔
      Returns (getData ofBits (convertU8binToFbin toBits overwritten files input_path
        output_path).files.content output_path) m := by
  have hne : input_path ≠ output_path := by
    rintro rfl
    rw [not_u8bin_of_fbin hout] at hin
    cases hin
  obtain ⟨bytes, hfile, ⟨hlen, hn, hd, hrows⟩, -, hdata⟩ := exists_of_loadBin hload
  have hvalues : u8_data.values = (bytes.drop 8).take (matrixSize bytes) := by
    rw [hdata]
    exact elements_u8 (by rw [List.length_drop]; omega)
  have hsize : u8_data.values.length = matrixSize bytes := by
    rw [hvalues, List.length_take, List.length_drop]
    omega
  have hheader : u8_data.n = headerN bytes ∧ u8_data.d = headerD bytes := by
    rw [hdata]
    exact ⟨rfl, rfl⟩
  -- both files are loaded under the same condition, and to the same matrix
  have hread : Returns (getData ofBits files.content input_path) m ↔
      4 * u8_data.values.length < 2 ^ 63 ∧
        m = ⟨u8_data.n, u8_data.d, u8_data.values.map fun v => Scalar.ofInt v.toNat⟩ := by
    rw [getData_u8bin_iff hin]
    constructor
    · rintro ⟨u8, hu8, h⟩
      obtain rfl := hu8.unique hload
      exact h
    · exact fun h => ⟨u8_data, hload, h⟩
  rw [hread, getData_fbin ofBits _ hout, convert_accepted toBits overwritten hne hfile
    ⟨hlen, hn, hd, hrows⟩ hopen, ← hvalues, loadFbin, loadBin_returns_iff (files.content_write ..),
    holdsMatrix_append, matrixSize_append, matrixOf, headerN_append, headerD_append,
    matrixSize_append, drop_header, length_floatRow, ← matrixSize, ← hsize,
    elements_floatRow toBits hbits, hheader.1, hheader.2]
  exact ⟨fun h => ⟨⟨hn, hd, le_rfl⟩, h⟩, fun h => h.2⟩

/-- **The converted file.** `get_data` returns the same matrix for both files; what
`load_u8bin` rejects is converted to nothing that `load_fbin` accepts. -/
theorem getData_convert {ofBits : UInt32 → F}
    (hbits : ∀ v : UInt8, ofBits (toBits (Scalar.ofInt v.toNat)) = Scalar.ofInt v.toNat)
    (files : FileSystem) (input_path output_path : String) :
    (hasExtension input_path ".u8bin" = true → hasExtension output_path ".fbin" = true →
      files.writable output_path = true →
      ∀ u8_data, Returns (loadU8bin files.content input_path) u8_data →
        (∀ m, Returns (getData ofBits files.content input_path) m ↔
          Returns (getData ofBits (convertU8binToFbin toBits overwritten files input_path
            output_path).files.content output_path) m) ∧
        (4 * u8_data.values.length < 2 ^ 63 →
          ∃ m, Returns (getData ofBits files.content input_path) m)) ∧
    (input_path ≠ output_path →
      (¬ ∃ u8_data, Returns (loadU8bin files.content input_path) u8_data) →
      (convertU8binToFbin toBits overwritten files input_path output_path).files = files ∨
        ∃ what, Fails (loadFbin ofBits (convertU8binToFbin toBits overwritten files input_path
          output_path).files.content output_path) (.exception what)) := by
  refine ⟨fun hin hout hopen u8_data hload => ⟨?_, fun hmemory => ?_⟩,
    convert_rejected toBits overwritten ofBits⟩
  · exact convert_agrees toBits overwritten hbits hin hout hopen hload
  · exact ⟨_, (getData_u8bin_iff hin).mpr ⟨u8_data, hload, hmemory, rfl⟩⟩

end Convert

-- ---------------------------------------------------------------------------
-- Single precision
-- ---------------------------------------------------------------------------

/-- The bits of the `float` for a number below 256. -/
def smallFloatBits (v : ℕ) : UInt32 :=
  if v = 0 then 0
  else UInt32.ofNat ((127 + v.log2) * 2 ^ 23 + (v - 2 ^ v.log2) * 2 ^ (23 - v.log2))

theorem floatOfBits_small {v : ℕ} (h : v < 256) :
    floatOfBits (smallFloatBits v) = Exact.fin (v : ℚ) := by
  revert v
  decide +kernel

/-- The bits of a finite number that is one of these. -/
def smallBits (x : Exact ℚ) : UInt32 := smallFloatBits x.value.num.toNat

/-- A row of two bytes, and a file that lacks one of them. -/
def smallFiles : FileSystem where
  content filename :=
    if filename = "base.u8bin" then some [1, 0, 0, 0, 2, 0, 0, 0, 7, 255]
    else if filename = "short.u8bin" then some [1, 0, 0, 0, 2, 0, 0, 0, 7] else none
  writable _ := true

theorem getData_convert_small :
    (∃ m, Returns (getData floatOfBits smallFiles.content "base.u8bin") m ∧
      Returns (getData floatOfBits (convertU8binToFbin smallBits id smallFiles "base.u8bin"
        "base.fbin").files.content "base.fbin") m) ∧
    ((convertU8binToFbin smallBits id smallFiles "short.u8bin" "short.fbin").files = smallFiles ∨
      ∃ what, Fails (loadFbin floatOfBits (convertU8binToFbin smallBits id smallFiles "short.u8bin"
        "short.fbin").files.content "short.fbin") (.exception what)) := by
  have hbits : ∀ v : UInt8, floatOfBits (smallBits (Scalar.ofInt v.toNat)) =
      Scalar.ofInt v.toNat := fun v => floatOfBits_small v.toNat_lt
  have hload : Returns (loadU8bin smallFiles.content "base.u8bin") ⟨1, 2, [7, 255]⟩ :=
    returns_of_value (n := 0) (by decide)
  have hshort : ¬ ∃ u8_data, Returns (loadU8bin smallFiles.content "short.u8bin") u8_data :=
    fun ⟨_, h⟩ => h.not_fails ⟨0, by rfl⟩
  obtain ⟨hsame, hmemory⟩ := (getData_convert smallBits id hbits smallFiles "base.u8bin"
    "base.fbin").1 (by decide) (by decide) rfl _ hload
  obtain ⟨m, hm⟩ := hmemory (by decide)
  exact ⟨⟨m, hm, (hsame m).mp hm⟩, (getData_convert smallBits id hbits smallFiles "short.u8bin"
    "short.fbin").2 (by decide) hshort⟩

end Mqo
