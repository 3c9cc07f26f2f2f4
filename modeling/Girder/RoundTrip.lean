import Girder.Format

/-!
# RoundTrip — reading back what was written

Each section decoder inverts its encoder, and both ways of reading a file find each section where the
writer put it.
-/

namespace Girder

open Lib

/-! ## Offset tables, bitmaps, strings -/

theorem reads_offsets {items : List Bytes} (h : items.flatten.length < 2 ^ 64) :
    Reads (Reader.many Cur.u64 (items.length + 1)) ((offsets items).flatMap le64)
      (offsets items) := by
  rw [← length_offsets items]
  refine Reads.many (fun o ho => Cur.reads_u64 ?_)
  have hle := mem_offsets_le ho
  omega

theorem checkTable_offsets (what : String) (items : List Bytes) :
    checkTable what (offsets items) items.flatten.length = .ok () := by
  unfold checkTable
  rw [Res.check_true (head?_offsets items), Res.check_true (getLast?_offsets items),
    Res.check_true (offsets_monotone items)]
  rfl

theorem length_flatMap_le64 (l : List Nat) : (l.flatMap le64).length = 8 * l.length := by
  induction l with
  | nil => rfl
  | cons n l ih =>
      rw [List.flatMap_cons, List.length_append, ih, length_le64, List.length_cons]
      omega

theorem presenceFlags_bitmap (flags : List Bool) (rest : Bytes) :
    presenceFlags (bitmap flags ++ rest) flags.length = .ok flags := by
  have hbit : ∀ i ∈ List.range flags.length,
      Res.unwrap (bitAt (bitmap flags ++ rest) i) = .ok (flags[i]?.getD false) := by
    intro i hi
    have hlt : i < flags.length := List.mem_range.1 hi
    have hbyte : i / 8 < (bitmap flags).length := by
      rw [length_bitmap]
      omega
    refine Res.unwrap_of_eq_some ?_
    rw [bitAt_append rest hbyte, bitAt_bitmap hlt]
    simp [hlt]
  rw [presenceFlags, mapM_ok hbit]
  congr 1
  refine List.ext_getElem (by simp) (fun i h1 h2 => ?_)
  simp [h2]

theorem decodeStrings_encodeStrings {l : List String} (hlen : l.length < 2 ^ 32)
    (hsize : (l.flatMap utf8).length < 2 ^ 64) :
    decodeStrings (encodeStrings (l.map utf8)) = .ok (String.join l, offsets (l.map utf8)) := by
  have hflat : (l.map utf8).flatten = l.flatMap utf8 := rfl
  have hcount : (l.map utf8).length < 2 ^ 32 := by simpa using hlen
  unfold decodeStrings encodeStrings
  rw [(Cur.reads_u32 hcount).eval_bind, (reads_offsets (by rwa [hflat])).eval_bind,
    Reads.eval_rest_bind, (Reads.check (getLast?_offsets _)).eval_bind_nil]
  have hutf8 : Res.utf8 (l.map utf8).flatten "non-utf8 string column" = .ok (String.join l) := by
    rw [hflat, ← utf8_join, Res.utf8_utf8]
  rw [(Cur.reads_lift hutf8).eval_bind_nil, Reads.eval_pure]

/-! ## Label columns -/

/-- Taking the present values in order gives every row its own value back. -/
theorem plainValues_ok :
    ∀ (rows : List (Option String)) (done : List String),
      plainValues (String.join (done ++ rows.filterMap id))
        (offsets ((done ++ rows.filterMap id).map utf8)) (rows.map Option.isSome) done.length =
        .ok (rows, (done ++ rows.filterMap id).length) := by
  intro rows
  induction rows with
  | nil => simp [plainValues, pure, Except.pure]
  | cons row rows ih =>
      intro done
      cases row with
      | none =>
          have hrest := ih done
          simp only [List.filterMap_cons_none (show id (none : Option String) = none from rfl),
            List.map_cons, Option.isSome_none, plainValues] at hrest ⊢
          rw [hrest]
          rfl
      | some v =>
          have hall : done ++ (some v :: rows).filterMap id =
              (done ++ [v]) ++ rows.filterMap id := by simp
          have hrest := ih (done ++ [v])
          have hget : (done ++ [v] ++ rows.filterMap id)[done.length]? = some v := by simp
          obtain ⟨hlt, hv⟩ := List.getElem?_eq_some_iff.1 hget
          have hslice := sliceStr_join hlt
          rw [hv] at hslice
          -- The value lies between the two offsets that the walk reads.
          have hstart : (offsets ((done ++ [v] ++ rows.filterMap id).map utf8))[done.length]? =
              some (((done ++ [v] ++ rows.filterMap id).take done.length).flatMap utf8).length := by
            rw [getElem?_offsets (by simp), ← List.map_take]
            rfl
          have hstop : (offsets ((done ++ [v] ++ rows.filterMap id).map utf8))[done.length + 1]? =
              some (((done ++ [v] ++ rows.filterMap id).take (done.length + 1)).flatMap
                utf8).length := by
            rw [getElem?_offsets (by simp), ← List.map_take]
            rfl
          rw [List.length_append, List.length_singleton] at hrest
          rw [hall, List.map_cons, Option.isSome_some, plainValues, Res.index_of_getElem? hstart,
            Res.ok_bind, Res.index_of_getElem? hstop, Res.ok_bind, Res.sliceStr,
            Res.unwrap_of_eq_some hslice, Res.ok_bind, hrest]
          rfl

theorem length_encodeStrings (items : List Bytes) :
    (encodeStrings items).length = 4 + (8 * (items.length + 1) + items.flatten.length) := by
  simp only [encodeStrings, List.length_append, length_le32, length_flatMap_le64, length_offsets]

section Columns

variable {ν : Type} {records : List (Record ν)}

theorem capacity_ok {n size : Nat} (hn : n < 2 ^ 32) (hsize : size ≤ 2 ^ 31) :
    Res.capacity n size = .ok () := by
  refine Res.check_true ?_
  calc n * size ≤ n * 2 ^ 31 := Nat.mul_le_mul_left n hsize
    _ < 2 ^ 32 * 2 ^ 31 := Nat.mul_lt_mul_of_pos_right hn (by decide)
    _ = 2 ^ 63 := by decide

theorem decodeLabelColumn_plain {name : String} (hlen : records.length < 2 ^ 32)
    (hsize : (encodeLabelColumn records ⟨name, .plain⟩).length < 2 ^ 64) :
    decodeLabelColumn (encodeLabelColumn records ⟨name, .plain⟩) records.length =
      .ok (labelColumn records ⟨name, .plain⟩) := by
  -- The rows' values, and the present ones among them.
  let rows : List (Option String) := records.map (fun r => r.labels[name]?)
  have hflags : records.map (fun r => r.labels[name]?.isSome) = rows.map Option.isSome := by
    simp [rows]
  have hvalues : records.filterMap (fun r => r.labels[name]?.map utf8) =
      (rows.filterMap id).map utf8 := by
    simp [rows, List.filterMap_map, List.map_filterMap]
  have hrows : rows.length = records.length := by simp [rows]
  have hpresent : (rows.filterMap id).length ≤ rows.length := List.length_filterMap_le _ _
  simp only [encodeLabelColumn, hflags, hvalues] at hsize ⊢
  have hstrings : ((rows.filterMap id).flatMap utf8).length < 2 ^ 64 := by
    rw [List.length_cons, List.length_append, length_encodeStrings, ← List.flatMap_def] at hsize
    omega
  have hpresence : Reads (Cur.take (bitmapLen records.length)) (bitmap (rows.map Option.isSome))
      (bitmap (rows.map Option.isSome)) := by
    refine Cur.reads_take ?_
    rw [length_bitmap, List.length_map, hrows, bitmapLen]
  have hbits : presenceFlags (bitmap (rows.map Option.isSome)) records.length =
      .ok (rows.map Option.isSome) := by
    have h := presenceFlags_bitmap (rows.map Option.isSome) []
    rwa [List.append_nil, List.length_map, hrows] at h
  have hplain := plainValues_ok rows []
  simp only [List.nil_append, List.length_nil] at hplain
  have hcount : (rows.filterMap id).length + 1 = (offsets ((rows.filterMap id).map utf8)).length := by
    simp
  rw [decodeLabelColumn, if_neg (by decide), if_pos rfl, readPlainColumn, hpresence.eval_bind,
    Reads.eval_rest_bind,
    (Cur.reads_lift (decodeStrings_encodeStrings (by omega) hstrings)).eval_bind_nil,
    (Cur.reads_lift (capacity_ok hlen (by decide))).eval_bind_nil,
    (Cur.reads_lift hbits).eval_bind_nil, (Cur.reads_lift hplain).eval_bind_nil,
    (Reads.check hcount).eval_bind_nil, Reads.eval_pure]
  rfl

theorem reads_readDictValue {v : String} (h : (utf8 v).length < 2 ^ 32) :
    Reads readDictValue (encodeDictValue v) v :=
  (Cur.reads_u32 h).bind (Cur.reads_string v _)

theorem decodeLabelColumn_dict {name : String} {dict : List String} {codes : List Nat}
    (hlen : records.length < 2 ^ 32) (hcodes : codes.length = records.length)
    (hcode : ∀ c ∈ codes, c < 2 ^ 16) (hdict : dict.length < 2 ^ 32)
    (hvalue : ∀ v ∈ dict, (utf8 v).length < 2 ^ 32) :
    decodeLabelColumn (encodeLabelColumn records ⟨name, .dict dict codes⟩) records.length =
      .ok (labelColumn records ⟨name, .dict dict codes⟩) := by
  have hwords : Reads (Reader.many readDictValue dict.length) (dict.flatMap encodeDictValue) dict :=
    Reads.many (fun v hv => reads_readDictValue (hvalue v hv))
  have hcolumn : Reads (Reader.many Cur.u16 records.length) (codes.flatMap le16) codes := by
    rw [← hcodes]
    exact Reads.many (fun c hc => Cur.reads_u16 (hcode c hc))
  simp only [encodeLabelColumn, decodeLabelColumn, readDictColumn, if_pos]
  rw [(Cur.reads_u32 hdict).eval_bind, hwords.eval_bind,
    (Cur.reads_lift (capacity_ok hlen (by decide))).eval_bind_nil, hcolumn.eval_bind_self,
    Reads.eval_pure]
  rfl

/-- Every label column is read back. -/
theorem decodeLabelColumn_planLabel {name : String} (hlen : records.length < 2 ^ 32)
    (hvalue : ∀ r ∈ records, ∀ v, r.labels[name]? = some v → (utf8 v).length < 2 ^ 32)
    (hsize : (encodeLabelColumn records (planLabel records name)).length < 2 ^ 64) :
    decodeLabelColumn (encodeLabelColumn records (planLabel records name)) records.length =
      .ok (labelColumn records (planLabel records name)) := by
  by_cases hdict : (distinctValues records name).size ≤ dictMax
  · have hwords : (distinctValues records name).toList.length ≤ dictMax := by
      rwa [Std.ExtTreeSet.length_toList]
    rw [planLabel_dict hdict]
    refine decodeLabelColumn_dict hlen (by simp) (fun c hc => ?_) ?_ (fun v hv => ?_)
    · obtain ⟨r, hr, rfl⟩ := List.mem_map.1 hc
      cases hv : r.labels[name]? with
      | none => simp [codeAt]
      | some v =>
          obtain ⟨j, hj, hcode⟩ := codeAt_some hr hv hdict
          obtain ⟨hlt, -⟩ := List.getElem?_eq_some_iff.1 hj
          unfold dictMax at hwords
          rw [hcode]
          omega
    · unfold dictMax at hwords
      omega
    · obtain ⟨r, hr, hv⟩ := mem_distinctValues.1 (Std.ExtTreeSet.mem_toList.1 hv)
      exact hvalue r hr v hv
  · rw [planLabel_plain hdict] at hsize ⊢
    exact decodeLabelColumn_plain hlen hsize

theorem decodeTimestamps_encodeTimestamps (hlen : records.length < 2 ^ 32) :
    decodeTimestamps (encodeTimestamps records) records.length =
      .ok (records.map Record.timestamp) := by
  have hbody : encodeTimestamps records = (records.map Record.timestamp).flatMap leI64 := by
    simp [encodeTimestamps, List.flatMap_map]
  have hsize : (encodeTimestamps records).length = records.length * 8 := by
    simp [encodeTimestamps, List.length_flatMap]
  have hread : Reads (Reader.many Cur.i64 records.length) (encodeTimestamps records)
      (records.map Record.timestamp) := by
    have hmany : Reads (Reader.many Cur.i64 (records.map Record.timestamp).length)
        ((records.map Record.timestamp).flatMap leI64) (records.map Record.timestamp) :=
      Reads.many (fun t _ => Cur.reads_i64 t)
    rwa [List.length_map, ← hbody] at hmany
  rw [decodeTimestamps, Res.check_true (by omega), Res.ok_bind, Res.check_true hsize, Res.ok_bind]
  exact hread.eval_self

section Numerics

variable [FloatBits ν] [LawfulFloatBits ν]

theorem reads_f64 (v : ν) : Reads Cur.f64 (leF64 v) v := by
  have hval : FloatBits.ofBits (BitVec.ofNat 64 (FloatBits.toBits v).toNat) = v := by
    rw [BitVec.ofNat_toNat, BitVec.setWidth_eq, LawfulFloatBits.ofBits_toBits]
  have h := (Cur.reads_u64 (FloatBits.toBits v).isLt).map
    (fun n => (FloatBits.ofBits (BitVec.ofNat 64 n) : ν))
  rwa [hval] at h

theorem decodeNumericColumn_encodeNumericColumn (records : List (Record ν)) (name : String) :
    decodeNumericColumn (encodeNumericColumn records name) records.length =
      .ok (numericColumn records name) := by
  have hpresence : Reads (Cur.take (bitmapLen records.length))
      (bitmap (records.map (fun r => r.numerics[name]?.isSome)))
      (bitmap (records.map (fun r => r.numerics[name]?.isSome))) := by
    refine Cur.reads_take ?_
    rw [length_bitmap, List.length_map, bitmapLen]
  have hbits : presenceFlags (bitmap (records.map (fun r => r.numerics[name]?.isSome)))
      records.length = .ok (records.map (fun r => r.numerics[name]?.isSome)) := by
    have h := presenceFlags_bitmap (records.map (fun r => r.numerics[name]?.isSome)) []
    rwa [List.append_nil, List.length_map] at h
  have hvalues : Reads
      ((records.map (fun r => r.numerics[name]?.isSome)).mapM
        (fun p => if p then Cur.f64 else pure FloatBits.nan))
      ((records.filterMap (fun r => r.numerics[name]?)).flatMap leF64)
      (records.map (fun r => r.numerics[name]?.getD FloatBits.nan)) :=
    Reads.mapM_present records reads_f64
  rw [decodeNumericColumn, encodeNumericColumn, hpresence.eval_bind,
    (Cur.reads_lift hbits).eval_bind_nil, hvalues.eval_bind_self, Reads.eval_pure]
  rfl

end Numerics

/-! ## Texts -/

/-- What the readers rely on: inflating undoes deflating, and a stream is never empty. -/
class LawfulDeflate [Deflate] : Prop where
  inflate_deflate : ∀ bs, Deflate.inflate (Deflate.deflate bs) = some bs
  deflate_ne_nil : ∀ bs, Deflate.deflate bs ≠ []

section Texts

variable [Deflate]

/-- The stored texts. -/
def storedTexts (records : List (Record ν)) : List Bytes := records.map (fun r => (storedRow r).1)

/-- The text index of a file whose stored texts start at `base`. -/
def textIndexAt (records : List (Record ν)) (base : Nat) : TextIndex where
  absBase := base
  present := records.map (fun r => r.text.isSome)
  rel := offsets (storedTexts records)
  compressed := some (records.map (fun r => (storedRow r).2))

/-- The bitmaps and the offset table. -/
def textHeader (records : List (Record ν)) : Bytes :=
  bitmap (records.map (fun r => r.text.isSome)) ++
    (bitmap (records.map (fun r => (storedRow r).2)) ++ (offsets (storedTexts records)).flatMap le64)

theorem encodeTexts_eq (records : List (Record ν)) :
    encodeTexts records =
      le32 textV2Version ++ (textHeader records ++ (storedTexts records).flatten) := rfl

theorem length_storedTexts (records : List (Record ν)) :
    (storedTexts records).length = records.length := by
  simp [storedTexts]

theorem length_textHeader (records : List (Record ν)) :
    (textHeader records).length = bitmapLen records.length * 2 + 8 * (records.length + 1) := by
  simp only [textHeader, List.length_append, length_bitmap, List.length_map, length_flatMap_le64,
    length_offsets, length_storedTexts, bitmapLen]
  omega

omit [Deflate] in
theorem tableLen_ok {count : Nat} (h : count < 2 ^ 32) (overflow : Fault) :
    tableLen count overflow = .ok (8 * (count + 1)) := if_pos (by omega)

theorem decodeTextV2Header_ok (hlen : records.length < 2 ^ 32)
    (hsize : (storedTexts records).flatten.length < 2 ^ 64) (base : Nat) :
    decodeTextV2Header (textHeader records) records.length base
      (storedTexts records).flatten.length = .ok (textIndexAt records base) := by
  have hpresent : presenceFlags (textHeader records) records.length =
      .ok (records.map (fun r => r.text.isSome)) := by
    have h := presenceFlags_bitmap (records.map (fun r => r.text.isSome))
      (bitmap (records.map (fun r => (storedRow r).2)) ++
        (offsets (storedTexts records)).flatMap le64)
    rwa [List.length_map] at h
  have hskip : (textHeader records).drop (bitmapLen records.length) =
      bitmap (records.map (fun r => (storedRow r).2)) ++
        (offsets (storedTexts records)).flatMap le64 := by
    rw [textHeader]
    exact List.drop_left' (by rw [length_bitmap, List.length_map, bitmapLen])
  have hcompressed : presenceFlags ((textHeader records).drop (bitmapLen records.length))
      records.length = .ok (records.map (fun r => (storedRow r).2)) := by
    have h := presenceFlags_bitmap (records.map (fun r => (storedRow r).2))
      ((offsets (storedTexts records)).flatMap le64)
    rwa [List.length_map, ← hskip] at h
  have htable : (textHeader records).drop (bitmapLen records.length * 2) =
      (offsets (storedTexts records)).flatMap le64 := by
    rw [Nat.mul_two, ← List.drop_drop, hskip]
    exact List.drop_left' (by rw [length_bitmap, List.length_map, bitmapLen])
  have hrel : (Reader.many Cur.u64 (records.length + 1)).eval
      ((offsets (storedTexts records)).flatMap le64) = .ok (offsets (storedTexts records)) := by
    have h := reads_offsets hsize
    rw [length_storedTexts] at h
    exact h.eval_self
  -- Only a row with text is compressed.
  have hzip : ((records.map (fun r => (storedRow r).2)).zip
      (records.map (fun r => r.text.isSome))).all (fun cp => !cp.1 || cp.2) = true := by
    rw [List.zip_map', List.all_eq_true]
    intro cp hcp
    obtain ⟨r, -, rfl⟩ := List.mem_map.1 hcp
    cases ht : r.text with
    | none => simp [storedRow, ht]
    | some t => simp
  rw [decodeTextV2Header, tableLen_ok hlen, Res.ok_bind,
    Res.check_true (length_textHeader records), Res.ok_bind, hpresent, Res.ok_bind, hcompressed,
    Res.ok_bind, Res.check_true hzip, Res.ok_bind, htable, hrel, Res.ok_bind, checkTable_offsets,
    Res.ok_bind]
  rfl

theorem decodeTextV2_encodeTexts (hlen : records.length < 2 ^ 32)
    (hsize : (storedTexts records).flatten.length < 2 ^ 64) (bodyAbs : Nat) :
    decodeTextV2 (encodeTexts records) records.length bodyAbs =
      .ok (textIndexAt records (bodyAbs + 4 + (textHeader records).length)) := by
  have hheader : Reads (Cur.take (bitmapLen records.length * 2 + 8 * (records.length + 1)))
      (textHeader records) (textHeader records) := Cur.reads_take (length_textHeader records)
  rw [decodeTextV2, encodeTexts_eq, (Cur.reads_u32 (by decide)).eval_bind,
    (Reads.check rfl).eval_bind_nil, (Cur.reads_lift (tableLen_ok hlen _)).eval_bind_nil,
    hheader.eval_bind, Reads.eval_rest_bind, length_textHeader]
  exact (Cur.reads_lift (decodeTextV2Header_ok hlen hsize _)).eval _

theorem storedText_cases (t : String) :
    storedText t = (Deflate.deflate (utf8 t), true) ∨ storedText t = (utf8 t, false) := by
  unfold storedText
  split
  · simp only
    split
    · exact Or.inl rfl
    · exact Or.inr rfl
  · exact Or.inr rfl

/-- The stored bytes of a text decode to it. -/
theorem decodeRowText_storedRow [LawfulDeflate] {i base : Nat} {r : Record ν}
    (hr : records[i]? = some r) {t : String} (ht : r.text = some t) :
    (textIndexAt records base).decodeRowText i (storedRow r).1 = .ok t := by
  have hflag : (records.map (fun r => (storedRow r).2))[i]? = some (storedRow r).2 := by
    simp [hr]
  have hstored : storedRow r = storedText t := by simp [storedRow, ht]
  rw [TextIndex.decodeRowText]
  simp only [textIndexAt, Res.index_of_getElem? hflag, Res.ok_bind, hstored]
  rcases storedText_cases t with h | h
  · simp only [h, if_pos, LawfulDeflate.inflate_deflate]
    exact Res.utf8_utf8 t _
  · simp only [h, Bool.false_eq_true, if_false]
    exact Res.utf8_utf8 t _

/-- Only the empty text is stored as nothing. -/
theorem eq_empty_of_storedText_nil [LawfulDeflate] {t : String} (h : (storedText t).1 = []) :
    t = "" := by
  rcases storedText_cases t with hs | hs
  · rw [hs] at h
    exact absurd h (LawfulDeflate.deflate_ne_nil _)
  · rw [hs] at h
    exact utf8_inj h

end Texts

/-! ## Reading a row out of the file -/

section Rows

theorem readAt_of_liesAt {file bs : Bytes} {off : Nat} (h : LiesAt file off bs) :
    readAt file off bs.length = .ok bs := by
  rw [readAt, if_pos h.le_length, h.slice]

theorem sliceBytes_of_liesAt {file bs : Bytes} {off : Nat} (h : LiesAt file off bs)
    (hfile : file.length < 2 ^ 63) : sliceBytes file off bs.length = .ok bs := by
  have hle := h.le_length
  rw [sliceBytes, Res.check_true (by omega), Res.ok_bind, Res.check_true hle, Res.ok_bind, h.slice]
  rfl

/-- The range of item `i` between its offsets. -/
theorem table_range {file : Bytes} {base i : Nat} {items : List Bytes} {item : Bytes}
    (h : LiesAt file base items.flatten) (hi : items[i]? = some item) :
    ∃ start, (offsets items)[i]? = some start ∧ (offsets items)[i + 1]? = some (start + item.length) ∧
      LiesAt file (base + start) item := by
  obtain ⟨hlt, rfl⟩ := List.getElem?_eq_some_iff.1 hi
  refine ⟨(items.take i).flatten.length, getElem?_offsets hlt.le, ?_, h.item hlt⟩
  rw [getElem?_offsets hlt, length_flatten_take_succ hlt]

/-- The payloads of `records` stand in the file at `base`. -/
def PayloadsAt (file : Bytes) (records : List (Record ν)) (pi : PayloadIndex) : Prop :=
  pi.rel = offsets (records.map Record.payload) ∧
    LiesAt file pi.absBase (records.map Record.payload).flatten

/-- The texts of `records` stand in the file, or no row has one. -/
def TextsAt [Deflate] (file : Bytes) (records : List (Record ν)) (texts : Option Texts) : Prop :=
  (texts = none ∧ ∀ r ∈ records, r.text = none) ∨
    ∃ base, texts = some (.file (textIndexAt records base)) ∧
      LiesAt file base (storedTexts records).flatten

variable {file : Bytes} {cols : SegmentColumns ν} {i : Nat} {r : Record ν}

theorem payloadAt_file {pi : PayloadIndex} (h : PayloadsAt file records pi)
    (hcols : cols.payloads = .file pi) (hfile : file.length < 2 ^ 63)
    (hr : records[i]? = some r) : cols.payloadAt i (some file) = .ok r.payload := by
  obtain ⟨hrel, hlies⟩ := h
  have hitem : (records.map Record.payload)[i]? = some r.payload := by simp [hr]
  obtain ⟨start, hstart, hstop, hrow⟩ := table_range hlies hitem
  have hle := hrow.le_length
  simp only [SegmentColumns.payloadAt, hcols, hrel, Res.index_of_getElem? hstart, Res.ok_bind,
    Res.index_of_getElem? hstop, Res.sub64_add]
  rw [Res.add64_of_lt (by omega), Res.ok_bind]
  exact readAt_of_liesAt hrow

section Texts

variable [Deflate] [LawfulDeflate]

omit [LawfulDeflate] in
/-- The stored range of a row's text. -/
theorem text_range {base : Nat} (h : LiesAt file base (storedTexts records).flatten)
    (hr : records[i]? = some r) :
    ∃ start, (textIndexAt records base).rel[i]? = some start ∧
      (textIndexAt records base).rel[i + 1]? = some (start + (storedRow r).1.length) ∧
      LiesAt file (base + start) (storedRow r).1 :=
  table_range h (by simp [storedTexts, hr])

theorem textAt_file (h : TextsAt file records cols.texts) (hfile : file.length < 2 ^ 63)
    (hr : records[i]? = some r) : cols.textAt i (some file) = .ok r.text := by
  rcases h with ⟨hnone, hall⟩ | ⟨base, htexts, hlies⟩
  · rw [SegmentColumns.textAt, hnone, hall r (List.mem_of_getElem? hr)]
    rfl
  · have hpresent : (textIndexAt records base).present[i]? = some r.text.isSome := by
      simp [textIndexAt, hr]
    obtain ⟨start, hstart, hstop, hrow⟩ := text_range hlies hr
    have hle := hrow.le_length
    simp only [SegmentColumns.textAt, htexts, Res.index_of_getElem? hpresent, Res.ok_bind]
    cases ht : r.text with
    | none => rfl
    | some t =>
        have hstored : storedRow r = storedText t := by simp [storedRow, ht]
        simp only [Option.isSome_some, Bool.not_true, Bool.false_eq_true, if_false,
          Res.index_of_getElem? hstart, Res.ok_bind, Res.index_of_getElem? hstop, Res.sub64_add]
        by_cases hzero : (storedRow r).1.length = 0
        · -- A present row that stores nothing is the empty text.
          rw [hstored] at hzero
          have hempty := eq_empty_of_storedText_nil (List.length_eq_zero_iff.1 hzero)
          rw [hstored, if_pos hzero, hempty]
          rfl
        · have hadd : Res.add64 (textIndexAt records base).absBase start = .ok (base + start) :=
            Res.add64_of_lt (by show base + start < 2 ^ 64; omega)
          rw [if_neg hzero, hadd, Res.ok_bind, readAt_of_liesAt hrow, Res.ok_bind,
            decodeRowText_storedRow hr ht]
          rfl

theorem fileTextAt_file (h : TextsAt file records cols.texts) (hfile : file.length < 2 ^ 63)
    (hr : records[i]? = some r) : fileTextAt file cols i = .ok r.text := by
  rcases h with ⟨hnone, hall⟩ | ⟨base, htexts, hlies⟩
  · rw [fileTextAt, hnone, hall r (List.mem_of_getElem? hr)]
    rfl
  · have hpresent : (textIndexAt records base).present[i]? = some r.text.isSome := by
      simp [textIndexAt, hr]
    obtain ⟨start, hstart, hstop, hrow⟩ := text_range hlies hr
    have hle := hrow.le_length
    simp only [fileTextAt, htexts, Res.index_of_getElem? hpresent, Res.ok_bind]
    cases ht : r.text with
    | none => rfl
    | some t =>
        have hadd : Res.add64 (textIndexAt records base).absBase start = .ok (base + start) :=
          Res.add64_of_lt (by show base + start < 2 ^ 64; omega)
        simp only [Option.isSome_some, if_true, Res.index_of_getElem? hstart, Res.ok_bind, hadd,
          Res.index_of_getElem? hstop, Res.sub64_add]
        rw [sliceBytes_of_liesAt hrow hfile, Res.ok_bind, decodeRowText_storedRow hr ht]
        rfl

variable [FloatBits ν] [Numeral ν] {pi : PayloadIndex}

/-- A row materialized from its sections is the row. -/
theorem materialize_file (hshows : cols.Shows records) (hpayloads : cols.payloads = .file pi)
    (hpi : PayloadsAt file records pi) (htexts : TextsAt file records cols.texts)
    (hfile : file.length < 2 ^ 63) (hr : records[i]? = some r) :
    cols.materialize i (some file) true = .ok r := by
  rw [SegmentColumns.materialize, payloadAt_file hpi hpayloads hfile hr, Res.ok_bind, if_pos rfl,
    textAt_file htexts hfile hr, Res.ok_bind]
  exact hshows.buildRecord hr _ _

/-- A row cut out of the file in memory is the row. -/
theorem recordAt_file (hshows : cols.Shows records) (hpi : PayloadsAt file records pi)
    (htexts : TextsAt file records cols.texts) (hfile : file.length < 2 ^ 63)
    (hr : records[i]? = some r) : recordAt file cols pi i = .ok r := by
  obtain ⟨hrel, hlies⟩ := hpi
  have hitem : (records.map Record.payload)[i]? = some r.payload := by simp [hr]
  obtain ⟨start, hstart, hstop, hrow⟩ := table_range hlies hitem
  have hle := hrow.le_length
  simp only [recordAt, hrel, Res.index_of_getElem? hstart, Res.ok_bind,
    Res.index_of_getElem? hstop, Res.sub64_add]
  rw [Res.add64_of_lt (by omega), Res.ok_bind, sliceBytes_of_liesAt hrow hfile, Res.ok_bind,
    fileTextAt_file htexts hfile hr, Res.ok_bind]
  exact hshows.buildRecord hr _ _

end Texts

end Rows

end Columns

/-! ## Where the sections are -/

section Layout

variable [Crc32]

/-- The entries of sections written from `off` on. -/
def layout (off : Nat) : List SectionBody → List SectionEntry
  | [] => []
  | s :: secs => sectionEntry off s :: layout (off + (sectionBytes s).length) secs

theorem foldl_pushSection (secs : List SectionBody) (w : SegmentWriter) :
    secs.foldl pushSection w =
      ⟨w.out ++ secs.flatMap sectionBytes, w.dir ++ layout w.out.length secs⟩ := by
  induction secs generalizing w with
  | nil => simp [layout]
  | cons s secs ih =>
      rw [List.foldl_cons, ih, pushSection, List.flatMap_cons, layout]
      simp only [List.append_assoc, List.length_append, List.singleton_append]

theorem layout_append (off : Nat) (a b : List SectionBody) :
    layout off (a ++ b) = layout off a ++ layout (off + (a.flatMap sectionBytes).length) b := by
  induction a generalizing off with
  | nil => simp [layout]
  | cons s a ih =>
      rw [List.cons_append, layout, layout, ih, List.flatMap_cons, List.length_append,
        List.cons_append, Nat.add_assoc]

/-- Each section has an entry that points at it. -/
theorem exists_mem_layout {file : Bytes} {s : SectionBody} :
    ∀ {secs : List SectionBody} {off : Nat}, LiesAt file off (secs.flatMap sectionBytes) →
      s ∈ secs → ∃ o, sectionEntry o s ∈ layout off secs ∧ LiesAt file o (sectionBytes s) := by
  intro secs
  induction secs with
  | nil => exact fun _ hs => absurd hs List.not_mem_nil
  | cons t secs ih =>
      intro off h hs
      rw [List.flatMap_cons] at h
      rcases List.mem_cons.1 hs with rfl | hs
      · exact ⟨off, by simp [layout], h.left⟩
      · obtain ⟨o, hmem, hlies⟩ := ih h.right hs
        exact ⟨o, by simp [layout, hmem], hlies⟩

variable {file : Bytes} {off : Nat} {s : SectionBody}

theorem length_sectionBytes (s : SectionBody) :
    (sectionBytes s).length = 4 + s.body.length := by
  rw [sectionBytes, List.length_append, length_le32]

theorem LiesAt.crcWord (h : LiesAt file off (sectionBytes s)) :
    LiesAt file off (le32 (Crc32.hash s.body).toNat) := h.left

theorem LiesAt.body (h : LiesAt file off (sectionBytes s)) : LiesAt file (off + 4) s.body := by
  have hright := h.right
  rwa [length_le32] at hright

theorem leNat_crc (bs : Bytes) :
    leNat (le32 (Crc32.hash bs).toNat) = (Crc32.hash bs).toNat :=
  leNat_leBytes_of_lt (Crc32.hash bs).toNat_lt

theorem toNat_offset (h : LiesAt file off (sectionBytes s)) (hfile : file.length < 2 ^ 63) :
    (sectionEntry off s).offset.toNat = off ∧ (sectionEntry off s).len.toNat = s.body.length := by
  have hle := h.le_length
  rw [length_sectionBytes] at hle
  have hoff : off < 2 ^ 64 := by omega
  have hlen : s.body.length < 2 ^ 64 := by omega
  exact ⟨UInt64.toNat_ofNat_of_lt' hoff, UInt64.toNat_ofNat_of_lt' hlen⟩

/-- The whole-file reader finds a section's body. -/
theorem verifiedSlice_of_liesAt (h : LiesAt file off (sectionBytes s))
    (hfile : file.length < 2 ^ 63) : verifiedSlice file (sectionEntry off s) = .ok s.body := by
  obtain ⟨hoff, hlen⟩ := toNat_offset h hfile
  have hcrc := sliceBytes_of_liesAt (LiesAt.crcWord h) hfile
  have hbody := sliceBytes_of_liesAt (LiesAt.body h) hfile
  have hle := h.le_length
  rw [length_sectionBytes] at hle
  rw [length_le32] at hcrc
  rw [verifiedSlice, hoff, hlen, hcrc, Res.ok_bind, Res.add64_of_lt (by omega), Res.ok_bind, hbody,
    Res.ok_bind, Res.check_true ⟨leNat_crc s.body, rfl⟩]
  rfl

/-- The section reader finds a section's body. -/
theorem readVerifiedBody_of_liesAt (h : LiesAt file off (sectionBytes s))
    (hfile : file.length < 2 ^ 63) (kind : UInt8) :
    readVerifiedBody file ⟨off, s.body.length, Crc32.hash s.body⟩ kind = .ok s.body := by
  have hle := h.le_length
  have hread := readAt_of_liesAt h
  rw [length_sectionBytes] at hle hread
  have htake : (sectionBytes s).take 4 = le32 (Crc32.hash s.body).toNat :=
    List.take_left' (length_le32 _)
  have hdrop : (sectionBytes s).drop 4 = s.body := List.drop_left' (length_le32 _)
  rw [readVerifiedBody, Res.check_true (by show 4 + s.body.length < 2 ^ 64; omega), Res.ok_bind,
    hread, Res.ok_bind, htake, hdrop, Res.check_true ⟨leNat_crc s.body, rfl⟩]
  rfl

end Layout

/-! ## The file -/

/-- Deserializing undoes serializing. -/
class LawfulRmp (α : Type) [Rmp α] : Prop where
  fromSlice_toVec : ∀ a : α, Rmp.fromSlice (Rmp.toVec a) = .ok a

theorem decodeRmp_toVec {α : Type} [Rmp α] [LawfulRmp α] (what : String) (a : α) :
    decodeRmp what (Rmp.toVec a) = .ok a := by
  rw [decodeRmp, LawfulRmp.fromSlice_toVec]

/-- Rows whose counts and string lengths fit their fields. -/
structure Storable [Unicode] {ν : Type} (records : List (Record ν)) : Prop where
  rows_lt : records.length < 2 ^ 32
  label_lt : ∀ r ∈ records, ∀ n v : String, r.labels[n]? = some v → (utf8 v).length < 2 ^ 32
  token_lt : ∀ t ∈ (TokenIndex.build records).tokens, (utf8 t).length < 2 ^ 32
  postings_lt : (TokenIndex.postingsBlob (TokenIndex.builtLists records)).length < 2 ^ 32

theorem wordAt_of_liesAt {file : Bytes} {off w n : Nat} (h : LiesAt file off (leBytes w n))
    (hn : n < 256 ^ w) : wordAt file off w = n := by
  have hslice := h.slice
  rw [length_leBytes] at hslice
  rw [wordAt, hslice, leNat_leBytes_of_lt hn]

section File

variable [Unicode] {ν : Type} [FloatBits ν] [Numeral ν] [Deflate] [Rmp (List (BlockMeta ν))]

def labelSection (records : List (Record ν)) (n : String) : SectionBody :=
  ⟨kLabel, n, encodeLabelColumn records (planLabel records n)⟩

def numericSection (records : List (Record ν)) (n : String) : SectionBody :=
  ⟨kNumeric, n, encodeNumericColumn records n⟩

/-- The text sections as a list. -/
def textSecs (records : List (Record ν)) : List SectionBody :=
  if records.any (fun r => r.text.isSome) then
    [⟨kText, "", textPoison⟩, ⟨kText, textV2Name, encodeTexts records⟩,
      ⟨kTokens, "", TokenIndex.encodeEager (TokenIndex.build records).tokens
        (TokenIndex.builtLists records)⟩]
  else
    []

/-- The sections as a list. -/
def secs (records : List (Record ν)) : List SectionBody :=
  [⟨kKeys, "", encodeStrings (records.map (fun r => utf8 r.key))⟩,
      ⟨kTs, "", encodeTimestamps records⟩] ++
    ((labelNames records).toList.map (labelSection records) ++
    ((numericNames records).toList.map (numericSection records) ++
    ([⟨kPayload, "", encodePayloads records⟩] ++
    (textSecs records ++
      [⟨kBlocks, "", Rmp.toVec (buildBlocks records (planLabels records))⟩]))))

theorem sectionsOf_eq (records : List (Record ν)) : sectionsOf records = .ok (secs records) := by
  have htexts : textSections records = .ok (textSecs records) := by
    unfold textSections textSecs
    split
    · rfl
    · rfl
  rw [sectionsOf, htexts, Res.ok_bind, planLabels, List.map_map]
  rfl

variable [Crc32] [Rmp SectionDir]

/-- The directory of the file. -/
def dirOf (records : List (Record ν)) : SectionDir :=
  ⟨UInt64.ofNat records.length, layout 8 (secs records)⟩

/-- Where the footer starts. -/
def footerOffOf (records : List (Record ν)) : Nat :=
  8 + ((secs records).flatMap sectionBytes).length

/-- The file of some rows. -/
def fileOf (records : List (Record ν)) : Bytes :=
  (le32 magicWord ++ le32 versionV2) ++ (secs records).flatMap sectionBytes ++
    footerBytes (dirOf records) (footerOffOf records)

theorem encodeV2_eq (records : List (Record ν)) : encodeV2 records = .ok (fileOf records) := by
  rw [encodeV2, sectionsOf_eq, Res.ok_bind]
  simp only [foldl_pushSection, List.length_append, length_le32, List.nil_append]
  rfl

theorem liesAt_sections (records : List (Record ν)) :
    LiesAt (fileOf records) 8 ((secs records).flatMap sectionBytes) :=
  ⟨_, _, rfl, rfl⟩

theorem liesAt_footer (records : List (Record ν)) :
    LiesAt (fileOf records) (footerOffOf records)
      (footerBytes (dirOf records) (footerOffOf records)) :=
  ⟨(le32 magicWord ++ le32 versionV2) ++ (secs records).flatMap sectionBytes, [],
    by rw [List.append_nil]; rfl, by rw [List.length_append]; rfl⟩

theorem liesAt_header (records : List (Record ν)) :
    LiesAt (fileOf records) 0 (le32 magicWord ++ le32 versionV2) :=
  ⟨[], (secs records).flatMap sectionBytes ++ footerBytes (dirOf records) (footerOffOf records),
    by rw [fileOf, List.nil_append, List.append_assoc], rfl⟩

/-- The parts of the footer and where they stand. -/
theorem footer_parts (records : List (Record ν)) :
    (fileOf records).length = footerOffOf records + (Rmp.toVec (dirOf records)).length + 16 ∧
      LiesAt (fileOf records) (footerOffOf records) (Rmp.toVec (dirOf records)) ∧
      LiesAt (fileOf records) ((fileOf records).length - 16)
        (le64 (footerOffOf records) ++ (le32 (Crc32.hash (Rmp.toVec (dirOf records))).toNat ++
          le32 magicWord)) := by
  have h := liesAt_footer records
  have hlen : (fileOf records).length =
      footerOffOf records + (Rmp.toVec (dirOf records)).length + 16 := by
    simp only [fileOf, footerBytes, footerOffOf, List.length_append, length_le32, length_le64]
    omega
  rw [footerBytes] at h
  have hright := h.right
  refine ⟨hlen, h.left, ?_⟩
  rwa [show (fileOf records).length - 16 =
    footerOffOf records + (Rmp.toVec (dirOf records)).length by omega]

end File

end Girder
