import Girder.RoundTrip

/-!
# Loading — the whole-file reader returns the rows that were written

`read_all_records` walks the directory of a whole file.  Over a file written from some rows it finds
every section where the writer put it, decodes it to the column built from the rows, and cuts payloads
and texts out at the right offsets (`readAllRecords_fileOf`).
-/

namespace Girder

open Lib

section Loading

variable [Unicode] {ν : Type} [FloatBits ν] [Numeral ν] [Deflate] [Rmp (List (BlockMeta ν))]
  [Crc32] [Rmp SectionDir]

variable {records : List (Record ν)}

/-! ## Header and footer -/

theorem footerOff_lt (hfile : (fileOf records).length < 2 ^ 63) :
    footerOffOf records < 2 ^ 64 := by
  have h := (footer_parts records).1
  omega

omit [Unicode] [FloatBits ν] [Numeral ν] [Deflate] [Rmp (List (BlockMeta ν))] [Crc32]
  [Rmp SectionDir] in
/-- The three words of a trailer. -/
theorem trailer_words {file : Bytes} {base off : Nat} {crc : UInt32}
    (h : LiesAt file base (le64 off ++ (le32 crc.toNat ++ le32 magicWord))) (hoff : off < 2 ^ 64) :
    wordAt file base 8 = off ∧ wordAt file (base + 8) 4 = crc.toNat ∧
      wordAt file (base + 12) 4 = magicWord := by
  have hcrc := h.right
  rw [length_le64] at hcrc
  have hmagic := hcrc.right
  rw [length_le32, Nat.add_assoc] at hmagic
  refine ⟨wordAt_of_liesAt h.left hoff, ?_, ?_⟩
  · exact wordAt_of_liesAt hcrc.left crc.toNat_lt
  · exact wordAt_of_liesAt hmagic (by decide)

/-- The directory's bytes lie between the sections and the trailer. -/
theorem dir_slice (records : List (Record ν)) :
    ((fileOf records).drop (footerOffOf records)).take
      ((fileOf records).length - 16 - footerOffOf records) = Rmp.toVec (dirOf records) := by
  obtain ⟨hlen, hdir, -⟩ := footer_parts records
  have hsize : (fileOf records).length - 16 - footerOffOf records =
      (Rmp.toVec (dirOf records)).length := by omega
  rw [hsize, hdir.slice]

/-- The two words at the start of the file. -/
theorem header_words (records : List (Record ν)) :
    wordAt (fileOf records) 0 4 = magicWord ∧ wordAt (fileOf records) 4 4 = versionV2 := by
  have h := liesAt_header records
  have hright := h.right
  rw [length_le32, Nat.zero_add] at hright
  exact ⟨wordAt_of_liesAt h.left (by decide), wordAt_of_liesAt hright (by decide)⟩

theorem header_fileOf (records : List (Record ν)) : header (fileOf records) = .ok versionV2 := by
  obtain ⟨hmagic, hversion⟩ := header_words records
  have hle := (liesAt_header records).le_length
  rw [List.length_append, length_le32, length_le32] at hle
  rw [header, Res.check_true (by omega), Res.ok_bind, Res.check_true hmagic, Res.ok_bind, hversion]
  rfl

variable [LawfulRmp SectionDir]

theorem decodeFooter_fileOf (hfile : (fileOf records).length < 2 ^ 63) :
    decodeFooter (fileOf records) = .ok (dirOf records) := by
  obtain ⟨hlen, -, htail⟩ := footer_parts records
  obtain ⟨hoff, hcrc, hmagic⟩ := trailer_words htail (footerOff_lt hfile)
  have h8 : 8 ≤ footerOffOf records := Nat.le_add_right _ _
  have hcrcAt : (fileOf records).length - 16 + 8 = (fileOf records).length - 8 := by omega
  have hmagicAt : (fileOf records).length - 16 + 12 = (fileOf records).length - 4 := by omega
  rw [hcrcAt] at hcrc
  rw [hmagicAt] at hmagic
  rw [decodeFooter]
  simp only [hoff, hcrc, hmagic, dir_slice]
  rw [Res.check_true (by omega), Res.ok_bind, Res.check_true trivial, Res.ok_bind,
    Res.check_true (by omega), Res.ok_bind, Res.check_true trivial, Res.ok_bind, decodeRmp_toVec]

end Loading

/-! ## The whole-file reader -/

section Bodies

variable {ν : Type} [FloatBits ν] [Rmp (List (BlockMeta ν))]

variable {records : List (Record ν)} {file : Bytes} {off : Nat} {st : Decoding ν}

theorem decodeSection_of_liesAt [Crc32] {s : SectionBody} (h : LiesAt file off (sectionBytes s))
    (hfile : file.length < 2 ^ 63) (count : Nat) :
    decodeSection file count st (sectionEntry off s) =
      decodeBody count st s.kind s.name off s.body := by
  rw [decodeSection, verifiedSlice_of_liesAt h hfile, Res.ok_bind, (toNat_offset h hfile).1]
  rfl

omit [FloatBits ν] [Rmp (List (BlockMeta ν))] in
theorem decodeStrings_keys (hrows : records.length < 2 ^ 32)
    (hsize : (encodeStrings (records.map (fun r => utf8 r.key))).length < 2 ^ 63) :
    decodeStrings (encodeStrings (records.map (fun r => utf8 r.key))) =
      .ok ((keysSection records).blob, (keysSection records).offsets) := by
  have hkeys : records.map (fun r => utf8 r.key) = (records.map Record.key).map utf8 := by simp
  have hblob : ((records.map Record.key).flatMap utf8).length < 2 ^ 64 := by
    rw [hkeys, length_encodeStrings, ← List.flatMap_def] at hsize
    omega
  have hdecode := decodeStrings_encodeStrings (by simpa using hrows) hblob
  rwa [← hkeys] at hdecode

theorem decodeBody_keys (hrows : records.length < 2 ^ 32)
    (hsize : (encodeStrings (records.map (fun r => utf8 r.key))).length < 2 ^ 63) :
    decodeBody records.length st kKeys "" off (encodeStrings (records.map (fun r => utf8 r.key))) =
      .ok { st with keys := some (keysSection records) } := by
  show (decodeStrings _ >>= _) = _
  rw [decodeStrings_keys hrows hsize]
  rfl

theorem decodeBody_timestamps (hrows : records.length < 2 ^ 32) :
    decodeBody records.length st kTs "" off (encodeTimestamps records) =
      .ok { st with timestamps := some (records.map Record.timestamp) } := by
  show (decodeTimestamps _ _ >>= _) = _
  rw [decodeTimestamps_encodeTimestamps hrows]
  rfl

omit [FloatBits ν] [Rmp (List (BlockMeta ν))] in
theorem decodeLabelColumn_section [Unicode] (hs : Storable records) {n : String}
    (hsize : (encodeLabelColumn records (planLabel records n)).length < 2 ^ 63) :
    decodeLabelColumn (encodeLabelColumn records (planLabel records n)) records.length =
      .ok (labelColumn records (planLabel records n)) :=
  decodeLabelColumn_planLabel hs.rows_lt (fun r hr v hv => hs.label_lt r hr n v hv) (by omega)

theorem decodeBody_label [Unicode] (hs : Storable records) {n : String}
    (hsize : (encodeLabelColumn records (planLabel records n)).length < 2 ^ 63) :
    decodeBody records.length st kLabel n off (encodeLabelColumn records (planLabel records n)) =
      .ok { st with
        labels := st.labels.insert n (labelColumn records (planLabel records n)) } := by
  show (decodeLabelColumn _ _ >>= _) = _
  rw [decodeLabelColumn_section hs hsize]
  rfl

theorem decodeBody_numeric [LawfulFloatBits ν] (n : String) :
    decodeBody records.length st kNumeric n off (encodeNumericColumn records n) =
      .ok { st with numerics := st.numerics.insert n (numericColumn records n) } := by
  show (decodeNumericColumn _ _ >>= _) = _
  rw [decodeNumericColumn_encodeNumericColumn]
  rfl

/-- The payload table of a section whose checksum is at `off`. -/
def payloadIndexAt (records : List (Record ν)) (off : Nat) : PayloadIndex :=
  ⟨off + 4 + 8 * (records.length + 1), offsets (records.map Record.payload)⟩

omit [FloatBits ν] [Rmp (List (BlockMeta ν))] in
theorem reads_payloadTable (hsize : (encodePayloads records).length < 2 ^ 63) :
    Reads (Reader.many Cur.u64 (records.length + 1))
      ((offsets (records.map Record.payload)).flatMap le64)
      (offsets (records.map Record.payload)) := by
  have hflat : (records.map Record.payload).flatten.length < 2 ^ 64 := by
    rw [encodePayloads, List.length_append] at hsize
    omega
  have h := reads_offsets hflat
  rwa [List.length_map] at h

theorem decodeBody_payload (hrows : records.length < 2 ^ 32)
    (hsize : (encodePayloads records).length < 2 ^ 63) :
    decodeBody records.length st kPayload "" off (encodePayloads records) =
      .ok { st with payloads := some (payloadIndexAt records off) } := by
  have hcap : Res.capacity (records.length + 1) 8 = .ok () := Res.check_true (by omega)
  show (Res.capacity _ _ >>= _) = _
  rw [hcap, Res.ok_bind, encodePayloads, (reads_payloadTable hsize).eval]
  rfl

theorem decodeBody_blocks [LawfulRmp (List (BlockMeta ν))] (blocks : List (BlockMeta ν))
    (count : Nat) :
    decodeBody count st kBlocks "" off (Rmp.toVec blocks) =
      .ok { st with blocks := some blocks } := by
  show (decodeRmp "blocks" _ >>= _) = _
  rw [decodeRmp_toVec]
  rfl

omit [FloatBits ν] [Rmp (List (BlockMeta ν))] in
theorem storedTexts_lt [Deflate] (hsize : (encodeTexts records).length < 2 ^ 63) :
    (storedTexts records).flatten.length < 2 ^ 64 := by
  rw [encodeTexts_eq, List.length_append, List.length_append] at hsize
  omega

theorem decodeBody_text [Deflate] (hrows : records.length < 2 ^ 32)
    (hsize : (encodeTexts records).length < 2 ^ 63) :
    decodeBody records.length st kText textV2Name off (encodeTexts records) =
      .ok { st with
        texts := some (textIndexAt records (off + 4 + 4 + (textHeader records).length)) } := by
  show (decodeTextV2 _ _ _ >>= _) = _
  rw [decodeTextV2_encodeTexts hrows (storedTexts_lt hsize)]
  rfl

omit [FloatBits ν] [Rmp (List (BlockMeta ν))] in
theorem decodeTokens_section [Unicode] (hs : Storable records) :
    TokenIndex.decodeTokens
        (TokenIndex.encodeEager (TokenIndex.build records).tokens (TokenIndex.builtLists records))
        records.length =
      .ok (TokenIndex.loaded (TokenIndex.build records).tokens
        (TokenIndex.builtLists records)) :=
  TokenIndex.decodeTokens_encodeEager
    (TokenIndex.fits_build hs.rows_lt hs.token_lt hs.postings_lt)

theorem decodeBody_tokens [Unicode] (hs : Storable records) :
    decodeBody records.length st kTokens "" off
        (TokenIndex.encodeEager (TokenIndex.build records).tokens
          (TokenIndex.builtLists records)) =
      .ok { st with tokens := some (TokenIndex.loaded (TokenIndex.build records).tokens
        (TokenIndex.builtLists records)) } := by
  show (TokenIndex.decodeTokens _ _ >>= _) = _
  rw [decodeTokens_section hs]
  rfl

end Bodies

section Whole

variable [Unicode] {ν : Type} [FloatBits ν] [LawfulFloatBits ν] [Numeral ν] [Deflate]
  [Rmp (List (BlockMeta ν))] [LawfulRmp (List (BlockMeta ν))] [Crc32]

variable {records : List (Record ν)} {file : Bytes} {off : Nat}

omit [Unicode] [Deflate] in
/-- A section is shorter than its file. -/
theorem LiesAt.body_lt {s : SectionBody} (h : LiesAt file off (sectionBytes s))
    (hfile : file.length < 2 ^ 63) : s.body.length < 2 ^ 63 := by
  have hle := (LiesAt.body h).le_length
  omega

omit [LawfulFloatBits ν] [Numeral ν] [Deflate] [LawfulRmp (List (BlockMeta ν))] in
/-- The run of label sections. -/
theorem foldlM_labels (hs : Storable records) (hfile : file.length < 2 ^ 63) :
    ∀ (names : List String) (off : Nat) (st : Decoding ν),
      LiesAt file off ((names.map (labelSection records)).flatMap sectionBytes) →
      (layout off (names.map (labelSection records))).foldlM
          (decodeSection file records.length) st =
        .ok { st with
          labels := (names.map (fun n => (n, labelColumn records (planLabel records n)))).foldl
            (OrdMap.update (fun _ v => v)) st.labels } := by
  intro names
  induction names with
  | nil => exact fun _ _ _ => rfl
  | cons n names ih =>
      intro off st h
      rw [List.map_cons, List.flatMap_cons] at h
      rw [List.map_cons, layout, List.foldlM_cons, decodeSection_of_liesAt h.left hfile]
      show (decodeBody _ _ kLabel n off (encodeLabelColumn records (planLabel records n)) >>= _) = _
      rw [decodeBody_label hs (LiesAt.body_lt h.left hfile), Res.ok_bind, ih _ _ h.right]
      rfl

omit [Unicode] [Numeral ν] [Deflate] [LawfulRmp (List (BlockMeta ν))] in
/-- The run of numeric sections. -/
theorem foldlM_numerics (hfile : file.length < 2 ^ 63) :
    ∀ (names : List String) (off : Nat) (st : Decoding ν),
      LiesAt file off ((names.map (numericSection records)).flatMap sectionBytes) →
      (layout off (names.map (numericSection records))).foldlM
          (decodeSection file records.length) st =
        .ok { st with
          numerics := (names.map (fun n => (n, numericColumn records n))).foldl
            (OrdMap.update (fun _ v => v)) st.numerics } := by
  intro names
  induction names with
  | nil => exact fun _ _ _ => rfl
  | cons n names ih =>
      intro off st h
      rw [List.map_cons, List.flatMap_cons] at h
      rw [List.map_cons, layout, List.foldlM_cons, decodeSection_of_liesAt h.left hfile]
      show (decodeBody _ _ kNumeric n off (encodeNumericColumn records n) >>= _) = _
      rw [decodeBody_numeric, Res.ok_bind, ih _ _ h.right]
      rfl

omit [Unicode] [Deflate] [LawfulFloatBits ν] [Numeral ν] [LawfulRmp (List (BlockMeta ν))] in
/-- One section of the walk. -/
theorem foldlM_section {s : SectionBody} (hfile : file.length < 2 ^ 63) (rest : List SectionBody)
    {st st' : Decoding ν} (h : LiesAt file off ((s :: rest).flatMap sectionBytes))
    (hbody : s.body.length < 2 ^ 63 →
      decodeBody records.length st s.kind s.name off s.body = .ok st') :
    (layout off (s :: rest)).foldlM (decodeSection file records.length) st =
      (layout (off + (sectionBytes s).length) rest).foldlM
        (decodeSection file records.length) st' := by
  rw [List.flatMap_cons] at h
  rw [layout, List.foldlM_cons, decodeSection_of_liesAt h.left hfile,
    hbody (LiesAt.body_lt h.left hfile), Res.ok_bind]

omit [Unicode] [LawfulFloatBits ν] [Numeral ν] [Rmp (List (BlockMeta ν))]
  [LawfulRmp (List (BlockMeta ν))] [FloatBits ν] in
/-- The stored texts inside their section. -/
theorem textsAt_section
    (h : LiesAt file off (sectionBytes ⟨kText, textV2Name, encodeTexts records⟩)) :
    LiesAt file (off + 4 + 4 + (textHeader records).length) (storedTexts records).flatten := by
  have hbody := LiesAt.body h
  rw [encodeTexts_eq] at hbody
  have hright := hbody.right
  rw [length_le32] at hright
  exact hright.right

omit [LawfulFloatBits ν] [Numeral ν] [LawfulRmp (List (BlockMeta ν))] in
/-- The text sections leave a text index that points at the stored texts. -/
theorem foldlM_texts (hs : Storable records) (hfile : file.length < 2 ^ 63)
    (h : LiesAt file off ((textSecs records).flatMap sectionBytes)) :
    ∃ texts pending tokens,
      (∀ st : Decoding ν, st.texts = none → st.textV1Pending = none → st.tokens = none →
        (layout off (textSecs records)).foldlM (decodeSection file records.length) st =
          .ok { st with texts := texts, textV1Pending := pending, tokens := tokens }) ∧
      (∀ count, resolveTexts texts pending count = .ok texts) ∧
      TextsAt file records (texts.map .file) := by
  unfold textSecs at h ⊢
  by_cases hany : records.any (fun r => r.text.isSome) = true
  · rw [if_pos hany] at h ⊢
    have hpoison := h
    rw [List.flatMap_cons] at hpoison
    have htext := hpoison.right
    rw [List.flatMap_cons] at htext
    refine ⟨some (textIndexAt records (off + (sectionBytes ⟨kText, "", textPoison⟩).length + 4 + 4 +
        (textHeader records).length)), some (textPoison, off),
      some (TokenIndex.loaded (TokenIndex.build records).tokens (TokenIndex.builtLists records)),
      fun st _ _ _ => ?_, fun _ => rfl, Or.inr ⟨_, rfl, textsAt_section htext.left⟩⟩
    rw [foldlM_section hfile _ h (fun _ => rfl),
      foldlM_section hfile _ hpoison.right (fun hsize => decodeBody_text hs.rows_lt hsize),
      foldlM_section hfile _ htext.right (fun _ => decodeBody_tokens hs)]
    rfl
  · rw [if_neg hany]
    refine ⟨none, none, none, fun st htexts hpending htokens => ?_, fun _ => rfl,
      Or.inl ⟨rfl, fun r hr => ?_⟩⟩
    · rw [← htexts, ← hpending, ← htokens]
      rfl
    · have hall : ∀ r ∈ records, r.text.isSome = false := by simpa using hany
      simpa using hall r hr

/-- Walking the directory of a written file. -/
theorem foldlM_secs (hs : Storable records) (hfile : file.length < 2 ^ 63)
    (h : LiesAt file off ((secs records).flatMap sectionBytes)) :
    ∃ st : Decoding ν, ∃ poff,
      (layout off (secs records)).foldlM (decodeSection file records.length) {} = .ok st ∧
      st.keys = some (keysSection records) ∧
      st.timestamps = some (records.map Record.timestamp) ∧
      st.labels = labelColumns records ∧ st.numerics = numericColumns records ∧
      st.blocks = some (buildBlocks records (planLabels records)) ∧
      st.payloads = some (payloadIndexAt records poff) ∧
      LiesAt file poff (sectionBytes ⟨kPayload, "", encodePayloads records⟩) ∧
      (∀ count, resolveTexts st.texts st.textV1Pending count = .ok st.texts) ∧
      TextsAt file records (st.texts.map .file) := by
  unfold secs at h ⊢
  -- Split the file and the directory into the runs of sections.
  simp only [List.flatMap_append] at h
  have hlabels := h.right.left
  have hnumerics := h.right.right.left
  have hpayload := h.right.right.right.left
  have htexts := h.right.right.right.right.left
  have hblocks := h.right.right.right.right.right
  simp only [layout_append, List.foldlM_append]
  have hkeys2 := h.left
  rw [List.flatMap_cons] at hkeys2
  have hts := hkeys2.right
  rw [foldlM_section hfile _ h.left (fun hsize => decodeBody_keys hs.rows_lt hsize),
    foldlM_section hfile _ hts (fun _ => decodeBody_timestamps hs.rows_lt), layout]
  simp only [List.foldlM_nil, pure_bind]
  rw [foldlM_labels hs hfile _ _ _ hlabels, Res.ok_bind, foldlM_numerics hfile _ _ _ hnumerics,
    Res.ok_bind, foldlM_section hfile _ hpayload
      (fun hsize => decodeBody_payload hs.rows_lt hsize), layout]
  simp only [List.foldlM_nil, pure_bind]
  obtain ⟨texts, pending, tokens, hfold, hresolve, htextsAt⟩ := foldlM_texts hs hfile htexts
  rw [hfold _ rfl rfl rfl, Res.ok_bind, foldlM_section hfile _ hblocks
    (fun _ => decodeBody_blocks _ _)]
  refine ⟨_, _, rfl, rfl, rfl, ?_, rfl, rfl, rfl, ?_, hresolve, htextsAt⟩
  · rw [labelColumns_eq]
    rfl
  · simpa using hpayload

variable [Rmp SectionDir] [LawfulRmp SectionDir]

omit [Unicode] [FloatBits ν] [LawfulFloatBits ν] [Numeral ν] [Deflate] [Rmp (List (BlockMeta ν))]
  [LawfulRmp (List (BlockMeta ν))] [Rmp SectionDir] [LawfulRmp SectionDir] in
/-- The payloads inside their section. -/
theorem payloadsAt_section
    (h : LiesAt file off (sectionBytes ⟨kPayload, "", encodePayloads records⟩)) :
    PayloadsAt file records (payloadIndexAt records off) := by
  have hbody := LiesAt.body h
  rw [encodePayloads] at hbody
  have hright := hbody.right
  rw [length_flatMap_le64, length_offsets, List.length_map] at hright
  exact ⟨rfl, hright⟩

omit [LawfulFloatBits ν] [LawfulRmp (List (BlockMeta ν))] [Rmp SectionDir] [LawfulRmp SectionDir] in
theorem toNat_count (hs : Storable records) : (dirOf records).count.toNat = records.length := by
  have hrows := hs.rows_lt
  have hlt : records.length < 2 ^ 64 := by omega
  exact UInt64.toNat_ofNat_of_lt' hlt

/-- The columns of a whole file are those of its rows. -/
theorem decodeV2Columns_fileOf (hs : Storable records) (hfile : (fileOf records).length < 2 ^ 63) :
    ∃ cols : SegmentColumns ν, ∃ pi, decodeV2Columns (fileOf records) = .ok cols ∧
      cols.Shows records ∧ cols.payloads = .file pi ∧ PayloadsAt (fileOf records) records pi ∧
      TextsAt (fileOf records) records cols.texts := by
  obtain ⟨st, poff, hfold, hkeys, hts, hlabels, hnumerics, hblocks, hpayloads, hlies, hresolve,
    htexts⟩ := foldlM_secs hs hfile (liesAt_sections records)
  refine ⟨
    { count := records.length
      keys := keysSection records
      timestamps := records.map Record.timestamp
      blocks := buildBlocks records (planLabels records)
      labels := st.labels
      numerics := st.numerics
      payloads := .file (payloadIndexAt records poff)
      texts := st.texts.map .file
      tokens := st.tokens },
    payloadIndexAt records poff, ?_, ⟨rfl, rfl, rfl, hlabels, hnumerics, rfl⟩, rfl,
    payloadsAt_section hlies, htexts⟩
  have hcount : (keysSection records).offsets.length = records.length + 1 ∧
      (records.map Record.timestamp).length = records.length := by
    simp [keysSection, length_offsets]
  rw [decodeV2Columns, decodeFooter_fileOf hfile, Res.ok_bind]
  simp only [toNat_count hs]
  show ((layout 8 (secs records)).foldlM _ _ >>= _) = _
  rw [hfold, Res.ok_bind, hresolve, Res.ok_bind, hkeys, hts, hpayloads, hblocks]
  show (Res.check _ _ >>= _) = _
  rw [Res.check_true hcount]
  rfl

variable [LawfulDeflate] [Rmp (List (Record ν))]

/-- The whole-file reader returns the rows. -/
theorem readAllRecords_fileOf (hs : Storable records)
    (hfile : (fileOf records).length < 2 ^ 63) : readAllRecords (fileOf records) = .ok records := by
  obtain ⟨cols, pi, hcols, hshows, hpayloads, hpi, htexts⟩ := decodeV2Columns_fileOf hs hfile
  rw [readAllRecords, header_fileOf, Res.ok_bind, if_neg (by decide), if_pos rfl, hcols,
    Res.ok_bind, hpayloads, hshows.count_eq]
  exact mapM_range_ok fun i r hr => recordAt_file hshows hpi htexts hfile hr

end Whole

end Girder
