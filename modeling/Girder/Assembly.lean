import Mathlib.Data.Countable.Basic
import Mathlib.Logic.Equiv.List
import Girder.Loading

/-!
# Assembly — columns put together section by section

A scan does not decode the whole file: it reads the footer into a map from kind and name to a section,
and then loads the sections it needs.  The writer never uses a kind and name twice
(`slots_nodup`), so the map finds every section where the writer put it (`get?_segDirOf`), and the
columns that come out are those of the rows.
-/

namespace Girder

open Lib

/-! ## The directory as a map -/

/-- The kind and name a section is filed under. -/
def SectionEntry.slot (e : SectionEntry) : UInt8 × String := (e.kind, e.name)

def SectionBody.slot (s : SectionBody) : UInt8 × String := (s.kind, s.name)

/-- The entry as the map holds it. -/
def SectionEntry.filed (e : SectionEntry) : (UInt8 × String) × DirEntry :=
  (e.slot, ⟨e.offset.toNat, e.len.toNat, e.crc⟩)

/-- Entries under distinct slots are all kept, the last one first. -/
theorem foldl_insertEntry :
    ∀ (es : List SectionEntry) (acc : List ((UInt8 × String) × DirEntry)),
      (es.map SectionEntry.slot).Nodup →
      (∀ e ∈ es, ∀ old ∈ acc, old.1 ≠ e.slot) →
      es.foldl SegDir.insertEntry acc = (es.map SectionEntry.filed).reverse ++ acc := by
  intro es
  induction es with
  | nil => simp
  | cons e es ih =>
      intro acc hnodup hne
      rw [List.map_cons, List.nodup_cons] at hnodup
      obtain ⟨hnew, hnodup⟩ := hnodup
      have hkeep : acc.filter (fun old => decide (old.1 ≠ (e.kind, e.name))) = acc :=
        List.filter_eq_self.2 fun old hold =>
          decide_eq_true (hne e List.mem_cons_self old hold)
      have hins : SegDir.insertEntry acc e = e.filed :: acc := by
        rw [SegDir.insertEntry, hkeep]
        rfl
      rw [List.foldl_cons, hins, ih _ hnodup]
      · simp
      · intro e' he' old hold
        rcases List.mem_cons.1 hold with rfl | hold
        · intro heq
          exact hnew (List.mem_map.2 ⟨e', he', heq.symm⟩)
        · exact hne e' (List.mem_cons_of_mem e he') old hold

/-- Looking up an entry of a map with distinct slots. -/
theorem SegDir.get?_of_mem {dir : SegDir} {kind : UInt8} {name : String} {e : DirEntry}
    (hnodup : (dir.entries.map Prod.fst).Nodup) (hmem : ((kind, name), e) ∈ dir.entries) :
    dir.get? kind name = some e := by
  unfold SegDir.get?
  cases hfind : dir.entries.find? (fun e => decide (e.1 = (kind, name))) with
  | none =>
      have hno := List.find?_eq_none.1 hfind _ hmem
      exact absurd (decide_eq_true rfl) hno
  | some old =>
      have hslot : old.1 = (kind, name) := by simpa using List.find?_some hfind
      have hsame := List.inj_on_of_nodup_map hnodup (List.mem_of_find?_eq_some hfind) hmem hslot
      rw [hsame]
      rfl

/-- Nothing is found under a slot that no entry has. -/
theorem SegDir.get?_eq_none {dir : SegDir} {kind : UInt8} {name : String}
    (h : (kind, name) ∉ dir.entries.map Prod.fst) : dir.get? kind name = none := by
  unfold SegDir.get?
  rw [List.find?_eq_none.2, Option.map_none]
  intro e he heq
  exact h (List.mem_map.2 ⟨e, he, by simpa using heq⟩)

theorem SegDir.namesOf_eq (dir : SegDir) (kind : UInt8) :
    dir.namesOf kind =
      ((dir.entries.map Prod.fst).filter (fun slot => decide (slot.1 = kind))).map Prod.snd := by
  rw [SegDir.namesOf, List.filter_map, List.map_map]
  rfl

/-! ## The directory of a written file -/

section Slots

variable {ν : Type}

/-- The text slots. -/
def textSlots (records : List (Record ν)) : List (UInt8 × String) :=
  if records.any (fun r => r.text.isSome) then [(kText, ""), (kText, textV2Name), (kTokens, "")]
  else []

/-- The slots of a file, in the order they are written. -/
def slots (records : List (Record ν)) : List (UInt8 × String) :=
  [(kKeys, ""), (kTs, "")] ++ ((labelNames records).toList.map (fun n => (kLabel, n)) ++
    ((numericNames records).toList.map (fun n => (kNumeric, n)) ++
      ([(kPayload, "")] ++ (textSlots records ++ [(kBlocks, "")]))))

theorem nodup_textSlots (records : List (Record ν)) : (textSlots records).Nodup := by
  unfold textSlots
  split
  · decide
  · exact List.nodup_nil

theorem kind_of_mem_textSlots {records : List (Record ν)} {slot : UInt8 × String}
    (h : slot ∈ textSlots records) : slot.1 = kText ∨ slot.1 = kTokens := by
  unfold textSlots at h
  split at h
  · simp only [List.mem_cons, List.not_mem_nil, or_false] at h
    rcases h with rfl | rfl | rfl
    · exact Or.inl rfl
    · exact Or.inl rfl
    · exact Or.inr rfl
  · exact absurd h List.not_mem_nil

theorem nodup_named (kind : UInt8) (names : StrSet) :
    (names.toList.map (fun n => (kind, n))).Nodup :=
  (dict_nodup names).map fun _ _ h => (Prod.mk.inj h).2

/-- Slots of one kind in front of slots above it are new. -/
theorem nodup_append_above {a b : List (UInt8 × String)} {kind : UInt8} (ha : a.Nodup)
    (hb : b.Nodup) (hkind : ∀ slot ∈ a, slot.1 = kind) (hlt : ∀ slot ∈ b, kind < slot.1) :
    (a ++ b).Nodup := by
  refine List.Nodup.append ha hb ?_
  intro slot hin hin'
  exact UInt8.lt_irrefl _ ((hkind slot hin).symm ▸ hlt slot hin')

/-- Slots of one kind in front of slots above it. -/
theorem above_append {a b : List (UInt8 × String)} {k kind : UInt8} (hk : k < kind)
    (ha : ∀ slot ∈ a, slot.1 = kind) (hb : ∀ slot ∈ b, kind < slot.1) :
    ∀ slot ∈ a ++ b, k < slot.1 := by
  intro slot hmem
  rcases List.mem_append.1 hmem with h | h
  · rw [ha slot h]
    exact hk
  · exact UInt8.lt_trans hk (hb slot h)

theorem kind_single (kind : UInt8) (name : String) : ∀ slot ∈ [(kind, name)], slot.1 = kind := by
  intro slot hmem
  rw [List.mem_singleton.1 hmem]

theorem kind_named (kind : UInt8) (names : List String) :
    ∀ slot ∈ names.map (fun n => (kind, n)), slot.1 = kind := by
  intro slot hmem
  obtain ⟨n, -, rfl⟩ := List.mem_map.1 hmem
  rfl

/-- No two sections of a file have the same kind and name. -/
theorem slots_nodup (records : List (Record ν)) : (slots records).Nodup := by
  -- The kinds only grow up to the texts, and the block index comes last.
  have htexts : (textSlots records ++ [(kBlocks, "")]).Nodup := by
    refine List.Nodup.append (nodup_textSlots records) (List.nodup_singleton _) ?_
    intro slot h hblocks
    obtain rfl := List.mem_singleton.1 hblocks
    rcases kind_of_mem_textSlots h with hk | hk
    · exact absurd hk (by decide)
    · exact absurd hk (by decide)
  have habove : ∀ slot ∈ textSlots records ++ [(kBlocks, "")], kPayload < slot.1 := by
    intro slot hmem
    rcases List.mem_append.1 hmem with h | h
    · rcases kind_of_mem_textSlots h with hk | hk
      · rw [hk]
        decide
      · rw [hk]
        decide
    · obtain rfl := List.mem_singleton.1 h
      decide
  have hpayload := nodup_append_above (List.nodup_singleton (kPayload, "")) htexts
    (kind_single _ _) habove
  have habove := above_append (show kNumeric < kPayload by decide) (kind_single _ "") habove
  have hnumerics := nodup_append_above (nodup_named kNumeric (numericNames records)) hpayload
    (kind_named _ _) habove
  have habove := above_append (show kLabel < kNumeric by decide)
    (kind_named _ (numericNames records).toList) habove
  have hlabels := nodup_append_above (nodup_named kLabel (labelNames records)) hnumerics
    (kind_named _ _) habove
  have habove := above_append (show kTs < kLabel by decide)
    (kind_named _ (labelNames records).toList) habove
  have hts := nodup_append_above (List.nodup_singleton (kTs, "")) hlabels (kind_single _ _) habove
  have habove := above_append (show kKeys < kTs by decide) (kind_single _ "") habove
  have hkeys := nodup_append_above (List.nodup_singleton (kKeys, "")) hts (kind_single _ _) habove
  exact hkeys

theorem filter_kind_self {l : List (UInt8 × String)} {kind : UInt8}
    (h : ∀ slot ∈ l, slot.1 = kind) : l.filter (fun slot => decide (slot.1 = kind)) = l :=
  List.filter_eq_self.2 fun slot hmem => decide_eq_true (h slot hmem)

theorem filter_kind_ne {l : List (UInt8 × String)} {kind : UInt8}
    (h : ∀ slot ∈ l, slot.1 ≠ kind) : l.filter (fun slot => decide (slot.1 = kind)) = [] :=
  List.filter_eq_nil_iff.2 fun slot hmem heq => h slot hmem (of_decide_eq_true heq)

theorem ne_of_mem_textSlots {records : List (Record ν)} {kind : UInt8} (htext : kText ≠ kind)
    (htokens : kTokens ≠ kind) : ∀ slot ∈ textSlots records, slot.1 ≠ kind := by
  intro slot hmem
  rcases kind_of_mem_textSlots hmem with hk | hk
  · rwa [hk]
  · rwa [hk]

theorem filter_slots_label (records : List (Record ν)) :
    (slots records).filter (fun slot => decide (slot.1 = kLabel)) =
      (labelNames records).toList.map (fun n => (kLabel, n)) := by
  have hnumerics : ∀ slot ∈ (numericNames records).toList.map (fun n => (kNumeric, n)),
      slot.1 ≠ kLabel := fun slot hmem => by
    rw [kind_named _ _ slot hmem]
    decide
  have htexts : ∀ slot ∈ textSlots records, slot.1 ≠ kLabel :=
    ne_of_mem_textSlots (by decide) (by decide)
  simp only [slots, List.filter_append, filter_kind_self (kind_named _ _),
    filter_kind_ne hnumerics, filter_kind_ne htexts]
  simp [kKeys, kTs, kLabel, kPayload, kBlocks]

theorem filter_slots_numeric (records : List (Record ν)) :
    (slots records).filter (fun slot => decide (slot.1 = kNumeric)) =
      (numericNames records).toList.map (fun n => (kNumeric, n)) := by
  have hlabels : ∀ slot ∈ (labelNames records).toList.map (fun n => (kLabel, n)),
      slot.1 ≠ kNumeric := fun slot hmem => by
    rw [kind_named _ _ slot hmem]
    decide
  have htexts : ∀ slot ∈ textSlots records, slot.1 ≠ kNumeric :=
    ne_of_mem_textSlots (by decide) (by decide)
  simp only [slots, List.filter_append, filter_kind_self (kind_named _ _),
    filter_kind_ne hlabels, filter_kind_ne htexts]
  simp [kKeys, kTs, kNumeric, kPayload, kBlocks]

/-- Only the text slots have a text kind. -/
theorem mem_textSlots_of_mem {records : List (Record ν)} {slot : UInt8 × String}
    (hmem : slot ∈ slots records) (hkind : slot.1 = kText ∨ slot.1 = kTokens) :
    slot ∈ textSlots records := by
  have hnot : ∀ kind : UInt8, kind ≠ kText → kind ≠ kTokens → slot.1 ≠ kind := by
    rintro kind htext htokens rfl
    exact hkind.elim htext htokens
  simp only [slots, List.mem_append, List.mem_cons, List.not_mem_nil, or_false] at hmem
  rcases hmem with (rfl | rfl) | hmem | hmem | rfl | hmem | rfl
  · exact absurd rfl (hnot kKeys (by decide) (by decide))
  · exact absurd rfl (hnot kTs (by decide) (by decide))
  · exact absurd (kind_named _ _ slot hmem) (hnot kLabel (by decide) (by decide))
  · exact absurd (kind_named _ _ slot hmem) (hnot kNumeric (by decide) (by decide))
  · exact absurd rfl (hnot kPayload (by decide) (by decide))
  · exact hmem
  · exact absurd rfl (hnot kBlocks (by decide) (by decide))

end Slots

section Directory

variable [Unicode] {ν : Type} [FloatBits ν] [Numeral ν] [Deflate] [Rmp (List (BlockMeta ν))]

variable {records : List (Record ν)}

theorem map_slot_secs (records : List (Record ν)) :
    (secs records).map SectionBody.slot = slots records := by
  have htexts : (textSecs records).map SectionBody.slot = textSlots records := by
    unfold textSecs textSlots
    split
    · rfl
    · rfl
  simp only [secs, slots, List.map_append, List.map_map, htexts]
  rfl

variable [Crc32]

omit [Unicode] [FloatBits ν] [Numeral ν] [Deflate] [Rmp (List (BlockMeta ν))] in
theorem map_slot_layout (off : Nat) (ss : List SectionBody) :
    (layout off ss).map SectionEntry.slot = ss.map SectionBody.slot := by
  induction ss generalizing off with
  | nil => rfl
  | cons s ss ih =>
      rw [layout, List.map_cons, List.map_cons, ih]
      rfl

/-- The directory of the file as the section reader holds it. -/
def segDirOf (records : List (Record ν)) : SegDir where
  count := records.length
  entries := ((layout 8 (secs records)).map SectionEntry.filed).reverse

theorem map_fst_segDirOf (records : List (Record ν)) :
    (segDirOf records).entries.map Prod.fst = (slots records).reverse := by
  rw [segDirOf, List.map_reverse, List.map_map, ← map_slot_secs, ← map_slot_layout 8]
  rfl

/-- Every section is found under its kind and name. -/
theorem get?_segDirOf [Rmp SectionDir] {s : SectionBody} (hs : s ∈ secs records)
    (hfile : (fileOf records).length < 2 ^ 63) :
    ∃ off, (segDirOf records).get? s.kind s.name =
        some ⟨off, s.body.length, Crc32.hash s.body⟩ ∧
      LiesAt (fileOf records) off (sectionBytes s) := by
  obtain ⟨off, hmem, hlies⟩ := exists_mem_layout (liesAt_sections records) hs
  obtain ⟨hoff, hlen⟩ := toNat_offset hlies hfile
  refine ⟨off, SegDir.get?_of_mem ?_ ?_, hlies⟩
  · rw [map_fst_segDirOf]
    exact List.nodup_reverse.2 (slots_nodup records)
  · rw [segDirOf, List.mem_reverse]
    refine List.mem_map.2 ⟨_, hmem, ?_⟩
    rw [SectionEntry.filed, hoff, hlen]
    rfl

/-- The names under a kind, the last one first. -/
theorem namesOf_segDirOf (kind : UInt8) :
    (segDirOf records).namesOf kind =
      (((slots records).filter (fun slot => decide (slot.1 = kind))).map Prod.snd).reverse := by
  rw [SegDir.namesOf_eq, map_fst_segDirOf, List.filter_reverse, List.map_reverse]

theorem namesOf_label (records : List (Record ν)) :
    (segDirOf records).namesOf kLabel = (labelNames records).toList.reverse := by
  rw [namesOf_segDirOf, filter_slots_label, List.map_map]
  exact congrArg List.reverse (List.map_id _)

theorem namesOf_numeric (records : List (Record ν)) :
    (segDirOf records).namesOf kNumeric = (numericNames records).toList.reverse := by
  rw [namesOf_segDirOf, filter_slots_numeric, List.map_map]
  exact congrArg List.reverse (List.map_id _)

/-! ## Loading each section -/

variable [Rmp SectionDir]

/-- A section is found, read and checked. -/
theorem entry_segDirOf {s : SectionBody} (hs : s ∈ secs records)
    (hfile : (fileOf records).length < 2 ^ 63) :
    ∃ e, (segDirOf records).entry s.kind s.name = .ok e ∧
      readVerifiedBody (fileOf records) e s.kind = .ok s.body ∧ s.body.length < 2 ^ 63 := by
  obtain ⟨off, hget, hlies⟩ := get?_segDirOf hs hfile
  refine ⟨_, ?_, readVerifiedBody_of_liesAt hlies hfile s.kind, LiesAt.body_lt hlies hfile⟩
  rw [SegDir.entry, hget]
  rfl

theorem loadKeys_fileOf (hs : Storable records) (hfile : (fileOf records).length < 2 ^ 63) :
    loadKeys (fileOf records) (segDirOf records) = .ok (keysSection records) := by
  obtain ⟨e, hentry, hbody, hsize⟩ :=
    entry_segDirOf (s := ⟨kKeys, "", encodeStrings (records.map (fun r => utf8 r.key))⟩)
      (by simp [secs]) hfile
  have hcount : (keysSection records).offsets.length = (segDirOf records).count + 1 := by
    simp [keysSection, segDirOf]
  rw [loadKeys, hentry, Res.ok_bind, hbody, Res.ok_bind, decodeStrings_keys hs.rows_lt hsize,
    Res.ok_bind, Res.check_true hcount]
  rfl

theorem loadTimestamps_fileOf (hs : Storable records)
    (hfile : (fileOf records).length < 2 ^ 63) :
    loadTimestamps (fileOf records) (segDirOf records) = .ok (records.map Record.timestamp) := by
  obtain ⟨e, hentry, hbody, -⟩ :=
    entry_segDirOf (s := ⟨kTs, "", encodeTimestamps records⟩) (by simp [secs]) hfile
  rw [loadTimestamps, hentry, Res.ok_bind, hbody, Res.ok_bind]
  exact decodeTimestamps_encodeTimestamps hs.rows_lt

theorem loadLabel_fileOf (hs : Storable records) (hfile : (fileOf records).length < 2 ^ 63)
    {n : String} (hn : n ∈ (labelNames records).toList) :
    loadLabel (fileOf records) (segDirOf records) n =
      .ok (labelColumn records (planLabel records n)) := by
  have hmem : labelSection records n ∈ secs records := by
    simp only [secs, List.mem_append]
    exact Or.inr (Or.inl (List.mem_map_of_mem hn))
  obtain ⟨e, hentry, hbody, hsize⟩ := entry_segDirOf hmem hfile
  have hentry : (segDirOf records).entry kLabel n = .ok e := hentry
  have hbody : readVerifiedBody (fileOf records) e kLabel =
      .ok (encodeLabelColumn records (planLabel records n)) := hbody
  rw [loadLabel, hentry, Res.ok_bind, hbody, Res.ok_bind]
  exact decodeLabelColumn_section hs hsize

theorem loadNumeric_fileOf [LawfulFloatBits ν] (hfile : (fileOf records).length < 2 ^ 63)
    {n : String} (hn : n ∈ (numericNames records).toList) :
    loadNumeric (fileOf records) (segDirOf records) n = .ok (numericColumn records n) := by
  have hmem : numericSection records n ∈ secs records := by
    simp only [secs, List.mem_append]
    exact Or.inr (Or.inr (Or.inl (List.mem_map_of_mem hn)))
  obtain ⟨e, hentry, hbody, -⟩ := entry_segDirOf hmem hfile
  have hentry : (segDirOf records).entry kNumeric n = .ok e := hentry
  have hbody : readVerifiedBody (fileOf records) e kNumeric =
      .ok (encodeNumericColumn records n) := hbody
  rw [loadNumeric, hentry, Res.ok_bind, hbody, Res.ok_bind]
  exact decodeNumericColumn_encodeNumericColumn records n

theorem loadBlocks_fileOf [LawfulRmp (List (BlockMeta ν))]
    (hfile : (fileOf records).length < 2 ^ 63) :
    loadBlocks (fileOf records) (segDirOf records) =
      .ok (buildBlocks records (planLabels records)) := by
  obtain ⟨e, hentry, hbody, -⟩ :=
    entry_segDirOf (s := ⟨kBlocks, "", Rmp.toVec (buildBlocks records (planLabels records))⟩)
      (by simp [secs]) hfile
  rw [loadBlocks, hentry, Res.ok_bind, hbody, Res.ok_bind, decodeRmp_toVec]

/-- The payload table, read without the payloads. -/
theorem loadPayloadIndex_fileOf (hs : Storable records)
    (hfile : (fileOf records).length < 2 ^ 63) :
    ∃ pi, loadPayloadIndex (fileOf records) (segDirOf records) = .ok pi ∧
      PayloadsAt (fileOf records) records pi := by
  obtain ⟨off, hget, hlies⟩ :=
    get?_segDirOf (s := ⟨kPayload, "", encodePayloads records⟩) (by simp [secs]) hfile
  have hentry : (segDirOf records).entry kPayload "" =
      .ok ⟨off, (encodePayloads records).length, Crc32.hash (encodePayloads records)⟩ := by
    rw [SegDir.entry, hget]
    rfl
  have hsize : (encodePayloads records).length < 2 ^ 63 := LiesAt.body_lt hlies hfile
  -- The table is the front of the section's body.
  have hbody : LiesAt (fileOf records) (off + 4) (encodePayloads records) := LiesAt.body hlies
  have htableLen : ((offsets (records.map Record.payload)).flatMap le64).length =
      8 * (records.length + 1) := by
    rw [length_flatMap_le64, length_offsets, List.length_map]
  have hlen : (encodePayloads records).length =
      8 * (records.length + 1) + (records.map Record.payload).flatten.length := by
    rw [encodePayloads, List.length_append, htableLen]
  rw [encodePayloads] at hbody
  have hread := readAt_of_liesAt hbody.left
  rw [htableLen] at hread
  refine ⟨payloadIndexAt records off, ?_, payloadsAt_section hlies⟩
  rw [loadPayloadIndex, hentry, Res.ok_bind]
  simp only [segDirOf, tableLen_ok hs.rows_lt, Res.ok_bind, hread,
    (reads_payloadTable hsize).eval_self, hlen, Nat.add_sub_cancel_left, checkTable_offsets,
    Res.check_true (Nat.le_add_right _ _)]
  rfl

omit [Rmp SectionDir] in
/-- Without text there is nothing under the text kinds. -/
theorem get?_textless (hnone : ¬ records.any (fun r => r.text.isSome) = true) {kind : UInt8}
    (hkind : kind = kText ∨ kind = kTokens) (name : String) :
    (segDirOf records).get? kind name = none := by
  refine SegDir.get?_eq_none ?_
  rw [map_fst_segDirOf, List.mem_reverse]
  intro hmem
  have htext := mem_textSlots_of_mem hmem hkind
  rw [textSlots, if_neg hnone] at htext
  exact absurd htext List.not_mem_nil

/-- The text table, read without the texts. -/
theorem loadTextIndex_fileOf (hs : Storable records) (hfile : (fileOf records).length < 2 ^ 63) :
    ∃ texts, loadTextIndex (fileOf records) (segDirOf records) = .ok texts ∧
      TextsAt (fileOf records) records (texts.map .file) := by
  by_cases hany : records.any (fun r => r.text.isSome) = true
  · obtain ⟨off, hget, hlies⟩ :=
      get?_segDirOf (s := ⟨kText, textV2Name, encodeTexts records⟩)
        (by simp [secs, textSecs, hany]) hfile
    have hget : (segDirOf records).get? kText textV2Name =
      some ⟨off, (encodeTexts records).length, Crc32.hash (encodeTexts records)⟩ := hget
    have hsize : (encodeTexts records).length < 2 ^ 63 := LiesAt.body_lt hlies hfile
    -- The version, then the header, then the stored texts.
    have hbody : LiesAt (fileOf records) (off + 4) (encodeTexts records) := LiesAt.body hlies
    have hlen : (encodeTexts records).length =
        4 + ((textHeader records).length + (storedTexts records).flatten.length) := by
      rw [encodeTexts_eq, List.length_append, List.length_append, length_le32]
    rw [encodeTexts_eq] at hbody
    have hversion := readAt_of_liesAt hbody.left
    rw [length_le32] at hversion
    have hrest := hbody.right
    rw [length_le32] at hrest
    have hheader := readAt_of_liesAt hrest.left
    have hword : leNat (le32 textV2Version) = textV2Version := leNat_leBytes_of_lt (by decide)
    have hheaderLen := length_textHeader records
    refine ⟨some (textIndexAt records (off + 4 + 4 + (textHeader records).length)), ?_,
      Or.inr ⟨_, rfl, textsAt_section hlies⟩⟩
    unfold loadTextIndex
    rw [hget]
    show (readAt (fileOf records) (off + 4) 4 >>= _) = _
    rw [hversion, Res.ok_bind, Res.check_true hword, Res.ok_bind]
    simp only [segDirOf, tableLen_ok hs.rows_lt, Res.ok_bind, ← hheaderLen]
    rw [Res.check_true (by omega), Res.ok_bind, Res.check_true (by omega), Res.ok_bind, hheader,
      Res.ok_bind, show (encodeTexts records).length - 4 - (textHeader records).length =
        (storedTexts records).flatten.length by omega,
      decodeTextV2Header_ok hs.rows_lt (storedTexts_lt hsize)]
    rfl
  · refine ⟨none, ?_, Or.inl ⟨rfl, fun r hr => ?_⟩⟩
    · rw [loadTextIndex, get?_textless hany (Or.inl rfl), get?_textless hany (Or.inl rfl)]
      rfl
    · have hall : ∀ r ∈ records, r.text.isSome = false := by simpa using hany
      simpa using hall r hr

theorem loadTokens_fileOf (hs : Storable records) (hfile : (fileOf records).length < 2 ^ 63) :
    loadTokens (fileOf records) (segDirOf records) =
      .ok (if records.any (fun r => r.text.isSome) then
        some (TokenIndex.loaded (TokenIndex.build records).tokens (TokenIndex.builtLists records))
      else none) := by
  by_cases hany : records.any (fun r => r.text.isSome) = true
  · obtain ⟨off, hget, hlies⟩ :=
      get?_segDirOf (s := ⟨kTokens, "", TokenIndex.encodeEager (TokenIndex.build records).tokens
        (TokenIndex.builtLists records)⟩) (by simp [secs, textSecs, hany]) hfile
    have hbody := readVerifiedBody_of_liesAt hlies hfile kTokens
    unfold loadTokens
    rw [hget, if_pos hany]
    show (readVerifiedBody _ _ _ >>= _) = _
    rw [hbody, Res.ok_bind]
    show (some <$> TokenIndex.decodeTokens _ records.length : Res _) = _
    rw [decodeTokens_section hs]
    rfl
  · rw [loadTokens, get?_textless hany (Or.inr rfl), if_neg hany]
    rfl

variable [LawfulRmp SectionDir]

/-- The footer is read back. -/
theorem readFooter_fileOf (hs : Storable records) (hfile : (fileOf records).length < 2 ^ 63) :
    readFooter (fileOf records) = .ok (segDirOf records) := by
  obtain ⟨hlen, hdir, htail⟩ := footer_parts records
  have h8 : 8 ≤ footerOffOf records := Nat.le_add_right _ _
  have htailLen : (le64 (footerOffOf records) ++
      (le32 (Crc32.hash (Rmp.toVec (dirOf records))).toNat ++ le32 magicWord)).length = 16 := by
    rw [List.length_append, List.length_append, length_le64, length_le32, length_le32]
  have hreadTail := readAt_of_liesAt htail
  rw [htailLen] at hreadTail
  have hreadDir := readAt_of_liesAt hdir
  rw [show (Rmp.toVec (dirOf records)).length =
    (fileOf records).length - 16 - footerOffOf records by omega] at hreadDir
  have hself := LiesAt.self (le64 (footerOffOf records) ++
    (le32 (Crc32.hash (Rmp.toVec (dirOf records))).toNat ++ le32 magicWord))
  obtain ⟨hoff, hcrc, hmagic⟩ := trailer_words hself (footerOff_lt hfile)
  rw [Nat.zero_add] at hcrc hmagic
  have hslots : ((layout 8 (secs records)).map SectionEntry.slot).Nodup := by
    rw [map_slot_layout, map_slot_secs]
    exact slots_nodup records
  rw [readFooter, Res.check_true (by omega), Res.ok_bind, hreadTail, Res.ok_bind]
  simp only [hoff, hcrc, hmagic]
  rw [Res.check_true trivial, Res.ok_bind, Res.check_true (by omega), Res.ok_bind, hreadDir,
    Res.ok_bind, Res.check_true rfl, Res.ok_bind, decodeRmp_toVec, Res.ok_bind, toNat_count hs]
  show Except.ok (SegDir.mk records.length
    ((layout 8 (secs records)).foldl SegDir.insertEntry [])) = _
  rw [foldl_insertEntry _ _ hslots (fun _ _ _ hold => absurd hold List.not_mem_nil),
    List.append_nil]
  rfl

/-! ## The columns -/

variable [LawfulFloatBits ν] [LawfulRmp (List (BlockMeta ν))]

omit [Unicode] [FloatBits ν] [Numeral ν] [Deflate] [Rmp (List (BlockMeta ν))] [Crc32]
  [Rmp SectionDir] [LawfulRmp SectionDir] [LawfulFloatBits ν] [LawfulRmp (List (BlockMeta ν))] in
/-- Columns built from the names in any order. -/
theorem mapM_named {κ : Type} {names : StrSet} {load : String → Res κ} {col : String → κ}
    (h : ∀ n ∈ names.toList, load n = .ok (col n)) :
    ∃ cols, names.toList.reverse.mapM (fun n => do
        let c ← load n
        pure (n, c)) = (.ok cols : Res (List (String × κ))) ∧
      OrdMap.ofPairs cols = OrdMap.ofPairs (names.toList.map (fun n => (n, col n))) := by
  refine ⟨names.toList.reverse.map (fun n => (n, col n)), mapM_ok fun n hn => ?_, ?_⟩
  · rw [h n (List.mem_reverse.1 hn)]
    rfl
  · rw [List.map_reverse]
    exact (OrdMap.ofPairs_perm (List.reverse_perm _).symm (pairwise_named names col)).symm

/-- The columns assembled from a file are those of its rows. -/
theorem loadColumns_fileOf (hs : Storable records) (hfile : (fileOf records).length < 2 ^ 63)
    (needTokens : Bool) :
    ∃ cols : SegmentColumns ν, ∃ pi, loadColumns (fileOf records) needTokens = .ok cols ∧
      cols.Shows records ∧ cols.payloads = .file pi ∧ PayloadsAt (fileOf records) records pi ∧
      TextsAt (fileOf records) records cols.texts ∧
      cols.tokens = if needTokens && records.any (fun r => r.text.isSome) then
        some (TokenIndex.loaded (TokenIndex.build records).tokens (TokenIndex.builtLists records))
      else none := by
  obtain ⟨pi, hpayloads, hpi⟩ := loadPayloadIndex_fileOf hs hfile
  obtain ⟨texts, htexts, htextsAt⟩ := loadTextIndex_fileOf hs hfile
  obtain ⟨labels, hlabels, hlabelMap⟩ := mapM_named fun n hn => loadLabel_fileOf hs hfile hn
  obtain ⟨numerics, hnumerics, hnumericMap⟩ := mapM_named fun n hn => loadNumeric_fileOf hfile hn
  rw [← labelColumns_eq] at hlabelMap
  rw [loadColumns, readFooter_fileOf hs hfile, Res.ok_bind, loadKeys_fileOf hs hfile, Res.ok_bind,
    loadTimestamps_fileOf hs hfile, Res.ok_bind, loadBlocks_fileOf hfile, Res.ok_bind, hpayloads,
    Res.ok_bind, htexts, Res.ok_bind]
  simp only [namesOf_label, hlabels, namesOf_numeric, hnumerics, Res.ok_bind]
  cases needTokens with
  | false =>
      exact ⟨_, pi, rfl, ⟨rfl, rfl, rfl, hlabelMap, hnumericMap, rfl⟩, rfl, hpi, htextsAt, rfl⟩
  | true =>
      rw [if_pos rfl, loadTokens_fileOf hs hfile, Res.ok_bind]
      exact ⟨_, pi, rfl, ⟨rfl, rfl, rfl, hlabelMap, hnumericMap, rfl⟩, rfl, hpi, htextsAt, rfl⟩

omit [LawfulRmp SectionDir] [LawfulFloatBits ν] [LawfulRmp (List (BlockMeta ν))] in
theorem readHeader_fileOf (records : List (Record ν)) :
    readHeader (fileOf records) = .ok versionV2 := by
  have h := liesAt_header records
  have hlen : (le32 magicWord ++ le32 versionV2).length = 8 := by
    rw [List.length_append, length_le32, length_le32]
  have hread := readAt_of_liesAt h
  rw [hlen] at hread
  have hself := LiesAt.self (le32 magicWord ++ le32 versionV2)
  have hright := hself.right
  rw [length_le32, Nat.zero_add] at hright
  have hmagic : wordAt (le32 magicWord ++ le32 versionV2) 0 4 = magicWord :=
    wordAt_of_liesAt hself.left (by decide)
  have hversion : wordAt (le32 magicWord ++ le32 versionV2) 4 4 = versionV2 :=
    wordAt_of_liesAt hright (by decide)
  rw [readHeader, hread, Res.ok_bind, Res.check_true hmagic, Res.ok_bind, hversion]
  rfl

variable [Rmp (List (Record ν))]

omit [LawfulRmp SectionDir] [LawfulFloatBits ν] [LawfulRmp (List (BlockMeta ν))] in
theorem loadSegment_fileOf (records : List (Record ν)) (needTokens : Bool) :
    loadSegment (fileOf records) needTokens =
      loadColumns (ν := ν) (fileOf records) needTokens := by
  rw [loadSegment, readHeader_fileOf, Res.ok_bind, if_neg (by decide), if_pos rfl]

/-- Both readers return what was written: `read_all_records` the rows, and the columns assembled
section by section each of them.  A vector of bytes is shorter than `2 ^ 63`. -/
theorem segment_round_trip [LawfulDeflate] (hs : Storable records) :
    ∃ bytes, encodeV2 records = .ok bytes ∧ (bytes.length < 2 ^ 63 →
      readAllRecords bytes = .ok records ∧
        ∀ needTokens, ∃ cols : SegmentColumns ν, loadSegment bytes needTokens = .ok cols ∧
          cols.count = records.length ∧
          ∀ (i : Nat) (r : Record ν), records[i]? = some r →
            cols.materialize i (some bytes) true = .ok r) := by
  refine ⟨fileOf records, encodeV2_eq records, fun hfile =>
    ⟨readAllRecords_fileOf hs hfile, fun needTokens => ?_⟩⟩
  obtain ⟨cols, pi, hcols, hshows, hpayloads, hpi, htexts, -⟩ :=
    loadColumns_fileOf hs hfile needTokens
  refine ⟨cols, ?_, hshows.count_eq, fun i r hr => ?_⟩
  · rw [loadSegment_fileOf, hcols]
  · exact materialize_file hshows hpayloads hpi htexts hfile hr

end Directory

/-! ## A file on disk -/

section Sample

local instance instAssemblyCrc32 : Crc32 := ieeeCrc32

local instance instAssemblyUnicode : Unicode := asciiUnicode

/-- No text of the sample is long enough to be deflated. -/
local instance instAssemblyDeflate : Deflate where
  deflate bs := 1 :: bs
  inflate bs := if bs.head? = some 1 then some bs.tail else none

local instance instAssemblyLawfulDeflate : LawfulDeflate where
  inflate_deflate _ := rfl
  deflate_ne_nil _ := by simp [Deflate.deflate]

/-! MessagePack, for what the directory holds. -/

def packUint (n : Nat) : Bytes :=
  if n < 128 then [UInt8.ofNat n]
  else if n < 2 ^ 8 then 0xcc :: (leBytes 1 n).reverse
  else if n < 2 ^ 16 then 0xcd :: (leBytes 2 n).reverse
  else if n < 2 ^ 32 then 0xce :: (leBytes 4 n).reverse
  else 0xcf :: (leBytes 8 n).reverse

def packStr (s : String) : Bytes :=
  let n := (utf8 s).length
  (if n < 32 then [UInt8.ofNat (0xa0 + n)]
  else if n < 2 ^ 8 then 0xd9 :: (leBytes 1 n).reverse
  else if n < 2 ^ 16 then 0xda :: (leBytes 2 n).reverse
  else 0xdb :: (leBytes 4 n).reverse) ++ utf8 s

def packArray (items : List Bytes) : Bytes :=
  let n := items.length
  (if n < 16 then [UInt8.ofNat (0x90 + n)]
  else if n < 2 ^ 16 then 0xdc :: (leBytes 2 n).reverse
  else 0xdd :: (leBytes 4 n).reverse) ++ items.flatten

def packDir (dir : SectionDir) : Bytes :=
  packArray [packUint dir.count.toNat, packArray (dir.entries.map (fun e =>
    packArray [packUint e.kind.toNat, packStr e.name, packUint e.offset.toNat,
      packUint e.len.toNat, packUint e.crc.toNat]))]

/-- A serialization that writes `known` as `bytes`, and any other value as so many zeros. -/
@[reducible]
noncomputable def rmpOf {α : Type} [Encodable α] [DecidableEq α] (known : α) (bytes : Bytes) :
    Rmp α where
  toVec a := if a = known then bytes else List.replicate (Encodable.encode a) 0
  fromSlice bs :=
    if bs = bytes then .ok known
    else
      match Encodable.decode bs.length with
      | some a => .ok a
      | none => .error "wrong msgpack marker"

theorem lawfulRmp_rmpOf {α : Type} [Encodable α] [DecidableEq α] {known : α} {bytes : Bytes}
    (h : ∃ b ∈ bytes, b ≠ 0) : @LawfulRmp α (rmpOf known bytes) := by
  let _ := rmpOf known bytes
  refine ⟨fun a => ?_⟩
  by_cases hknown : a = known
  · simp [Rmp.toVec, Rmp.fromSlice, hknown]
  · have hzeros : List.replicate (Encodable.encode a) 0 ≠ bytes := by
      rintro rfl
      obtain ⟨b, hb, hne⟩ := h
      exact hne (List.eq_of_mem_replicate hb)
    simp [Rmp.toVec, Rmp.fromSlice, hknown, hzeros]

theorem countable_string : Countable String := by
  have hchar : Countable Char :=
    Function.Injective.countable (f := Char.toNat) fun _ _ => Char.toNat_inj.1
  exact Function.Injective.countable (f := String.toList) fun _ _ => String.toList_injective

theorem countable_uint64 : Countable UInt64 :=
  Function.Injective.countable (f := UInt64.toNat) fun _ _ => UInt64.toNat_inj.1

theorem countable_sectionDir : Countable SectionDir := by
  have hstring := countable_string
  have hword := countable_uint64
  have hbyte : Countable UInt8 :=
    Function.Injective.countable (f := UInt8.toNat) fun _ _ => UInt8.toNat_inj.1
  have hcrc : Countable UInt32 :=
    Function.Injective.countable (f := UInt32.toNat) fun _ _ => UInt32.toNat_inj.1
  have hentry : Countable SectionEntry :=
    Function.Injective.countable (f := fun e => (e.kind, e.name, e.offset, e.len, e.crc)) (by
      rintro ⟨kind, name, offset, len, crc⟩ ⟨kind', name', offset', len', crc'⟩ h
      simpa using h)
  refine Function.Injective.countable (f := fun d => (d.count, d.entries)) ?_
  rintro ⟨count, entries⟩ ⟨count', entries'⟩ h
  simpa using h

theorem countable_ordMap {α : Type} [Countable α] : Countable (OrdMap String α) := by
  have hstring := countable_string
  refine Function.Injective.countable (f := fun m : OrdMap String α => m.toList) ?_
  exact fun _ _ h => Std.ExtTreeMap.toList_inj.1 h

theorem countable_blocks : Countable (List (BlockMeta Binary64)) := by
  have hstring := countable_string
  have hword := countable_uint64
  have hrow : Countable UInt32 :=
    Function.Injective.countable (f := UInt32.toNat) fun _ _ => UInt32.toNat_inj.1
  have hts : Countable Int64 :=
    Function.Injective.countable (f := Int64.toInt) fun _ _ => Int64.toInt_inj.1
  have hbits : Countable (BitVec 64) :=
    Function.Injective.countable (f := BitVec.toNat) fun _ _ => BitVec.eq_of_toNat_eq
  have hfloat : Countable Binary64 :=
    Function.Injective.countable (f := Binary64.bits) fun a b h => by
      cases a
      cases b
      exact congrArg Binary64.mk h
  have hnumerics : Countable (OrdMap String (Binary64 × Binary64)) := countable_ordMap
  have hbitsets : Countable (OrdMap String UInt64) := countable_ordMap
  have hblock : Countable (BlockMeta Binary64) :=
    Function.Injective.countable (f := fun b => (b.start, b.stop, b.minTs, b.maxTs, b.firstKey,
      b.lastKey, b.numerics, b.labelBitsets)) (by
        rintro ⟨start, stop, minTs, maxTs, firstKey, lastKey, numerics, bitsets⟩
          ⟨start', stop', minTs', maxTs', firstKey', lastKey', numerics', bitsets'⟩ h
        simpa using h)
  infer_instance

deriving instance DecidableEq for BlockMeta

/-- A row with a label, a number and a text, and one whose text is absent. -/
def sampleRows : List (Record Binary64) :=
  [{ key := "a", timestamp := 5, labels := (∅ : OrdMap String String).insert "l" "v",
      numerics := (∅ : OrdMap String Binary64).insert "n" ⟨0⟩, payload := [1, 2],
      text := some "Hi" },
    { key := "b", timestamp := 6, labels := ∅, numerics := ∅, payload := [], text := none }]

/-- The block index of the sample, as MessagePack has it. -/
def sampleBlocks : Bytes :=
  [0x91, 0x98, 0x00, 0x02, 0x05, 0x06, 0xa1, 0x61, 0xa1, 0x62, 0x81, 0xa1, 0x6e, 0x92,
    0xcb, 0, 0, 0, 0, 0, 0, 0, 0, 0xcb, 0, 0, 0, 0, 0, 0, 0, 0, 0x81, 0xa1, 0x6c, 0x01]

noncomputable local instance instAssemblyEncodableBlocks : Encodable (List (BlockMeta Binary64)) :=
  @Encodable.ofCountable _ countable_blocks

noncomputable local instance instAssemblyEncodableDir : Encodable SectionDir :=
  @Encodable.ofCountable _ countable_sectionDir

noncomputable local instance instAssemblyRmpBlocks : Rmp (List (BlockMeta Binary64)) :=
  rmpOf (buildBlocks sampleRows (planLabels sampleRows)) sampleBlocks

noncomputable local instance instAssemblyRmpDir : Rmp SectionDir :=
  rmpOf (dirOf sampleRows) (packDir (dirOf sampleRows))

/-- No version 1 file is read here. -/
local instance instAssemblyRmpRecords : Rmp (List (Record Binary64)) where
  toVec _ := []
  fromSlice _ := .error "wrong msgpack marker"

local instance instAssemblyLawfulRmpBlocks : LawfulRmp (List (BlockMeta Binary64)) :=
  lawfulRmp_rmpOf ⟨0x91, List.mem_cons_self, by decide⟩

local instance instAssemblyLawfulRmpDir : LawfulRmp SectionDir :=
  lawfulRmp_rmpOf ⟨0x92, by simp [packDir, packArray], by decide⟩

theorem storable_sampleRows : Storable sampleRows where
  rows_lt := by decide
  label_lt r hr n v hv := by
    have hrow : r = sampleRows[0] ∨ r = sampleRows[1] := by simpa [sampleRows] using hr
    rcases hrow with rfl | rfl
    · have hget : (∅ : OrdMap String String)[n]? = none := by simp
      have hv : ((∅ : OrdMap String String).insert "l" "v")[n]? = some v := hv
      rw [Std.ExtTreeMap.getElem?_insert, hget] at hv
      split at hv
      · obtain rfl := Option.some.inj hv
        decide
      · exact absurd hv (by simp)
    · have hv : (∅ : OrdMap String String)[n]? = some v := hv
      exact absurd hv (by simp)
  token_lt := by decide +kernel
  postings_lt := by decide +kernel

theorem length_sampleRows : (fileOf sampleRows).length < 2 ^ 63 := by decide +kernel

/-- The sample is read back by both readers. -/
theorem segment_round_trip_sampleRows :
    ∃ bytes, encodeV2 sampleRows = .ok bytes ∧ readAllRecords bytes = .ok sampleRows ∧
      ∃ cols : SegmentColumns Binary64, loadSegment bytes true = .ok cols ∧ cols.count = 2 ∧
        cols.materialize 0 (some bytes) true = .ok sampleRows[0] ∧
        cols.materialize 1 (some bytes) true = .ok sampleRows[1] := by
  obtain ⟨bytes, hbytes, hread⟩ := segment_round_trip storable_sampleRows
  obtain rfl := Except.ok.inj (hbytes.symm.trans (encodeV2_eq sampleRows))
  obtain ⟨hall, hcols⟩ := hread length_sampleRows
  obtain ⟨cols, hload, hcount, hrow⟩ := hcols true
  exact ⟨_, hbytes, hall, cols, hload, hcount, hrow 0 _ rfl, hrow 1 _ rfl⟩

end Sample

end Girder
