import Mathlib.Algebra.Order.BigOperators.Group.List
import Girder.Assembly
import Girder.Compaction

/-!
# Footprint — the estimated and the real length of a file

Compaction cuts its outputs by an estimate: a record takes its payload, its key and 32 bytes.  In the
file of rows without labels, numerics or text it takes 24 (`length_fileOf_plain`), so that the file of
many small rows is shorter than its estimate by 8 bytes a row.  What a file has besides is a few
hundred bytes (`length_fileOf_plain_le`).
-/

namespace Girder

open Lib

/-! ## The length of a file -/

section Length

variable {ν : Type}

/-- Rows with nothing but a key, a timestamp and a payload. -/
structure Plain (r : Record ν) : Prop where
  labels : r.labels = ∅
  numerics : r.numerics = ∅
  text : r.text = none

variable {records : List (Record ν)}

/-- Rows whose maps are empty name nothing. -/
theorem foldl_keys_empty {κ : Type} (f : Record ν → OrdMap String κ)
    (h : ∀ r ∈ records, f r = ∅) :
    records.foldl (fun names r => (f r).keys.foldl (fun names k => names.insert k) names)
      (∅ : StrSet) = ∅ := by
  induction records with
  | nil => rfl
  | cons r records ih =>
      rw [List.foldl_cons, h r (by simp)]
      exact ih (fun s hs => h s (by simp [hs]))

/-- The columns of a plain row take 24 bytes beside its key and payload; the estimate has 32. -/
def plainBytes (r : Record ν) : Nat := r.payload.length + r.key.utf8ByteSize + 24

theorem sum_plainBytes (records : List (Record ν)) :
    (records.map plainBytes).sum = 24 * records.length +
      (records.map (fun r => r.key.utf8ByteSize)).sum +
        (records.map (fun r => r.payload.length)).sum := by
  induction records with
  | nil => rfl
  | cons r records ih =>
      simp only [List.map_cons, List.sum_cons, List.length_cons, ih, plainBytes]
      omega

/-- The estimate counts eight bytes more for a row. -/
theorem sum_recordBytes (records : List (Record ν)) :
    (records.map recordBytes).sum = (records.map plainBytes).sum + 8 * records.length := by
  induction records with
  | nil => rfl
  | cons r records ih =>
      simp only [List.map_cons, List.sum_cons, List.length_cons, ih, plainBytes, recordBytes]
      omega

variable [Unicode] [FloatBits ν] [Numeral ν] [Deflate] [Rmp (List (BlockMeta ν))] [Crc32]
  [Rmp SectionDir]

omit [Crc32] [Rmp SectionDir] in
theorem secs_plain (h : ∀ r ∈ records, Plain r) :
    secs records = [⟨kKeys, "", encodeStrings (records.map (fun r => utf8 r.key))⟩,
      ⟨kTs, "", encodeTimestamps records⟩, ⟨kPayload, "", encodePayloads records⟩,
      ⟨kBlocks, "", Rmp.toVec (buildBlocks records [])⟩] := by
  have hlabels : labelNames records = ∅ :=
    foldl_keys_empty Record.labels (fun r hr => (h r hr).labels)
  have hnumerics : numericNames records = ∅ :=
    foldl_keys_empty Record.numerics (fun r hr => (h r hr).numerics)
  have hnone : (∅ : StrSet).toList = [] := Std.ExtTreeSet.toList_eq_nil_iff.2 rfl
  have htexts : textSecs records = [] := by
    rw [textSecs, if_neg]
    simp only [List.any_eq_true, not_exists, not_and]
    exact fun r hr => by simp [(h r hr).text]
  have hplans : planLabels records = [] := by
    rw [planLabels, hlabels, hnone]
    rfl
  rw [secs, hlabels, hnumerics, htexts, hplans, hnone]
  rfl

variable (ν) in
/-- The length of the file the encoder writes. -/
@[reducible]
def encodedFile : SegmentFile ν where
  fileBytes rows :=
    match encodeV2 rows with
    | .ok file => file.length
    | .error _ => 0

theorem fileBytes_encodedFile (records : List (Record ν)) :
    (encodedFile ν).fileBytes records = (fileOf records).length := by
  change (match encodeV2 records with
    | .ok file => file.length
    | .error _ => 0) = _
  rw [encodeV2_eq]

/-- The rows of the file, its directory and block index, and 60 bytes. -/
theorem length_fileOf_plain (h : ∀ r ∈ records, Plain r) :
    (fileOf records).length = 60 + (records.map plainBytes).sum +
      (Rmp.toVec (buildBlocks records [])).length + (Rmp.toVec (dirOf records)).length := by
  -- Offsets, eight bytes each, take a key and a payload one more than there are rows.
  have hkeys : (encodeStrings (records.map (fun r => utf8 r.key))).length =
      4 + 8 * (records.length + 1) + (records.map (fun r => r.key.utf8ByteSize)).sum := by
    rw [encodeStrings, List.length_append, List.length_append, length_le32,
      length_flatMap_le64, length_offsets, List.length_map, List.length_flatten,
      List.map_map, Nat.add_assoc]
    rfl
  have hts : (encodeTimestamps records).length = 8 * records.length := by
    simp [encodeTimestamps, List.length_flatMap, Nat.mul_comm]
  have hpayloads : (encodePayloads records).length =
      8 * (records.length + 1) + (records.map (fun r => r.payload.length)).sum := by
    rw [encodePayloads, List.length_append, length_flatMap_le64, length_offsets,
      List.length_map, List.length_flatten, List.map_map]
    rfl
  rw [(footer_parts records).1, footerOffOf, secs_plain h, sum_plainBytes]
  simp only [List.flatMap_cons, List.flatMap_nil, List.length_append, sectionBytes, length_le32,
    hkeys, hts, hpayloads, List.length_nil]
  omega

end Length

/-! ## MessagePack -/

section Pack

def packInt (t : Int64) : Bytes :=
  if 0 ≤ t.toInt then packUint t.toInt.toNat
  else if -32 ≤ t.toInt then (leBytes 1 t.toBitVec.toNat).reverse
  else if -2 ^ 7 ≤ t.toInt then 0xd0 :: (leBytes 1 t.toBitVec.toNat).reverse
  else if -2 ^ 15 ≤ t.toInt then 0xd1 :: (leBytes 2 t.toBitVec.toNat).reverse
  else if -2 ^ 31 ≤ t.toInt then 0xd2 :: (leBytes 4 t.toBitVec.toNat).reverse
  else 0xd3 :: (leBytes 8 t.toBitVec.toNat).reverse

def packFloat (v : Binary64) : Bytes := 0xcb :: (leBytes 8 (FloatBits.toBits v).toNat).reverse

def packMap (items : List (Bytes × Bytes)) : Bytes :=
  let n := items.length
  (if n < 16 then [UInt8.ofNat (0x80 + n)]
  else if n < 2 ^ 16 then 0xde :: (leBytes 2 n).reverse
  else 0xdf :: (leBytes 4 n).reverse) ++ items.flatMap (fun kv => kv.1 ++ kv.2)

def packBlock (b : BlockMeta Binary64) : Bytes :=
  packArray [packUint b.start.toNat, packUint b.stop.toNat, packInt b.minTs, packInt b.maxTs,
    packStr b.firstKey, packStr b.lastKey,
    packMap (b.numerics.toList.map (fun nv =>
      (packStr nv.1, packArray [packFloat nv.2.1, packFloat nv.2.2]))),
    packMap (b.labelBitsets.toList.map (fun nv => (packStr nv.1, packUint nv.2.toNat)))]

theorem length_packUint_le (n : Nat) : (packUint n).length ≤ 9 := by
  unfold packUint
  split_ifs <;> simp

theorem length_packInt_le (t : Int64) : (packInt t).length ≤ 9 := by
  unfold packInt
  split_ifs
  · exact length_packUint_le _
  all_goals simp

theorem length_packStr_le {s : String} (h : s.utf8ByteSize ≤ 4) : (packStr s).length ≤ 9 := by
  rw [← length_utf8] at h
  unfold packStr
  simp only [List.length_append]
  split_ifs
  all_goals simp only [List.length_cons, List.length_reverse, length_leBytes, List.length_nil]
  all_goals omega

theorem length_packArray_le_sum (items : List Bytes) :
    (packArray items).length ≤ 5 + (items.map List.length).sum := by
  unfold packArray
  simp only [List.length_append, List.length_flatten]
  split_ifs
  all_goals simp

/-- An array of items of at most `c` bytes. -/
theorem length_packArray_le {items : List Bytes} {c : Nat} (h : ∀ item ∈ items, item.length ≤ c) :
    (packArray items).length ≤ 5 + items.length * c := by
  have hsum := List.sum_le_card_nsmul (items.map List.length) c (by simpa using h)
  rw [List.length_map] at hsum
  exact (length_packArray_le_sum items).trans (Nat.add_le_add_left hsum 5)

theorem length_packDir_le {dir : SectionDir} (hnames : ∀ e ∈ dir.entries, e.name = "") :
    (packDir dir).length ≤ 19 + 50 * dir.entries.length := by
  have hentry : ∀ e ∈ dir.entries, (packArray [packUint e.kind.toNat, packStr e.name,
      packUint e.offset.toNat, packUint e.len.toNat, packUint e.crc.toNat]).length ≤ 50 := by
    intro e he
    have hname : (packStr e.name).length ≤ 9 := length_packStr_le (by rw [hnames e he]; decide)
    refine length_packArray_le (c := 9) ?_
    simp only [List.forall_mem_cons, length_packUint_le, hname, true_and]
    simp
  unfold packDir
  generalize hpack : (fun e : SectionEntry => packArray [packUint e.kind.toNat, packStr e.name,
    packUint e.offset.toNat, packUint e.len.toNat, packUint e.crc.toNat]) = pack
  have hentries : (packArray (dir.entries.map pack)).length ≤ 5 + dir.entries.length * 50 := by
    rw [← List.length_map (f := pack)]
    refine length_packArray_le (fun item hitem => ?_)
    obtain ⟨e, he, rfl⟩ := List.mem_map.1 hitem
    rw [← hpack]
    exact hentry e he
  have hcount := length_packUint_le dir.count.toNat
  have hdir := length_packArray_le_sum
    [packUint dir.count.toNat, packArray (dir.entries.map pack)]
  simp only [List.map_cons, List.map_nil, List.sum_cons, List.sum_nil] at hdir
  omega

/-- A block whose rows have neither labels nor numerics, and short keys. -/
theorem length_packBlock_le {b : BlockMeta Binary64} (hfirst : b.firstKey.utf8ByteSize ≤ 4)
    (hlast : b.lastKey.utf8ByteSize ≤ 4) (hnumerics : b.numerics = ∅)
    (hbitsets : b.labelBitsets = ∅) : (packBlock b).length ≤ 77 := by
  have hnone : (∅ : OrdMap String (Binary64 × Binary64)).toList = [] := by simp
  have hnone' : (∅ : OrdMap String UInt64).toList = [] := by simp
  unfold packBlock
  rw [hnumerics, hbitsets, hnone, hnone']
  refine length_packArray_le (c := 9) ?_
  simp only [List.forall_mem_cons, length_packUint_le, length_packInt_le,
    length_packStr_le hfirst, length_packStr_le hlast, true_and]
  decide

end Pack

section Bound

variable [Unicode] [Deflate] [Crc32]

/-- The block index and the directory as the files have them.  Nothing is read back here. -/
@[reducible]
def packedBlocks : Rmp (List (BlockMeta Binary64)) where
  toVec blocks := packArray (blocks.map packBlock)
  fromSlice _ := .error "wrong msgpack marker"

@[reducible]
def packedDir : Rmp SectionDir where
  toVec := packDir
  fromSlice _ := .error "wrong msgpack marker"

local instance instFootprintRmpBlocks : Rmp (List (BlockMeta Binary64)) := packedBlocks

local instance instFootprintRmpDir : Rmp SectionDir := packedDir

variable {records : List (Record Binary64)}

omit [Unicode] [Deflate] [Crc32] in
/-- Up to one block of rows make one block. -/
theorem buildBlocks_of_le {plans : List LabelPlan} (hne : records ≠ [])
    (hle : records.length ≤ blockRows) :
    buildBlocks records plans = [blockMeta records plans 0 records.length] := by
  have hpos : 0 < records.length := List.length_pos_iff.2 hne
  have hdone : ∀ fuel, blocksFrom records plans fuel records.length = [] := by
    intro fuel
    cases fuel with
    | zero => rfl
    | succ fuel => rw [blocksFrom, if_neg (Nat.lt_irrefl _)]
  -- The first round takes all rows, and the next one finds none left.
  have hround : ∀ fuel, 0 < fuel →
      blocksFrom records plans fuel 0 = [blockMeta records plans 0 records.length] := by
    intro fuel hfuel
    cases fuel with
    | zero => exact absurd hfuel (Nat.lt_irrefl 0)
    | succ fuel =>
        have hend : min (0 + blockRows) records.length = records.length := by
          rw [Nat.zero_add, min_eq_right hle]
        rw [blocksFrom, if_pos hpos]
        simp only [hend, hdone]
  exact hround records.length hpos

omit [Unicode] [Deflate] [Crc32] in
theorem numerics_blockMeta_plain (h : ∀ r ∈ records, Plain r) (s e : Nat) :
    (blockMeta records [] s e).numerics = ∅ := by
  have hrows : ∀ r ∈ (records.drop s).take (e - s), Plain r :=
    fun r hr => h r (List.mem_of_mem_drop (List.mem_of_mem_take hr))
  rw [blockMeta]
  simp only
  -- Over the rows of the block: a row without numerics leaves the ranges empty.
  generalize (records.drop s).take (e - s) = rows at hrows
  induction rows with
  | nil => rfl
  | cons r rows ih =>
      have hnone : (∅ : OrdMap String Binary64).toList = [] := by simp
      rw [List.foldl_cons, (hrows r List.mem_cons_self).numerics, hnone, List.foldl_nil]
      exact ih (fun t ht => hrows t (List.mem_cons_of_mem r ht))

/-- The file of a block of plain rows with short keys: its rows and a few hundred bytes. -/
theorem length_fileOf_plain_le (h : ∀ r ∈ records, Plain r)
    (hkeys : ∀ r ∈ records, r.key.utf8ByteSize ≤ 4) (hne : records ≠ [])
    (hle : records.length ≤ blockRows) :
    (fileOf records).length ≤ 361 + (records.map plainBytes).sum := by
  have hblocks : (Rmp.toVec (buildBlocks records [])).length ≤ 82 := by
    rw [buildBlocks_of_le hne hle]
    have hkey : ∀ o : Option (Record Binary64), (∀ r ∈ o, r ∈ records) →
        ((o.map Record.key).getD "").utf8ByteSize ≤ 4 := by
      intro o ho
      cases o with
      | none => decide
      | some r => exact hkeys r (ho r rfl)
    refine length_packArray_le (c := 77) ?_
    simp only [List.map_cons, List.map_nil, List.forall_mem_singleton]
    refine length_packBlock_le ?_ ?_ ?_ rfl
    · exact hkey _ (fun r hr => List.mem_of_getElem? hr)
    · exact hkey _ (fun r hr => List.mem_of_getElem? hr)
    · exact numerics_blockMeta_plain h 0 _
  -- Four sections without names.
  have hdir : (Rmp.toVec (dirOf records)).length ≤ 219 := by
    have hentries : (dirOf records).entries.length = 4 := by
      rw [dirOf, secs_plain h]
      rfl
    have hnames : ∀ e ∈ (dirOf records).entries, e.name = "" := by
      rw [dirOf, secs_plain h]
      simp [layout, sectionEntry]
    have hle := length_packDir_le hnames
    rwa [hentries] at hle
  rw [length_fileOf_plain h]
  omega

end Bound

end Girder
