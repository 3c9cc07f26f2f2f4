import Girder.Tokens

/-!
# Columns — a segment decoded into typed columns

A segment's rows are held column by column: keys and timestamps, one column per label and per numeric,
the block index, and payloads and texts that either sit in memory or are cut out of the file for the
rows that survive a query.  `fromRecords` builds the columns of rows in memory; loading a file builds
the same columns from its sections.
-/

namespace Girder

open Lib

/-- Rows per block-index entry. -/
def blockRows : Nat := 4096

/-- Most distinct values a label dictionary holds. -/
def dictMax : Nat := 2 ^ 16 - 1

/-- Label codes a block's bitset can represent. -/
def blockBitsetCodes : Nat := 64

/-- DEFLATE, as the compression library offers it. -/
class Deflate where
  deflate : Bytes → Bytes
  inflate : Bytes → Option Bytes

/-- `read_exact_at`: the whole range or an error. -/
def readAt (file : Bytes) (offset len : Nat) : Res Bytes :=
  if offset + len ≤ file.length then .ok ((file.drop offset).take len)
  else .error (.err (.io "UnexpectedEof"))

/-! ## The columns -/

/-- A label column: codes into a dictionary (`0` is absent, else index plus one), or the values. -/
inductive LabelColumn
  | dict (dict : List String) (codeOf : OrdMap String Nat) (codes : List Nat)
  | plain (values : List (Option String))

/-- A numeric column: `present[i]` gates `values[i]`. -/
structure NumericColumn (ν : Type) where
  present : List Bool
  values : List ν

/-- The key column: concatenated keys and their byte offsets. -/
structure KeysSection where
  blob : String
  offsets : List Nat

/-- The payload offset table; the bytes stay in the file. -/
structure PayloadIndex where
  absBase : Nat
  rel : List Nat

/-- The text offset table, in stored space; `compressed` marks rows that are deflated. -/
structure TextIndex where
  absBase : Nat
  present : List Bool
  rel : List Nat
  compressed : Option (List Bool)

/-- Pruning metadata of a block of rows. -/
structure BlockMeta (ν : Type) where
  start : UInt32
  /-- Exclusive end. -/
  stop : UInt32
  minTs : Int64
  maxTs : Int64
  firstKey : String
  lastKey : String
  /-- Bounds over the values that are numbers. -/
  numerics : OrdMap String (ν × ν)
  /-- For a small dictionary, the codes present: bit `c - 1` for code `c`. -/
  labelBitsets : OrdMap String UInt64

inductive Payloads
  | file (idx : PayloadIndex)
  | mem (payloads : List Bytes)

inductive Texts
  | file (idx : TextIndex)
  | mem (texts : List (Option String))

/-- A segment decoded into typed columns. -/
structure SegmentColumns (ν : Type) where
  count : Nat
  keys : KeysSection
  timestamps : List Int64
  labels : OrdMap String LabelColumn
  numerics : OrdMap String (NumericColumn ν)
  blocks : List (BlockMeta ν)
  payloads : Payloads
  /-- `none`: no row has text. -/
  texts : Option Texts
  tokens : Option TokenIndex

namespace KeysSection

def keyAt (k : KeysSection) (i : Nat) : Res String := do
  let a ← Res.index k.offsets i
  let b ← Res.index k.offsets (i + 1)
  Res.sliceStr k.blob a b

end KeysSection

namespace LabelColumn

/-- The label's value at row `i`. -/
def valueAt (col : LabelColumn) (i : Nat) : Res (Option String) :=
  match col with
  | .dict words _ codes => do
      let c ← Res.index codes i
      if c = 0 then pure none else some <$> Res.index words (c - 1)
  | .plain values => Res.index values i

end LabelColumn

namespace NumericColumn

variable {ν : Type}

def valueAt (col : NumericColumn ν) (i : Nat) : Res (Option ν) := do
  let p ← Res.index col.present i
  if p then some <$> Res.index col.values i else pure none

end NumericColumn

/-- Row `i`'s stored bytes as text. -/
def TextIndex.decodeRowText [Deflate] (ti : TextIndex) (i : Nat) (stored : Bytes) :
    Res String := do
  let compressed ←
    match ti.compressed with
    | none => pure false
    | some c => Res.index c i
  let bytes ←
    if compressed then
      match Deflate.inflate stored with
      | some raw => pure raw
      | none => throw (corrupt "text row inflate failed")
    else
      pure stored
  Res.utf8 bytes "text not utf8"

namespace SegmentColumns

variable {ν : Type}

def keyAt (cols : SegmentColumns ν) (i : Nat) : Res String := cols.keys.keyAt i

section Materialize

variable [Deflate]

/-- Row `i`'s text.  An empty range is a present but empty text. -/
def textAt (cols : SegmentColumns ν) (i : Nat) (file : Option Bytes) : Res (Option String) :=
  match cols.texts with
  | none => pure none
  | some (.mem texts) => Res.index texts i
  | some (.file ti) => do
      let present ← Res.index ti.present i
      if !present then
        pure none
      else do
        let start ← Res.index ti.rel i
        let stop ← Res.index ti.rel (i + 1)
        let len ← Res.sub64 stop start
        if len = 0 then
          pure (some "")
        else
          match file with
          | none => throw (corrupt "text file handle missing")
          | some file => do
              let offset ← Res.add64 ti.absBase start
              let stored ← readAt file offset len
              some <$> ti.decodeRowText i stored

/-- One column of a row, for every name the columns have. -/
def gather {κ α : Type} (cols : OrdMap String κ) (valueAt : κ → Res (Option α)) :
    Res (OrdMap String α) :=
  cols.toList.foldlM
    (fun row col => do
      match ← valueAt col.2 with
      | some v => pure (row.insert col.1 v)
      | none => pure row)
    ∅

omit [Deflate] in
def buildRecord (cols : SegmentColumns ν) (i : Nat) (payload : Bytes) (text : Option String) :
    Res (Record ν) := do
  let labels ← gather cols.labels (fun col => col.valueAt i)
  let numerics ← gather cols.numerics (fun col => col.valueAt i)
  let key ← cols.keyAt i
  let timestamp ← Res.index cols.timestamps i
  pure { key, timestamp, labels, numerics, payload, text }

def payloadAt (cols : SegmentColumns ν) (i : Nat) (file : Option Bytes) : Res Bytes :=
  match cols.payloads with
  | .mem payloads => Res.index payloads i
  | .file pi =>
      match file with
      | none => throw (corrupt "payload file handle missing")
      | some file => do
          let start ← Res.index pi.rel i
          let offset ← Res.add64 pi.absBase start
          let stop ← Res.index pi.rel (i + 1)
          let len ← Res.sub64 stop start
          readAt file offset len

/-- Row `i` as a record; without `wantText` the text column is not touched. -/
def materialize (cols : SegmentColumns ν) (i : Nat) (file : Option Bytes) (wantText : Bool) :
    Res (Record ν) := do
  let payload ← cols.payloadAt i file
  let text ← if wantText then cols.textAt i file else pure none
  cols.buildRecord i payload text

end Materialize

end SegmentColumns

/-! ## Planning the label columns -/

/-- The code of each dictionary value: its index plus one, in 16 bits. -/
def codesOf (dict : List String) : OrdMap String Nat :=
  OrdMap.ofPairs (dict.zipIdx.map (fun si => (si.1, (si.2 + 1) % 2 ^ 16)))

inductive LabelMode
  | dict (dict : List String) (codes : List Nat)
  | plain

structure LabelPlan where
  name : String
  mode : LabelMode

section Plans

variable {ν : Type}

def labelNames (records : List (Record ν)) : StrSet :=
  records.foldl (fun names r => r.labels.keys.foldl (fun names k => names.insert k) names) ∅

def numericNames (records : List (Record ν)) : StrSet :=
  records.foldl (fun names r => r.numerics.keys.foldl (fun names k => names.insert k) names) ∅

/-- The distinct values of a label. -/
def distinctValues (records : List (Record ν)) (name : String) : StrSet :=
  records.foldl
    (fun values r =>
      match r.labels[name]? with
      | some v => values.insert v
      | none => values)
    ∅

/-- A row's code; every value of the label is in the dictionary. -/
def codeAt (index : OrdMap String Nat) (value : Option String) : Nat :=
  match value with
  | some v => index[v]?.getD 0
  | none => 0

def planLabel (records : List (Record ν)) (name : String) : LabelPlan where
  name := name
  mode :=
    let distinct := distinctValues records name
    if distinct.size ≤ dictMax then
      let dict := distinct.toList
      .dict dict (records.map (fun r => codeAt (codesOf dict) r.labels[name]?))
    else
      .plain

def planLabels (records : List (Record ν)) : List LabelPlan :=
  (labelNames records).toList.map (planLabel records)

/-! ## The block index -/

variable [Numeral ν] [FloatBits ν]

/-- Widen a block's bounds; they start empty, and a value that is not a number leaves them. -/
def addBlockNumeric (old : Option (ν × ν)) (v : ν) : ν × ν :=
  let entry := old.getD (FloatBits.infinity, FloatBits.negInfinity)
  (Numeral.fmin entry.1 v, Numeral.fmax entry.2 v)

/-- The bitset of some codes. -/
def codeBits (codes : List Nat) : UInt64 :=
  codes.foldl
    (fun bits c =>
      if 1 ≤ c ∧ c ≤ blockBitsetCodes then bits ||| UInt64.ofNat (2 ^ (c - 1)) else bits)
    0

/-- The bitsets of the labels with a small dictionary, over rows `s` to `e`. -/
def blockBitsets (plans : List LabelPlan) (s e : Nat) : OrdMap String UInt64 :=
  OrdMap.ofPairs (plans.filterMap (fun plan =>
    match plan.mode with
    | .dict dict codes =>
        if dict.length ≤ blockBitsetCodes then
          some (plan.name, codeBits ((codes.drop s).take (e - s)))
        else
          none
    | .plain => none))

/-- The entry of rows `s` to `e`. -/
def blockMeta (records : List (Record ν)) (plans : List LabelPlan) (s e : Nat) : BlockMeta ν :=
  let rows := (records.drop s).take (e - s)
  { start := UInt32.ofNat s
    stop := UInt32.ofNat e
    minTs := rows.foldl (fun ts r => min ts r.timestamp) Int64.maxValue
    maxTs := rows.foldl (fun ts r => max ts r.timestamp) Int64.minValue
    firstKey := (records[s]?.map Record.key).getD ""
    lastKey := (records[e - 1]?.map Record.key).getD ""
    numerics :=
      rows.foldl (fun bounds r => r.numerics.toList.foldl (OrdMap.update addBlockNumeric) bounds) ∅
    labelBitsets := blockBitsets plans s e }

/-- The loop over the blocks; each round advances, so the number of rows bounds the rounds. -/
def blocksFrom (records : List (Record ν)) (plans : List LabelPlan) :
    Nat → Nat → List (BlockMeta ν)
  | 0, _ => []
  | fuel + 1, s =>
      if s < records.length then
        let e := min (s + blockRows) records.length
        blockMeta records plans s e :: blocksFrom records plans fuel e
      else
        []

def buildBlocks (records : List (Record ν)) (plans : List LabelPlan) : List (BlockMeta ν) :=
  blocksFrom records plans records.length 0

end Plans

/-! ## Columns of rows in memory -/

section FromRecords

variable {ν : Type}

def keysSection (records : List (Record ν)) : KeysSection where
  blob := String.join (records.map Record.key)
  offsets := offsets (records.map (fun r => utf8 r.key))

def labelColumn (records : List (Record ν)) (plan : LabelPlan) : LabelColumn :=
  match plan.mode with
  | .dict dict codes => .dict dict (codesOf dict) codes
  | .plain => .plain (records.map (fun r => r.labels[plan.name]?))

def labelColumns (records : List (Record ν)) : OrdMap String LabelColumn :=
  OrdMap.ofPairs ((planLabels records).map (fun p => (p.name, labelColumn records p)))

variable [FloatBits ν]

def numericColumn (records : List (Record ν)) (name : String) : NumericColumn ν where
  present := records.map (fun r => r.numerics[name]?.isSome)
  values := records.map (fun r => r.numerics[name]?.getD FloatBits.nan)

def numericColumns (records : List (Record ν)) : OrdMap String (NumericColumn ν) :=
  OrdMap.ofPairs ((numericNames records).toList.map (fun n => (n, numericColumn records n)))

variable [Unicode] [Numeral ν]

def SegmentColumns.fromRecords (records : List (Record ν)) : SegmentColumns ν where
  count := records.length
  keys := keysSection records
  timestamps := records.map Record.timestamp
  labels := labelColumns records
  numerics := numericColumns records
  blocks := buildBlocks records (planLabels records)
  payloads := .mem (records.map Record.payload)
  texts :=
    if records.any (fun r => r.text.isSome) then some (.mem (records.map Record.text)) else none
  tokens := if records.any (fun r => r.text.isSome) then some (TokenIndex.build records) else none

end FromRecords

/-! ## Codes -/

/-- The code of a dictionary value is its index plus one. -/
theorem getElem?_codesOf {dict : List String} (hn : dict.Nodup) (hlen : dict.length ≤ dictMax)
    {v : String} {c : Nat} :
    (codesOf dict)[v]? = some c ↔ ∃ j, dict[j]? = some v ∧ c = j + 1 := by
  have hd : (dict.zipIdx.map (fun si => (si.1, (si.2 + 1) % 2 ^ 16))).Pairwise
      (fun a b => a.1 ≠ b.1) := by
    have hfst : (dict.zipIdx.map Prod.fst).Nodup := by rwa [List.zipIdx_map_fst]
    exact List.pairwise_map.2 (List.pairwise_map.1 hfst)
  rw [codesOf, OrdMap.getElem?_ofPairs hd, List.mem_map]
  constructor
  · rintro ⟨⟨w, j⟩, hmem, heq⟩
    obtain ⟨rfl, rfl⟩ := Prod.mk.inj heq
    have hget := List.mem_zipIdx_iff_getElem?.1 hmem
    obtain ⟨hj, -⟩ := List.getElem?_eq_some_iff.1 hget
    refine ⟨j, hget, Nat.mod_eq_of_lt ?_⟩
    unfold dictMax at hlen
    omega
  · rintro ⟨j, hget, rfl⟩
    obtain ⟨hj, -⟩ := List.getElem?_eq_some_iff.1 hget
    refine ⟨(v, j), List.mem_zipIdx_iff_getElem?.2 hget, ?_⟩
    have hmod : (j + 1) % 2 ^ 16 = j + 1 := by
      refine Nat.mod_eq_of_lt ?_
      unfold dictMax at hlen
      omega
    rw [hmod]

section Shows

variable {ν : Type} {records : List (Record ν)}

theorem mem_distinctValues {name v : String} :
    v ∈ distinctValues records name ↔ ∃ r ∈ records, r.labels[name]? = some v := by
  have hloop : ∀ (records : List (Record ν)) (values : StrSet),
      v ∈ records.foldl
          (fun values r =>
            match r.labels[name]? with
            | some v => values.insert v
            | none => values) values ↔
        v ∈ values ∨ ∃ r ∈ records, r.labels[name]? = some v := by
    intro records
    induction records with
    | nil => simp
    | cons r records ih =>
        intro values
        rw [List.foldl_cons, ih]
        cases hr : r.labels[name]? with
        | none => simp [hr]
        | some w =>
            simp only [Std.ExtTreeSet.mem_insert, compare_eq_iff_eq, List.mem_cons,
              exists_eq_or_imp, hr, Option.some.injEq]
            tauto
  simpa [distinctValues] using hloop records ∅

theorem mem_foldl_names {β : Type} {names : β → List String} {n : String} (l : List β)
    (acc : StrSet) :
    n ∈ l.foldl (fun acc b => (names b).foldl (fun acc k => acc.insert k) acc) acc ↔
      n ∈ acc ∨ ∃ b ∈ l, n ∈ names b := by
  have hins : ∀ (ks : List String) (acc : StrSet),
      n ∈ ks.foldl (fun acc k => acc.insert k) acc ↔ n ∈ acc ∨ n ∈ ks := by
    intro ks
    induction ks with
    | nil => simp
    | cons k ks ih =>
        intro acc
        rw [List.foldl_cons, ih]
        simp only [Std.ExtTreeSet.mem_insert, compare_eq_iff_eq, List.mem_cons]
        tauto
  induction l generalizing acc with
  | nil => simp
  | cons b l ih =>
      refine (ih _).trans ?_
      rw [hins]
      simp only [List.mem_cons, exists_eq_or_imp]
      tauto

theorem mem_labelNames {n : String} :
    n ∈ labelNames records ↔ ∃ r ∈ records, n ∈ r.labels := by
  rw [labelNames, mem_foldl_names]
  simp

theorem mem_numericNames {n : String} :
    n ∈ numericNames records ↔ ∃ r ∈ records, n ∈ r.numerics := by
  rw [numericNames, mem_foldl_names]
  simp

/-- Every value of a label is in its dictionary. -/
theorem planLabel_dict {name : String} (h : (distinctValues records name).size ≤ dictMax) :
    planLabel records name = ⟨name, .dict (distinctValues records name).toList
      (records.map (fun r => codeAt (codesOf (distinctValues records name).toList)
        r.labels[name]?))⟩ := by
  simp [planLabel, h]

theorem planLabel_plain {name : String} (h : ¬ (distinctValues records name).size ≤ dictMax) :
    planLabel records name = ⟨name, .plain⟩ := by
  simp [planLabel, h]

theorem dict_nodup (values : StrSet) : values.toList.Nodup := by
  have h : values.toList.Pairwise (fun a b => ¬ compare a b = .eq) :=
    Std.ExtTreeSet.distinct_toList
  exact h.imp (fun hne heq => hne (compare_eq_iff_eq.2 heq))

theorem codeAt_some {name v : String} {r : Record ν} (hr : r ∈ records)
    (hv : r.labels[name]? = some v)
    (hsize : (distinctValues records name).size ≤ dictMax) :
    ∃ j, (distinctValues records name).toList[j]? = some v ∧
      codeAt (codesOf (distinctValues records name).toList) (some v) = j + 1 := by
  have hmem : v ∈ (distinctValues records name).toList :=
    Std.ExtTreeSet.mem_toList.2 (mem_distinctValues.2 ⟨r, hr, hv⟩)
  obtain ⟨j, hj⟩ := List.mem_iff_getElem?.1 hmem
  have hcode := (getElem?_codesOf (dict_nodup _)
    (by rwa [Std.ExtTreeSet.length_toList])).2 ⟨j, hj, rfl⟩
  exact ⟨j, hj, by simp [codeAt, hcode]⟩

/-- A label column holds each row's value. -/
theorem valueAt_labelColumn {name : String} {i : Nat} {r : Record ν} (hr : records[i]? = some r) :
    (labelColumn records (planLabel records name)).valueAt i = .ok r.labels[name]? := by
  have hmem : r ∈ records := List.mem_of_getElem? hr
  by_cases hsize : (distinctValues records name).size ≤ dictMax
  · have hget : (records.map (fun r => codeAt (codesOf (distinctValues records name).toList)
        r.labels[name]?))[i]? =
        some (codeAt (codesOf (distinctValues records name).toList) r.labels[name]?) := by
      simp [hr]
    rw [planLabel_dict hsize, labelColumn, LabelColumn.valueAt, Res.index_of_getElem? hget,
      Res.ok_bind]
    cases hv : r.labels[name]? with
    | none => rfl
    | some v =>
        obtain ⟨j, hj, hcode⟩ := codeAt_some hmem hv hsize
        rw [hcode, if_neg (by omega), Nat.add_sub_cancel, Res.index_of_getElem? hj]
        rfl
  · rw [planLabel_plain hsize, labelColumn, LabelColumn.valueAt]
    exact Res.index_of_getElem? (by simp [hr])

/-- The key column holds each row's key. -/
theorem keyAt_keysSection {i : Nat} {r : Record ν} (hr : records[i]? = some r) :
    (keysSection records).keyAt i = .ok r.key := by
  obtain ⟨hi, rfl⟩ := List.getElem?_eq_some_iff.1 hr
  have hstart : (keysSection records).offsets[i]? =
      some (((records.map Record.key).take i).flatMap utf8).length := by
    rw [keysSection, getElem?_offsets (by simpa using hi.le)]
    simp [List.flatMap_def, List.map_take, Function.comp_def]
  have hstop : (keysSection records).offsets[i + 1]? =
      some (((records.map Record.key).take (i + 1)).flatMap utf8).length := by
    rw [keysSection, getElem?_offsets (by simpa using Nat.succ_le_of_lt hi)]
    simp [List.flatMap_def, List.map_take, Function.comp_def]
  have hslice := sliceStr_join (show i < (records.map Record.key).length by simpa using hi)
  rw [KeysSection.keyAt, Res.index_of_getElem? hstart, Res.ok_bind, Res.index_of_getElem? hstop,
    Res.ok_bind]
  exact (Res.unwrap_of_eq_some hslice).trans (by rw [List.getElem_map])

/-- The value of one column, filed under its name. -/
def gatherStep {κ α : Type} (valueAt : κ → Res (Option α)) (row : OrdMap String α)
    (col : String × κ) : Res (OrdMap String α) := do
  match ← valueAt col.2 with
  | some v => pure (row.insert col.1 v)
  | none => pure row

theorem gather_eq {κ α : Type} (cols : OrdMap String κ) (valueAt : κ → Res (Option α)) :
    SegmentColumns.gather cols valueAt = cols.toList.foldlM (gatherStep valueAt) ∅ := rfl

/-- The loop over the columns files each value under its name and skips the absent ones. -/
theorem gather_loop {κ α : Type} {valueAt : κ → Res (Option α)} {row : OrdMap String α} :
    ∀ (l : List (String × κ)) (acc : OrdMap String α),
      (∀ col ∈ l, valueAt col.2 = .ok row[col.1]?) →
      ∃ m, l.foldlM (gatherStep valueAt) acc = .ok m ∧
        ∀ n : String, m[n]? =
          if n ∈ l.map Prod.fst ∧ row[n]?.isSome = true then row[n]? else acc[n]? := by
  intro l
  induction l with
  | nil => exact fun acc _ => ⟨acc, rfl, by simp⟩
  | cons col l ih =>
      intro acc h
      rw [List.foldlM_cons, gatherStep, h col (by simp), Res.ok_bind]
      have hl : ∀ c ∈ l, valueAt c.2 = .ok row[c.1]? := fun c hc => h c (by simp [hc])
      cases hv : row[col.1]? with
      | none =>
          -- The row has nothing in this column, so the step leaves the map alone.
          obtain ⟨m, hm, hget⟩ := ih acc hl
          refine ⟨m, hm, fun n => ?_⟩
          rw [hget]
          by_cases hn : n = col.1
          · subst hn
            simp [hv]
          · have hmem : n ∈ l.map Prod.fst ↔ n ∈ (col :: l).map Prod.fst := by
              rw [List.map_cons, List.mem_cons, or_iff_right hn]
            exact if_congr (and_congr_left' hmem) rfl rfl
      | some v =>
          obtain ⟨m, hm, hget⟩ := ih (acc.insert col.1 v) hl
          refine ⟨m, hm, fun n => ?_⟩
          rw [hget]
          by_cases hn : n = col.1
          · subst hn
            simp [hv]
          · have hmem : n ∈ l.map Prod.fst ↔ n ∈ (col :: l).map Prod.fst := by
              rw [List.map_cons, List.mem_cons, or_iff_right hn]
            refine if_congr (and_congr_left' hmem) rfl ?_
            simp [Std.ExtTreeMap.getElem?_insert, Ne.symm hn]

/-- Gathering one row out of columns that hold it. -/
theorem gather_ok {κ α : Type} {cols : OrdMap String κ} {valueAt : κ → Res (Option α)}
    {row : OrdMap String α}
    (hcol : ∀ (n : String) (col : κ), cols[n]? = some col → valueAt col = .ok row[n]?)
    (hall : ∀ n : String, n ∈ row → n ∈ cols) : SegmentColumns.gather cols valueAt = .ok row := by
  obtain ⟨m, hm, hget⟩ := gather_loop cols.toList ∅
    (fun col hmem => hcol col.1 col.2 (Std.ExtTreeMap.mem_toList_iff_getElem?_eq_some.1 hmem))
  refine hm.trans (congrArg _ (Std.ExtTreeMap.ext_getElem? (fun n => ?_)))
  rw [hget]
  cases hv : row[n]? with
  | none => simp
  | some v =>
      have hmem : n ∈ cols := hall n (Std.ExtTreeMap.mem_iff_isSome_getElem?.2 (by simp [hv]))
      simp [hmem]

/-- The pairs of a name and its column have distinct names. -/
theorem pairwise_named {κ : Type} (names : StrSet) (col : String → κ) :
    (names.toList.map (fun n => (n, col n))).Pairwise (fun a b => a.1 ≠ b.1) :=
  List.pairwise_map.2 (dict_nodup names)

theorem getElem?_named {κ : Type} {names : StrSet} {f : String → κ} {n : String} {col : κ} :
    (OrdMap.ofPairs (names.toList.map (fun n => (n, f n))))[n]? = some col ↔
      n ∈ names ∧ col = f n := by
  rw [OrdMap.getElem?_ofPairs (pairwise_named names f), List.mem_map]
  constructor
  · rintro ⟨m, hm, heq⟩
    obtain ⟨rfl, rfl⟩ := Prod.mk.inj heq
    exact ⟨Std.ExtTreeSet.mem_toList.1 hm, rfl⟩
  · rintro ⟨hn, rfl⟩
    exact ⟨n, Std.ExtTreeSet.mem_toList.2 hn, rfl⟩

theorem labelColumns_eq (records : List (Record ν)) :
    labelColumns records = OrdMap.ofPairs ((labelNames records).toList.map
      (fun n => (n, labelColumn records (planLabel records n)))) := by
  rw [labelColumns, planLabels, List.map_map]
  rfl

variable [FloatBits ν]

theorem valueAt_numericColumn {name : String} {i : Nat} {r : Record ν}
    (hr : records[i]? = some r) :
    (numericColumn records name).valueAt i = .ok r.numerics[name]? := by
  have hpresent : (numericColumn records name).present[i]? = some r.numerics[name]?.isSome := by
    simp [numericColumn, hr]
  have hvalue : (numericColumn records name).values[i]? =
      some (r.numerics[name]?.getD FloatBits.nan) := by
    simp [numericColumn, hr]
  rw [NumericColumn.valueAt, Res.index_of_getElem? hpresent, Res.ok_bind,
    Res.index_of_getElem? hvalue]
  cases r.numerics[name]? <;> rfl

/-- The columns, payloads and texts apart, are those of `records`. -/
structure SegmentColumns.Shows [Numeral ν] (cols : SegmentColumns ν) (records : List (Record ν)) :
    Prop where
  count_eq : cols.count = records.length
  keys_eq : cols.keys = keysSection records
  timestamps_eq : cols.timestamps = records.map Record.timestamp
  labels_eq : cols.labels = labelColumns records
  numerics_eq : cols.numerics = numericColumns records
  blocks_eq : cols.blocks = buildBlocks records (planLabels records)

variable [Numeral ν]

/-- A row put together from the columns. -/
theorem SegmentColumns.Shows.buildRecord {cols : SegmentColumns ν} (h : cols.Shows records)
    {i : Nat} {r : Record ν} (hr : records[i]? = some r) (payload : Bytes) (text : Option String) :
    cols.buildRecord i payload text = .ok { r with payload := payload, text := text } := by
  have hmem : r ∈ records := List.mem_of_getElem? hr
  have hlabels : SegmentColumns.gather cols.labels (fun col => col.valueAt i) = .ok r.labels := by
    rw [h.labels_eq, labelColumns_eq]
    refine gather_ok (fun n col hcol => ?_) (fun n hn => ?_)
    · obtain ⟨-, rfl⟩ := getElem?_named.1 hcol
      exact valueAt_labelColumn hr
    · exact Std.ExtTreeMap.mem_iff_isSome_getElem?.2
        (Option.isSome_iff_exists.2 ⟨_, getElem?_named.2 ⟨mem_labelNames.2 ⟨r, hmem, hn⟩, rfl⟩⟩)
  have hnumerics : SegmentColumns.gather cols.numerics (fun col => col.valueAt i) =
      .ok r.numerics := by
    rw [h.numerics_eq, numericColumns]
    refine gather_ok (fun n col hcol => ?_) (fun n hn => ?_)
    · obtain ⟨-, rfl⟩ := getElem?_named.1 hcol
      exact valueAt_numericColumn hr
    · exact Std.ExtTreeMap.mem_iff_isSome_getElem?.2
        (Option.isSome_iff_exists.2 ⟨_, getElem?_named.2 ⟨mem_numericNames.2 ⟨r, hmem, hn⟩, rfl⟩⟩)
  have hkey : cols.keyAt i = .ok r.key := by
    rw [SegmentColumns.keyAt, h.keys_eq]
    exact keyAt_keysSection hr
  have hts : Res.index cols.timestamps i = .ok r.timestamp := by
    rw [h.timestamps_eq]
    exact Res.index_of_getElem? (by simp [hr])
  rw [SegmentColumns.buildRecord, hlabels, Res.ok_bind, hnumerics, Res.ok_bind, hkey, Res.ok_bind,
    hts]
  rfl

theorem SegmentColumns.shows_fromRecords [Unicode] (records : List (Record ν)) :
    (SegmentColumns.fromRecords records).Shows records where
  count_eq := rfl
  keys_eq := rfl
  timestamps_eq := rfl
  labels_eq := rfl
  numerics_eq := rfl
  blocks_eq := rfl

end Shows

end Girder
