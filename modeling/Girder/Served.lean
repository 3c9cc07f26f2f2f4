import Girder.Matching
import Girder.Queries

/-!
# Served — what a query finds in the columns of a segment's file

A segment's file holds its rows, in the current format or in the legacy one.  Columns loaded from
it, with or without the token index, answer every lookup a query makes as the rows do: the binary
search, the selection, and the cells of a row.
-/

namespace Girder

open Lib

section Patterns

variable {ν : Type}

/-- Resolving label predicates reads the label columns only. -/
theorem resolveLabels_congr {cols cols' : SegmentColumns ν} (h : cols.labels = cols'.labels) :
    ∀ preds : List (String × String), cols.resolveLabels preds = cols'.resolveLabels preds := by
  intro preds
  induction preds with
  | nil => rfl
  | cons pred preds ih => rw [SegmentColumns.resolveLabels, SegmentColumns.resolveLabels, h, ih]

/-- Resolving numeric predicates reads the numeric columns only. -/
theorem resolveNumerics_congr {cols cols' : SegmentColumns ν} (h : cols.numerics = cols'.numerics) :
    ∀ preds : List (String × ν × ν), cols.resolveNumerics preds = cols'.resolveNumerics preds := by
  intro preds
  induction preds with
  | nil => rfl
  | cons pred preds ih =>
      rw [SegmentColumns.resolveNumerics, SegmentColumns.resolveNumerics, h, ih]

variable [Unicode]

/-- A pattern that narrows nothing leaves the token index alone. -/
theorem likeCandidateLists_of_isEmpty (cols : SegmentColumns ν) {pattern : String}
    (h : (likeConstraints pattern).isEmpty = true) :
    cols.likeCandidateLists pattern = .ok none := by
  unfold SegmentColumns.likeCandidateLists
  cases cols.tokens with
  | none => rfl
  | some idx =>
      simp only [h]
      rfl

variable [Numeral ν] {spec : QuerySpec ν}

/-- Without the index, the rows of a query are those that its blocks and columns leave. -/
theorem rowsByColumns_tokens (cols : SegmentColumns ν) (tokens : Option TokenIndex)
    (h : spec.needTokens = false) :
    ({ cols with tokens := tokens } : SegmentColumns ν).rowsByColumns spec =
      cols.rowsByColumns spec := by
  obtain ⟨hmatch, hlike⟩ := Bool.or_eq_false_iff.1 h
  have hlabels : ({ cols with tokens := tokens } : SegmentColumns ν).resolveLabels spec.labels =
      cols.resolveLabels spec.labels := resolveLabels_congr (by rfl) _
  have hnumerics : ({ cols with tokens := tokens } : SegmentColumns ν).resolveNumerics
      spec.numericRanges = cols.resolveNumerics spec.numericRanges :=
    resolveNumerics_congr (by rfl) _
  unfold SegmentColumns.rowsByColumns
  rw [hlabels, hnumerics]
  cases cols.resolveLabels spec.labels with
  | none => rfl
  | some resolved =>
      cases cols.resolveNumerics spec.numericRanges with
      | none => rfl
      | some nreqs =>
          -- Neither predicate makes candidates, so both walk the blocks.
          cases hp : spec.textLike with
          | none =>
              simp only [hmatch]
              rfl
          | some pattern =>
              have hempty : (likeConstraints pattern).isEmpty = true := by simpa [hp] using hlike
              simp only [likeCandidateLists_of_isEmpty _ hempty, Res.ok_bind, hmatch]
              rfl

/-- A query that does not need the token index selects the same rows with any. -/
theorem matchingRows_tokens [Deflate] (cols : SegmentColumns ν) (tokens : Option TokenIndex)
    (file : Option Bytes) (h : spec.needTokens = false) :
    ({ cols with tokens := tokens } : SegmentColumns ν).matchingRows spec file =
      cols.matchingRows spec file := by
  unfold SegmentColumns.matchingRows
  rw [rowsByColumns_tokens cols tokens h]
  rfl

/-- The numbers a query selects are those of the rows it matches. -/
theorem forall₂_naiveRows (spec : QuerySpec ν) (rows : List (Record ν)) :
    List.Forall₂ (fun i r => rows[i]? = some r) (naiveRows spec rows)
      (rows.filter spec.«matches») := by
  have hall : (List.range rows.length).map (fun i => rows[i]?) = rows.map some := by
    refine List.ext_getElem? (fun i => ?_)
    by_cases hi : i < rows.length
    · simp [hi]
    · simp [not_lt.1 hi]
  have hmap : (naiveRows spec rows).map (fun i => rows[i]?) =
      (rows.filter spec.«matches»).map some := by
    calc (naiveRows spec rows).map (fun i => rows[i]?)
        = ((List.range rows.length).map (fun i => rows[i]?)).filter
            (fun o => o.any spec.«matches») := by
          rw [List.filter_map]
          rfl
      _ = (rows.map some).filter (fun o => o.any spec.«matches») := by rw [hall]
      _ = (rows.filter spec.«matches»).map some := by
          rw [List.filter_map]
          rfl
  have hrel : List.Forall₂ Eq ((naiveRows spec rows).map (fun i => rows[i]?))
      ((rows.filter spec.«matches»).map some) := by
    rw [List.forall₂_eq_eq_eq]
    exact hmap
  exact List.forall₂_map_right_iff.1 (List.forall₂_map_left_iff.1 hrel)

end Patterns

/-! ## The cells of a row -/

/-- The column of a name, or the row has nothing under it either. -/
theorem column_or_absent {κ α : Type} {names : StrSet} (col : String → κ) {row : OrdMap String α}
    {name : String} (h : name ∈ row → name ∈ names) :
    (OrdMap.ofPairs (names.toList.map (fun n => (n, col n))))[name]? = some (col name) ∨
      ((OrdMap.ofPairs (names.toList.map (fun n => (n, col n))))[name]? = none ∧
        row[name]? = none) := by
  by_cases hname : name ∈ names
  · exact Or.inl (getElem?_named.2 ⟨hname, rfl⟩)
  · refine Or.inr ⟨?_, ?_⟩
    · refine Option.eq_none_iff_forall_ne_some.2 (fun c hc => ?_)
      exact hname (getElem?_named.1 hc).1
    · exact Std.ExtTreeMap.getElem?_eq_none (fun hrow => hname (h hrow))

section Cells

variable {ν : Type} [FloatBits ν] [Numeral ν] {cols : SegmentColumns ν} {rows : List (Record ν)}

namespace SegmentColumns.Shows

variable {i : Nat} {r : Record ν}

theorem keyAt_eq (h : cols.Shows rows) (hr : rows[i]? = some r) : cols.keyAt i = .ok r.key := by
  rw [SegmentColumns.keyAt, h.keys_eq]
  exact keyAt_keysSection hr

theorem timestampAt_eq (h : cols.Shows rows) (hr : rows[i]? = some r) :
    cols.timestampAt i = .ok r.timestamp := by
  rw [SegmentColumns.timestampAt, h.timestamps_eq]
  exact Res.index_of_getElem? (by simp [hr])

theorem numericAt_eq (h : cols.Shows rows) (hr : rows[i]? = some r) (name : String) :
    cols.numericAt name i = .ok r.numerics[name]? := by
  have hnames : name ∈ r.numerics → name ∈ numericNames rows :=
    fun hname => mem_numericNames.2 ⟨r, List.mem_of_getElem? hr, hname⟩
  unfold SegmentColumns.numericAt
  rw [h.numerics_eq, numericColumns]
  rcases column_or_absent (numericColumn rows) hnames with hcol | ⟨hcol, hrow⟩
  · rw [hcol]
    exact valueAt_numericColumn hr
  · rw [hcol, hrow]
    rfl

theorem labelValueAt_eq (h : cols.Shows rows) (hr : rows[i]? = some r) (name : String) :
    cols.labelValueAt name i = .ok r.labels[name]? := by
  have hnames : name ∈ r.labels → name ∈ labelNames rows :=
    fun hname => mem_labelNames.2 ⟨r, List.mem_of_getElem? hr, hname⟩
  unfold SegmentColumns.labelValueAt
  rw [h.labels_eq, labelColumns_eq]
  rcases column_or_absent (fun n => labelColumn rows (planLabel rows n)) hnames with
    hcol | ⟨hcol, hrow⟩
  · rw [hcol]
    exact valueAt_labelColumn hr
  · rw [hcol, hrow]
    rfl

theorem isTombstoneAt_eq (h : cols.Shows rows) (hr : rows[i]? = some r) :
    cols.isTombstoneAt i = .ok r.isTombstone := by
  rw [SegmentColumns.isTombstoneAt, h.labelValueAt_eq hr, Res.ok_bind]
  rfl

end SegmentColumns.Shows

omit [FloatBits ν] [Numeral ν] in
/-- The search over the key column is the search over the rows. -/
theorem findFrom_keysSection {cmp : Nat → Ordering} {key : String}
    (hcmp : ∀ i r, rows[i]? = some r → cmp i = compare r.key key) :
    ∀ fuel lo hi : Nat, hi ≤ rows.length →
      (keysSection rows).findFrom key fuel lo hi = .ok (bsearch cmp fuel lo hi) := by
  intro fuel
  induction fuel with
  | zero => exact fun _ _ _ => rfl
  | succ fuel ih =>
      intro lo hi hhi
      unfold KeysSection.findFrom bsearch
      split
      · rename_i hlt
        have hmid : rows[(lo + hi) / 2]? = some rows[(lo + hi) / 2] :=
          List.getElem?_eq_getElem (by omega)
        simp only [keyAt_keysSection hmid, Res.ok_bind, hcmp _ _ hmid]
        cases compare rows[(lo + hi) / 2].key key with
        | lt => exact ih _ hi hhi
        | gt => exact ih lo _ (by omega)
        | eq => rfl
      · rfl

omit [FloatBits ν] [Numeral ν] in
theorem find_keysSection (s : Segment ν) (key : String) :
    (keysSection s.rows).findFrom key s.rows.length 0 s.rows.length = .ok (s.findKey key) := by
  refine findFrom_keysSection (fun i r hr => ?_) _ _ _ le_rfl
  simp only [hr]

theorem SegmentColumns.Shows.findKey_eq {s : Segment ν} (h : cols.Shows s.rows) (key : String) :
    cols.findKey key = .ok (s.findKey key) := by
  rw [SegmentColumns.findKey, h.keys_eq, h.count_eq]
  exact find_keysSection s key

end Cells

/-! ## Columns in service -/

section Service

variable [Unicode] [Deflate] {ν : Type} [FloatBits ν] [Numeral ν]

/-- Loaded columns, and the handle that comes with them, as a query uses them for `rows`. -/
structure SegmentColumns.Serves (cols : SegmentColumns ν) (handle : Option Bytes) (file : Bytes)
    (rows : List (Record ν)) (needTokens : Bool) : Prop where
  shows : cols.Shows rows
  payloadAt_eq : ∀ {i : Nat} {r : Record ν}, rows[i]? = some r →
    cols.payloadAt i handle = .ok r.payload
  textAt_eq : ∀ {i : Nat} {r : Record ν}, rows[i]? = some r → cols.textAt i handle = .ok r.text
  selects : ∀ spec : QuerySpec ν, (spec.needTokens = true → needTokens = true) →
    cols.matchingRows spec handle = .ok (naiveRows spec rows)
  reopened : handle = if cols.payloadNeedsFile then some file else none

variable {cols : SegmentColumns ν} {handle : Option Bytes} {file : Bytes} {rows : List (Record ν)}
  {needTokens : Bool}

/-- A row cut out of the file, with or without its text. -/
theorem SegmentColumns.Serves.materialize_eq (h : cols.Serves handle file rows needTokens) {i : Nat}
    {r : Record ν} (hr : rows[i]? = some r) (wantText : Bool) :
    cols.materialize i handle wantText = .ok (Segment.materialize wantText r) := by
  rw [SegmentColumns.materialize, h.payloadAt_eq hr, Res.ok_bind]
  cases wantText with
  | false => exact h.shows.buildRecord hr _ _
  | true =>
      rw [if_pos rfl, h.textAt_eq hr]
      exact h.shows.buildRecord hr _ _

variable [Crc32] [Rmp SectionDir] [Rmp (List (BlockMeta ν))] [Rmp (List (Record ν))]

/-- The file holds the rows, in the current format or in the legacy one. -/
structure Encodes (file : Bytes) (rows : List (Record ν)) : Prop where
  sorted : KeysAscend rows
  rows_lt : rows.length < 2 ^ 32
  bytes : (readHeader file = .ok versionV1 ∧ decodeV1Records file = .ok rows) ∨
    (Storable rows ∧ encodeV2 rows = .ok file ∧ file.length < 2 ^ 63)

omit [Crc32] [Rmp SectionDir] [Rmp (List (BlockMeta ν))] [Rmp (List (Record ν))] in
/-- The columns of a legacy file. -/
theorem serves_fromRecords [LawfulUnicode] [LawfulNumeral ν] (hsorted : KeysAscend rows)
    (hlen : rows.length < 2 ^ 32) (file : Bytes) (needTokens : Bool) :
    (SegmentColumns.fromRecords rows).Serves none file rows needTokens where
  shows := SegmentColumns.shows_fromRecords rows
  payloadAt_eq hr := Res.index_of_getElem? (by rw [List.getElem?_map, hr]; rfl)
  textAt_eq := (SegmentColumns.answers_fromRecords hlen none).textAt_eq
  selects spec _ := SegmentColumns.matchingRows_eq
    (SegmentColumns.answers_fromRecords hlen none) hsorted hlen spec
  reopened := rfl

variable [LawfulUnicode] [LawfulDeflate] [LawfulFloatBits ν] [LawfulNumeral ν]
  [LawfulRmp SectionDir] [LawfulRmp (List (BlockMeta ν))]

omit [Rmp (List (Record ν))] in
/-- The columns of a file in the current format, with the token index or without. -/
theorem exists_columnsAt (hs : Storable rows) (hsorted : KeysAscend rows)
    (hfile : (fileOf rows).length < 2 ^ 63) (needTokens : Bool) :
    ∃ cols : SegmentColumns ν, loadColumns (fileOf rows) needTokens = .ok cols ∧
      cols.Serves (some (fileOf rows)) (fileOf rows) rows needTokens := by
  obtain ⟨cols, pi, hcols, hshows, hpayloads, hpi, htexts, htokens⟩ :=
    loadColumns_fileOf hs hfile needTokens
  refine ⟨cols, hcols, hshows, fun hr => payloadAt_file hpi hpayloads hfile hr,
    fun hr => textAt_file htexts hfile hr, fun spec hneed => ?_, ?_⟩
  · cases needTokens with
    | true =>
        have hanswers := SegmentColumns.answers_loaded hs hfile hshows htexts htokens
        exact SegmentColumns.matchingRows_eq hanswers hsorted hs.rows_lt spec
    | false =>
        -- The query would select the same rows with the index it does not need.
        have hnone : spec.needTokens = false := by simpa using hneed
        obtain ⟨full, -, hfull, hshows', -, -, htexts', htokens'⟩ :=
          loadColumns_fileOf (ν := ν) hs hfile true
        have hsome : ({ cols with tokens := full.tokens } : SegmentColumns ν).Answers rows
            (some (fileOf rows)) :=
          SegmentColumns.answers_loaded hs hfile
            ⟨hshows.count_eq, hshows.keys_eq, hshows.timestamps_eq, hshows.labels_eq,
              hshows.numerics_eq, hshows.blocks_eq⟩ htexts htokens'
        rw [← matchingRows_tokens cols full.tokens _ hnone]
        exact SegmentColumns.matchingRows_eq hsome hsorted hs.rows_lt spec
  · rw [SegmentColumns.payloadNeedsFile, hpayloads]
    rfl

/-- What a load of a segment's file gives. -/
theorem Encodes.loadedFrom_eq (h : Encodes file rows) (needTokens : Bool) :
    ∃ cols : SegmentColumns ν, ∃ handle, loadedFrom file needTokens = .ok (cols, handle) ∧
      cols.Serves handle file rows needTokens := by
  rcases h.bytes with ⟨hhead, hrows⟩ | ⟨hs, hencode, hfile⟩
  · refine ⟨_, none, fromFile_of_whole ?_ _ _,
      serves_fromRecords h.sorted h.rows_lt file needTokens⟩
    rw [dirAt_of_v1 hhead, hrows]
    rfl
  · obtain rfl := Except.ok.inj (hencode.symm.trans (encodeV2_eq rows))
    obtain ⟨cols, hcols, hserves⟩ := exists_columnsAt hs h.sorted hfile needTokens
    refine ⟨cols, _, ?_, hserves⟩
    have hdir : (dirAt (fileOf rows) : Res (DirOrWhole ν)) = .ok (.dir (segDirOf rows)) := by
      rw [dirAt_of_v2 (readHeader_fileOf rows), readFooter_fileOf hs hfile]
      rfl
    rw [loadColumns_eq, readFooter_fileOf hs hfile, Res.ok_bind] at hcols
    rw [loadedFrom, fromFile_of_dir hdir, hcols]
    rfl

omit [LawfulUnicode] [LawfulDeflate] [LawfulFloatBits ν] [LawfulNumeral ν]
  [LawfulRmp (List (BlockMeta ν))] in
/-- The keys of a segment's file tell which keys the segment holds. -/
theorem Encodes.keysFrom_eq {s : Segment ν} (h : Encodes file s.rows) :
    ∃ keys : SegKeys ν, keysFrom file = .ok keys ∧
      ∀ key, keys.contains key = .ok (s.findKey key).isSome := by
  rcases h.bytes with ⟨hhead, hrows⟩ | ⟨hs, hencode, hfile⟩
  · refine ⟨.whole (SegmentColumns.fromRecords s.rows), fromFile_of_whole ?_ _ _, fun key => ?_⟩
    · rw [dirAt_of_v1 hhead, hrows]
      rfl
    · have hfind := (SegmentColumns.shows_fromRecords s.rows).findKey_eq key
      rw [SegKeys.contains, hfind]
      rfl
  · obtain rfl := Except.ok.inj (hencode.symm.trans (encodeV2_eq s.rows))
    have hdir : (dirAt (fileOf s.rows) : Res (DirOrWhole ν)) = .ok (.dir (segDirOf s.rows)) := by
      rw [dirAt_of_v2 (readHeader_fileOf s.rows), readFooter_fileOf hs hfile]
      rfl
    refine ⟨.slim (keysSection s.rows), ?_, fun key => ?_⟩
    · rw [keysFrom, fromFile_of_dir hdir, loadKeys_fileOf hs hfile]
      rfl
    · have hcount : (keysSection s.rows).count = s.rows.length := by
        rw [KeysSection.count, keysSection, length_offsets, List.length_map, Nat.add_sub_cancel]
      rw [SegKeys.contains, KeysSection.find, hcount, find_keysSection]
      rfl

end Service

end Girder
