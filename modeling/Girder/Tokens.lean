import Girder.Cursor
import Girder.MemTable

/-!
# Tokens — the token postings index of a segment

For each distinct token of the rows' texts, in ascending order, the index holds the ascending rows
whose text contains it.  On disk a directory of tokens precedes one blob of delta lists; a loaded
index keeps the blob and decodes a list when it is asked for.
-/

namespace Girder

open Lib

/-- How a token's postings are held: decoded, or as spans `(offset, length, rows)` of a blob that was
validated when it was read. -/
inductive Postings
  | eager (lists : List (List Nat))
  | lazy (blob : Bytes) (spans : List (Nat × Nat × Nat))

/-- The token postings index of one segment. -/
structure TokenIndex where
  tokens : List String
  postings : Postings

namespace TokenIndex

/-! ## Building -/

section Build

variable [Unicode] {ν : Type}

/-- File row `i` under each of its tokens. -/
def addRow (map : OrdMap String (List Nat)) (i : Nat) (tokens : List String) :
    OrdMap String (List Nat) :=
  (tokens.map (fun t => (t, i))).foldl (OrdMap.update (fun old i => old.getD [] ++ [i])) map

/-- The loop over the rows; a row id is a `u32`. -/
def buildMap (records : List (Record ν)) : OrdMap String (List Nat) :=
  records.zipIdx.foldl (fun map ri => addRow map (ri.2 % 2 ^ 32) ri.1.tokens) ∅

def build (records : List (Record ν)) : TokenIndex where
  tokens := (buildMap records).toList.map Prod.fst
  postings := .eager ((buildMap records).toList.map Prod.snd)

end Build

/-! ## Encoding -/

def tokensV2Sentinel : Nat := 2 ^ 32 - 1

def tokensVersion : Nat := 2

/-- The first row as it is, then the gaps. -/
def deltas : Option Nat → List Nat → List Nat
  | _, [] => []
  | prev, row :: rows => (row - prev.getD 0) :: deltas (some row) rows

/-- One delta list. -/
def postingBytes (rows : List Nat) : Bytes := (deltas none rows).flatMap varint

/-- Where each list starts in the blob, and its length. -/
def spansFrom (start : Nat) : List Bytes → List (Nat × Nat)
  | [] => []
  | list :: lists => (start, list.length) :: spansFrom (start + list.length) lists

/-- One directory entry. -/
def directoryEntry (t : String) (nrows off len : Nat) : Bytes :=
  le32 (utf8 t).length ++ utf8 t ++ le32 nrows ++ le32 off ++ le32 len

/-- The delta lists one after the other. -/
def postingsBlob (lists : List (List Nat)) : Bytes := (lists.map postingBytes).flatten

/-- Tokens with their rows and spans. -/
def directory (tokens : List String) (lists : List (List Nat)) :
    List ((String × List Nat) × (Nat × Nat)) :=
  (tokens.zip lists).zip (spansFrom 0 (lists.map postingBytes))

def encodeEager (tokens : List String) (lists : List (List Nat)) : Bytes :=
  le32 tokensV2Sentinel ++ (le32 tokensVersion ++ (le32 tokens.length ++
    ((directory tokens lists).flatMap (fun e => directoryEntry e.1.1 e.1.2.length e.2.1 e.2.2) ++
      (le32 (postingsBlob lists).length ++ postingsBlob lists))))

/-- Encoding always runs on a freshly built index. -/
def encodeTokens (idx : TokenIndex) : Res Bytes :=
  match idx.postings with
  | .eager lists => .ok (encodeEager idx.tokens lists)
  | .lazy _ _ => .error .panic

/-! ## Decoding -/

/-- A token and its check against the one before. -/
def readToken (last : Option String) : Cur String := do
  let tlen ← Cur.u32
  let tok ← Cur.string tlen "token not utf8"
  Reader.check (∀ l ∈ last, l < tok) (corrupt "token dictionary not sorted")
  pure tok

/-- `delta` further than the row before; the first delta is the row itself. -/
def advanceRow (prev : Option Nat) (delta : Nat) : Cur Nat :=
  match prev with
  | none => pure delta
  | some prev => do
      Reader.check (delta ≠ 0) (corrupt "postings not strictly ascending")
      Reader.check (prev + delta < 2 ^ 32) (corrupt "posting overflow")
      pure (prev + delta)

/-- The next row of a list that is being validated. -/
def nextRow (count : Nat) (prev : Option Nat) (delta : Nat) : Cur Nat := do
  let row ← advanceRow prev delta
  Reader.check (row < count) (corrupt "posting row out of range")
  pure row

/-- A delta list of `n` rows; `step` turns the row before and a delta into the next row. -/
def rowsBy (step : Option Nat → Nat → Cur Nat) : Nat → Option Nat → Cur (List Nat)
  | 0, _ => pure []
  | n + 1, prev => do
      let delta ← Cur.varintRead
      let row ← step prev delta
      let rows ← rowsBy step n (some row)
      pure (row :: rows)

/-- A delta list, checked as it is read. -/
def readRows (count n : Nat) : Cur (List Nat) := rowsBy (nextRow count) n none

/-- The headerless layout: each token is followed by its list. -/
def readTokensV1 (count : Nat) : Nat → Option String → Cur (List (String × List Nat))
  | 0, _ => pure []
  | n + 1, last => do
      let tok ← readToken last
      let nrows ← Cur.u32
      let rows ← readRows count nrows
      let more ← readTokensV1 count n (some tok)
      pure ((tok, rows) :: more)

/-- The directory: tokens with their `(offset, length, rows)`. -/
def readDirectory : Nat → Option String → Cur (List (String × Nat × Nat × Nat))
  | 0, _ => pure []
  | n + 1, last => do
      let tok ← readToken last
      let nrows ← Cur.u32
      let off ← Cur.u32
      let len ← Cur.u32
      let more ← readDirectory n (some tok)
      pure ((tok, off, len, nrows) :: more)

/-- A span lies in the blob and holds exactly its rows. -/
def checkSpan (blob : Bytes) (count : Nat) (span : Nat × Nat × Nat) : Res Unit := do
  let (off, len, nrows) := span
  Res.check (off + len ≤ blob.length) (corrupt "posting span out of blob")
  Reader.eval
    (do
      let _ ← readRows count nrows
      Reader.atEnd (corrupt "posting span length mismatch"))
    ((blob.drop off).take len)

def decodeTokensV2 (count : Nat) : Cur TokenIndex := do
  let n ← Cur.u32
  let dir ← readDirectory n none
  let blobLen ← Cur.u32
  let blob ← Cur.take blobLen
  Reader.atEnd (corrupt "trailing bytes after postings blob")
  liftM ((dir.map Prod.snd).forM (checkSpan blob count))
  pure { tokens := dir.map Prod.fst, postings := .lazy blob (dir.map Prod.snd) }

def decodeTokens (body : Bytes) (count : Nat) : Res TokenIndex :=
  Reader.eval
    (do
      let first ← Cur.u32
      if first = tokensV2Sentinel then do
        let version ← Cur.u32
        Reader.check (version = tokensVersion) (corrupt "unsupported K_TOKENS version")
        decodeTokensV2 count
      else do
        let entries ← readTokensV1 count first none
        pure { tokens := entries.map Prod.fst, postings := .eager (entries.map Prod.snd) })
    body

/-- The next row of a validated list: `prev + delta` in 32 bits. -/
def plainRow (prev : Option Nat) (delta : Nat) : Cur Nat :=
  match prev with
  | none => pure delta
  | some prev => do
      Reader.check (prev + delta < 2 ^ 32) .panic
      pure (prev + delta)

/-- A list that does not decode is a panic here: the blob was validated. -/
def decodePostingList (span : Bytes) (nrows : Nat) : Res (List Nat) :=
  match (rowsBy plainRow nrows none).eval span with
  | .ok rows => .ok rows
  | .error _ => .error .panic

/-! ## Lookups -/

/-- Decoded postings of the token at dictionary index `i`. -/
def postingsAt (idx : TokenIndex) (i : Nat) : Res (List Nat) :=
  match idx.postings with
  | .eager lists => Res.index lists i
  | .lazy blob spans => do
      let (off, len, nrows) ← Res.index spans i
      -- `off + len` is a `u32` sum
      Res.check (off + len < 2 ^ 32 ∧ off + len ≤ blob.length) .panic
      decodePostingList ((blob.drop off).take len) nrows

def postingsOf (idx : TokenIndex) (token : String) : Res (Option (List Nat)) :=
  match
    bsearch
      (fun i =>
        match idx.tokens[i]? with
        | some t => compare t token
        | none => .gt)
      idx.tokens.length 0 idx.tokens.length
  with
  | none => .ok none
  | some i => some <$> idx.postingsAt i

/-! ## What the built index holds -/

/-- Strictly ascending rows below `count`. -/
structure Ascending (count : Nat) (rows : List Nat) : Prop where
  sorted : rows.Pairwise (· < ·)
  below : ∀ row ∈ rows, row < count

section Built

variable [Unicode] {ν : Type}

/-- The rows whose text contains `t`, counted from `k`. -/
def rowsWith (t : String) (k : Nat) (records : List (Record ν)) : List Nat :=
  ((records.zipIdx k).filter (fun ri => decide (t ∈ ri.1.tokens))).map (fun ri => ri.2)

theorem tokens_nodup (r : Record ν) : r.tokens.Nodup := by
  unfold Record.tokens
  cases r.text with
  | none => exact List.nodup_nil
  | some text =>
      have hsorted : (sortAsc id (ftsTokens text)).Pairwise (· ≤ ·) := sortAsc_pairwise id _
      exact (pairwise_lt_destutter hsorted).imp ne_of_lt

omit [Unicode] in
theorem getElem?_addRow (map : OrdMap String (List Nat)) (i : Nat) {tokens : List String}
    (hn : tokens.Nodup) (t : String) :
    (addRow map i tokens)[t]? =
      if t ∈ tokens then some (map[t]?.getD [] ++ [i]) else map[t]? := by
  unfold addRow
  split
  · rename_i ht
    refine OrdMap.getElem?_foldl_update _ _ map ?_ (List.mem_map.2 ⟨t, ht, rfl⟩)
    exact List.pairwise_map.2 hn
  · rename_i ht
    refine OrdMap.getElem?_foldl_update_of_notMem _ t _ map ?_
    simp only [List.mem_map, forall_exists_index, and_imp]
    rintro _ t' ht' rfl rfl
    exact ht ht'

/-- One row after the other: a token's list grows by the rows that contain it. -/
theorem getElem?_foldl_addRow (t : String) :
    ∀ (records : List (Record ν)) (k : Nat) (map : OrdMap String (List Nat)),
      k + records.length < 2 ^ 32 →
      ((records.zipIdx k).foldl (fun map ri => addRow map (ri.2 % 2 ^ 32) ri.1.tokens) map)[t]? =
        if rowsWith t k records = [] then map[t]?
        else some (map[t]?.getD [] ++ rowsWith t k records) := by
  intro records
  induction records with
  | nil => simp [rowsWith]
  | cons r records ih =>
      intro k map hk
      rw [List.length_cons] at hk
      have hmod : k % 2 ^ 32 = k := Nat.mod_eq_of_lt (by omega)
      rw [List.zipIdx_cons, List.foldl_cons, ih (k + 1) _ (by omega), hmod,
        getElem?_addRow _ _ (tokens_nodup r)]
      by_cases ht : t ∈ r.tokens
      · have hrows : rowsWith t k (r :: records) = k :: rowsWith t (k + 1) records := by
          simp [rowsWith, List.zipIdx_cons, ht]
        rw [hrows]
        by_cases hnil : rowsWith t (k + 1) records = []
        · simp [ht, hnil]
        · simp [ht, hnil]
      · have hrows : rowsWith t k (r :: records) = rowsWith t (k + 1) records := by
          simp [rowsWith, List.zipIdx_cons, ht]
        simp [hrows, ht]

theorem getElem?_buildMap {records : List (Record ν)} (hlen : records.length < 2 ^ 32)
    (t : String) :
    (buildMap records)[t]? =
      if rowsWith t 0 records = [] then none else some (rowsWith t 0 records) := by
  rw [buildMap, getElem?_foldl_addRow t records 0 ∅ (by omega)]
  simp

theorem mem_rowsWith {t : String} {k i : Nat} {records : List (Record ν)} :
    i ∈ rowsWith t k records ↔ ∃ r, k ≤ i ∧ records[i - k]? = some r ∧ t ∈ r.tokens := by
  simp only [rowsWith, List.mem_map, List.mem_filter, decide_eq_true_eq, Prod.exists,
    List.mem_zipIdx_iff_le_and_getElem?_sub]
  constructor
  · rintro ⟨r, j, ⟨⟨hk, hr⟩, ht⟩, rfl⟩
    exact ⟨r, hk, hr, ht⟩
  · rintro ⟨r, hk, hr, ht⟩
    exact ⟨r, i, ⟨⟨hk, hr⟩, ht⟩, rfl⟩

theorem ascending_rowsWith (t : String) (records : List (Record ν)) :
    Ascending records.length (rowsWith t 0 records) where
  sorted := by
    have hall : ((records.zipIdx 0).map Prod.snd).Pairwise (· < ·) := by
      rw [List.zipIdx_map_snd]
      exact List.pairwise_lt_range'
    exact hall.sublist (List.filter_sublist.map _)
  below i hi := by
    obtain ⟨r, -, hr, -⟩ := mem_rowsWith.1 hi
    exact (List.getElem?_eq_some_iff.1 hr).1

end Built

/-! ## Round trip -/

section RoundTrip

variable {count : Nat}

theorem Ascending.of_cons {row : Nat} {rows : List Nat} (h : Ascending count (row :: rows)) :
    row < count ∧ (∀ row' ∈ rows, row < row') ∧ Ascending count rows := by
  obtain ⟨hhead, htail⟩ := List.pairwise_cons.1 h.sorted
  exact ⟨h.below row (by simp), hhead, htail, fun r hr => h.below r (by simp [hr])⟩

/-- Reading a delta list back, for any step that computes the rows of an ascending list. -/
theorem reads_rowsBy {step : Option Nat → Nat → Cur Nat} (hcount : count ≤ 2 ^ 32)
    (hstep : ∀ (prev : Option Nat) (row : Nat), (∀ p ∈ prev, p < row) → row < count →
      Reads (step prev (row - prev.getD 0)) [] row) :
    ∀ (rows : List Nat) (prev : Option Nat), Ascending count rows →
      (∀ p ∈ prev, ∀ row ∈ rows, p < row) →
      Reads (rowsBy step rows.length prev) ((deltas prev rows).flatMap varint) rows := by
  intro rows
  induction rows with
  | nil => exact fun _ _ _ => Reads.pure []
  | cons row rows ih =>
      intro prev hrows hprev
      obtain ⟨hrow, hlater, htail⟩ := hrows.of_cons
      rw [deltas, List.flatMap_cons]
      refine (Cur.reads_varintRead (by omega)).bind ?_
      refine (hstep prev row (fun p hp => hprev p hp row (by simp)) hrow).bind_nil ?_
      refine (ih (some row) htail ?_).bind_pure (Reads.pure _)
      simpa using hlater

theorem reads_nextRow (hcount : count ≤ 2 ^ 32) (prev : Option Nat) (row : Nat)
    (hprev : ∀ p ∈ prev, p < row) (hrow : row < count) :
    Reads (nextRow count prev (row - prev.getD 0)) [] row := by
  have hadvance : Reads (advanceRow prev (row - prev.getD 0)) [] row := by
    cases prev with
    | none => exact Reads.pure row
    | some p =>
        have hlt : p < row := hprev p rfl
        have hsum : p + (row - p) = row := by omega
        simp only [advanceRow, Option.getD_some, hsum]
        exact (Reads.check (by omega)).bind_nil ((Reads.check (by omega)).bind_nil (Reads.pure row))
  exact hadvance.bind_nil ((Reads.check hrow).bind_nil (Reads.pure row))

theorem reads_plainRow (hcount : count ≤ 2 ^ 32) (prev : Option Nat) (row : Nat)
    (hprev : ∀ p ∈ prev, p < row) (hrow : row < count) :
    Reads (plainRow prev (row - prev.getD 0)) [] row := by
  cases prev with
  | none => exact Reads.pure row
  | some p =>
      have hlt : p < row := hprev p rfl
      have hsum : p + (row - p) = row := by omega
      simp only [plainRow, Option.getD_some, hsum]
      exact (Reads.check (by omega)).bind_nil (Reads.pure row)

theorem reads_readRows (hcount : count ≤ 2 ^ 32) {rows : List Nat} (h : Ascending count rows) :
    Reads (readRows count rows.length) (postingBytes rows) rows :=
  reads_rowsBy hcount (reads_nextRow hcount) rows none h (by simp)

theorem decodePostingList_postingBytes (hcount : count ≤ 2 ^ 32) {rows : List Nat}
    (h : Ascending count rows) :
    decodePostingList (postingBytes rows) rows.length = .ok rows := by
  have hread := reads_rowsBy hcount (reads_plainRow hcount) rows none h (by simp)
  simp only [decodePostingList, postingBytes, hread.eval_self]

/-! ### The directory -/

theorem length_spansFrom (start : Nat) (lists : List Bytes) :
    (spansFrom start lists).length = lists.length := by
  induction lists generalizing start with
  | nil => rfl
  | cons list lists ih => simp [spansFrom, ih]

theorem getElem?_spansFrom (start : Nat) {lists : List Bytes} {i : Nat} {list : Bytes}
    (h : lists[i]? = some list) :
    (spansFrom start lists)[i]? = some (start + (lists.take i).flatten.length, list.length) := by
  induction lists generalizing start i with
  | nil => simp at h
  | cons l lists ih =>
      cases i with
      | zero =>
          obtain rfl : l = list := by simpa using h
          simp [spansFrom]
      | succ i =>
          rw [spansFrom, List.getElem?_cons_succ, ih _ (by simpa using h)]
          simp [Nat.add_assoc]

/-- What an index must satisfy for its words to fit their fields. -/
structure Fits (count : Nat) (tokens : List String) (lists : List (List Nat)) : Prop where
  count_le : count ≤ 2 ^ 32
  length_eq : tokens.length = lists.length
  sorted : tokens.Pairwise (· < ·)
  ascending : ∀ rows ∈ lists, Ascending count rows
  ne_nil : ∀ rows ∈ lists, rows ≠ []
  token_lt : ∀ t ∈ tokens, (utf8 t).length < 2 ^ 32
  blob_lt : (postingsBlob lists).length < 2 ^ 32

/-- The loaded form of an index. -/
def loaded (tokens : List String) (lists : List (List Nat)) : TokenIndex where
  tokens := tokens
  postings := .lazy (postingsBlob lists)
    ((directory tokens lists).map (fun e => (e.2.1, e.2.2, e.1.2.length)))

/-- A delta list takes at least a byte a row. -/
theorem length_le_postingBytes (rows : List Nat) : rows.length ≤ (postingBytes rows).length := by
  have hloop : ∀ (rows : List Nat) (prev : Option Nat),
      rows.length ≤ ((deltas prev rows).flatMap varint).length := by
    intro rows
    induction rows with
    | nil => exact fun _ => Nat.zero_le _
    | cons row rows ih =>
        intro prev
        have hbyte := length_varint_pos (row - prev.getD 0)
        have hrest := ih (some row)
        rw [deltas, List.flatMap_cons, List.length_append, List.length_cons]
        omega
  exact hloop rows none

/-- The list at `i` is a span of the blob. -/
theorem postingsBlob_split {lists : List (List Nat)} {i : Nat} {rows : List Nat}
    (h : lists[i]? = some rows) :
    postingsBlob lists = ((lists.take i).map postingBytes).flatten ++ postingBytes rows ++
      ((lists.drop (i + 1)).map postingBytes).flatten := by
  obtain ⟨hi, rfl⟩ := List.getElem?_eq_some_iff.1 h
  have hsplit := flatten_eq_append_getElem
    (show i < (lists.map postingBytes).length by simpa using hi)
  rw [List.getElem_map, ← List.map_take, ← List.map_drop] at hsplit
  exact hsplit

variable {tokens : List String} {lists : List (List Nat)}

theorem getElem?_directory {i : Nat} {t : String} {rows : List Nat} (ht : tokens[i]? = some t)
    (hrows : lists[i]? = some rows) :
    (directory tokens lists)[i]? =
      some ((t, rows), (((lists.take i).map postingBytes).flatten.length,
        (postingBytes rows).length)) := by
  have hspan : (spansFrom 0 (lists.map postingBytes))[i]? =
      some (0 + ((lists.map postingBytes).take i).flatten.length, (postingBytes rows).length) :=
    getElem?_spansFrom 0 (by simp [hrows])
  rw [directory, List.getElem?_zip_eq_some, List.getElem?_zip_eq_some]
  refine ⟨⟨ht, hrows⟩, ?_⟩
  rw [hspan, List.map_take, Nat.zero_add]

theorem mem_directory {e : (String × List Nat) × (Nat × Nat)} (he : e ∈ directory tokens lists) :
    ∃ i t rows, tokens[i]? = some t ∧ lists[i]? = some rows ∧
      e = ((t, rows), (((lists.take i).map postingBytes).flatten.length,
        (postingBytes rows).length)) := by
  obtain ⟨i, hi⟩ := List.mem_iff_getElem?.1 he
  have hzip := hi
  rw [directory, List.getElem?_zip_eq_some, List.getElem?_zip_eq_some] at hzip
  obtain ⟨⟨ht, hrows⟩, -⟩ := hzip
  refine ⟨i, e.1.1, e.1.2, ht, hrows, ?_⟩
  rw [getElem?_directory ht hrows] at hi
  exact (Option.some.inj hi).symm

theorem length_directory (h : tokens.length = lists.length) :
    (directory tokens lists).length = tokens.length := by
  simp [directory, length_spansFrom, h]

theorem map_fst_directory (h : tokens.length = lists.length) :
    (directory tokens lists).map (fun e => e.1.1) = tokens := by
  have hzip : (directory tokens lists).map Prod.fst = tokens.zip lists := by
    refine List.map_fst_zip ?_
    simp [length_spansFrom, h]
  calc (directory tokens lists).map (fun e => e.1.1)
      = ((directory tokens lists).map Prod.fst).map Prod.fst := by simp
    _ = tokens := by rw [hzip, List.map_fst_zip h.le]

/-- The words of a directory entry fit their fields. -/
theorem Fits.entry_lt (h : Fits count tokens lists)
    {e : (String × List Nat) × (Nat × Nat)} (he : e ∈ directory tokens lists) :
    (utf8 e.1.1).length < 2 ^ 32 ∧ e.1.2.length < 2 ^ 32 ∧ e.2.1 < 2 ^ 32 ∧ e.2.2 < 2 ^ 32 := by
  obtain ⟨i, t, rows, ht, hrows, rfl⟩ := mem_directory he
  have hblob := h.blob_lt
  rw [postingsBlob_split hrows, List.length_append, List.length_append] at hblob
  have hle := length_le_postingBytes rows
  refine ⟨h.token_lt t (List.mem_of_getElem? ht), ?_, ?_, ?_⟩ <;> simp only <;> omega

theorem reads_readToken {last : Option String} {t : String} (hlen : (utf8 t).length < 2 ^ 32)
    (hlast : ∀ l ∈ last, l < t) :
    Reads (readToken last) (le32 (utf8 t).length ++ utf8 t) t := by
  refine (Cur.reads_u32 hlen).bind ?_
  refine (Cur.reads_string t _).bind_pure ?_
  exact (Reads.check hlast).bind_nil (Reads.pure t)

theorem reads_readDirectory :
    ∀ (es : List ((String × List Nat) × (Nat × Nat))) (last : Option String),
      (es.map (fun e => e.1.1)).Pairwise (· < ·) → (∀ l ∈ last, ∀ e ∈ es, l < e.1.1) →
      (∀ e ∈ es, (utf8 e.1.1).length < 2 ^ 32 ∧ e.1.2.length < 2 ^ 32 ∧ e.2.1 < 2 ^ 32 ∧
        e.2.2 < 2 ^ 32) →
      Reads (readDirectory es.length last)
        (es.flatMap (fun e => directoryEntry e.1.1 e.1.2.length e.2.1 e.2.2))
        (es.map (fun e => (e.1.1, e.2.1, e.2.2, e.1.2.length))) := by
  intro es
  induction es with
  | nil => exact fun _ _ _ _ => Reads.pure []
  | cons e es ih =>
      intro last hsorted hlast hfit
      obtain ⟨htoken, hnrows, hoff, hlen⟩ := hfit e (by simp)
      rw [List.map_cons, List.pairwise_cons] at hsorted
      have hnext := ih (some e.1.1) hsorted.2
        (by simpa using hsorted.1) (fun e' he' => hfit e' (by simp [he']))
      have htok : Reads (readToken last) (le32 (utf8 e.1.1).length ++ utf8 e.1.1) e.1.1 :=
        reads_readToken htoken (fun l hl => hlast l hl e (by simp))
      rw [List.flatMap_cons, directoryEntry, List.append_assoc, List.append_assoc,
        List.append_assoc, List.length_cons]
      refine htok.bind ?_
      refine (Cur.reads_u32 hnrows).bind ?_
      refine (Cur.reads_u32 hoff).bind ?_
      refine (Cur.reads_u32 hlen).bind ?_
      exact hnext.bind_pure (Reads.pure _)

/-- A span that holds a delta list passes validation. -/
theorem checkSpan_ok (hcount : count ≤ 2 ^ 32) {rows : List Nat} (h : Ascending count rows)
    (before after : Bytes) :
    checkSpan (before ++ postingBytes rows ++ after) count
      (before.length, (postingBytes rows).length, rows.length) = .ok () := by
  have hcut : ((before ++ postingBytes rows ++ after).drop before.length).take
      (postingBytes rows).length = postingBytes rows := by
    simp [List.append_assoc]
  have hfits : before.length + (postingBytes rows).length ≤
      (before ++ postingBytes rows ++ after).length := by
    simp only [List.length_append]
    omega
  unfold checkSpan
  simp only [Res.check_true hfits, hcut]
  exact (reads_readRows hcount h).eval_bind_self

/-- Every token has a row, and every row a byte. -/
theorem Fits.length_lt (h : Fits count tokens lists) : tokens.length < 2 ^ 32 := by
  have hsum : ∀ lists : List (List Nat), (∀ rows ∈ lists, rows ≠ []) →
      lists.length ≤ (postingsBlob lists).length := by
    intro lists
    induction lists with
    | nil => exact fun _ => Nat.zero_le _
    | cons rows lists ih =>
        intro hne
        have hrest := ih (fun rows hrows => hne rows (by simp [hrows]))
        have hpos := List.length_pos_iff.2 (hne rows (by simp))
        have hbytes := length_le_postingBytes rows
        rw [postingsBlob, List.map_cons, List.flatten_cons, List.length_append, List.length_cons]
        rw [postingsBlob] at hrest
        omega
  have hle := hsum lists h.ne_nil
  have hblob := h.blob_lt
  rw [h.length_eq]
  omega

/-- Decoding what was encoded: the same tokens, the lists still to be decoded. -/
theorem decodeTokens_encodeEager (h : Fits count tokens lists) :
    decodeTokens (encodeEager tokens lists) count = .ok (loaded tokens lists) := by
  have hdir := reads_readDirectory (directory tokens lists) none
    (by rw [map_fst_directory h.length_eq]; exact h.sorted) (by simp)
    (fun e he => h.entry_lt he)
  rw [length_directory h.length_eq] at hdir
  have hspans : ((directory tokens lists).map (fun e => (e.2.1, e.2.2, e.1.2.length))).forM
      (checkSpan (postingsBlob lists) count) = .ok () := by
    refine Res.forM_ok (fun span hspan => ?_)
    obtain ⟨e, he, rfl⟩ := List.mem_map.1 hspan
    obtain ⟨i, t, rows, -, hrows, rfl⟩ := mem_directory he
    rw [postingsBlob_split hrows]
    exact checkSpan_ok h.count_le (h.ascending rows (List.mem_of_getElem? hrows)) _ _
  have hblob : Reads (Cur.take (postingsBlob lists).length) (postingsBlob lists)
      (postingsBlob lists) := Cur.reads_take rfl
  unfold decodeTokens encodeEager
  rw [(Cur.reads_u32 (by decide)).eval_bind, if_pos rfl, (Cur.reads_u32 (by decide)).eval_bind,
    (Reads.check rfl).eval_bind_nil, decodeTokensV2, (Cur.reads_u32 h.length_lt).eval_bind,
    hdir.eval_bind, (Cur.reads_u32 h.blob_lt).eval_bind, hblob.eval_bind_self,
    Reads.eval_atEnd_bind]
  have hmap : ((directory tokens lists).map
      (fun e => (e.1.1, e.2.1, e.2.2, e.1.2.length))).map Prod.snd =
      (directory tokens lists).map (fun e => (e.2.1, e.2.2, e.1.2.length)) := by
    simp
  rw [hmap, (Cur.reads_lift hspans).eval_bind_nil, Reads.eval_pure]
  have hfst : ((directory tokens lists).map
      (fun e => (e.1.1, e.2.1, e.2.2, e.1.2.length))).map Prod.fst = tokens := by
    rw [List.map_map]
    exact map_fst_directory h.length_eq
  rw [hfst, loaded]

/-- A loaded list is the list that was encoded. -/
theorem postingsAt_loaded (h : Fits count tokens lists) {i : Nat} {rows : List Nat}
    (hrows : lists[i]? = some rows) : (loaded tokens lists).postingsAt i = .ok rows := by
  obtain ⟨hi, -⟩ := List.getElem?_eq_some_iff.1 hrows
  obtain ⟨t, ht⟩ : ∃ t, tokens[i]? = some t :=
    ⟨_, List.getElem?_eq_getElem (h.length_eq ▸ hi)⟩
  have hspan : ((directory tokens lists).map (fun e => (e.2.1, e.2.2, e.1.2.length)))[i]? =
      some (((lists.take i).map postingBytes).flatten.length, (postingBytes rows).length,
        rows.length) := by
    rw [List.getElem?_map, getElem?_directory ht hrows]
    rfl
  have hblob := h.blob_lt
  have hsplit := postingsBlob_split hrows
  rw [hsplit, List.length_append, List.length_append] at hblob
  have hcheck : ((lists.take i).map postingBytes).flatten.length + (postingBytes rows).length <
      2 ^ 32 ∧ ((lists.take i).map postingBytes).flatten.length + (postingBytes rows).length ≤
      (postingsBlob lists).length := by
    rw [hsplit, List.length_append, List.length_append]
    omega
  have hcut : ((postingsBlob lists).drop ((lists.take i).map postingBytes).flatten.length).take
      (postingBytes rows).length = postingBytes rows := by
    rw [hsplit, List.append_assoc, List.drop_left, List.take_left]
  have hlist := decodePostingList_postingBytes h.count_le
    (h.ascending rows (List.mem_of_getElem? hrows))
  simp only [postingsAt, loaded, Res.index_of_getElem? hspan]
  show (Res.check _ _ >>= fun _ => _) = _
  rw [Res.check_true hcheck, hcut]
  exact hlist

end RoundTrip

/-! ## An index of some rows -/

section Indexes

variable [Unicode] {ν : Type} {records : List (Record ν)}

/-- The lists of the built index. -/
def builtLists (records : List (Record ν)) : List (List Nat) :=
  (buildMap records).toList.map Prod.snd

theorem mem_toList_buildMap (hlen : records.length < 2 ^ 32) {t : String} {rows : List Nat} :
    (t, rows) ∈ (buildMap records).toList ↔ rows = rowsWith t 0 records ∧ rows ≠ [] := by
  rw [Std.ExtTreeMap.mem_toList_iff_getElem?_eq_some, getElem?_buildMap hlen]
  by_cases hnil : rowsWith t 0 records = []
  · simp only [hnil, if_pos, reduceCtorEq, false_iff, not_and, not_not, imp_self]
  · rw [if_neg hnil, Option.some.injEq]
    constructor
    · rintro rfl
      exact ⟨rfl, hnil⟩
    · exact fun h => h.1.symm

theorem tokens_build_sorted (records : List (Record ν)) :
    (build records).tokens.Pairwise (· < ·) := by
  refine List.pairwise_map.2 ?_
  have hord : (buildMap records).toList.Pairwise (fun a b => compare a.1 b.1 = .lt) :=
    Std.ExtTreeMap.ordered_keys_toList
  exact hord.imp (fun h => compare_lt_iff_lt.1 h)

/-- The token at a position of the directory, with the rows filed there. -/
theorem getElem?_build (hlen : records.length < 2 ^ 32) {i : Nat} {t : String}
    (h : (build records).tokens[i]? = some t) :
    (builtLists records)[i]? = some (rowsWith t 0 records) ∧ rowsWith t 0 records ≠ [] := by
  rw [build, List.getElem?_map] at h
  obtain ⟨⟨t', rows⟩, hget, rfl⟩ := Option.map_eq_some_iff.1 h
  obtain ⟨rfl, hne⟩ := (mem_toList_buildMap hlen).1 (List.mem_of_getElem? hget)
  exact ⟨by simp [builtLists, hget], hne⟩

/-- The built index fits its encoding when its strings and its blob do. -/
theorem fits_build (hlen : records.length < 2 ^ 32)
    (htoken : ∀ t ∈ (build records).tokens, (utf8 t).length < 2 ^ 32)
    (hblob : (postingsBlob (builtLists records)).length < 2 ^ 32) :
    Fits records.length (build records).tokens (builtLists records) where
  count_le := hlen.le
  length_eq := by simp [build, builtLists]
  sorted := tokens_build_sorted records
  ascending rows hrows := by
    obtain ⟨⟨t, rows⟩, he, rfl⟩ := List.mem_map.1 hrows
    rw [((mem_toList_buildMap hlen).1 he).1]
    exact ascending_rowsWith t records
  ne_nil rows hrows := by
    obtain ⟨⟨t, rows⟩, he, rfl⟩ := List.mem_map.1 hrows
    exact ((mem_toList_buildMap hlen).1 he).2
  token_lt := htoken
  blob_lt := hblob

/-- The index answers for `records`: the right tokens, and the right rows for each. -/
structure Indexes (idx : TokenIndex) (records : List (Record ν)) : Prop where
  tokens_eq : idx.tokens = (build records).tokens
  postingsAt_eq {i : Nat} {t : String} : idx.tokens[i]? = some t →
    idx.postingsAt i = .ok (rowsWith t 0 records)

theorem indexes_build (hlen : records.length < 2 ^ 32) : (build records).Indexes records where
  tokens_eq := rfl
  postingsAt_eq h := Res.index_of_getElem? (getElem?_build hlen h).1

theorem indexes_loaded
    (h : Fits records.length (build records).tokens (builtLists records))
    (hlen : records.length < 2 ^ 32) :
    (loaded (build records).tokens (builtLists records)).Indexes records where
  tokens_eq := rfl
  postingsAt_eq ht := postingsAt_loaded h (getElem?_build hlen ht).1

end Indexes

end TokenIndex

end Girder
