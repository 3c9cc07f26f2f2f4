import Girder.Assembly
import Girder.Selection

/-!
# Matching — the rows of a segment are those that match

`matchingRows` goes through the token index, the block index, the columns and, for `text_like`, the
texts themselves.  Whichever way it goes, it returns the rows that a scan of all records with
`QuerySpec.matches` returns, in order: of columns built in memory and of columns loaded from a file
with its token index (`matchingRows_eq_naive`).
-/

namespace Girder

open Lib

/-- The rows a scan of all records returns. -/
def naiveRows [Unicode] {ν : Type} [Numeral ν] (spec : QuerySpec ν) (records : List (Record ν)) :
    List Nat :=
  (List.range records.length).filter (fun i => records[i]?.any spec.«matches»)

section Text

variable [Unicode] {ν : Type} {records : List (Record ν)} {spec : QuerySpec ν} {idx : TokenIndex}

/-- A text has all tokens when its distinct tokens include them. -/
theorem textContainsAll_iff {r : Record ν} {want : List String} :
    textContainsAll r.text want = true ↔ want ≠ [] ∧ ∀ t ∈ want, t ∈ r.tokens := by
  unfold textContainsAll Record.tokens
  cases want with
  | nil => simp
  | cons t₀ want =>
      cases r.text with
      | none =>
          constructor
          · intro h
            exact absurd h (by simp)
          · exact fun h => absurd (h.2 t₀ List.mem_cons_self) List.not_mem_nil
      | some text => simp [MemTable.mem_distinctTokens]

theorem textMatchOk_iff {r : Record ν} {q : String} (hq : spec.textMatch = some q) :
    spec.textMatchOk r = true ↔ ftsTokens q ≠ [] ∧ ∀ t ∈ ftsTokens q, t ∈ r.tokens := by
  rw [← textContainsAll_iff, QuerySpec.textMatchOk, QuerySpec.textQueryTokens, hq]
  rfl

/-- A row whose text matches a pattern satisfies the pattern's constraints. -/
theorem constraints_of_textLikeOk [LawfulUnicode] {r : Record ν} {pattern : String}
    (hp : spec.textLike = some pattern) (hm : spec.textLikeOk r = true) :
    ∀ c ∈ likeConstraints pattern, c.Holds r.tokens := by
  intro c hc
  unfold QuerySpec.textLikeOk at hm
  rw [hp] at hm
  unfold Record.tokens
  cases ht : r.text with
  | none => simp [ht] at hm
  | some text =>
      simp only [ht] at hm
      have hholds := likeConstraints_sound hm c hc
      cases c with
      | token t => exact MemTable.mem_distinctTokens.2 hholds
      | leading p =>
          obtain ⟨t, hmem, hstart⟩ := hholds
          exact ⟨t, MemTable.mem_distinctTokens.2 hmem, hstart⟩

/-! ## Candidates -/

/-- Ascending lists, at least one, each with every row whose text matches the pattern. -/
structure LikeLists (spec : QuerySpec ν) (records : List (Record ν)) (lists : List (List Nat)) :
    Prop where
  ne_nil : lists ≠ []
  ascending : ∀ l ∈ lists, TokenIndex.Ascending records.length l
  covers : ∀ (row : Nat) (r : Record ν), records[row]? = some r → spec.textLikeOk r = true →
    ∀ l ∈ lists, row ∈ l

/-- Candidates of the text predicates: every row that satisfies both, and only rows that satisfy
`text_match`. -/
structure TextCandidates (spec : QuerySpec ν) (records : List (Record ν)) (rows : List Nat) :
    Prop where
  ascending : TokenIndex.Ascending records.length rows
  covers : ∀ (row : Nat) (r : Record ν), records[row]? = some r → spec.textMatchOk r = true →
    spec.textLikeOk r = true → row ∈ rows
  exact : ∀ row ∈ rows, ∀ r : Record ν, records[row]? = some r → spec.textMatchOk r = true

/-- No candidates, when no row satisfies `text_match`. -/
theorem TextCandidates.nil (h : ∀ r ∈ records, ¬ spec.textMatchOk r = true) :
    TextCandidates spec records [] where
  ascending := ⟨List.Pairwise.nil, fun _ hrow => absurd hrow List.not_mem_nil⟩
  covers _ r hr hm _ := absurd hm (h r (List.mem_of_getElem? hr))
  exact _ hrow := absurd hrow List.not_mem_nil

/-- Only `text_match`: the rows of all its tokens. -/
theorem TextCandidates.of_match (h : idx.Indexes records) (hlen : records.length < 2 ^ 32)
    {q : String} (hq : spec.textMatch = some q) :
    ∃ rows, idx.rowsMatchingAll (ftsTokens q) = .ok rows ∧ TextCandidates spec records rows := by
  obtain ⟨rows, hrows, hasc, hmem⟩ := TokenIndex.rowsMatchingAll_spec h hlen (ftsTokens q)
  refine ⟨rows, hrows, hasc, fun row r hr hm _ => ?_, fun row hrow r hr => ?_⟩
  · obtain ⟨hne, hall⟩ := (textMatchOk_iff hq).1 hm
    exact (hmem row).2 ⟨hne, r, hr, hall⟩
  · obtain ⟨hne, r', hr', hall⟩ := (hmem row).1 hrow
    rw [hr] at hr'
    obtain rfl := Option.some.inj hr'
    exact (textMatchOk_iff hq).2 ⟨hne, hall⟩

/-- Only `text_like`: the rows in all of its lists. -/
theorem TextCandidates.of_like (hq : spec.textMatch = none) {lists : List (List Nat)}
    (h : LikeLists spec records lists) :
    TextCandidates spec records (intersectAscending lists) := by
  have hany : ∀ r : Record ν, spec.textMatchOk r = true := by
    intro r
    rw [QuerySpec.textMatchOk, QuerySpec.textQueryTokens, hq]
    rfl
  obtain ⟨hrows, hmem⟩ := intersectAscending_spec h.ne_nil h.ascending
  exact ⟨hrows, fun row r hr _ hlike => (hmem row).2 (h.covers row r hr hlike),
    fun _ _ r _ => hany r⟩

/-- Both: the rows in all lists, those of the tokens among them. -/
theorem TextCandidates.of_both {q : String} (hq : spec.textMatch = some q)
    (hwant : ftsTokens q ≠ []) {lists : List (List Nat)} (h : LikeLists spec records lists) :
    TextCandidates spec records (intersectAscending (lists ++ (ftsTokens q).map
      (fun t => TokenIndex.rowsWith t 0 records))) := by
  have hall : ∀ l ∈ lists ++ (ftsTokens q).map (fun t => TokenIndex.rowsWith t 0 records),
      TokenIndex.Ascending records.length l := by
    intro l hl
    rcases List.mem_append.1 hl with hl | hl
    · exact h.ascending l hl
    · obtain ⟨t, -, rfl⟩ := List.mem_map.1 hl
      exact TokenIndex.ascending_rowsWith t records
  obtain ⟨hrows, hmem⟩ := intersectAscending_spec (List.append_ne_nil_of_left_ne_nil h.ne_nil _) hall
  have hboth : ∀ row, row ∈ intersectAscending (lists ++ (ftsTokens q).map
      (fun t => TokenIndex.rowsWith t 0 records)) ↔ (∀ l ∈ lists, row ∈ l) ∧
        ∃ r, records[row]? = some r ∧ ∀ t ∈ ftsTokens q, t ∈ r.tokens := by
    intro row
    rw [hmem, List.forall_mem_append, TokenIndex.forall_mem_rowsWith hwant]
  refine ⟨hrows, fun row r hr hm hlike => ?_, fun row hrow r hr => ?_⟩
  · exact (hboth row).2 ⟨h.covers row r hr hlike, r, hr, ((textMatchOk_iff hq).1 hm).2⟩
  · obtain ⟨-, r', hr', hin⟩ := (hboth row).1 hrow
    rw [hr] at hr'
    obtain rfl := Option.some.inj hr'
    exact (textMatchOk_iff hq).2 ⟨hwant, hin⟩

theorem candidateRows_spec (h : idx.Indexes records) (hlen : records.length < 2 ^ 32)
    {likeLists : Option (List (List Nat))}
    (hsome : spec.textMatch.isSome || likeLists.isSome)
    (hlists : ∀ lists, likeLists = some lists → LikeLists spec records lists) :
    ∃ rows, SegmentColumns.candidateRows idx spec.textMatch likeLists = .ok rows ∧
      TextCandidates spec records rows := by
  cases hq : spec.textMatch with
  | none =>
      cases likeLists with
      | none =>
          rw [hq] at hsome
          exact absurd hsome (by decide)
      | some lists => exact ⟨_, rfl, TextCandidates.of_like hq (hlists lists rfl)⟩
  | some q =>
      cases likeLists with
      | none => exact TextCandidates.of_match h hlen hq
      | some lists =>
          unfold SegmentColumns.candidateRows
          by_cases hwant : ftsTokens q = []
          · -- No tokens match nothing.
            simp only [hwant, List.isEmpty_nil, if_true]
            exact ⟨[], rfl, TextCandidates.nil fun r _ hm => ((textMatchOk_iff hq).1 hm).1 hwant⟩
          · simp only [List.isEmpty_iff, hwant, if_false, TokenIndex.postingsOfAll_eq h hlen,
              Res.ok_bind]
            by_cases hno : ∃ t ∈ ftsTokens q, TokenIndex.rowsWith t 0 records = []
            · -- A token that no row has.
              rw [if_pos hno]
              obtain ⟨t, ht, hrows⟩ := hno
              refine ⟨[], rfl, TextCandidates.nil fun r hr hm => ?_⟩
              obtain ⟨row, hrow⟩ := List.mem_iff_getElem?.1 hr
              have hmem := TokenIndex.mem_rowsWith_zero.2
                ⟨r, hrow, ((textMatchOk_iff hq).1 hm).2 t ht⟩
              rw [hrows] at hmem
              exact absurd hmem List.not_mem_nil
            · rw [if_neg hno]
              exact ⟨_, rfl, TextCandidates.of_both hq hwant (hlists lists rfl)⟩

end Text

namespace SegmentColumns

/-! ## Columns that answer -/

section Answers

variable [Unicode] [Deflate] {ν : Type} [FloatBits ν] [Numeral ν]

/-- The columns are those of `records`, texts and tokens included. -/
structure Answers (cols : SegmentColumns ν) (records : List (Record ν)) (file : Option Bytes) :
    Prop where
  shows : cols.Shows records
  textAt_eq : ∀ {i : Nat} {r : Record ν}, records[i]? = some r → cols.textAt i file = .ok r.text
  textless : cols.texts = none → ∀ r ∈ records, r.text = none
  tokens : (cols.tokens = none ∧ ∀ r ∈ records, r.text = none) ∨
    ∃ idx, cols.tokens = some idx ∧ idx.Indexes records

variable {cols : SegmentColumns ν} {records : List (Record ν)} {file : Option Bytes}
  {spec : QuerySpec ν}

omit [Unicode] [Deflate] [FloatBits ν] [Numeral ν] in
theorem textless_of_not_any (h : ¬ records.any (fun r => r.text.isSome) = true) :
    ∀ r ∈ records, r.text = none := by
  intro r hr
  by_contra hsome
  exact h (List.any_eq_true.2 ⟨r, hr, Option.isSome_iff_ne_none.2 hsome⟩)

/-- Columns built in memory. -/
theorem answers_fromRecords (hlen : records.length < 2 ^ 32) (file : Option Bytes) :
    (fromRecords records).Answers records file := by
  have hshows := shows_fromRecords records
  by_cases hany : records.any (fun r => r.text.isSome) = true
  · have htexts : (fromRecords records).texts = some (.mem (records.map Record.text)) := if_pos hany
    have htokens : (fromRecords records).tokens = some (TokenIndex.build records) := if_pos hany
    refine ⟨hshows, fun hr => ?_, fun hnone => ?_,
      Or.inr ⟨_, htokens, TokenIndex.indexes_build hlen⟩⟩
    · rw [textAt, htexts]
      exact Res.index_of_getElem? (by rw [List.getElem?_map, hr]; rfl)
    · rw [htexts] at hnone
      exact absurd hnone (by simp)
  · have hall := textless_of_not_any hany
    have htexts : (fromRecords records).texts = none := if_neg hany
    have htokens : (fromRecords records).tokens = none := if_neg hany
    refine ⟨hshows, fun hr => ?_, fun _ => hall, Or.inl ⟨htokens, hall⟩⟩
    rw [textAt, htexts, hall _ (List.mem_of_getElem? hr)]
    rfl

/-- Columns loaded from a file with its token index. -/
theorem answers_loaded [LawfulDeflate] (hs : Storable records) {bytes : Bytes}
    (hbytes : bytes.length < 2 ^ 63) (hshows : cols.Shows records)
    (htexts : TextsAt bytes records cols.texts)
    (htokens : cols.tokens = if true && records.any (fun r => r.text.isSome) then
        some (TokenIndex.loaded (TokenIndex.build records).tokens (TokenIndex.builtLists records))
      else none) : cols.Answers records (some bytes) := by
  refine ⟨hshows, fun hr => textAt_file htexts hbytes hr, fun hnone => ?_, ?_⟩
  · rcases htexts with ⟨-, hall⟩ | ⟨base, hsome, -⟩
    · exact hall
    · rw [hsome] at hnone
      exact absurd hnone (by simp)
  · rw [Bool.true_and] at htokens
    by_cases hany : records.any (fun r => r.text.isSome) = true
    · rw [if_pos hany] at htokens
      exact Or.inr ⟨_, htokens, TokenIndex.indexes_loaded
        (TokenIndex.fits_build hs.rows_lt hs.token_lt hs.postings_lt) hs.rows_lt⟩
    · rw [if_neg hany] at htokens
      exact Or.inl ⟨htokens, textless_of_not_any hany⟩

/-! ## Every predicate but `text_like` -/

/-- What the index leaves of a pattern: nothing, or lists that cover the matching rows. -/
theorem likeCandidateLists_spec [LawfulUnicode] (h : cols.Answers records file)
    (hlen : records.length < 2 ^ 32) {pattern : String} (hp : spec.textLike = some pattern) :
    ∃ out, cols.likeCandidateLists pattern = .ok out ∧
      ∀ lists, out = some lists → LikeLists spec records lists := by
  unfold likeCandidateLists
  rcases h.tokens with ⟨htokens, -⟩ | ⟨idx, htokens, hidx⟩
  · rw [htokens]
    exact ⟨none, rfl, fun _ hlists => absurd hlists (by simp)⟩
  · rw [htokens]
    simp only
    split
    · exact ⟨none, rfl, fun _ hlists => absurd hlists (by simp)⟩
    · obtain ⟨out, hout, hcover⟩ :=
        TokenIndex.constraintLists_spec hidx hlen (likeConstraints pattern)
      rw [hout, Res.ok_bind]
      cases out with
      | none =>
          -- Some constraint holds of no row.
          refine ⟨some [[]], rfl, fun lists hlists => ?_⟩
          obtain rfl := Option.some.inj hlists
          refine ⟨List.cons_ne_nil _ _, fun l hl => ?_, fun row r hr hlike => ?_⟩
          · obtain rfl := List.mem_singleton.1 hl
            exact ⟨List.Pairwise.nil, fun _ hrow => absurd hrow List.not_mem_nil⟩
          · exact absurd (constraints_of_textLikeOk hp hlike)
              (hcover r (List.mem_of_getElem? hr))
      | some lists =>
          refine ⟨_, rfl, fun lists' hlists => ?_⟩
          split at hlists
          · exact absurd hlists (by simp)
          · rename_i hne
            obtain rfl := Option.some.inj hlists
            exact ⟨by simpa using hne, hcover.1, fun row r hr hlike =>
              hcover.2 row r hr (constraints_of_textLikeOk hp hlike)⟩

omit [Unicode] [Deflate] [FloatBits ν] [Numeral ν] in
/-- The predicates at a row number. -/
theorem any_getElem? {p : Record ν → Bool} {i : Nat} {r : Record ν} (hr : records[i]? = some r) :
    records[i]?.any p = p r := by
  rw [hr]
  rfl

/-- What the columns resolve to: every matching row, and only rows that satisfy all but
`text_like`. -/
structure Resolved (spec : QuerySpec ν) (records : List (Record ν)) (rows : List Nat) : Prop where
  ascending : TokenIndex.Ascending records.length rows
  covers : ∀ (row : Nat) (r : Record ν), records[row]? = some r → spec.«matches» r = true →
    row ∈ rows
  exact : ∀ row ∈ rows, ∀ r : Record ν, records[row]? = some r →
    spec.matchesFields r = true ∧ spec.textMatchOk r = true

omit [Deflate] [FloatBits ν] in
/-- No rows, when no row matches. -/
theorem Resolved.nil (h : ∀ r ∈ records, ¬ spec.«matches» r = true) :
    Resolved spec records [] where
  ascending := ⟨List.Pairwise.nil, fun _ hrow => absurd hrow List.not_mem_nil⟩
  covers _ r hr hm := absurd hm (h r (List.mem_of_getElem? hr))
  exact _ hrow := absurd hrow List.not_mem_nil

omit [Deflate] [FloatBits ν] in
theorem matches_iff {r : Record ν} : spec.«matches» r = true ↔
    spec.matchesFields r = true ∧ spec.textMatchOk r = true ∧ spec.textLikeOk r = true := by
  rw [QuerySpec.«matches», Bool.and_eq_true, Bool.and_eq_true]

omit [Deflate] [FloatBits ν] in
/-- A row without text satisfies no text predicate. -/
theorem not_matches_of_textless {r : Record ν} (hr : r.text = none)
    (h : spec.textMatch.isSome = true ∨ spec.textLike.isSome = true) :
    ¬ spec.«matches» r = true := by
  intro hm
  obtain ⟨-, htext, hlike⟩ := matches_iff.1 hm
  rcases h with hmatch | hpattern
  · obtain ⟨q, hq⟩ := Option.isSome_iff_exists.1 hmatch
    obtain ⟨hne, hall⟩ := (textMatchOk_iff hq).1 htext
    obtain ⟨t, ht⟩ := List.exists_mem_of_ne_nil _ hne
    have htoken := hall t ht
    rw [Record.tokens, hr] at htoken
    exact absurd htoken List.not_mem_nil
  · obtain ⟨p, hp⟩ := Option.isSome_iff_exists.1 hpattern
    rw [QuerySpec.textLikeOk, hp, hr] at hlike
    exact absurd hlike Bool.false_ne_true

omit [Unicode] [Deflate] [FloatBits ν] in
theorem labelsOk_of_matchesFields {r : Record ν} (hm : spec.matchesFields r = true) :
    spec.labels.all (labelOk r) = true := by
  rw [QuerySpec.matchesFields, Bool.and_eq_true, Bool.and_eq_true] at hm
  exact hm.1.2

omit [Unicode] [Deflate] [FloatBits ν] in
theorem numericsOk_of_matchesFields {r : Record ν} (hm : spec.matchesFields r = true) :
    spec.numericRanges.all (numericOk r) = true := by
  rw [QuerySpec.matchesFields, Bool.and_eq_true, numericsOk_eq] at hm
  exact hm.2

omit [Deflate] [FloatBits ν] in
/-- Either way the rows are resolved. -/
theorem resolved_ite {c : Prop} [Decidable c] {x y : Res (List Nat)}
    (hx : c → ∃ rows, x = .ok rows ∧ Resolved spec records rows)
    (hy : ¬ c → ∃ rows, y = .ok rows ∧ Resolved spec records rows) :
    ∃ rows, (if c then x else y) = .ok rows ∧ Resolved spec records rows := by
  by_cases h : c
  · rw [if_pos h]
    exact hx h
  · rw [if_neg h]
    exact hy h

section Walks

variable {hit : Nat → Res Bool} {live : BlockMeta ν → Bool}

omit [Unicode] [Deflate] in
/-- Every row that passes is in some live block. -/
theorem exists_liveBlock (hlen : records.length < 2 ^ 32)
    (hlive : ∀ s e i : Nat, s ≤ i → i < e → e ≤ records.length →
      records[i]?.any spec.matchesFields = true →
      live (blockMeta records (planLabels records) s e) = true)
    {row : Nat} (hrow : row < records.length)
    (hp : records[row]?.any spec.matchesFields = true) :
    ∃ b ∈ (buildBlocks records (planLabels records)).filter live, b.Holds row := by
  have hfuel : records.length ≤ 0 + records.length := Nat.le_add_left _ _
  obtain ⟨s, e, hmem, hs, he, hlast⟩ : ∃ s e, blockMeta records (planLabels records) s e ∈
      buildBlocks records (planLabels records) ∧ s ≤ row ∧ row < e ∧ e ≤ records.length :=
    exists_blocksFrom hfuel (Nat.zero_le row) hrow
  refine ⟨_, List.mem_filter.2 ⟨hmem, hlive s e row hs he hlast hp⟩, ?_, ?_⟩
  · rw [blockMeta_start hlen (by omega)]
    exact hs
  · rw [blockMeta_stop hlen hlast]
    exact he

omit [Deflate] in
/-- The candidates in the live blocks. -/
theorem walkCandidates_spec (hlen : records.length < 2 ^ 32)
    (hhit : ∀ i < records.length, hit i = .ok (records[i]?.any spec.matchesFields))
    (hlive : ∀ s e i : Nat, s ≤ i → i < e → e ≤ records.length →
      records[i]?.any spec.matchesFields = true →
      live (blockMeta records (planLabels records) s e) = true)
    {rows : List Nat} (hrows : TextCandidates spec records rows) :
    ∃ out, walkCandidates hit rows ((buildBlocks records (planLabels records)).filter live) =
      .ok out ∧ Resolved spec records out := by
  obtain ⟨⟨hsorted, hbelow⟩, hcovers, hexact⟩ := hrows
  refine ⟨_, walkCandidates_eq rows _ hsorted
    ((blocksFrom_ascend hlen records.length 0).sublist List.filter_sublist)
    (fun row hrow => hhit row (hbelow row hrow))
    (fun row hrow hp => exists_liveBlock hlen hlive (hbelow row hrow) hp), ?_⟩
  refine ⟨⟨hsorted.sublist List.filter_sublist,
    fun row hrow => hbelow row (List.mem_filter.1 hrow).1⟩, fun row r hr hm => ?_,
    fun row hrow r hr => ?_⟩
  · obtain ⟨hfields, htext, hlike⟩ := matches_iff.1 hm
    exact List.mem_filter.2 ⟨hcovers row r hr htext hlike, (any_getElem? hr).trans hfields⟩
  · obtain ⟨hin, hp⟩ := List.mem_filter.1 hrow
    rw [any_getElem? hr] at hp
    exact ⟨hp, hexact row hin r hr⟩

omit [Deflate] in
/-- All rows of the live blocks, without `text_match`. -/
theorem walkBlocks_spec (hlen : records.length < 2 ^ 32) (htext : spec.textMatch = none)
    (hhit : ∀ i < records.length, hit i = .ok (records[i]?.any spec.matchesFields))
    (hlive : ∀ s e i : Nat, s ≤ i → i < e → e ≤ records.length →
      records[i]?.any spec.matchesFields = true →
      live (blockMeta records (planLabels records) s e) = true) :
    ∃ out, walkBlocks hit live (buildBlocks records (planLabels records)) = .ok out ∧
      Resolved spec records out := by
  have hmem : ∀ row, row ∈ List.range' 0 (records.length - 0) ↔ row < records.length := by
    intro row
    rw [List.mem_range'_1]
    omega
  refine ⟨_, walkBlocks_eq hlen hhit hlive records.length 0 (Nat.le_add_left _ _), ?_⟩
  refine ⟨⟨(List.pairwise_lt_range' 1).sublist List.filter_sublist,
    fun row hrow => (hmem row).1 (List.mem_filter.1 hrow).1⟩, fun row r hr hm => ?_,
    fun row hrow r hr => ?_⟩
  · exact List.mem_filter.2 ⟨(hmem row).2 (List.getElem?_eq_some_iff.1 hr).1,
      (any_getElem? hr).trans (matches_iff.1 hm).1⟩
  · have hp := (List.mem_filter.1 hrow).2
    rw [any_getElem? hr] at hp
    refine ⟨hp, ?_⟩
    rw [QuerySpec.textMatchOk, QuerySpec.textQueryTokens, htext]
    rfl

end Walks

variable [LawfulUnicode] [LawfulNumeral ν]

/-- The rows of the columns, whichever way they are found. -/
theorem rowsByColumns_spec (h : cols.Answers records file) (hsorted : KeysAscend records)
    (hlen : records.length < 2 ^ 32) (spec : QuerySpec ν) :
    ∃ rows, cols.rowsByColumns spec = .ok rows ∧ Resolved spec records rows := by
  unfold rowsByColumns
  rcases resolveLabels_spec h.shows spec.labels with ⟨hnone, hno⟩ | ⟨lreqs, prune, hlreqs, hlabels,
    hprune⟩
  · rw [hnone]
    refine ⟨[], rfl, Resolved.nil fun r hr hm => ?_⟩
    have hok := labelsOk_of_matchesFields (matches_iff.1 hm).1
    rw [hno r hr] at hok
    exact absurd hok Bool.false_ne_true
  rw [hlreqs]
  simp only
  rcases resolveNumerics_spec h.shows spec.numericRanges with ⟨hnone, hno⟩ | ⟨nreqs, hnreqs,
    hnumerics⟩
  · rw [hnone]
    refine ⟨[], rfl, Resolved.nil fun r hr hm => ?_⟩
    have hok := numericsOk_of_matchesFields (matches_iff.1 hm).1
    rw [hno r hr] at hok
    exact absurd hok Bool.false_ne_true
  rw [hnreqs]
  simp only
  -- One row against the resolved predicates, and a block with a row that passes.
  have hhit : ∀ i < records.length, cols.rowHit spec lreqs nreqs i =
      .ok (records[i]?.any spec.matchesFields) := by
    intro i hi
    have hr := List.getElem?_eq_getElem hi
    rw [any_getElem? hr]
    exact rowHit_eq h.shows hr (hlabels i _ hr) (hnumerics i _ hr)
  have hlive : ∀ s e i : Nat, s ≤ i → i < e → e ≤ records.length →
      records[i]?.any spec.matchesFields = true →
      blockMayMatch (blockMeta records (planLabels records) s e) spec prune = true := by
    intro s e i hs he hlast hp
    have hr := List.getElem?_eq_getElem (l := records) (i := i) (by omega)
    rw [any_getElem? hr] at hp
    exact blockMayMatch_of_row hsorted hr hs he hlast hp hprune
  -- All rows, when no text predicate narrows.
  have hblocks : ∀ likeLists : Option (List (List Nat)),
      ¬ (spec.textMatch.isSome || likeLists.isSome) = true →
      ∃ rows, walkBlocks (cols.rowHit spec lreqs nreqs) (fun b => blockMayMatch b spec prune)
        cols.blocks = .ok rows ∧ Resolved spec records rows := by
    intro likeLists hsome
    rw [h.shows.blocks_eq]
    refine walkBlocks_spec hlen ?_ hhit hlive
    rw [Bool.or_eq_true, not_or] at hsome
    exact Option.not_isSome_iff_eq_none.1 hsome.1
  -- The candidates of the text predicates.
  have hcands : ∀ (likeLists : Option (List (List Nat))) (idx : TokenIndex),
      idx.Indexes records → (spec.textMatch.isSome || likeLists.isSome) = true →
      (∀ lists, likeLists = some lists → LikeLists spec records lists) →
      ∃ rows, (do
        let rows ← candidateRows idx spec.textMatch likeLists
        walkCandidates (cols.rowHit spec lreqs nreqs) rows
          (cols.blocks.filter (fun b => blockMayMatch b spec prune))) = .ok rows ∧
        Resolved spec records rows := by
    intro likeLists idx hidx hsome hlists
    rw [h.shows.blocks_eq]
    obtain ⟨rows, hrows, hcand⟩ := candidateRows_spec hidx hlen hsome hlists
    rw [hrows, Res.ok_bind]
    exact walkCandidates_spec hlen hhit hlive hcand
  have htextless : (∀ r ∈ records, r.text = none) →
      spec.textMatch.isSome = true ∨ spec.textLike.isSome = true →
      ∃ rows, (pure [] : Res (List Nat)) = .ok rows ∧ Resolved spec records rows :=
    fun hall hsome =>
      ⟨[], rfl, Resolved.nil fun r hr => not_matches_of_textless (hall r hr) hsome⟩
  cases hp : spec.textLike with
  | none =>
      refine resolved_ite (fun hsome => ?_) (hblocks none)
      rcases h.tokens with ⟨htokens, hall⟩ | ⟨idx, htokens, hidx⟩
      · rw [htokens]
        exact htextless hall (Or.inl (by simpa using hsome))
      · rw [htokens]
        exact hcands none idx hidx hsome fun _ hlists => absurd hlists (by simp)
  | some pattern =>
      obtain ⟨likeLists, hlikeLists, hlists⟩ := likeCandidateLists_spec h hlen hp
      simp only [hlikeLists, Res.ok_bind]
      refine resolved_ite (fun hsome => ?_) (hblocks likeLists)
      rcases h.tokens with ⟨htokens, hall⟩ | ⟨idx, htokens, hidx⟩
      · rw [htokens]
        exact htextless hall (Or.inr (by rw [hp]; rfl))
      · rw [htokens]
        exact hcands likeLists idx hidx hsome hlists

/-! ## All predicates -/

omit [Unicode] [FloatBits ν] [Numeral ν] [LawfulUnicode] [LawfulNumeral ν] in
/-- The verifier reads the row's text. -/
theorem likeHit_eq {row : Nat} {r : Record ν} {pattern : String} (hp : spec.textLike = some pattern)
    (htext : cols.textAt row file = .ok r.text) :
    cols.likeHit pattern file row = .ok (spec.textLikeOk r) := by
  rw [likeHit, htext, Res.ok_bind, QuerySpec.textLikeOk, hp]
  cases r.text with
  | none => rfl
  | some text => rfl

omit [Deflate] [FloatBits ν] [LawfulUnicode] [LawfulNumeral ν] in
theorem mem_naiveRows {row : Nat} : row ∈ naiveRows spec records ↔
    ∃ r, records[row]? = some r ∧ spec.«matches» r = true := by
  rw [naiveRows, List.mem_filter, List.mem_range]
  constructor
  · rintro ⟨hrow, hm⟩
    have hr := List.getElem?_eq_getElem hrow
    rw [any_getElem? hr] at hm
    exact ⟨_, hr, hm⟩
  · rintro ⟨r, hr, hm⟩
    exact ⟨(List.getElem?_eq_some_iff.1 hr).1, (any_getElem? hr).trans hm⟩

omit [Deflate] [FloatBits ν] [LawfulUnicode] [LawfulNumeral ν] in
/-- Ascending rows that are the matching ones. -/
theorem eq_naiveRows {rows : List Nat} (hasc : TokenIndex.Ascending records.length rows)
    (hcovers : ∀ (row : Nat) (r : Record ν), records[row]? = some r → spec.«matches» r = true →
      row ∈ rows)
    (hexact : ∀ row ∈ rows, ∀ r : Record ν, records[row]? = some r → spec.«matches» r = true) :
    rows = naiveRows spec records := by
  have hscan : (naiveRows spec records).Pairwise (· < ·) :=
    List.pairwise_lt_range.sublist List.filter_sublist
  refine hasc.sorted.eq_of_mem_iff hscan fun row => ?_
  rw [mem_naiveRows]
  constructor
  · intro hrow
    have hr := List.getElem?_eq_getElem (hasc.below row hrow)
    exact ⟨_, hr, hexact row hrow _ hr⟩
  · rintro ⟨r, hr, hm⟩
    exact hcovers row r hr hm

/-- The rows of columns that answer for `records` are those a scan returns. -/
theorem matchingRows_eq (h : cols.Answers records file) (hsorted : KeysAscend records)
    (hlen : records.length < 2 ^ 32) (spec : QuerySpec ν) :
    cols.matchingRows spec file = .ok (naiveRows spec records) := by
  obtain ⟨rows, hrows, hasc, hcovers, hexact⟩ := rowsByColumns_spec h hsorted hlen spec
  unfold matchingRows
  cases hp : spec.textLike with
  | none =>
      simp only
      rw [hrows]
      refine congrArg Except.ok (eq_naiveRows hasc hcovers fun row hrow r hr => ?_)
      obtain ⟨hfields, htext⟩ := hexact row hrow r hr
      refine matches_iff.2 ⟨hfields, htext, ?_⟩
      rw [QuerySpec.textLikeOk, hp]
  | some pattern =>
      simp only
      by_cases hnone : cols.texts.isNone = true
      · -- No row has text.
        rw [if_pos hnone]
        refine congrArg Except.ok (eq_naiveRows
          ⟨List.Pairwise.nil, fun _ hrow => absurd hrow List.not_mem_nil⟩
          (fun row r hr hm => ?_) (fun _ hrow => absurd hrow List.not_mem_nil))
        have htextless := h.textless (Option.isNone_iff_eq_none.1 hnone) r (List.mem_of_getElem? hr)
        exact absurd hm (not_matches_of_textless htextless (Or.inr (by rw [hp]; rfl)))
      · rw [if_neg hnone, hrows, Res.ok_bind]
        have hhit : ∀ row ∈ rows, cols.likeHit pattern file row =
            .ok (records[row]?.any spec.textLikeOk) := by
          intro row hrow
          have hr := List.getElem?_eq_getElem (hasc.below row hrow)
          rw [any_getElem? hr]
          exact likeHit_eq hp (h.textAt_eq hr)
        rw [Res.filter_ok hhit]
        refine congrArg Except.ok (eq_naiveRows
          ⟨hasc.sorted.sublist List.filter_sublist,
            fun row hrow => hasc.below row (List.mem_filter.1 hrow).1⟩
          (fun row r hr hm => ?_) (fun row hrow r hr => ?_))
        · exact List.mem_filter.2 ⟨hcovers row r hr hm,
            (any_getElem? hr).trans (matches_iff.1 hm).2.2⟩
        · obtain ⟨hin, hlike⟩ := List.mem_filter.1 hrow
          rw [any_getElem? hr] at hlike
          obtain ⟨hfields, htext⟩ := hexact row hin r hr
          exact matches_iff.2 ⟨hfields, htext, hlike⟩

end Answers

end SegmentColumns

/-! ## Both kinds of columns -/

section Segments

variable [Unicode] [LawfulUnicode] [Deflate] [LawfulDeflate] {ν : Type} [FloatBits ν]
  [LawfulFloatBits ν] [Numeral ν] [LawfulNumeral ν] [Crc32] [Rmp (List (BlockMeta ν))]
  [LawfulRmp (List (BlockMeta ν))] [Rmp SectionDir] [LawfulRmp SectionDir] [Rmp (List (Record ν))]

/-- Rows selected by columns are the rows that match: of the columns of records in memory, and of the
columns loaded with the token index from the bytes of a file.  Rows are numbered in 32 bits, and what
is stored fits its fields. -/
theorem matchingRows_eq_naive {records : List (Record ν)} (hsorted : KeysAscend records)
    (hlen : records.length < 2 ^ 32) (spec : QuerySpec ν) :
    (∀ file, (SegmentColumns.fromRecords records).matchingRows spec file =
      .ok (naiveRows spec records)) ∧
      (Storable records → ∃ bytes, encodeV2 records = .ok bytes ∧ (bytes.length < 2 ^ 63 →
        ∃ cols : SegmentColumns ν, loadSegment bytes true = .ok cols ∧
          cols.matchingRows spec (some bytes) = .ok (naiveRows spec records))) := by
  refine ⟨fun file => SegmentColumns.matchingRows_eq
    (SegmentColumns.answers_fromRecords hlen file) hsorted hlen spec, fun hs => ?_⟩
  refine ⟨fileOf records, encodeV2_eq records, fun hfile => ?_⟩
  obtain ⟨cols, pi, hcols, hshows, -, -, htexts, htokens⟩ := loadColumns_fileOf hs hfile true
  refine ⟨cols, ?_, SegmentColumns.matchingRows_eq
    (SegmentColumns.answers_loaded hs hfile hshows htexts htokens) hsorted hlen spec⟩
  rw [loadSegment_fileOf, hcols]

end Segments

/-! ## A query against a file on disk -/

section Sample

local instance instMatchingCrc32 : Crc32 := instAssemblyCrc32

local instance instMatchingUnicode : Unicode := instAssemblyUnicode

local instance instMatchingDeflate : Deflate := instAssemblyDeflate

local instance instMatchingLawfulDeflate : LawfulDeflate := instAssemblyLawfulDeflate

noncomputable local instance instMatchingRmpBlocks : Rmp (List (BlockMeta Binary64)) :=
  instAssemblyRmpBlocks

noncomputable local instance instMatchingRmpDir : Rmp SectionDir := instAssemblyRmpDir

local instance instMatchingRmpRecords : Rmp (List (Record Binary64)) := instAssemblyRmpRecords

local instance instMatchingLawfulRmpBlocks : LawfulRmp (List (BlockMeta Binary64)) :=
  instAssemblyLawfulRmpBlocks

local instance instMatchingLawfulRmpDir : LawfulRmp SectionDir := instAssemblyLawfulRmpDir

local instance instMatchingLawfulUnicode : LawfulUnicode := lawfulUnicode_ascii

/-- Every kind of predicate. -/
def sampleQuery : QuerySpec Binary64 where
  time := some (0, 9)
  keyPrefix := some "a"
  labels := [("l", "v")]
  numericRanges := [("n", ⟨0⟩, ⟨0⟩)]
  textMatch := some "hi"
  textLike := some "H%"

/-- The sample query finds the first row. -/
theorem matchingRows_eq_naive_sampleRows :
    (SegmentColumns.fromRecords sampleRows).matchingRows sampleQuery none = .ok [0] ∧
      ∃ bytes, encodeV2 sampleRows = .ok bytes ∧ ∃ cols : SegmentColumns Binary64,
        loadSegment bytes true = .ok cols ∧
          cols.matchingRows sampleQuery (some bytes) = .ok [0] := by
  have hsorted : KeysAscend sampleRows := by
    refine List.pairwise_pair.2 ?_
    decide
  have hnaive : naiveRows sampleQuery sampleRows = [0] := by decide +kernel
  obtain ⟨hmem, hfile⟩ := matchingRows_eq_naive hsorted (by decide) sampleQuery
  obtain ⟨bytes, hbytes, hread⟩ := hfile storable_sampleRows
  obtain rfl := Except.ok.inj (hbytes.symm.trans (encodeV2_eq sampleRows))
  rw [hnaive] at hmem hread
  exact ⟨hmem none, _, hbytes, hread length_sampleRows⟩

end Sample

end Girder
