import Girder.Constraints
import Girder.Tokens

/-!
# Postings — token sections read lazily

A loaded index keeps the posting blob as it is and decodes a list when a query asks for it, with
unchecked sums.  `decodeTokens` validates every list beforehand: the validating loop and the lazy one
walk the same deltas (`rowsBy_plainRow`), so that a list of an accepted section decodes to ascending
rows (`decodeTokens_safe`).

`decodeTokens_sections` adds the other direction: a section written from a built index, in either
layout, gives that index back.
-/

namespace Girder

open Lib

namespace TokenIndex

/-! ## The two walks over a delta list -/

/-- What the validating step lets through is above the row before, in range and no overflow. -/
theorem nextRow_eq_ok {count : Nat} {prev : Option Nat} {delta row : Nat} {bs rest : Bytes}
    (h : nextRow count prev delta bs = .ok (row, rest)) :
    bs = rest ∧ row < count ∧ (∀ p ∈ prev, p < row) ∧ plainRow prev delta bs = .ok (row, rest) := by
  obtain ⟨row', mid, hadvance, hchecked⟩ := Reader.bind_eq_ok.1 h
  obtain ⟨_, mid', hcheck, hpure⟩ := Reader.bind_eq_ok.1 hchecked
  obtain ⟨hrow, rfl⟩ := Reader.check_eq_ok.1 hcheck
  obtain ⟨rfl, rfl⟩ := Reader.pure_eq_ok.1 hpure
  cases prev with
  | none =>
      obtain ⟨rfl, rfl⟩ := Reader.pure_eq_ok.1 hadvance
      exact ⟨rfl, hrow, by simp, rfl⟩
  | some p =>
      obtain ⟨_, mid₁, hzero, hsum⟩ := Reader.bind_eq_ok.1 hadvance
      obtain ⟨hne, rfl⟩ := Reader.check_eq_ok.1 hzero
      obtain ⟨_, mid₂, hover, hlast⟩ := Reader.bind_eq_ok.1 hsum
      obtain ⟨hlt, rfl⟩ := Reader.check_eq_ok.1 hover
      obtain ⟨rfl, rfl⟩ := Reader.pure_eq_ok.1 hlast
      refine ⟨rfl, hrow, ?_, ?_⟩
      · intro q hq
        obtain rfl : p = q := by simpa using hq
        omega
      · refine Reader.bind_eq_ok.2 ⟨(), bs, Reader.check_eq_ok.2 ⟨hlt, rfl⟩, rfl⟩

/-- By induction on the rows still to come: the lazy walk reads what the validating one did, and the
rows ascend. -/
theorem rowsBy_plainRow {count : Nat} :
    ∀ (n : Nat) (prev : Option Nat) (bs : Bytes) {rows : List Nat} {rest : Bytes},
      rowsBy (nextRow count) n prev bs = .ok (rows, rest) →
        rowsBy plainRow n prev bs = .ok (rows, rest) ∧ Ascending count rows ∧
          ∀ p ∈ prev, ∀ row ∈ rows, p < row := by
  intro n
  induction n with
  | zero =>
      intro prev bs rows rest h
      obtain ⟨rfl, -⟩ := Reader.pure_eq_ok.1 h
      exact ⟨h, ⟨List.Pairwise.nil, by simp⟩, by simp⟩
  | succ n ih =>
      intro prev bs rows rest h
      obtain ⟨delta, mid, hdelta, hstep⟩ := Reader.bind_eq_ok.1 h
      obtain ⟨row, mid', hrow, hmore⟩ := Reader.bind_eq_ok.1 hstep
      obtain ⟨more, mid'', hrest, hpure⟩ := Reader.bind_eq_ok.1 hmore
      obtain ⟨rfl, rfl⟩ := Reader.pure_eq_ok.1 hpure
      obtain ⟨rfl, hbelow, habove, hplain⟩ := nextRow_eq_ok hrow
      obtain ⟨hwalk, hascending, hlater⟩ := ih (some row) mid hrest
      have hfirst : ∀ row' ∈ more, row < row' := hlater row rfl
      refine ⟨?_, ⟨List.pairwise_cons.2 ⟨hfirst, hascending.sorted⟩, ?_⟩, ?_⟩
      · exact Reader.bind_eq_ok.2 ⟨delta, mid, hdelta, Reader.bind_eq_ok.2
          ⟨row, mid, hplain, Reader.bind_eq_ok.2 ⟨more, mid'', hwalk, rfl⟩⟩⟩
      · intro row' hrow'
        rcases List.mem_cons.1 hrow' with rfl | hin
        · exact hbelow
        · exact hascending.below row' hin
      · intro p hp row' hrow'
        have hlt := habove p hp
        rcases List.mem_cons.1 hrow' with rfl | hin
        · exact hlt
        · exact hlt.trans (hfirst row' hin)

/-! ## The dictionary -/

theorem readToken_eq_ok {last : Option String} {t : String} {bs rest : Bytes}
    (h : readToken last bs = .ok (t, rest)) :
    (∀ l ∈ last, l < t) ∧ (utf8 t).length < 2 ^ 32 := by
  obtain ⟨tlen, mid, hlen, h₁⟩ := Reader.bind_eq_ok.1 h
  obtain ⟨t', mid', hstring, h₂⟩ := Reader.bind_eq_ok.1 h₁
  obtain ⟨_, mid'', hcheck, hpure⟩ := Reader.bind_eq_ok.1 h₂
  obtain ⟨hlast, rfl⟩ := Reader.check_eq_ok.1 hcheck
  obtain ⟨rfl, rfl⟩ := Reader.pure_eq_ok.1 hpure
  refine ⟨hlast, ?_⟩
  obtain ⟨got, mid₁, htake, hutf8⟩ := Reader.bind_eq_ok.1 hstring
  obtain ⟨hle, rfl, rfl⟩ := Reader.take_eq_ok.1 htake
  obtain ⟨hdecoded, -⟩ := Cur.lift_eq_ok.1 hutf8
  have hword := Reader.lt_of_word hlen
  rw [Res.utf8_eq_ok hdecoded, List.length_take, min_eq_left hle]
  exact hword

/-- A dictionary in strictly ascending order, every token within its length word. -/
structure Dictionary (last : Option String) (tokens : List String) : Prop where
  sorted : tokens.Pairwise (· < ·)
  above : ∀ l ∈ last, ∀ t ∈ tokens, l < t
  token_lt : ∀ t ∈ tokens, (utf8 t).length < 2 ^ 32

theorem Dictionary.nil (last : Option String) : Dictionary last [] :=
  ⟨List.Pairwise.nil, by simp, by simp⟩

/-- A token above the one before it goes in front of the rest. -/
theorem Dictionary.cons {last : Option String} {t : String} {tokens : List String}
    (hlast : ∀ l ∈ last, l < t) (ht : (utf8 t).length < 2 ^ 32)
    (h : Dictionary (some t) tokens) : Dictionary last (t :: tokens) where
  sorted := List.pairwise_cons.2 ⟨h.above t rfl, h.sorted⟩
  above l hl t' ht' := by
    rcases List.mem_cons.1 ht' with rfl | hin
    · exact hlast l hl
    · exact (hlast l hl).trans (h.above t rfl t' hin)
  token_lt t' ht' := by
    rcases List.mem_cons.1 ht' with rfl | hin
    · exact ht
    · exact h.token_lt t' hin

theorem readDirectory_eq_ok :
    ∀ (n : Nat) (last : Option String) (bs : Bytes) {dir : List (String × Nat × Nat × Nat)}
      {rest : Bytes}, readDirectory n last bs = .ok (dir, rest) →
        Dictionary last (dir.map Prod.fst) := by
  intro n
  induction n with
  | zero =>
      intro last bs dir rest h
      obtain ⟨rfl, -⟩ := Reader.pure_eq_ok.1 h
      exact Dictionary.nil last
  | succ n ih =>
      intro last bs dir rest h
      obtain ⟨t, _, htoken, h₁⟩ := Reader.bind_eq_ok.1 h
      obtain ⟨_, _, -, h₂⟩ := Reader.bind_eq_ok.1 h₁
      obtain ⟨_, _, -, h₃⟩ := Reader.bind_eq_ok.1 h₂
      obtain ⟨_, _, -, h₄⟩ := Reader.bind_eq_ok.1 h₃
      obtain ⟨more, mid, hmore, hpure⟩ := Reader.bind_eq_ok.1 h₄
      obtain ⟨rfl, -⟩ := Reader.pure_eq_ok.1 hpure
      obtain ⟨hlast, ht⟩ := readToken_eq_ok htoken
      exact (ih (some t) _ hmore).cons hlast ht

theorem readTokensV1_eq_ok {count : Nat} :
    ∀ (n : Nat) (last : Option String) (bs : Bytes) {entries : List (String × List Nat)}
      {rest : Bytes}, readTokensV1 count n last bs = .ok (entries, rest) →
        Dictionary last (entries.map Prod.fst) ∧ ∀ e ∈ entries, Ascending count e.2 := by
  intro n
  induction n with
  | zero =>
      intro last bs entries rest h
      obtain ⟨rfl, -⟩ := Reader.pure_eq_ok.1 h
      exact ⟨Dictionary.nil last, by simp⟩
  | succ n ih =>
      intro last bs entries rest h
      obtain ⟨t, _, htoken, h₁⟩ := Reader.bind_eq_ok.1 h
      obtain ⟨nrows, _, -, h₂⟩ := Reader.bind_eq_ok.1 h₁
      obtain ⟨rows, _, hrows, h₃⟩ := Reader.bind_eq_ok.1 h₂
      obtain ⟨more, mid, hmore, hpure⟩ := Reader.bind_eq_ok.1 h₃
      obtain ⟨rfl, -⟩ := Reader.pure_eq_ok.1 hpure
      obtain ⟨hlast, ht⟩ := readToken_eq_ok htoken
      obtain ⟨hdictionary, hascending⟩ := ih (some t) _ hmore
      refine ⟨hdictionary.cons hlast ht, ?_⟩
      intro e he
      rcases List.mem_cons.1 he with rfl | hin
      · exact (rowsBy_plainRow nrows none _ hrows).2.1
      · exact hascending e hin

/-! ## Accepted sections -/

/-- What a section that was accepted promises its readers. -/
structure Safe (count : Nat) (idx : TokenIndex) : Prop where
  dictionary : Dictionary none idx.tokens
  postings {i : Nat} : i < idx.tokens.length →
    ∃ rows, idx.postingsAt i = .ok rows ∧ Ascending count rows

/-- A span that passed its check decodes to ascending rows. -/
theorem checkSpan_eq_ok {blob : Bytes} {count : Nat} {span : Nat × Nat × Nat} {u : Unit}
    (h : checkSpan blob count span = .ok u) :
    span.1 + span.2.1 ≤ blob.length ∧
      ∃ rows, decodePostingList ((blob.drop span.1).take span.2.1) span.2.2 = .ok rows ∧
        Ascending count rows := by
  unfold checkSpan at h
  cases hcheck : Res.check (span.1 + span.2.1 ≤ blob.length) (corrupt "posting span out of blob") with
  | error e =>
      simp only [hcheck] at h
      cases h
  | ok v =>
      simp only [hcheck] at h
      obtain ⟨rest, hread⟩ := Reader.eval_eq_ok.1 h
      obtain ⟨rows, mid, hrows, -⟩ := Reader.bind_eq_ok.1 hread
      obtain ⟨hwalk, hascending, -⟩ := rowsBy_plainRow _ none _ hrows
      refine ⟨Res.of_check_ok hcheck, rows, ?_, hascending⟩
      rw [decodePostingList, Reader.eval_eq_ok.2 ⟨mid, hwalk⟩]

theorem decodeTokensV2_safe {count : Nat} {bs rest : Bytes} {idx : TokenIndex}
    (h : decodeTokensV2 count bs = .ok (idx, rest)) : idx.Safe count := by
  obtain ⟨n, _, -, h₁⟩ := Reader.bind_eq_ok.1 h
  obtain ⟨dir, _, hdir, h₂⟩ := Reader.bind_eq_ok.1 h₁
  obtain ⟨blobLen, _, hlen, h₃⟩ := Reader.bind_eq_ok.1 h₂
  obtain ⟨blob, _, hblob, h₄⟩ := Reader.bind_eq_ok.1 h₃
  obtain ⟨_, _, -, h₅⟩ := Reader.bind_eq_ok.1 h₄
  obtain ⟨_, _, hspans, hpure⟩ := Reader.bind_eq_ok.1 h₅
  obtain ⟨rfl, -⟩ := Reader.pure_eq_ok.1 hpure
  -- The blob is as long as its length word says, so offsets into it fit 32 bits.
  have hword := Reader.lt_of_word hlen
  obtain ⟨hle, rfl, -⟩ := Reader.take_eq_ok.1 hblob
  refine ⟨readDirectory_eq_ok n none _ hdir, ?_⟩
  intro i hi
  have hi' : i < (dir.map Prod.snd).length := by simpa using hi
  have hspan := Res.of_forM_ok (Cur.lift_eq_ok.1 hspans).1 _ (List.getElem_mem hi')
  obtain ⟨hfits, rows, hrows, hascending⟩ := checkSpan_eq_ok hspan
  refine ⟨rows, ?_, hascending⟩
  have hget : Res.index (dir.map Prod.snd) i = .ok (dir.map Prod.snd)[i] :=
    Res.index_of_getElem? (List.getElem?_eq_getElem hi')
  have hsum := hfits
  rw [List.length_take, min_eq_left hle] at hsum
  simp only [postingsAt, hget]
  show (Res.check _ _ >>= fun _ => _) = _
  rw [Res.check_true ⟨lt_of_le_of_lt hsum hword, hfits⟩]
  exact hrows

/-- A section that decodes is safe to read lazily. -/
theorem decodeTokens_safe {body : Bytes} {count : Nat} {idx : TokenIndex}
    (h : decodeTokens body count = .ok idx) : idx.Safe count := by
  obtain ⟨rest, hread⟩ := Reader.eval_eq_ok.1 h
  obtain ⟨first, _, -, hbody⟩ := Reader.bind_eq_ok.1 hread
  split at hbody
  · obtain ⟨_, _, -, h₁⟩ := Reader.bind_eq_ok.1 hbody
    obtain ⟨_, _, -, h₂⟩ := Reader.bind_eq_ok.1 h₁
    exact decodeTokensV2_safe h₂
  · obtain ⟨entries, _, hentries, hpure⟩ := Reader.bind_eq_ok.1 hbody
    obtain ⟨rfl, -⟩ := Reader.pure_eq_ok.1 hpure
    obtain ⟨hdictionary, hascending⟩ := readTokensV1_eq_ok first none _ hentries
    refine ⟨hdictionary, ?_⟩
    intro i hi
    have hi' : i < entries.length := by simpa using hi
    refine ⟨entries[i].2, ?_, hascending _ (List.getElem_mem hi')⟩
    exact Res.index_of_getElem? (by simp [List.getElem?_eq_getElem hi'])

/-! ## Written sections -/

/-- One token of the headerless layout with its delta list. -/
def entryV1 (e : String × List Nat) : Bytes :=
  le32 (utf8 e.1).length ++ utf8 e.1 ++ (le32 e.2.length ++ postingBytes e.2)

/-- The headerless layout, as earlier writers left it. -/
def encodeTokensV1 (idx : TokenIndex) : Res Bytes :=
  match idx.postings with
  | .eager lists => .ok (le32 idx.tokens.length ++ (idx.tokens.zip lists).flatMap entryV1)
  | .lazy _ _ => .error .panic

/-- The same tokens with the same rows. -/
structure SameMapping (idx idx' : TokenIndex) : Prop where
  tokens_eq : idx.tokens = idx'.tokens
  postingsAt_eq {i : Nat} : i < idx'.tokens.length → idx.postingsAt i = idx'.postingsAt i

theorem reads_readTokensV1 {count : Nat} (hcount : count ≤ 2 ^ 32) :
    ∀ (es : List (String × List Nat)) (last : Option String),
      Dictionary last (es.map Prod.fst) →
      (∀ e ∈ es, Ascending count e.2 ∧ e.2.length < 2 ^ 32) →
      Reads (readTokensV1 count es.length last) (es.flatMap entryV1) es := by
  intro es
  induction es with
  | nil => exact fun _ _ _ => Reads.pure []
  | cons e es ih =>
      intro last hdictionary hlists
      obtain ⟨hascending, hlen⟩ := hlists e (by simp)
      have hlater := List.pairwise_cons.1 hdictionary.sorted
      have hrest : Dictionary (some e.1) (es.map Prod.fst) :=
        ⟨hlater.2, by simpa using hlater.1, fun t ht => hdictionary.token_lt t (by simp [ht])⟩
      have htoken : Reads (readToken last) (le32 (utf8 e.1).length ++ utf8 e.1) e.1 :=
        reads_readToken (hdictionary.token_lt e.1 (by simp))
          (fun l hl => hdictionary.above l hl e.1 (by simp))
      rw [List.flatMap_cons, entryV1, List.append_assoc, List.append_assoc, List.length_cons]
      refine htoken.bind ?_
      refine (Cur.reads_u32 hlen).bind ?_
      refine (reads_readRows hcount hascending).bind ?_
      exact (ih (some e.1) hrest (fun e' he' => hlists e' (by simp [he']))).bind_pure
        (Reads.pure _)

/-- Decoding the headerless layout gives the lists as they were. -/
theorem decodeTokens_encodeV1 {count : Nat} {tokens : List String} {lists : List (List Nat)}
    (h : Fits count tokens lists) (hne : tokens.length ≠ tokensV2Sentinel) :
    decodeTokens (le32 tokens.length ++ (tokens.zip lists).flatMap entryV1) count =
      .ok { tokens := tokens, postings := .eager lists } := by
  have hlength : (tokens.zip lists).length = tokens.length := by simp [h.length_eq]
  have hfst : (tokens.zip lists).map Prod.fst = tokens := List.map_fst_zip h.length_eq.le
  have hsnd : (tokens.zip lists).map Prod.snd = lists := List.map_snd_zip h.length_eq.ge
  have hread := reads_readTokensV1 h.count_le (tokens.zip lists) none
    (by rw [hfst]; exact ⟨h.sorted, by simp, h.token_lt⟩) (fun e he => by
      have hrows : e.2 ∈ lists := hsnd ▸ List.mem_map_of_mem he
      obtain ⟨i, hi⟩ := List.mem_iff_getElem?.1 hrows
      have hblob := h.blob_lt
      rw [postingsBlob_split hi, List.length_append, List.length_append] at hblob
      have hle := length_le_postingBytes e.2
      exact ⟨h.ascending e.2 hrows, by omega⟩)
  rw [hlength] at hread
  unfold decodeTokens
  rw [(Cur.reads_u32 h.length_lt).eval_bind, if_neg hne, hread.eval_bind_self, Reads.eval_pure,
    hfst, hsnd]

/-! ## The sections of the store -/

section Sections

variable [Unicode] {ν : Type}

/-- The counts and lengths of the built index fit their words; a headerless section also needs its
count of tokens to differ from the version mark. -/
structure WithinWords (records : List (Record ν)) : Prop where
  rows_lt : records.length < 2 ^ 32
  tokens_lt : (build records).tokens.length < tokensV2Sentinel
  token_lt : ∀ t ∈ (build records).tokens, (utf8 t).length < 2 ^ 32
  blob_lt : (postingsBlob (builtLists records)).length < 2 ^ 32

theorem sameMapping_loaded {records : List (Record ν)} (h : WithinWords records) :
    (loaded (build records).tokens (builtLists records)).SameMapping (build records) := by
  have hfits := fits_build h.rows_lt h.token_lt h.blob_lt
  refine ⟨rfl, fun {i} hi => ?_⟩
  have ht := List.getElem?_eq_getElem hi
  rw [(indexes_loaded hfits h.rows_lt).postingsAt_eq ht, (indexes_build h.rows_lt).postingsAt_eq ht]

/-- A token section that decodes is safe to read lazily, and the sections written from a built index
within the words of the format, in either layout, decode to its tokens and rows. -/
theorem decodeTokens_sections :
    (∀ (body : Bytes) (count : Nat) (idx : TokenIndex), decodeTokens body count = .ok idx →
        idx.Safe count) ∧
      ∀ records : List (Record ν), WithinWords records →
        (∃ body idx, encodeTokens (build records) = .ok body ∧
          decodeTokens body records.length = .ok idx ∧ idx.SameMapping (build records)) ∧
        ∃ body idx, encodeTokensV1 (build records) = .ok body ∧
          decodeTokens body records.length = .ok idx ∧ idx.SameMapping (build records) := by
  refine ⟨fun body count idx => decodeTokens_safe, fun records h => ?_⟩
  have hfits := fits_build h.rows_lt h.token_lt h.blob_lt
  refine ⟨⟨_, _, rfl, decodeTokens_encodeEager hfits, sameMapping_loaded h⟩, ?_⟩
  exact ⟨_, _, rfl, decodeTokens_encodeV1 hfits h.tokens_lt.ne, ⟨rfl, fun _ => rfl⟩⟩

/-- A word of a record's text is among the tokens of an index that decodes only if its length fits a
word. -/
theorem not_sameMapping_of_long {records : List (Record ν)} (hlen : records.length < 2 ^ 32)
    {r : Record ν} (hr : r ∈ records) {t : String} (ht : t ∈ r.tokens)
    (hlong : 2 ^ 32 ≤ (utf8 t).length) {body : Bytes} {count : Nat} {idx : TokenIndex}
    (hdecodes : decodeTokens body count = .ok idx) : ¬ idx.SameMapping (build records) := by
  intro hsame
  obtain ⟨i, hi⟩ := List.mem_iff_getElem?.1 hr
  have hrow : i ∈ rowsWith t 0 records := mem_rowsWith.2 ⟨r, Nat.zero_le i, hi, ht⟩
  have hne : rowsWith t 0 records ≠ [] := List.ne_nil_of_mem hrow
  have htoken : t ∈ (build records).tokens :=
    List.mem_map.2 ⟨_, (mem_toList_buildMap hlen).2 ⟨rfl, hne⟩, rfl⟩
  rw [← hsame.tokens_eq] at htoken
  have hlt := (decodeTokens_safe hdecodes).dictionary.token_lt t htoken
  omega

end Sections

/-! ## Fixed inputs -/

section Samples

local instance instPostingsUnicode : Unicode := asciiUnicode

/-- Two records with a word in common. -/
def worded : List (Record Int) :=
  [{ Record.bare "k/0" 0 with text := some "alpha beta" },
    { Record.bare "k/1" 1 with text := some "beta" }]

theorem decodeTokens_sections_worded :
    (∀ (body : Bytes) (count : Nat) (idx : TokenIndex), decodeTokens body count = .ok idx →
        idx.Safe count) ∧
      (∃ body idx, encodeTokens (build worded) = .ok body ∧
        decodeTokens body worded.length = .ok idx ∧ idx.SameMapping (build worded)) ∧
      ∃ body idx, encodeTokensV1 (build worded) = .ok body ∧
        decodeTokens body worded.length = .ok idx ∧ idx.SameMapping (build worded) := by
  have hwithin : WithinWords worded :=
    ⟨by decide, by decide +kernel, by decide +kernel, by decide +kernel⟩
  exact ⟨(decodeTokens_sections (ν := Int)).1, decodeTokens_sections.2 worded hwithin⟩

/-- A record whose text is one word of `n` letters. -/
def oneWord (n : Nat) : Record Int :=
  { Record.bare "k" 0 with text := some (String.ofList (List.replicate n 'a')) }

/-- The text is its own token. -/
theorem exists_token_oneWord {n : Nat} (hn : 0 < n) :
    ∃ t ∈ (oneWord n).tokens, n ≤ (utf8 t).length := by
  have hclear : ∀ c ∈ List.replicate n 'a', Unicode.isAlphanumeric c = true := by
    intro c hc
    rw [List.eq_of_mem_replicate hc]
    rfl
  have hne : List.replicate n 'a' ≠ [] := by
    rw [ne_eq, List.replicate_eq_nil_iff]
    omega
  have htext : (String.ofList (List.replicate n 'a')).toList =
      [] ++ (List.replicate n 'a' ++ []) := by
    rw [String.toList_ofList, List.append_nil, List.nil_append]
  have hword := mem_ftsTokens htext hne hclear (Or.inl rfl) (Or.inl rfl)
  refine ⟨_, MemTable.mem_tokens.2 ⟨_, rfl, hword⟩, ?_⟩
  have hlower : Unicode.toLowercase (String.ofList (List.replicate n 'a')) =
      String.ofList (List.replicate n 'a') := by
    show String.ofList ((String.ofList (List.replicate n 'a')).toList.map Char.toLower) = _
    rw [String.toList_ofList, List.map_replicate]
    rfl
  rw [hlower]
  exact (List.length_replicate (n := n) (a := 'a')).ge.trans (length_le_utf8_ofList _)

/-- The length word of a token of 4 GiB reads zero, and the section does not decode to the index. -/
theorem long_token_lost :
    ¬ ∀ records : List (Record Int), ∃ body idx, encodeTokens (build records) = .ok body ∧
      decodeTokens body records.length = .ok idx ∧ idx.SameMapping (build records) := by
  intro h
  obtain ⟨body, idx, -, hdecodes, hsame⟩ := h [oneWord (2 ^ 32)]
  obtain ⟨t, ht, hlong⟩ := exists_token_oneWord (n := 2 ^ 32) (Nat.two_pow_pos 32)
  exact not_sameMapping_of_long (Nat.one_lt_two_pow (by decide)) List.mem_cons_self ht hlong
    hdecodes hsame

end Samples

end TokenIndex

end Girder
