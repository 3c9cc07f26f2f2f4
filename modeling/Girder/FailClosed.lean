import Mathlib.Tactic.Choose
import Girder.Loading

/-!
# FailClosed — what section decoding checks and what it leaves to the writer

A section that is not what a writer writes should end in a corruption, or in a column that can be read
row by row all the same (`FailsClosed`).  Token and text sections are validated; the key, label and
payload decoders trust the offsets, dictionary codes and counts they read.

The sections these three decoders are safe on are described on their bytes (`KeysGuarded`,
`LabelGuarded`, `PayloadGuarded`), and `sections_fail_closed_iff` says that they are all.
-/

namespace Girder

open Lib

/-! ## Failing closed -/

def IsCorrupt (e : Fault) : Prop := ∃ detail, e = corrupt detail

section FailsClosed

variable {α β : Type} {decoded : Res α} {count : Nat} {access : α → Nat → Res β}

/-- Decoding ends in a corruption, or in a column whose rows below `count` can all be read. -/
def FailsClosed (decoded : Res α) (count : Nat) (access : α → Nat → Res β) : Prop :=
  (∃ e, IsCorrupt e ∧ decoded = .error e) ∨
    ∃ col, decoded = .ok col ∧ ∀ i < count, access col i ≠ .error .panic

theorem failsClosed_corrupt {e : Fault} (h : IsCorrupt e) :
    FailsClosed (.error e) count access := Or.inl ⟨e, h, rfl⟩

theorem not_failsClosed_panic : ¬ FailsClosed (.error .panic) count access := by
  rintro (⟨e, ⟨detail, rfl⟩, h⟩ | ⟨col, h, -⟩)
  · cases h
  · cases h

theorem failsClosed_ok {col : α} :
    FailsClosed (.ok col) count access ↔ ∀ i < count, access col i ≠ .error .panic := by
  constructor
  · rintro (⟨e, -, h⟩ | ⟨col', h, hrows⟩)
    · cases h
    · rwa [Except.ok.inj h]
  · exact fun h => Or.inr ⟨col, rfl, h⟩

/-- A decoder that only ever fails with a corruption is left with the rows it gives. -/
theorem failsClosed_iff (hfails : ∀ e, decoded = .error e → IsCorrupt e) :
    FailsClosed decoded count access ↔
      ∀ col, decoded = .ok col → ∀ i < count, access col i ≠ .error .panic := by
  cases decoded with
  | error e =>
      refine iff_of_true (failsClosed_corrupt (hfails e rfl)) ?_
      intro col h
      cases h
  | ok col =>
      rw [failsClosed_ok]
      exact ⟨fun h col' heq => Except.ok.inj heq ▸ h, fun h => h col rfl⟩

end FailsClosed

theorem isCorrupt_corrupt (detail : String) : IsCorrupt (corrupt detail) := ⟨detail, rfl⟩

namespace Res

variable {α : Type}

theorem unwrap_ne_panic_iff {o : Option α} : unwrap o ≠ .error .panic ↔ o.isSome = true := by
  cases o with
  | none => simp [unwrap]
  | some a => simp [unwrap]

theorem utf8_eq_ok_iff {bs : Bytes} {detail s : String} :
    Res.utf8 bs detail = .ok s ↔ Lib.utf8 s = bs := by
  constructor
  · exact utf8_eq_ok
  · rintro rfl
    exact utf8_utf8 s detail

theorem isCorrupt_of_utf8 {bs : Bytes} {detail : String} {e : Fault}
    (h : Res.utf8 bs detail = .error e) : IsCorrupt e := by
  unfold Res.utf8 at h
  split at h
  · cases h
  · obtain rfl := Except.error.inj h
    exact isCorrupt_corrupt detail

end Res

namespace Cur

theorem failsOnly_lift {α : Type} {P : Fault → Prop} {x : Res α} (h : ∀ e, x = .error e → P e) :
    Reader.FailsOnly P (liftM x : Cur α) := by
  intro bs e herror
  cases x with
  | ok a => cases herror
  | error e' =>
      obtain rfl := Except.error.inj herror
      exact h e' rfl

theorem failsOnly_word (w : Nat) : Reader.FailsOnly IsCorrupt (Reader.word truncated w) :=
  Reader.FailsOnly.word (isCorrupt_corrupt _) w

theorem failsOnly_string (len : Nat) (detail : String) :
    Reader.FailsOnly IsCorrupt (string len detail) :=
  (Reader.FailsOnly.take (isCorrupt_corrupt _) len).bind
    (fun _ => failsOnly_lift (fun _ => Res.isCorrupt_of_utf8))

end Cur

/-! ## String columns -/

/-- The number of strings a string column declares. -/
def stringCount (body : Bytes) : Nat := wordAt body 0 4

/-- Where string `i` starts. -/
def stringOffset (body : Bytes) (i : Nat) : Nat := wordAt body (4 + 8 * i) 8

def stringBlob (body : Bytes) : Bytes := body.drop (4 + 8 * (stringCount body + 1))

/-- What `decodeStrings` checks: the table fits, its end is that of the blob, the blob is text. -/
structure IsStrings (body : Bytes) : Prop where
  table : 4 + 8 * (stringCount body + 1) ≤ body.length
  ends : stringOffset body (stringCount body) = (stringBlob body).length
  text : (fromUtf8 (stringBlob body)).isSome = true

/-- What it does not check: string `i` can be cut out. -/
def StringFits (body : Bytes) (i : Nat) : Prop :=
  i < stringCount body ∧ IsSlice (stringBlob body) (stringOffset body i) (stringOffset body (i + 1))

def stringOffsets (body : Bytes) : List Nat :=
  (List.range (stringCount body + 1)).map (stringOffset body)

theorem decodeStrings_fails {body : Bytes} {e : Fault} (h : decodeStrings body = .error e) :
    IsCorrupt e := by
  refine Reader.FailsOnly.eval ?_ h
  refine (Cur.failsOnly_word 4).bind (fun count => ?_)
  refine ((Cur.failsOnly_word 8).many (count + 1)).bind (fun offsets => ?_)
  refine Reader.failsOnly_rest.bind (fun blob => ?_)
  refine (Reader.FailsOnly.check (isCorrupt_corrupt _)).bind (fun _ => ?_)
  exact (Cur.failsOnly_lift (fun _ => Res.isCorrupt_of_utf8)).bind
    (fun _ => Reader.FailsOnly.pure _)

/-- The words of the offset table, by their place in the body. -/
theorem readTable (body : Bytes) :
    Reader.many Cur.u64 (stringCount body + 1) (body.drop 4) =
      if 8 * (stringCount body + 1) ≤ body.length - 4 then
        .ok (stringOffsets body, stringBlob body)
      else .error Cur.truncated := by
  rw [Cur.u64, Reader.many_word, List.length_drop]
  simp only [List.drop_drop]
  rfl

theorem decodeStrings_eq_ok {body : Bytes} {col : String × List Nat} :
    decodeStrings body = .ok col ↔
      IsStrings body ∧ utf8 col.1 = stringBlob body ∧ col.2 = stringOffsets body := by
  have hlast : (stringOffsets body).getLast? = some (stringOffset body (stringCount body)) := by
    simp [stringOffsets, List.range_succ]
  rw [decodeStrings, Reader.eval_eq_ok]
  constructor
  · -- Down the reader: the count, the table, the blob, its end, the text.
    rintro ⟨rest, h⟩
    obtain ⟨n, _, hcount, h₁⟩ := Reader.bind_eq_ok.1 h
    obtain ⟨offsets, _, htable, h₂⟩ := Reader.bind_eq_ok.1 h₁
    obtain ⟨blob, _, hrest, h₃⟩ := Reader.bind_eq_ok.1 h₂
    obtain ⟨_, _, hcheck, h₄⟩ := Reader.bind_eq_ok.1 h₃
    obtain ⟨s, _, hutf8, hpure⟩ := Reader.bind_eq_ok.1 h₄
    obtain ⟨rfl, -⟩ := Reader.pure_eq_ok.1 hpure
    obtain ⟨hends, -⟩ := Reader.check_eq_ok.1 hcheck
    rw [Cur.u32, Reader.word_eq] at hcount
    split at hcount
    · rename_i hfour
      obtain ⟨rfl, rfl⟩ := Prod.mk.inj (Except.ok.inj hcount)
      change Reader.many Cur.u64 (stringCount body + 1) (body.drop 4) = _ at htable
      rw [readTable] at htable
      split at htable
      · rename_i hfits
        obtain ⟨rfl, rfl⟩ := Prod.mk.inj (Except.ok.inj htable)
        obtain ⟨rfl, -⟩ := Prod.mk.inj (Except.ok.inj hrest)
        have hblob := Res.utf8_eq_ok_iff.1 (Cur.lift_eq_ok.1 hutf8).1
        rw [hlast] at hends
        refine ⟨⟨by omega, Option.some.inj hends, ?_⟩, hblob, rfl⟩
        rw [← hblob, fromUtf8_utf8]
        rfl
      · cases htable
    · cases hcount
  · rintro ⟨hstrings, hblob, hoffsets⟩
    have htable := hstrings.table
    have hcount : Cur.u32 body = .ok (stringCount body, body.drop 4) := by
      rw [Cur.u32, Reader.word_eq, if_pos (by omega)]
      rfl
    have hwords : Reader.many Cur.u64 (stringCount body + 1) (body.drop 4) =
        .ok (stringOffsets body, stringBlob body) := by
      rw [readTable, if_pos (by omega)]
    have hends : (stringOffsets body).getLast? = some (stringBlob body).length := by
      rw [hlast, hstrings.ends]
    refine ⟨stringBlob body, Reader.bind_eq_ok.2 ⟨_, _, hcount, ?_⟩⟩
    refine Reader.bind_eq_ok.2 ⟨_, _, hwords, ?_⟩
    refine Reader.bind_eq_ok.2 ⟨_, _, rfl, ?_⟩
    refine Reader.bind_eq_ok.2 ⟨(), _, Reader.check_eq_ok.2 ⟨hends, rfl⟩, ?_⟩
    refine Reader.bind_eq_ok.2 ⟨_, _, Cur.lift_eq_ok.2 ⟨Res.utf8_eq_ok_iff.2 hblob, rfl⟩, ?_⟩
    exact Reader.pure_eq_ok.2 ⟨by rw [← hoffsets], rfl⟩

theorem IsStrings.decodes {body : Bytes} (h : IsStrings body) :
    ∃ col, decodeStrings body = .ok col := by
  obtain ⟨s, hs⟩ := Option.isSome_iff_exists.1 h.text
  exact ⟨(s, stringOffsets body), decodeStrings_eq_ok.2 ⟨h, utf8_of_fromUtf8 hs, rfl⟩⟩

/-- Cutting a string between two offsets of a table panics unless both are there and in order, on
character boundaries. -/
theorem keyAt_ne_panic_iff {ks : KeysSection} {i : Nat} :
    ks.keyAt i ≠ .error .panic ↔
      ∃ a b, ks.offsets[i]? = some a ∧ ks.offsets[i + 1]? = some b ∧ IsSlice (utf8 ks.blob) a b := by
  rw [KeysSection.keyAt]
  cases ha : ks.offsets[i]? with
  | none => simp [Res.index, ha, Res.unwrap, bind, Except.bind]
  | some a =>
      rw [Res.index_of_getElem? ha, Res.ok_bind]
      cases hb : ks.offsets[i + 1]? with
      | none => simp [Res.index, hb, Res.unwrap, bind, Except.bind]
      | some b =>
          rw [Res.index_of_getElem? hb, Res.ok_bind, Res.sliceStr, Res.unwrap_ne_panic_iff,
            isSome_sliceStr_iff]
          simp

/-- A string that does not panic is there. -/
theorem keyAt_eq_ok {ks : KeysSection} {i : Nat} (h : ks.keyAt i ≠ .error .panic) :
    ∃ s, ks.keyAt i = .ok s := by
  obtain ⟨a, b, ha, hb, hslice⟩ := keyAt_ne_panic_iff.1 h
  obtain ⟨s, hs⟩ := Option.isSome_iff_exists.1 (isSome_sliceStr_iff.2 hslice)
  refine ⟨s, ?_⟩
  rw [KeysSection.keyAt, Res.index_of_getElem? ha, Res.ok_bind, Res.index_of_getElem? hb,
    Res.ok_bind, Res.sliceStr, Res.unwrap_of_eq_some hs]

/-- The strings of a decoded column that can be read. -/
theorem stringAt_ne_panic_iff {body : Bytes} {col : String × List Nat}
    (h : decodeStrings body = .ok col) {i : Nat} :
    KeysSection.keyAt ⟨col.1, col.2⟩ i ≠ .error .panic ↔ StringFits body i := by
  obtain ⟨-, hblob, hoffsets⟩ := decodeStrings_eq_ok.1 h
  rw [keyAt_ne_panic_iff, hblob, hoffsets]
  simp only [stringOffsets, List.getElem?_map, Option.map_eq_some_iff, List.getElem?_eq_some_iff,
    List.length_range, List.getElem_range, StringFits]
  constructor
  · rintro ⟨_, _, ⟨_, ⟨-, rfl⟩, rfl⟩, ⟨_, ⟨hi, rfl⟩, rfl⟩, hslice⟩
    exact ⟨by omega, hslice⟩
  · rintro ⟨hi, hslice⟩
    exact ⟨_, _, ⟨i, ⟨by omega, rfl⟩, rfl⟩, ⟨i + 1, ⟨by omega, rfl⟩, rfl⟩, hslice⟩

/-! ## Keys -/

/-- A key section, with the check both of its callers make. -/
def decodeKeys (body : Bytes) (count : Nat) : Res KeysSection := do
  let column ← decodeStrings body
  Res.check (column.2.length = count + 1) (corrupt "key column count mismatch")
  pure ⟨column.1, column.2⟩

/-- In a section that is accepted, every key can be cut out. -/
def KeysGuarded (body : Bytes) (count : Nat) : Prop :=
  IsStrings body → stringCount body = count → ∀ i < count, StringFits body i

theorem loadKeys_eq [Crc32] (file : Bytes) (dir : SegDir) :
    loadKeys file dir = (do
      let e ← dir.entry kKeys ""
      let body ← readVerifiedBody file e kKeys
      decodeKeys body dir.count) := rfl

theorem decodeKeys_eq_ok {body : Bytes} {count : Nat} {ks : KeysSection} :
    decodeKeys body count = .ok ks ↔
      decodeStrings body = .ok (ks.blob, ks.offsets) ∧ stringCount body = count := by
  rw [decodeKeys]
  cases hdecoded : decodeStrings body with
  | error e =>
      constructor
      · intro h
        cases h
      · rintro ⟨h, -⟩
        cases h
  | ok col =>
      have hlength : col.2.length = stringCount body + 1 := by
        rw [(decodeStrings_eq_ok.1 hdecoded).2.2]
        simp [stringOffsets]
      rw [Res.ok_bind]
      constructor
      · intro h
        obtain ⟨_, hcheck, hpure⟩ := exists_of_bind_eq_ok h
        obtain rfl := Except.ok.inj hpure
        have hcount := Res.of_check_ok hcheck
        exact ⟨rfl, by omega⟩
      · rintro ⟨hcol, rfl⟩
        obtain rfl := Except.ok.inj hcol
        rw [Res.check_true hlength, Res.ok_bind]
        rfl

theorem decodeKeys_fails {body : Bytes} {count : Nat} {e : Fault}
    (h : decodeKeys body count = .error e) : IsCorrupt e := by
  rw [decodeKeys] at h
  cases hdecoded : decodeStrings body with
  | error e' =>
      rw [hdecoded] at h
      obtain rfl := Except.error.inj h
      exact decodeStrings_fails hdecoded
  | ok col =>
      rw [hdecoded, Res.ok_bind, Res.check] at h
      split at h
      · cases h
      · obtain rfl := Except.error.inj h
        exact isCorrupt_corrupt _

theorem decodeKeys_failsClosed_iff {body : Bytes} {count : Nat} :
    FailsClosed (decodeKeys body count) count KeysSection.keyAt ↔ KeysGuarded body count := by
  rw [failsClosed_iff (fun _ => decodeKeys_fails)]
  constructor
  · intro h hstrings hcount i hi
    obtain ⟨col, hdecoded⟩ := hstrings.decodes
    have hkeys : decodeKeys body count = .ok ⟨col.1, col.2⟩ :=
      decodeKeys_eq_ok.2 ⟨hdecoded, hcount⟩
    exact (stringAt_ne_panic_iff hdecoded).1 (h _ hkeys i hi)
  · intro h ks hkeys i hi
    obtain ⟨hdecoded, hcount⟩ := decodeKeys_eq_ok.1 hkeys
    have hstrings := (decodeStrings_eq_ok.1 hdecoded).1
    exact (stringAt_ne_panic_iff hdecoded).2 (h hstrings hcount i hi)

/-! ## Labels in a dictionary -/

/-- A dictionary of length-prefixed strings, and what follows it. -/
structure IsDict (rest : Bytes) (words : List String) (tail : Bytes) : Prop where
  bytes : rest = le32 words.length ++ words.flatMap encodeDictValue ++ tail
  length_lt : words.length < 2 ^ 32
  word_lt : ∀ v ∈ words, (utf8 v).length < 2 ^ 32

/-- Row `i`'s code, in the codes after the dictionary. -/
def rawCode (tail : Bytes) (i : Nat) : Nat := wordAt tail (2 * i) 2

/-- The codes fit in memory, and each is that of a word of the dictionary. -/
def DictGuarded (rest : Bytes) (count : Nat) : Prop :=
  ∀ words tail, IsDict rest words tail →
    count * 2 < 2 ^ 63 ∧ (2 * count ≤ tail.length → ∀ i < count, rawCode tail i ≤ words.length)

def readDict : Cur (List String) := do
  let n ← Cur.u32
  Reader.many readDictValue n

/-- The codes after a dictionary. -/
def readCodes (words : List String) (count : Nat) : Cur LabelColumn := do
  liftM (Res.capacity count 2)
  let codes ← Reader.many Cur.u16 count
  pure (.dict words (codesOf words) codes)

theorem readDictColumn_eq (count : Nat) :
    readDictColumn count = (do
      let words ← readDict
      readCodes words count) := by
  rw [readDictColumn, readDict, bind_assoc]
  rfl

theorem accepts_readDictValue :
    Reader.Accepts readDictValue (fun v => (utf8 v).length < 2 ^ 32) encodeDictValue := by
  intro bs v rest
  constructor
  · intro h
    obtain ⟨len, mid, hlen, hstring⟩ := Reader.bind_eq_ok.1 h
    obtain ⟨got, mid', htake, hutf8⟩ := Reader.bind_eq_ok.1 hstring
    obtain ⟨hlt, rfl⟩ := (Reader.Accepts.word _ _ _ _ _).1 hlen
    obtain ⟨rfl, rfl⟩ := (Reader.Accepts.take _ _ _ _ _).1 htake
    obtain ⟨hdecoded, rfl⟩ := Cur.lift_eq_ok.1 hutf8
    obtain rfl := Res.utf8_eq_ok_iff.1 hdecoded
    exact ⟨by omega, by rw [encodeDictValue, le32, List.append_assoc]; rfl⟩
  · rintro ⟨hlt, rfl⟩
    rw [encodeDictValue, List.append_assoc]
    refine Reader.bind_eq_ok.2 ⟨_, _, Cur.reads_u32 hlt _, ?_⟩
    exact Cur.reads_string v _ rest

theorem readDict_eq_ok {rest tail : Bytes} {words : List String} :
    readDict rest = .ok (words, tail) ↔ IsDict rest words tail := by
  have hmany := accepts_readDictValue.many
  constructor
  · intro h
    obtain ⟨n, mid, hn, hwords⟩ := Reader.bind_eq_ok.1 h
    obtain ⟨hlt, rfl⟩ := (Reader.Accepts.word _ _ _ _ _).1 hn
    obtain ⟨⟨rfl, hall⟩, rfl⟩ := (hmany n _ _ _).1 hwords
    exact ⟨by rw [le32, List.append_assoc], by omega, hall⟩
  · rintro ⟨rfl, hlt, hall⟩
    rw [List.append_assoc]
    refine Reader.bind_eq_ok.2 ⟨_, _, Cur.reads_u32 hlt _, ?_⟩
    exact (hmany _ _ _ _).2 ⟨⟨rfl, hall⟩, rfl⟩

theorem readDict_fails {rest : Bytes} {e : Fault} (h : readDict rest = .error e) : IsCorrupt e := by
  have hvalue : Reader.FailsOnly IsCorrupt readDictValue :=
    (Cur.failsOnly_word 4).bind (fun len => Cur.failsOnly_string len _)
  exact (Cur.failsOnly_word 4).bind (fun n => hvalue.many n) rest e h

theorem valueAt_dict_ne_panic_iff {words : List String} {codeOf : OrdMap String Nat}
    {codes : List Nat} {i c : Nat} (hc : codes[i]? = some c) :
    (LabelColumn.dict words codeOf codes).valueAt i ≠ .error .panic ↔ c ≤ words.length := by
  rw [LabelColumn.valueAt, Res.index_of_getElem? hc, Res.ok_bind]
  split
  · rename_i hzero
    subst hzero
    exact iff_of_true Res.ok_ne_panic (Nat.zero_le _)
  · rename_i hpos
    cases hword : words[c - 1]? with
    | none =>
        have hover := List.getElem?_eq_none_iff.1 hword
        simp only [Res.index, hword]
        exact iff_of_false (fun h => h rfl) (by omega)
    | some v =>
        have hin := (List.getElem?_eq_some_iff.1 hword).1
        rw [Res.index_of_getElem? hword]
        exact iff_of_true Res.ok_ne_panic (by omega)

/-- A column of codes fails closed when there is room for them and they stay within the
dictionary. -/
theorem readCodes_failsClosed_iff {words : List String} {tail : Bytes} {count : Nat} :
    FailsClosed ((readCodes words count).eval tail) count LabelColumn.valueAt ↔
      count * 2 < 2 ^ 63 ∧
        (2 * count ≤ tail.length → ∀ i < count, rawCode tail i ≤ words.length) := by
  change FailsClosed (Prod.fst <$> ((liftM (Res.capacity count 2) : Cur Unit) tail >>=
    fun p => (Reader.many Cur.u16 count p.2 >>= fun q => _))) count _ ↔ _
  by_cases hcapacity : count * 2 < 2 ^ 63
  · have hcodes : Reader.many Cur.u16 count tail =
        if 2 * count ≤ tail.length then
          .ok ((List.range count).map (rawCode tail), tail.drop (2 * count))
        else .error Cur.truncated := Reader.many_word _ 2 count tail
    rw [Res.capacity, Res.check_true hcapacity]
    change FailsClosed (Prod.fst <$> (Reader.many Cur.u16 count tail >>= fun q => _)) count _ ↔ _
    rw [hcodes]
    split
    · rename_i hfits
      change FailsClosed (.ok (LabelColumn.dict words (codesOf words) _)) count _ ↔ _
      rw [failsClosed_ok]
      have hrow : ∀ i < count, ((LabelColumn.dict words (codesOf words)
          ((List.range count).map (rawCode tail))).valueAt i ≠ .error .panic ↔
            rawCode tail i ≤ words.length) :=
        fun i hi => valueAt_dict_ne_panic_iff (by simp [hi])
      constructor
      · exact fun h => ⟨hcapacity, fun _ i hi => (hrow i hi).1 (h i hi)⟩
      · exact fun h i hi => (hrow i hi).2 (h.2 hfits i hi)
    · -- The codes are cut off: the section is refused.
      rename_i hshort
      refine iff_of_true (failsClosed_corrupt (isCorrupt_corrupt _)) ?_
      exact ⟨hcapacity, fun hfits => absurd hfits hshort⟩
  · refine iff_of_false ?_ (fun h => hcapacity h.1)
    rw [Res.capacity, Res.check, if_neg hcapacity]
    exact not_failsClosed_panic

/-- Bytes have one dictionary at most. -/
theorem dictGuarded_iff {rest tail : Bytes} {words : List String} {count : Nat}
    (h : IsDict rest words tail) :
    DictGuarded rest count ↔ count * 2 < 2 ^ 63 ∧
      (2 * count ≤ tail.length → ∀ i < count, rawCode tail i ≤ words.length) := by
  constructor
  · exact fun hguarded => hguarded words tail h
  · intro hcodes words' tail' h'
    have hsame := (readDict_eq_ok.2 h).symm.trans (readDict_eq_ok.2 h')
    obtain ⟨rfl, rfl⟩ := Prod.mk.inj (Except.ok.inj hsame)
    exact hcodes

theorem readDictColumn_failsClosed_iff {rest : Bytes} {count : Nat} :
    FailsClosed ((readDictColumn count).eval rest) count LabelColumn.valueAt ↔
      DictGuarded rest count := by
  rw [readDictColumn_eq]
  change FailsClosed (Prod.fst <$> (readDict rest >>= fun p => readCodes p.1 count p.2)) count _ ↔ _
  cases hread : readDict rest with
  | error e =>
      refine iff_of_true (failsClosed_corrupt (readDict_fails hread)) ?_
      intro words tail hdict
      rw [readDict_eq_ok.2 hdict] at hread
      cases hread
  | ok p =>
      obtain ⟨words, tail⟩ := p
      rw [dictGuarded_iff (readDict_eq_ok.1 hread)]
      exact readCodes_failsClosed_iff

/-! ## Labels spelled out -/

/-- Which rows have their bit set. -/
def rowFlags (rest : Bytes) (count : Nat) : List Bool :=
  (List.range count).map (fun i => decide (bitAt rest i = some true))

def presentCount (rest : Bytes) (count : Nat) : Nat := (rowFlags rest count).count true

/-- The string column after the presence bitmap. -/
def plainStrings (rest : Bytes) (count : Nat) : Bytes := rest.drop (bitmapLen count)

/-- The values fit in memory, and each present row has a string that can be cut out. -/
def PlainGuarded (rest : Bytes) (count : Nat) : Prop :=
  bitmapLen count ≤ rest.length → IsStrings (plainStrings rest count) →
    count * 24 < 2 ^ 63 ∧
      ∀ k < presentCount rest count, StringFits (plainStrings rest count) k

/-- The flags of a bitmap that is long enough. -/
theorem presenceFlags_take {rest : Bytes} {count : Nat} (h : bitmapLen count ≤ rest.length) :
    presenceFlags (rest.take (bitmapLen count)) count = .ok (rowFlags rest count) := by
  have hbit : ∀ i ∈ List.range count, Res.unwrap (bitAt (rest.take (bitmapLen count)) i) =
      .ok (decide (bitAt rest i = some true)) := by
    intro i hi
    have hlt : i < count := List.mem_range.1 hi
    have hbyte : i / 8 < (rest.take (bitmapLen count)).length := by
      rw [List.length_take, min_eq_left h, bitmapLen]
      omega
    have hsame : bitAt rest i = bitAt (rest.take (bitmapLen count)) i := by
      have happend := bitAt_append (rest.drop (bitmapLen count)) hbyte
      rwa [List.take_append_drop] at happend
    have hsome : (bitAt (rest.take (bitmapLen count)) i).isSome = true := by
      simpa [bitAt] using hbyte
    obtain ⟨b, hb⟩ := Option.isSome_iff_exists.1 hsome
    rw [hsame, Res.unwrap_of_eq_some hb, hb]
    cases b with
    | true => rfl
    | false => rfl
  rw [presenceFlags, mapM_ok hbit, rowFlags]

/-- A present row takes the next string. -/
theorem plainValues_true (s : String) (offsets : List Nat) (flags : List Bool) (pi : Nat) :
    plainValues s offsets (true :: flags) pi = (do
      let v ← KeysSection.keyAt ⟨s, offsets⟩ pi
      let more ← plainValues s offsets flags (pi + 1)
      pure (some v :: more.1, more.2)) := by
  simp only [plainValues, KeysSection.keyAt, bind_assoc]

/-- The walk over the flags cuts out one string after the other. -/
theorem plainValues_eq {s : String} {offsets : List Nat} :
    ∀ (flags : List Bool) (pi : Nat),
      (∀ k < flags.count true, KeysSection.keyAt ⟨s, offsets⟩ (pi + k) ≠ .error .panic) →
        ∃ values, plainValues s offsets flags pi = .ok (values, pi + flags.count true) ∧
          values.length = flags.length := by
  intro flags
  induction flags with
  | nil => exact fun pi _ => ⟨[], rfl, rfl⟩
  | cons flag flags ih =>
      intro pi h
      cases flag with
      | false =>
          obtain ⟨values, hvalues, hlen⟩ := ih pi (by simpa using h)
          refine ⟨none :: values, ?_, by simp [hlen]⟩
          rw [plainValues, hvalues, List.count_cons_of_ne (by decide)]
          rfl
      | true =>
          have hmore : ∀ k < flags.count true,
              KeysSection.keyAt ⟨s, offsets⟩ (pi + 1 + k) ≠ .error .panic := by
            intro k hk
            have hnext := h (k + 1) (by simpa using hk)
            rwa [← Nat.add_assoc, Nat.add_right_comm] at hnext
          obtain ⟨values, hvalues, hlen⟩ := ih (pi + 1) hmore
          obtain ⟨v, hv⟩ := keyAt_eq_ok (h 0 (by simp))
          refine ⟨some v :: values, ?_, by simp [hlen]⟩
          rw [plainValues_true, ← Nat.add_zero pi, hv, Res.ok_bind, Nat.add_zero, hvalues,
            List.count_cons_self, Nat.add_right_comm, ← Nat.add_assoc]
          rfl

theorem plainValues_panic {s : String} {offsets : List Nat} :
    ∀ (flags : List Bool) (pi : Nat),
      (∃ k < flags.count true, KeysSection.keyAt ⟨s, offsets⟩ (pi + k) = .error .panic) →
        plainValues s offsets flags pi = .error .panic := by
  intro flags
  induction flags with
  | nil => exact fun pi h => absurd h (by simp)
  | cons flag flags ih =>
      intro pi h
      cases flag with
      | false =>
          rw [plainValues, ih pi (by simpa using h)]
          rfl
      | true =>
          rw [plainValues_true]
          by_cases hfirst : KeysSection.keyAt ⟨s, offsets⟩ pi = .error .panic
          · rw [hfirst]
            rfl
          · -- The string that cannot be cut out comes later.
            obtain ⟨k, hk, hpanic⟩ := h
            obtain ⟨v, hv⟩ := keyAt_eq_ok hfirst
            cases k with
            | zero => exact absurd hpanic hfirst
            | succ k =>
                have hlater : KeysSection.keyAt ⟨s, offsets⟩ (pi + 1 + k) = .error .panic := by
                  rwa [Nat.add_right_comm, Nat.add_assoc]
                rw [hv, Res.ok_bind, ih (pi + 1) ⟨k, by simpa using hk, hlater⟩]
                rfl

/-- The bitmap in front of the strings. -/
theorem take_bitmap {rest : Bytes} {count : Nat} (hbitmap : bitmapLen count ≤ rest.length) :
    Cur.take (bitmapLen count) rest =
      .ok (rest.take (bitmapLen count), plainStrings rest count) := by
  rw [Cur.take, Reader.take, if_pos hbitmap, plainStrings]

/-- Once the bitmap and the strings are read, what is left is the walk over the flags. -/
theorem readPlainColumn_eval {rest : Bytes} {count : Nat} {col : String × List Nat}
    (hbitmap : bitmapLen count ≤ rest.length)
    (hdecoded : decodeStrings (plainStrings rest count) = .ok col) :
    (readPlainColumn count).eval rest = (do
      Res.capacity count 24
      let values ← plainValues col.1 col.2 (rowFlags rest count) 0
      Res.check (values.2 + 1 = col.2.length)
        (corrupt "plain label presence/value count mismatch")
      pure (.plain values.1)) := by
  change Prod.fst <$> (Cur.take (bitmapLen count) rest >>= fun p => _) = _
  rw [take_bitmap hbitmap]
  change Prod.fst <$> ((liftM (decodeStrings (plainStrings rest count)) : Cur _)
    (plainStrings rest count) >>= fun p => _) = _
  rw [hdecoded]
  change Prod.fst <$> ((liftM (Res.capacity count 24) : Cur Unit)
    (plainStrings rest count) >>= fun p => _) = _
  -- The checks that are left do not read on.
  cases Res.capacity count 24 with
  | error e => rfl
  | ok u =>
      change Prod.fst <$> ((liftM (presenceFlags (rest.take (bitmapLen count)) count) : Cur _)
        (plainStrings rest count) >>= fun p => _) = _
      rw [presenceFlags_take hbitmap, Res.ok_bind]
      change Prod.fst <$> ((liftM (plainValues col.1 col.2 (rowFlags rest count) 0) : Cur _)
        (plainStrings rest count) >>= fun p => _) = _
      cases plainValues col.1 col.2 (rowFlags rest count) 0 with
      | error e => rfl
      | ok values =>
          change Prod.fst <$> (Reader.check (values.2 + 1 = col.2.length) _
            (plainStrings rest count) >>= fun p => _) = _
          rw [Res.ok_bind, Reader.check, Res.check]
          split
          · rfl
          · rfl

theorem readPlainColumn_short {rest : Bytes} {count : Nat} (h : ¬ bitmapLen count ≤ rest.length) :
    (readPlainColumn count).eval rest = .error Cur.truncated := by
  have htake : Cur.take (bitmapLen count) rest = .error Cur.truncated := by
    rw [Cur.take, Reader.take, if_neg h]
  change Prod.fst <$> (Cur.take (bitmapLen count) rest >>= fun p => _) = _
  rw [htake]
  rfl

theorem readPlainColumn_error {rest : Bytes} {count : Nat} {e : Fault}
    (hbitmap : bitmapLen count ≤ rest.length)
    (hdecoded : decodeStrings (plainStrings rest count) = .error e) :
    (readPlainColumn count).eval rest = .error e := by
  change Prod.fst <$> (Cur.take (bitmapLen count) rest >>= fun p => _) = _
  rw [take_bitmap hbitmap]
  change Prod.fst <$> ((liftM (decodeStrings (plainStrings rest count)) : Cur _)
    (plainStrings rest count) >>= fun p => _) = _
  rw [hdecoded]
  rfl

/-- The walk fails closed exactly when each present row has its string. -/
theorem plainWalk_failsClosed_iff {rest : Bytes} {count : Nat} {col : String × List Nat}
    (hdecoded : decodeStrings (plainStrings rest count) = .ok col) :
    FailsClosed (do
        let values ← plainValues col.1 col.2 (rowFlags rest count) 0
        Res.check (values.2 + 1 = col.2.length)
          (corrupt "plain label presence/value count mismatch")
        pure (LabelColumn.plain values.1)) count LabelColumn.valueAt ↔
      ∀ k < presentCount rest count, StringFits (plainStrings rest count) k := by
  have hfits : ∀ k, KeysSection.keyAt ⟨col.1, col.2⟩ (0 + k) ≠ .error .panic ↔
      StringFits (plainStrings rest count) k := by
    intro k
    rw [Nat.zero_add]
    exact stringAt_ne_panic_iff hdecoded
  by_cases hfit : ∀ k < presentCount rest count, StringFits (plainStrings rest count) k
  · refine iff_of_true ?_ hfit
    obtain ⟨values, hvalues, hlen⟩ := plainValues_eq (rowFlags rest count) 0
      (fun k hk => (hfits k).2 (hfit k hk))
    rw [rowFlags, List.length_map, List.length_range] at hlen
    rw [hvalues, Res.ok_bind, Res.check]
    -- The count is checked once all values have been read.
    split
    · refine failsClosed_ok.2 (fun i hi => ?_)
      have hget : values[i]? = some values[i] := List.getElem?_eq_getElem (by omega)
      rw [LabelColumn.valueAt, Res.index_of_getElem? hget]
      exact Res.ok_ne_panic
    · exact failsClosed_corrupt (isCorrupt_corrupt _)
  · refine iff_of_false ?_ hfit
    have hpanic : ∃ k < presentCount rest count,
        KeysSection.keyAt ⟨col.1, col.2⟩ (0 + k) = .error .panic := by
      by_contra hnone
      exact hfit (fun k hk => (hfits k).1 (fun h => hnone ⟨k, hk, h⟩))
    rw [plainValues_panic (rowFlags rest count) 0 hpanic]
    exact not_failsClosed_panic

theorem readPlainColumn_failsClosed_iff {rest : Bytes} {count : Nat} :
    FailsClosed ((readPlainColumn count).eval rest) count LabelColumn.valueAt ↔
      PlainGuarded rest count := by
  by_cases hbitmap : bitmapLen count ≤ rest.length
  · cases hdecoded : decodeStrings (plainStrings rest count) with
    | error e =>
        rw [readPlainColumn_error hbitmap hdecoded]
        refine iff_of_true (failsClosed_corrupt (decodeStrings_fails hdecoded)) ?_
        intro _ hstrings
        obtain ⟨col, hok⟩ := hstrings.decodes
        rw [hok] at hdecoded
        cases hdecoded
    | ok col =>
        have hstrings := (decodeStrings_eq_ok.1 hdecoded).1
        have hguarded : PlainGuarded rest count ↔ count * 24 < 2 ^ 63 ∧
            ∀ k < presentCount rest count, StringFits (plainStrings rest count) k :=
          ⟨fun h => h hbitmap hstrings, fun h _ _ => h⟩
        rw [readPlainColumn_eval hbitmap hdecoded, hguarded]
        by_cases hcapacity : count * 24 < 2 ^ 63
        · rw [Res.capacity, Res.check_true hcapacity, Res.ok_bind,
            plainWalk_failsClosed_iff hdecoded]
          exact (and_iff_right hcapacity).symm
        · rw [Res.capacity, Res.check, if_neg hcapacity]
          exact iff_of_false not_failsClosed_panic (fun h => hcapacity h.1)
  · rw [readPlainColumn_short hbitmap]
    exact iff_of_true (failsClosed_corrupt (isCorrupt_corrupt _)) (fun h => absurd h hbitmap)

/-! ## Labels -/

/-- By its mode byte, a label section is a dictionary or spelled out; other modes are refused. -/
def LabelGuarded (body : Bytes) (count : Nat) : Prop :=
  (body.head? = some 0 → DictGuarded body.tail count) ∧
    (body.head? = some 1 → PlainGuarded body.tail count)

theorem decodeLabelColumn_failsClosed_iff {body : Bytes} {count : Nat} :
    FailsClosed (decodeLabelColumn body count) count LabelColumn.valueAt ↔
      LabelGuarded body count := by
  cases body with
  | nil => exact iff_of_true (failsClosed_corrupt (isCorrupt_corrupt _)) (by simp [LabelGuarded])
  | cons mode rest =>
      rw [decodeLabelColumn, LabelGuarded, List.head?_cons, List.tail_cons]
      split
      · rename_i hdict
        subst hdict
        rw [readDictColumn_failsClosed_iff]
        exact ⟨fun h => ⟨fun _ => h, by simp⟩, fun h => h.1 rfl⟩
      · rename_i hmode
        split
        · rename_i hplain
          subst hplain
          rw [readPlainColumn_failsClosed_iff]
          exact ⟨fun h => ⟨by simp, fun _ => h⟩, fun h => h.2 rfl⟩
        · rename_i hother
          refine iff_of_true (failsClosed_corrupt (isCorrupt_corrupt _)) ⟨?_, ?_⟩
          · exact fun h => absurd (Option.some.inj h) hmode
          · exact fun h => absurd (Option.some.inj h) hother

/-! ## Payloads -/

/-- The offset table of a payload section whose checksum is at `start`. -/
def decodePayloads (body : Bytes) (start count : Nat) : Res PayloadIndex := do
  Res.capacity (count + 1) 8
  let rel ← (Reader.many Cur.u64 (count + 1)).eval body
  pure ⟨start + 4 + 8 * (count + 1), rel⟩

/-- Row `i`'s payload, cut out of the file in memory. -/
def PayloadIndex.sliceAt (pi : PayloadIndex) (bytes : Bytes) (i : Nat) : Res Bytes := do
  let start ← Res.index pi.rel i
  let offset ← Res.add64 pi.absBase start
  let stop ← Res.index pi.rel (i + 1)
  let len ← Res.sub64 stop start
  sliceBytes bytes offset len

def rawOffset (body : Bytes) (i : Nat) : Nat := wordAt body (8 * i) 8

/-- The table fits in memory; its offsets ascend and stay 64-bit numbers in the file. -/
def PayloadsGuarded (body : Bytes) (start count : Nat) : Prop :=
  (count + 1) * 8 < 2 ^ 63 ∧
    (8 * (count + 1) ≤ body.length → ∀ i < count,
      start + 4 + 8 * (count + 1) + rawOffset body i < 2 ^ 64 ∧
        rawOffset body i ≤ rawOffset body (i + 1))

section Payloads

variable {ν : Type}

theorem decodeBody_payloads [FloatBits ν] [Rmp (List (BlockMeta ν))] (count : Nat)
    (st : Decoding ν) (name : String) (start : Nat) (body : Bytes) :
    decodeBody count st kPayload name start body = (do
      let payloads ← decodePayloads body start count
      pure { st with payloads := some payloads }) := by
  simp only [decodePayloads, bind_assoc, pure_bind]
  rfl

theorem recordAt_eq [Deflate] (bytes : Bytes) (cols : SegmentColumns ν) (pi : PayloadIndex)
    (i : Nat) :
    recordAt bytes cols pi i = (do
      let payload ← pi.sliceAt bytes i
      let text ← fileTextAt bytes cols i
      cols.buildRecord i payload text) := by
  simp only [recordAt, PayloadIndex.sliceAt, bind_assoc]

end Payloads

theorem sliceBytes_ne_panic (bytes : Bytes) (start len : Nat) :
    sliceBytes bytes start len ≠ .error .panic := by
  unfold sliceBytes Res.check
  intro h
  split at h
  · rw [Res.ok_bind] at h
    split at h
    · cases h
    · cases h
  · cases h

theorem sliceAt_ne_panic_iff {pi : PayloadIndex} {bytes : Bytes} {i start stop : Nat}
    (hstart : pi.rel[i]? = some start) (hstop : pi.rel[i + 1]? = some stop) :
    pi.sliceAt bytes i ≠ .error .panic ↔ pi.absBase + start < 2 ^ 64 ∧ start ≤ stop := by
  rw [PayloadIndex.sliceAt, Res.index_of_getElem? hstart, Res.ok_bind,
    Res.index_of_getElem? hstop]
  by_cases hsum : pi.absBase + start < 2 ^ 64
  · rw [Res.add64_of_lt hsum, Res.ok_bind, Res.ok_bind, Res.sub64]
    split
    · rename_i hle
      exact iff_of_true (sliceBytes_ne_panic bytes _ _) ⟨hsum, hle⟩
    · rename_i hlt
      exact iff_of_false (fun h => h rfl) (fun h => hlt h.2)
  · rw [Res.add64, if_neg hsum]
    exact iff_of_false (fun h => h rfl) (fun h => hsum h.1)

theorem decodePayloads_failsClosed_iff {body : Bytes} {start count : Nat} (bytes : Bytes) :
    FailsClosed (decodePayloads body start count) count (fun pi i => pi.sliceAt bytes i) ↔
      PayloadsGuarded body start count := by
  rw [decodePayloads, Res.capacity, PayloadsGuarded]
  by_cases hcapacity : (count + 1) * 8 < 2 ^ 63
  · have htable : Reader.many Cur.u64 (count + 1) body =
        if 8 * (count + 1) ≤ body.length then
          .ok ((List.range (count + 1)).map (rawOffset body), body.drop (8 * (count + 1)))
        else .error Cur.truncated := Reader.many_word _ 8 (count + 1) body
    rw [Res.check_true hcapacity, Res.ok_bind, Reader.eval, htable]
    split
    · rename_i hfits
      change FailsClosed (.ok (⟨start + 4 + 8 * (count + 1), _⟩ : PayloadIndex)) count _ ↔ _
      rw [failsClosed_ok]
      have hrow : ∀ i < count, PayloadIndex.sliceAt
          ⟨start + 4 + 8 * (count + 1), (List.range (count + 1)).map (rawOffset body)⟩ bytes i ≠
            .error .panic ↔ start + 4 + 8 * (count + 1) + rawOffset body i < 2 ^ 64 ∧
              rawOffset body i ≤ rawOffset body (i + 1) := by
        intro i hi
        have hi' : i < count + 1 := by omega
        exact sliceAt_ne_panic_iff (by simp [hi']) (by simp [hi])
      constructor
      · exact fun h => ⟨hcapacity, fun _ i hi => (hrow i hi).1 (h i hi)⟩
      · exact fun h i hi => (hrow i hi).2 (h.2 hfits i hi)
    · rename_i hshort
      refine iff_of_true (failsClosed_corrupt (isCorrupt_corrupt _)) ?_
      exact ⟨hcapacity, fun hfits => absurd hfits hshort⟩
  · refine iff_of_false ?_ (fun h => hcapacity h.1)
    rw [Res.check, if_neg hcapacity]
    exact not_failsClosed_panic

/-! ## Rows of a decoded file -/

/-- The computation can fail by a panic only. -/
def PanicsOnly {α : Type} (x : Res α) : Prop := ∀ e, x = .error e → e = .panic

namespace PanicsOnly

variable {α β : Type}

theorem ok (a : α) : PanicsOnly (.ok a : Res α) := by
  intro e h
  cases h

theorem unwrap (o : Option α) : PanicsOnly (Res.unwrap o) := by
  intro e h
  cases o with
  | none => exact (Except.error.inj h).symm
  | some a => cases h

theorem bind {x : Res α} {f : α → Res β} (h : PanicsOnly x) (h' : ∀ a, PanicsOnly (f a)) :
    PanicsOnly (x >>= f) := by
  intro e herror
  cases x with
  | error e' =>
      obtain rfl := Except.error.inj herror
      exact h e' rfl
  | ok a => exact h' a e herror

theorem exists_ok {x : Res α} (h : PanicsOnly x) (hne : x ≠ .error .panic) : ∃ a, x = .ok a := by
  cases x with
  | ok a => exact ⟨a, rfl⟩
  | error e => exact absurd (congrArg Except.error (h e rfl)) hne

theorem foldlM {step : β → α → Res β} (h : ∀ b a, PanicsOnly (step b a)) :
    ∀ (l : List α) (b : β), PanicsOnly (l.foldlM step b) := by
  intro l
  induction l with
  | nil => exact fun b => ok b
  | cons a l ih =>
      intro b
      rw [List.foldlM_cons]
      exact (h b a).bind ih

end PanicsOnly

theorem panicsOnly_keyAt (ks : KeysSection) (i : Nat) : PanicsOnly (ks.keyAt i) :=
  (PanicsOnly.unwrap _).bind (fun _ => (PanicsOnly.unwrap _).bind (fun _ => PanicsOnly.unwrap _))

theorem panicsOnly_labelValueAt (col : LabelColumn) (i : Nat) : PanicsOnly (col.valueAt i) := by
  cases col with
  | plain values => exact PanicsOnly.unwrap _
  | dict words codeOf codes =>
      refine (PanicsOnly.unwrap _).bind (fun c => ?_)
      split
      · exact PanicsOnly.ok none
      · exact (PanicsOnly.unwrap _).bind (fun v => PanicsOnly.ok (some v))

/-- Columns are gathered without a panic exactly when each gives its value without one. -/
theorem gather_ne_panic_iff {κ α : Type} {cols : OrdMap String κ} {valueAt : κ → Res (Option α)}
    (hfails : ∀ col, PanicsOnly (valueAt col)) :
    SegmentColumns.gather cols valueAt ≠ .error .panic ↔
      ∀ (name : String) (col : κ), cols[name]? = some col → valueAt col ≠ .error .panic := by
  have hloop : ∀ (l : List (String × κ)) (acc : OrdMap String α),
      l.foldlM (gatherStep valueAt) acc ≠ .error .panic ↔
        ∀ col ∈ l, valueAt col.2 ≠ .error .panic := by
    intro l
    induction l with
    | nil => exact fun acc => iff_of_true Res.ok_ne_panic (by simp)
    | cons col l ih =>
        intro acc
        rw [List.foldlM_cons, List.forall_mem_cons, gatherStep]
        cases hvalue : valueAt col.2 with
        | error e =>
            obtain rfl := hfails _ e hvalue
            exact iff_of_false (fun h => h rfl) (fun h => h.1 rfl)
        | ok v =>
            rw [and_iff_right Res.ok_ne_panic]
            cases v with
            | none => exact ih acc
            | some v => exact ih (acc.insert col.1 v)
  rw [gather_eq]
  refine (hloop cols.toList ∅).trans ?_
  constructor
  · exact fun h name col hget =>
      h (name, col) (Std.ExtTreeMap.mem_toList_iff_getElem?_eq_some.2 hget)
  · exact fun h col hcol =>
      h col.1 col.2 (Std.ExtTreeMap.mem_toList_iff_getElem?_eq_some.1 hcol)

theorem panicsOnly_gather {κ α : Type} {valueAt : κ → Res (Option α)}
    (h : ∀ col, PanicsOnly (valueAt col)) (cols : OrdMap String κ) :
    PanicsOnly (SegmentColumns.gather cols valueAt) := by
  refine PanicsOnly.foldlM (fun row (col : String × κ) => (h col.2).bind (fun v => ?_)) _ _
  cases v with
  | none => exact PanicsOnly.ok row
  | some v => exact PanicsOnly.ok _

section Rows

variable {ν : Type}

/-- A numeric column with an entry for every row. -/
def NumericColumn.Covers (col : NumericColumn ν) (count : Nat) : Prop :=
  col.present.length = count ∧ col.values.length = count

theorem decodeNumericColumn_covers [FloatBits ν] {body : Bytes} {count : Nat}
    {col : NumericColumn ν} (h : decodeNumericColumn body count = .ok col) : col.Covers count := by
  obtain ⟨rest, hread⟩ := Reader.eval_eq_ok.1 h
  obtain ⟨presence, _, -, h₁⟩ := Reader.bind_eq_ok.1 hread
  obtain ⟨present, _, hpresent, h₂⟩ := Reader.bind_eq_ok.1 h₁
  obtain ⟨values, _, hvalues, hpure⟩ := Reader.bind_eq_ok.1 h₂
  obtain ⟨rfl, -⟩ := Reader.pure_eq_ok.1 hpure
  have hflags := length_of_mapM_eq_ok (Cur.lift_eq_ok.1 hpresent).1
  rw [List.length_range] at hflags
  exact ⟨hflags, (Reader.length_of_mapM_eq_ok hvalues).trans hflags⟩

theorem panicsOnly_numericValueAt (col : NumericColumn ν) (i : Nat) :
    PanicsOnly (col.valueAt i) := by
  refine (PanicsOnly.unwrap _).bind (fun p => ?_)
  split
  · exact (PanicsOnly.unwrap _).bind (fun v => PanicsOnly.ok (some v))
  · exact PanicsOnly.ok none

theorem NumericColumn.Covers.valueAt_ok {col : NumericColumn ν} {count i : Nat}
    (h : col.Covers count) (hi : i < count) : ∃ v, col.valueAt i = .ok v := by
  obtain ⟨hpresent, hvalues⟩ := h
  rw [NumericColumn.valueAt,
    Res.index_of_getElem? (List.getElem?_eq_getElem (show i < col.present.length by omega)),
    Res.ok_bind]
  split
  · rw [Res.index_of_getElem? (List.getElem?_eq_getElem (show i < col.values.length by omega))]
    exact ⟨_, rfl⟩
  · exact ⟨none, rfl⟩

/-- Building a row has no unchecked access but those to its key and to its labels. -/
theorem buildRecord_ne_panic_iff {cols : SegmentColumns ν} {i : Nat} (hi : i < cols.count)
    (htimestamps : cols.timestamps.length = cols.count)
    (hnumerics : ∀ (name : String) (col : NumericColumn ν), cols.numerics[name]? = some col →
      col.Covers cols.count) (payload : Bytes) (text : Option String) :
    cols.buildRecord i payload text ≠ .error .panic ↔
      cols.keyAt i ≠ .error .panic ∧
        ∀ (name : String) (col : LabelColumn), cols.labels[name]? = some col →
          col.valueAt i ≠ .error .panic := by
  -- The numeric columns and the timestamps cover every row, so only keys and labels can panic.
  obtain ⟨numerics, hgathered⟩ : ∃ numerics,
      SegmentColumns.gather cols.numerics (fun col => col.valueAt i) = .ok numerics := by
    refine (panicsOnly_gather (fun col => panicsOnly_numericValueAt col i) _).exists_ok ?_
    refine (gather_ne_panic_iff (fun col => panicsOnly_numericValueAt col i)).2 ?_
    intro name col hcol
    obtain ⟨v, hv⟩ := (hnumerics name col hcol).valueAt_ok hi
    rw [hv]
    exact Res.ok_ne_panic
  have htimestamp : cols.timestamps[i]? = some cols.timestamps[i] :=
    List.getElem?_eq_getElem (by omega)
  rw [← gather_ne_panic_iff (fun col => panicsOnly_labelValueAt col i), SegmentColumns.buildRecord,
    hgathered]
  cases hlabels : SegmentColumns.gather cols.labels (fun col => col.valueAt i) with
  | error e =>
      obtain rfl := panicsOnly_gather (fun col => panicsOnly_labelValueAt col i) _ e hlabels
      exact iff_of_false (fun h => h rfl) (fun h => h.2 rfl)
  | ok labels =>
      rw [Res.ok_bind, Res.ok_bind]
      cases hkey : cols.keyAt i with
      | error e =>
          obtain rfl := panicsOnly_keyAt cols.keys i e hkey
          exact iff_of_false (fun h => h rfl) (fun h => h.1 rfl)
      | ok key =>
          rw [Res.ok_bind, Res.index_of_getElem? htimestamp]
          exact iff_of_true Res.ok_ne_panic ⟨Res.ok_ne_panic, Res.ok_ne_panic⟩

end Rows

/-! ## Whole files -/

theorem require_eq_ok {α : Type} {a : Option α} {detail : String} {b : α}
    (h : require a detail = .ok b) : a = some b := by
  cases a with
  | none => cases h
  | some a => rw [← Except.ok.inj h]

/-- A section of the file: an entry of its directory and the body there, both checksums correct. -/
def HasSection [Crc32] (bytes : Bytes) (dir : SectionDir) (kind : UInt8) (name : String)
    (body : Bytes) : Prop :=
  ∃ e ∈ dir.entries, e.kind = kind ∧ e.name = name ∧ verifiedSlice bytes e = .ok body

section Files

variable {ν : Type} [FloatBits ν] [Crc32] [Rmp (List (BlockMeta ν))]

/-- The columns decoded so far come from sections of the file. -/
structure Decoding.From (bytes : Bytes) (dir : SectionDir) (st : Decoding ν) : Prop where
  keys : ∀ ks, st.keys = some ks → ∃ name body,
    HasSection bytes dir kKeys name body ∧ decodeStrings body = .ok (ks.blob, ks.offsets)
  labels : ∀ (name : String) (col : LabelColumn), st.labels[name]? = some col → ∃ body,
    HasSection bytes dir kLabel name body ∧ decodeLabelColumn body dir.count.toNat = .ok col
  numerics : ∀ (name : String) (col : NumericColumn ν), st.numerics[name]? = some col →
    col.Covers dir.count.toNat

theorem Decoding.From.section {bytes : Bytes} {dir : SectionDir} {st st' : Decoding ν}
    {e : SectionEntry} (h : st.From bytes dir) (he : e ∈ dir.entries)
    (hstep : decodeSection bytes dir.count.toNat st e = .ok st') : st'.From bytes dir := by
  obtain ⟨body, hbody, hdecode⟩ := exists_of_bind_eq_ok hstep
  have hsection : HasSection bytes dir e.kind e.name body := ⟨e, he, rfl, rfl, hbody⟩
  unfold decodeBody at hdecode
  split at hdecode
  · -- Keys.
    rename_i hkind
    obtain ⟨column, hcolumn, hpure⟩ := exists_of_bind_eq_ok hdecode
    obtain rfl := Except.ok.inj hpure
    refine ⟨?_, h.labels, h.numerics⟩
    intro ks hks
    obtain rfl := Option.some.inj hks
    exact ⟨e.name, body, hkind ▸ hsection, hcolumn⟩
  split at hdecode
  · -- Timestamps.
    obtain ⟨_, -, hpure⟩ := exists_of_bind_eq_ok hdecode
    obtain rfl := Except.ok.inj hpure
    exact ⟨h.keys, h.labels, h.numerics⟩
  split at hdecode
  · -- Labels: one column is put, the others stay.
    rename_i hkind
    obtain ⟨column, hcolumn, hpure⟩ := exists_of_bind_eq_ok hdecode
    obtain rfl := Except.ok.inj hpure
    refine ⟨h.keys, ?_, h.numerics⟩
    intro name col hget
    by_cases hname : name = e.name
    · subst hname
      rw [Std.ExtTreeMap.getElem?_insert_self] at hget
      obtain rfl := Option.some.inj hget
      exact ⟨body, hkind ▸ hsection, hcolumn⟩
    · rw [Std.ExtTreeMap.getElem?_insert, if_neg (by simpa using Ne.symm hname)] at hget
      exact h.labels name col hget
  split at hdecode
  · -- Numerics: one column is put, the others stay.
    obtain ⟨column, hcolumn, hpure⟩ := exists_of_bind_eq_ok hdecode
    obtain rfl := Except.ok.inj hpure
    refine ⟨h.keys, h.labels, ?_⟩
    intro name col hget
    by_cases hname : name = e.name
    · subst hname
      rw [Std.ExtTreeMap.getElem?_insert_self] at hget
      obtain rfl := Option.some.inj hget
      exact decodeNumericColumn_covers hcolumn
    · rw [Std.ExtTreeMap.getElem?_insert, if_neg (by simpa using Ne.symm hname)] at hget
      exact h.numerics name col hget
  split at hdecode
  · -- Payloads.
    obtain ⟨_, -, hrest⟩ := exists_of_bind_eq_ok hdecode
    obtain ⟨_, -, hpure⟩ := exists_of_bind_eq_ok hrest
    obtain rfl := Except.ok.inj hpure
    exact ⟨h.keys, h.labels, h.numerics⟩
  split at hdecode
  · -- Blocks.
    obtain ⟨_, -, hpure⟩ := exists_of_bind_eq_ok hdecode
    obtain rfl := Except.ok.inj hpure
    exact ⟨h.keys, h.labels, h.numerics⟩
  split at hdecode
  · -- Text.
    split at hdecode
    · obtain ⟨_, -, hpure⟩ := exists_of_bind_eq_ok hdecode
      obtain rfl := Except.ok.inj hpure
      exact ⟨h.keys, h.labels, h.numerics⟩
    · obtain rfl := Except.ok.inj hdecode
      exact ⟨h.keys, h.labels, h.numerics⟩
  split at hdecode
  · -- Tokens, or a kind that is passed over.
    obtain ⟨_, -, hpure⟩ := exists_of_bind_eq_ok hdecode
    obtain rfl := Except.ok.inj hpure
    exact ⟨h.keys, h.labels, h.numerics⟩
  · obtain rfl := Except.ok.inj hdecode
    exact h

omit [FloatBits ν] [Rmp (List (BlockMeta ν))] in
theorem Decoding.From.start (bytes : Bytes) (dir : SectionDir) :
    ({} : Decoding ν).From bytes dir where
  keys ks h := by cases h
  labels name col h := by simp at h
  numerics name col h := by simp at h

variable [Rmp SectionDir]

/-- What the columns of a decoded file are. -/
structure SegmentColumns.From (bytes : Bytes) (dir : SectionDir) (cols : SegmentColumns ν) :
    Prop where
  keys : ∃ name body, HasSection bytes dir kKeys name body ∧
    decodeKeys body cols.count = .ok cols.keys
  timestamps : cols.timestamps.length = cols.count
  labels : ∀ (name : String) (col : LabelColumn), cols.labels[name]? = some col → ∃ body,
    HasSection bytes dir kLabel name body ∧ decodeLabelColumn body cols.count = .ok col
  numerics : ∀ (name : String) (col : NumericColumn ν), cols.numerics[name]? = some col →
    col.Covers cols.count

theorem decodeV2Columns_from {bytes : Bytes} {cols : SegmentColumns ν}
    (h : decodeV2Columns bytes = .ok cols) :
    ∃ dir, decodeFooter bytes = .ok dir ∧ cols.From bytes dir := by
  obtain ⟨dir, hdir, h₁⟩ := exists_of_bind_eq_ok h
  obtain ⟨st, hst, h₂⟩ := exists_of_bind_eq_ok h₁
  obtain ⟨texts, -, h₃⟩ := exists_of_bind_eq_ok h₂
  obtain ⟨keys, hkeys, h₄⟩ := exists_of_bind_eq_ok h₃
  obtain ⟨timestamps, -, h₅⟩ := exists_of_bind_eq_ok h₄
  obtain ⟨payloads, -, h₆⟩ := exists_of_bind_eq_ok h₅
  obtain ⟨blocks, -, h₇⟩ := exists_of_bind_eq_ok h₆
  obtain ⟨_, hcheck, hpure⟩ := exists_of_bind_eq_ok h₇
  obtain rfl := Except.ok.inj hpure
  obtain ⟨hoffsets, htimestamps⟩ := Res.of_check_ok hcheck
  have hfrom : st.From bytes dir :=
    foldlM_keeps (fun st e he st' hst hstep => hst.section he hstep) (.start bytes dir) hst
  refine ⟨dir, hdir, ?_, htimestamps, hfrom.labels, hfrom.numerics⟩
  obtain ⟨name, body, hsection, hdecoded⟩ := hfrom.keys keys (require_eq_ok hkeys)
  refine ⟨name, body, hsection, decodeKeys_eq_ok.2 ⟨hdecoded, ?_⟩⟩
  have hlength := congrArg List.length (decodeStrings_eq_ok.1 hdecoded).2.2
  simp only [stringOffsets, List.length_map, List.length_range] at hlength
  change stringCount body = dir.count.toNat
  omega

omit [FloatBits ν] [Crc32] [Rmp (List (BlockMeta ν))] [Rmp SectionDir] in
/-- Every row can be built without a panic. -/
def SegmentColumns.RowsBuild (cols : SegmentColumns ν) : Prop :=
  ∀ i < cols.count, ∀ payload text, cols.buildRecord i payload text ≠ .error .panic

/-- The rows of a decoded file can be built exactly when its key and label sections are guarded. -/
theorem rowsBuild_iff {bytes : Bytes} {cols : SegmentColumns ν}
    (h : decodeV2Columns bytes = .ok cols) :
    ∃ (dir : SectionDir) (keysName : String) (keysBody : Bytes) (labelBody : String → Bytes),
      decodeFooter bytes = .ok dir ∧ HasSection bytes dir kKeys keysName keysBody ∧
        (∀ name ∈ cols.labels, HasSection bytes dir kLabel name (labelBody name)) ∧
        (cols.RowsBuild ↔ KeysGuarded keysBody cols.count ∧
          ∀ name ∈ cols.labels, LabelGuarded (labelBody name) cols.count) := by
  obtain ⟨dir, hdir, hfrom⟩ := decodeV2Columns_from h
  obtain ⟨keysName, keysBody, hkeysSection, hkeys⟩ := hfrom.keys
  have hlabels : ∀ name : String, ∃ body : Bytes, ∀ col : LabelColumn,
      cols.labels[name]? = some col → HasSection bytes dir kLabel name body ∧
        decodeLabelColumn body cols.count = .ok col := by
    intro name
    cases hget : cols.labels[name]? with
    | none =>
        refine ⟨[], fun col h => ?_⟩
        cases h
    | some col =>
        obtain ⟨body, hbody⟩ := hfrom.labels name col hget
        exact ⟨body, fun col' h => Option.some.inj h ▸ hbody⟩
  choose labelBody hlabelBody using hlabels
  have hmem : ∀ name ∈ cols.labels, ∃ col, cols.labels[name]? = some col :=
    fun name hin => Option.isSome_iff_exists.1 (Std.ExtTreeMap.mem_iff_isSome_getElem?.1 hin)
  -- What was decoded fails closed exactly when its rows can be read.
  have hkeyRows : KeysGuarded keysBody cols.count ↔
      ∀ i < cols.count, cols.keyAt i ≠ .error .panic := by
    rw [← decodeKeys_failsClosed_iff, hkeys, failsClosed_ok]
    rfl
  have hlabelRows : ∀ name col, cols.labels[name]? = some col →
      (LabelGuarded (labelBody name) cols.count ↔
        ∀ i < cols.count, col.valueAt i ≠ .error .panic) := by
    intro name col hget
    rw [← decodeLabelColumn_failsClosed_iff, (hlabelBody name col hget).2, failsClosed_ok]
  refine ⟨dir, keysName, keysBody, labelBody, hdir, hkeysSection, ?_, ?_⟩
  · intro name hin
    obtain ⟨col, hget⟩ := hmem name hin
    exact (hlabelBody name col hget).1
  · have hrow : ∀ i < cols.count, ∀ payload text,
        cols.buildRecord i payload text ≠ .error .panic ↔ cols.keyAt i ≠ .error .panic ∧
          ∀ (name : String) (col : LabelColumn), cols.labels[name]? = some col →
            col.valueAt i ≠ .error .panic :=
      fun i hi => buildRecord_ne_panic_iff hi hfrom.timestamps hfrom.numerics
    constructor
    · intro hbuild
      refine ⟨hkeyRows.2 (fun i hi => ((hrow i hi [] none).1 (hbuild i hi [] none)).1), ?_⟩
      intro name hin
      obtain ⟨col, hget⟩ := hmem name hin
      refine (hlabelRows name col hget).2 (fun i hi => ?_)
      exact ((hrow i hi [] none).1 (hbuild i hi [] none)).2 name col hget
    · rintro ⟨hguardedKeys, hguardedLabels⟩ i hi payload text
      refine (hrow i hi payload text).2 ⟨hkeyRows.1 hguardedKeys i hi, ?_⟩
      intro name col hget
      have hin : name ∈ cols.labels := Std.ExtTreeMap.mem_iff_isSome_getElem?.2 (by simp [hget])
      exact (hlabelRows name col hget).1 (hguardedLabels name hin) i hi

/-- Key, label and payload sections fail closed exactly when they are guarded, and the rows of a
file are read through nothing else. -/
theorem sections_fail_closed_iff :
    (∀ body count, FailsClosed (decodeKeys body count) count KeysSection.keyAt ↔
      KeysGuarded body count) ∧
    (∀ body count, FailsClosed (decodeLabelColumn body count) count LabelColumn.valueAt ↔
      LabelGuarded body count) ∧
    (∀ body start count bytes,
      FailsClosed (decodePayloads body start count) count (fun pi i => pi.sliceAt bytes i) ↔
        PayloadsGuarded body start count) ∧
    ∀ (bytes : Bytes) (cols : SegmentColumns ν), decodeV2Columns bytes = .ok cols →
      ∃ (dir : SectionDir) (keysName : String) (keysBody : Bytes) (labelBody : String → Bytes),
        decodeFooter bytes = .ok dir ∧ HasSection bytes dir kKeys keysName keysBody ∧
          (∀ name ∈ cols.labels, HasSection bytes dir kLabel name (labelBody name)) ∧
          (cols.RowsBuild ↔ KeysGuarded keysBody cols.count ∧
            ∀ name ∈ cols.labels, LabelGuarded (labelBody name) cols.count) := by
  refine ⟨?_, ?_, ?_, ?_⟩
  · exact fun body count => decodeKeys_failsClosed_iff
  · exact fun body count => decodeLabelColumn_failsClosed_iff
  · exact fun body start count bytes => decodePayloads_failsClosed_iff bytes
  · exact fun bytes cols => rowsBuild_iff

end Files

/-- One key that ends where the blob does, before it starts. -/
def backwardKeys : Bytes := le32 1 ++ (le64 1 ++ le64 0)

/-- The section of one row is accepted, and reading its key cuts a string from 1 to 0. -/
theorem decodeKeys_accepts_backwardKeys :
    ¬ ∀ body count, FailsClosed (decodeKeys body count) count KeysSection.keyAt := by
  intro h
  have hguarded := decodeKeys_failsClosed_iff.1 (h backwardKeys 1)
  have hstrings : IsStrings backwardKeys := ⟨by decide, by decide, by decide⟩
  have hslice := (hguarded hstrings (by decide) 0 (by decide)).2.le
  exact absurd hslice (by decide)

end Girder
