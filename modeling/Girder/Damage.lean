import Girder.Assembly
import Girder.Lib.Crc
import Girder.Replaying

/-!
# Damage — stored bytes gone bad

Every frame of a log and every section of a segment file has the CRC-32 of its body beside it.
A body that went bad within 32 consecutive bits never has the checksum of the one written: the results
take that of the checksum as `DetectsBursts`, and `ieeeCrc32`, which takes the bits of the body into
a shift register (`toBitVec_foldl_crcByte`), has it (`hash_detects`).

Replay of such a log returns exactly the records before the bad frame (`replay_damaged`), and a
whole-file read of such a segment names the kind of the bad section (`readAllRecords_damaged`):
neither gives back a record that nobody wrote.
-/

namespace Girder

open Lib

/-! ## The checksum bit by bit -/

/-- The bits of a byte in the order the checksum takes them in. -/
def byteBits (b : UInt8) : List Bool := (List.range 8).map b.toBitVec.getLsbD

def bitsOf (bs : Bytes) : List Bool := bs.flatMap byteBits

/-- The polynomial of the reflected CRC-32. -/
def ieeePoly : BitVec 32 := 0xEDB88320

@[simp] theorem length_byteBits (b : UInt8) : (byteBits b).length = 8 := rfl

theorem byteBits_injective : Function.Injective byteBits := by
  intro a b h
  apply UInt8.toBitVec_inj.1
  apply BitVec.eq_of_getLsbD_eq
  intro i hi
  have hbit := congrArg (fun bits => bits[i]?) h
  simpa [byteBits, hi] using hbit

theorem bitsOf_cons (b : UInt8) (bs : Bytes) : bitsOf (b :: bs) = byteBits b ++ bitsOf bs :=
  List.flatMap_cons

theorem length_bitsOf (bs : Bytes) : (bitsOf bs).length = 8 * bs.length := by
  induction bs with
  | nil => rfl
  | cons b bs ih =>
      rw [bitsOf_cons, List.length_append, length_byteBits, ih, List.length_cons]
      omega

theorem bitsOf_injective : Function.Injective bitsOf := by
  intro bs
  induction bs with
  | nil =>
      intro bs' h
      have hlen := congrArg List.length h
      rw [length_bitsOf, length_bitsOf, List.length_nil] at hlen
      exact (List.length_eq_zero_iff.1 (by omega)).symm
  | cons b bs ih =>
      intro bs' h
      cases bs' with
      | nil =>
          have hlen := congrArg List.length h
          rw [length_bitsOf, length_bitsOf, List.length_nil, List.length_cons] at hlen
          omega
      | cons b' bs' =>
          rw [bitsOf_cons, bitsOf_cons] at h
          obtain ⟨hbyte, hrest⟩ := List.append_inj h rfl
          rw [byteBits_injective hbyte, ih hrest]

theorem bitsWord_byteBits (b : UInt8) : bitsWord 32 (byteBits b) = b.toUInt32.toBitVec := by
  apply BitVec.eq_of_getLsbD_eq
  intro i hi
  rw [getLsbD_bitsWord hi]
  by_cases hlow : i < 8
  · simp [byteBits, hlow, hi]
  · have hhigh : b.toBitVec.getLsbD i = false := BitVec.getLsbD_of_ge _ _ (Nat.not_lt.1 hlow)
    simp [byteBits, hlow, hhigh]

theorem and_one_eq_one_iff (c : UInt32) : c &&& 1 = 1 ↔ c.toBitVec.getLsbD 0 = true := by
  rw [← UInt32.toBitVec_inj, UInt32.toBitVec_and]
  have hword : c.toBitVec &&& 1 = BitVec.setWidth 32 (BitVec.ofBool (c.toBitVec.getLsbD 0)) :=
    BitVec.and_one_eq_setWidth_ofBool_getLsbD
  have hone : (1 : UInt32).toBitVec = 1 := rfl
  rw [hone, hword]
  cases c.toBitVec.getLsbD 0 <;> decide

/-- One round of `crcByte`. -/
theorem toBitVec_shift (c : UInt32) :
    (if c &&& 1 = 1 then (c >>> 1) ^^^ 0xEDB88320 else c >>> 1).toBitVec =
      shiftOut ieeePoly c.toBitVec := by
  unfold shiftOut
  by_cases hlow : c &&& 1 = 1
  · rw [if_pos hlow, if_pos ((and_one_eq_one_iff c).1 hlow)]
    rfl
  · rw [if_neg hlow, if_neg (fun h => hlow ((and_one_eq_one_iff c).2 h))]
    rfl

/-- A byte of the checksum is eight bits of the register. -/
theorem toBitVec_crcByte (c : UInt32) (b : UInt8) :
    (crcByte c b).toBitVec = (byteBits b).foldl (feed ieeePoly) c.toBitVec := by
  have hrounds : ∀ (rounds : List Nat) (x : UInt32),
      (rounds.foldl (fun (c : UInt32) _ => if c &&& 1 = 1 then (c >>> 1) ^^^ 0xEDB88320
        else c >>> 1) x).toBitVec = (shiftOut ieeePoly)^[rounds.length] x.toBitVec := by
    intro rounds
    induction rounds with
    | nil => exact fun _ => rfl
    | cons n rounds ih =>
        intro x
        rw [List.foldl_cons, ih, toBitVec_shift]
        rfl
  have hfit : (byteBits b).length ≤ 32 := by
    rw [length_byteBits]
    decide
  rw [crcByte, hrounds, foldl_feed hfit, bitsWord_byteBits, UInt32.toBitVec_xor]
  rfl

theorem toBitVec_foldl_crcByte (bs : Bytes) (c : UInt32) :
    (bs.foldl crcByte c).toBitVec = (bitsOf bs).foldl (feed ieeePoly) c.toBitVec := by
  induction bs generalizing c with
  | nil => rfl
  | cons b bs ih => rw [List.foldl_cons, ih, toBitVec_crcByte, bitsOf_cons, List.foldl_append]

/-- No burst of up to 32 bits leaves the checksum as it was. -/
theorem hash_detects {bs bs' : Bytes} (hburst : Burst 32 (bitsOf bs) (bitsOf bs'))
    (h : ieeeCrc32.hash bs = ieeeCrc32.hash bs') : bs = bs' := by
  have hfold : bs.foldl crcByte 0xFFFFFFFF = bs'.foldl crcByte 0xFFFFFFFF :=
    (UInt32.xor_left_inj _).1 h
  have hbits := congrArg UInt32.toBitVec hfold
  rw [toBitVec_foldl_crcByte, toBitVec_foldl_crcByte] at hbits
  exact bitsOf_injective (feed_detects (by decide) (by decide) hburst hbits)

/-- What the checksum is there for: a burst of up to 32 bits never leaves it as it was. -/
class DetectsBursts [Crc32] : Prop where
  eq_of_hash_eq {bs bs' : Bytes} : Burst 32 (bitsOf bs) (bitsOf bs') →
    Crc32.hash bs = Crc32.hash bs' → bs = bs'

theorem detectsBursts_ieee : @DetectsBursts ieeeCrc32 :=
  letI := ieeeCrc32
  ⟨hash_detects⟩

theorem length_of_burst {n : Nat} {bs bs' : Bytes} (h : Burst n (bitsOf bs) (bitsOf bs')) :
    bs'.length = bs.length := by
  have hlen := h.1
  rw [length_bitsOf, length_bitsOf] at hlen
  omega

/-- Bytes of a file replaced in place. -/
def overwrite (file : Bytes) (off : Nat) (bytes : Bytes) : Bytes :=
  file.take off ++ bytes ++ file.drop (off + bytes.length)

theorem overwrite_append (front body back bytes : Bytes) (hlen : bytes.length = body.length) :
    overwrite (front ++ body ++ back) front.length bytes = front ++ bytes ++ back := by
  have hsize : front.length + bytes.length = (front ++ body).length := by
    rw [List.length_append, hlen]
  rw [overwrite, hsize, List.drop_left, List.append_assoc front body back, List.take_left]

/-! ## Logs -/

namespace LogFile

variable {ν : Type} [Rmp (Record ν)]

section Words

variable [Crc32]

/-- A file whose first word is a plausible length has no header. -/
theorem replay_of_word {bs : Bytes} (hword : leNat (bs.take 4) ≤ maxFrameLen) :
    replay (ν := ν) bs = .ok (frames bs) := by
  have hmagic : leNat (bs.take 4) ≠ walMagic := by
    have hlt : maxFrameLen < walMagic := by decide
    omega
  by_cases hshort : bs.length < 8
  · have hnone : frameAt (ν := ν) bs = none := by
      rw [frameAt, if_pos hshort]
    rw [replay, if_pos hshort, frames_eq_nil hnone]
  · rw [replay, if_neg hshort, if_neg hmagic]
    rfl

/-- The head of a record's frame: the words before its body. -/
def frameHead (r : Record ν) : Bytes :=
  le32 (Rmp.toVec r).length ++ le32 (Crc32.hash (Rmp.toVec r)).toNat

@[simp] theorem length_frameHead (r : Record ν) : (frameHead r).length = 8 := by
  simp [frameHead]

theorem frameBytes_eq (r : Record ν) : frameBytes r = frameHead r ++ Rmp.toVec r := rfl

theorem leNat_frameHead {r : Record ν} (hfits : (Rmp.toVec r).length ≤ maxFrameLen)
    (rest : Bytes) :
    leNat ((frameHead r ++ rest).take 4) = (Rmp.toVec r).length := by
  rw [frameHead, List.append_assoc, List.take_left' (length_le32 _)]
  exact leNat_leBytes_of_lt (lt_of_le_of_lt hfits (by decide))

/-- A body that does not have the checksum beside it ends the replay. -/
theorem frameAt_damaged {r : Record ν} (hfits : (Rmp.toVec r).length ≤ maxFrameLen) {body : Bytes}
    (hlen : body.length = (Rmp.toVec r).length)
    (hhash : Crc32.hash body ≠ Crc32.hash (Rmp.toVec r)) (rest : Bytes) :
    frameAt (ν := ν) (frameHead r ++ (body ++ rest)) = none := by
  have hsize : ¬ (frameHead r ++ (body ++ rest)).length < 8 := by
    rw [List.length_append, length_frameHead]
    omega
  have hdrop : (frameHead r ++ (body ++ rest)).drop 8 = body ++ rest :=
    List.drop_left' (length_frameHead r)
  have hcrc : leNat (((frameHead r ++ (body ++ rest)).drop 4).take 4) =
      (Crc32.hash (Rmp.toVec r)).toNat := by
    rw [frameHead, List.append_assoc, List.drop_left' (length_le32 _),
      List.take_left' (length_le32 _)]
    exact leNat_leBytes_of_lt (Crc32.hash (Rmp.toVec r)).toNat_lt
  have hshort : ¬ (body ++ rest).length < (Rmp.toVec r).length := by
    rw [List.length_append]
    omega
  have hne : (Crc32.hash body).toNat ≠ (Crc32.hash (Rmp.toVec r)).toNat :=
    fun h => hhash (UInt32.toNat_inj.1 h)
  unfold frameAt
  rw [if_neg hsize, hcrc, hdrop, leNat_frameHead hfits]
  simp only [if_neg (Nat.not_lt.mpr hfits), if_neg hshort, List.take_left' hlen, if_pos hne]

/-- The first word of frames without a header is the length of a body. -/
theorem word_framesBytes_le {front : List (Record ν)} (hfront : ∀ s ∈ front, Replayable s)
    {r : Record ν} (hfits : (Rmp.toVec r).length ≤ maxFrameLen) (rest : Bytes) :
    leNat ((framesBytes front ++ (frameHead r ++ rest)).take 4) ≤ maxFrameLen := by
  cases front with
  | nil =>
      have hword := leNat_frameHead hfits rest
      rw [← hword] at hfits
      exact hfits
  | cons s front =>
      have hs := (hfront s List.mem_cons_self).fits
      rw [framesBytes, List.flatMap_cons, List.append_assoc, frameBytes_eq, List.append_assoc,
        leNat_frameHead hs]
      exact hs

/-- Where the body of a record's frame starts, after the frames of the records before it. -/
def bodyStart (start : Nat) (front : List (Record ν)) : Nat :=
  start + (framesBytes front).length + 8

end Words

section Bursts

variable [Crc32] [DetectsBursts]

/-- The frames after a body that went bad are not looked at. -/
theorem frames_damaged {front : List (Record ν)} (hfront : ∀ s ∈ front, Replayable s)
    {r : Record ν} (hfits : (Rmp.toVec r).length ≤ maxFrameLen) {body : Bytes}
    (hburst : Burst 32 (bitsOf (Rmp.toVec r)) (bitsOf body)) (hbad : body ≠ Rmp.toVec r)
    (rest : Bytes) :
    frames (framesBytes front ++ (frameHead r ++ (body ++ rest))) = front := by
  have hhash : Crc32.hash body ≠ Crc32.hash (Rmp.toVec r) :=
    fun h => hbad (DetectsBursts.eq_of_hash_eq hburst h.symm).symm
  rw [frames_append hfront,
    frames_eq_nil (frameAt_damaged hfits (length_of_burst hburst) hhash rest), List.append_nil]

/-- When the body of one frame of a log goes bad within 32 consecutive bits, replay returns exactly
the records before it, whatever version the log is of and however its records were appended. -/
theorem replay_damaged {file : Bytes} {records : List (Record ν)} {start : Nat}
    (hfile : Stored file records start) (policy : FsyncPolicy)
    {batches : List (List (Record ν))}
    (hreplay : ∀ s ∈ records ++ batches.flatten, Replayable s)
    {front back : List (Record ν)} {r : Record ν}
    (hsplit : records ++ batches.flatten = front ++ r :: back) {body : Bytes}
    (hburst : Burst 32 (bitsOf (Rmp.toVec r)) (bitsOf body)) (hbad : body ≠ Rmp.toVec r) :
    replay (overwrite ((openFile file).appendAll policy batches).file (bodyStart start front)
      body) = .ok front := by
  rw [hsplit] at hreplay
  have hfront : ∀ s ∈ front, Replayable s := fun s hs => hreplay s (List.mem_append_left _ hs)
  have hfits : (Rmp.toVec r).length ≤ maxFrameLen := (hreplay r (by simp)).fits
  have hframes := frames_damaged hfront hfits hburst hbad (framesBytes back)
  have hbytes : framesBytes (front ++ r :: back) =
      framesBytes front ++ frameHead r ++ Rmp.toVec r ++ framesBytes back := by
    rw [framesBytes_append, framesBytes, framesBytes, List.flatMap_cons, frameBytes_eq]
    simp only [List.append_assoc]
    rfl
  rcases file_of_stored hfile policy batches with ⟨rfl, hlog⟩ | ⟨rfl, -, hlog⟩
  -- Behind the header the frames are read from byte 8 on.
  · have hstart : bodyStart 8 front = (header ++ (framesBytes front ++ frameHead r)).length := by
      simp only [bodyStart, List.length_append, length_header, length_frameHead]
      omega
    rw [hlog, hsplit, hbytes, hstart]
    have hover := overwrite_append (header ++ (framesBytes front ++ frameHead r)) (Rmp.toVec r)
      (framesBytes back) body (length_of_burst hburst)
    simp only [List.append_assoc] at hover hframes ⊢
    rw [hover, replay_header, hframes]
  -- Without a header the first word is a length, also when the first body is the bad one.
  · have hstart : bodyStart 0 front = (framesBytes front ++ frameHead r).length := by
      simp only [bodyStart, List.length_append, length_frameHead]
      omega
    rw [hlog, hsplit, hbytes, hstart, overwrite_append _ _ _ _ (length_of_burst hburst)]
    simp only [List.append_assoc] at hframes ⊢
    rw [replay_of_word (word_framesBytes_le hfront hfits _), hframes]

end Bursts

/-- The second of three records, with one bit of its payload flipped. -/
theorem replay_damaged_three :
    letI := ieeeCrc32
    letI := packOf [plain "a" [7], plain "b" [7], plain "c" [1]]
    replay (overwrite ((openFile (framesBytes [plain "a" [7]])).appendAll .always
        [[plain "b" [7]], [plain "c" [1]]]).file 25 (packPlain (plain "b" [6]))) =
      .ok [plain "a" [7]] := by
  let _ := ieeeCrc32
  let _ := packOf [plain "a" [7], plain "b" [7], plain "c" [1]]
  have hdetects : DetectsBursts := detectsBursts_ieee
  have hreplay : ∀ s ∈ [plain "a" [7]] ++ [[plain "b" [7]], [plain "c" [1]]].flatten,
      Replayable s := by
    intro s hs
    simp only [List.flatten_cons, List.flatten_nil, List.append_nil, List.singleton_append,
      List.mem_cons, List.not_mem_nil, or_false] at hs
    rcases hs with rfl | rfl | rfl <;> exact ⟨by decide, rfl⟩
  have hsplit : [plain "a" [7]] ++ [[plain "b" [7]], [plain "c" [1]]].flatten =
      [plain "a" [7]] ++ plain "b" [7] :: [plain "c" [1]] := rfl
  have hburst : Burst 32 (bitsOf ((packPlain (plain "b" [7])).take 8) ++ (byteBits 7 ++ []))
      (bitsOf ((packPlain (plain "b" [7])).take 8) ++ (byteBits 6 ++ [])) :=
    burst_of_split rfl (by decide)
  exact replay_damaged (Stored.headerless (List.cons_ne_nil _ _)) .always hreplay hsplit hburst
    (by decide)

end LogFile

/-! ## Segment files -/

section Segments

theorem wordAt_append (front back : Bytes) (k n : Nat) :
    wordAt (front ++ back) (front.length + k) n = wordAt back k n := by
  rw [wordAt, wordAt, ← List.drop_drop, List.drop_left]

/-- The directory is read from the footer alone. -/
theorem decodeFooter_congr [Crc32] [Rmp SectionDir] {front front' footer : Bytes}
    (hlen : front'.length = front.length) (hsize : 16 ≤ footer.length)
    (hoff : wordAt footer (footer.length - 16) 8 = front.length) :
    decodeFooter (front' ++ footer) = decodeFooter (front ++ footer) := by
  have hwords : ∀ {before : Bytes}, before.length = front.length → ∀ k n, k ≤ 16 →
      wordAt (before ++ footer) (front.length + footer.length - k) n =
        wordAt footer (footer.length - k) n := by
    intro before hbefore k n hk
    rw [← hbefore, Nat.add_sub_assoc (by omega), wordAt_append]
  have hdir : ∀ {before : Bytes}, before.length = front.length →
      (before ++ footer).drop front.length = footer :=
    fun hbefore => List.drop_left' hbefore
  unfold decodeFooter
  simp only [List.length_append, hlen, hwords hlen 4 4 (by decide), hwords hlen 8 4 (by decide),
    hwords hlen 16 8 (by decide), hwords rfl 4 4 (by decide), hwords rfl 8 4 (by decide),
    hwords rfl 16 8 (by decide), hoff, hdir hlen, hdir rfl]

variable {ν : Type} [FloatBits ν] [Rmp (List (BlockMeta ν))]

/-- Files that hold the same sections at the same place are walked alike. -/
theorem foldlM_layout_congr [Crc32] {file file' : Bytes} (hfile : file.length < 2 ^ 63)
    (hfile' : file'.length < 2 ^ 63) (count : Nat) {sections : List SectionBody} :
    ∀ {off : Nat} {st : Decoding ν}, LiesAt file off (sections.flatMap sectionBytes) →
      LiesAt file' off (sections.flatMap sectionBytes) →
      (layout off sections).foldlM (decodeSection file' count) st =
        (layout off sections).foldlM (decodeSection file count) st := by
  induction sections with
  | nil => exact fun _ _ => rfl
  | cons s sections ih =>
      intro off st h h'
      rw [List.flatMap_cons] at h h'
      rw [layout, List.foldlM_cons, List.foldlM_cons, decodeSection_of_liesAt h.left hfile,
        decodeSection_of_liesAt h'.left hfile']
      exact bind_congr fun _ => ih h.right h'.right

/-- A body that does not have the checksum beside it is refused. -/
theorem verifiedSlice_damaged [Crc32] {file : Bytes} {off : Nat} {s : SectionBody} {body : Bytes}
    (hcrc : LiesAt file off (le32 (Crc32.hash s.body).toNat)) (hbody : LiesAt file (off + 4) body)
    (hlen : body.length = s.body.length) (hhash : Crc32.hash body ≠ Crc32.hash s.body)
    (hfile : file.length < 2 ^ 63) :
    verifiedSlice file (sectionEntry off s) =
      .error (corrupt ("section crc mismatch (kind " ++ toString s.kind ++ ")")) := by
  have hle := hbody.le_length
  have hoff : (sectionEntry off s).offset.toNat = off :=
    UInt64.toNat_ofNat_of_lt' (by show off < 2 ^ 64; omega)
  have hsize : (sectionEntry off s).len.toNat = body.length := by
    rw [hlen]
    exact UInt64.toNat_ofNat_of_lt' (by show s.body.length < 2 ^ 64; omega)
  have hword := sliceBytes_of_liesAt hcrc hfile
  rw [length_le32] at hword
  have hbad : ¬ (leNat (le32 (Crc32.hash s.body).toNat) = (sectionEntry off s).crc.toNat ∧
      Crc32.hash body = (sectionEntry off s).crc) := fun h => hhash h.2
  rw [verifiedSlice, hoff, hsize, hword, Res.ok_bind, Res.add64_of_lt (by omega), Res.ok_bind,
    sliceBytes_of_liesAt hbody hfile, Res.ok_bind, Res.check, if_neg hbad]
  rfl

section Whole

variable [Crc32] [Unicode] [Numeral ν] [Deflate] [Rmp SectionDir]

variable {records : List (Record ν)}

/-- Where the body of a section starts, after the sections before it. -/
def sectionStart (front : List SectionBody) : Nat :=
  8 + (front.flatMap sectionBytes).length + 4

/-- The parts of a file around the body of one section. -/
theorem fileOf_split {front back : List SectionBody} {s : SectionBody}
    (hsplit : secs records = front ++ s :: back) :
    fileOf records = (le32 magicWord ++ le32 versionV2 ++ front.flatMap sectionBytes ++
      le32 (Crc32.hash s.body).toNat) ++ s.body ++
        (back.flatMap sectionBytes ++ footerBytes (dirOf records) (footerOffOf records)) := by
  rw [fileOf, hsplit, List.flatMap_append, List.flatMap_cons, sectionBytes]
  simp only [List.append_assoc]

theorem wordAt_footerBytes (hfile : (fileOf records).length < 2 ^ 63) :
    16 ≤ (footerBytes (dirOf records) (footerOffOf records)).length ∧
      wordAt (footerBytes (dirOf records) (footerOffOf records))
        ((footerBytes (dirOf records) (footerOffOf records)).length - 16) 8 =
          footerOffOf records := by
  have hlen : (footerBytes (dirOf records) (footerOffOf records)).length =
      (Rmp.toVec (dirOf records)).length + 16 := by
    simp only [footerBytes, List.length_append, length_le64, length_le32]
  have hlies := LiesAt.self (footerBytes (dirOf records) (footerOffOf records))
  rw [footerBytes] at hlies
  have htail := (trailer_words hlies.right (footerOff_lt hfile)).1
  rw [Nat.zero_add] at htail
  rw [hlen, Nat.add_sub_cancel]
  exact ⟨Nat.le_add_left _ _, htail⟩

section Overwrite

variable {front back : List SectionBody} {s : SectionBody} {body : Bytes}

theorem overwrite_fileOf (hsplit : secs records = front ++ s :: back)
    (hlen : body.length = s.body.length) :
    overwrite (fileOf records) (sectionStart front) body =
      (le32 magicWord ++ le32 versionV2 ++ front.flatMap sectionBytes ++
        le32 (Crc32.hash s.body).toNat) ++ body ++
          (back.flatMap sectionBytes ++ footerBytes (dirOf records) (footerOffOf records)) := by
  have hstart : sectionStart front = (le32 magicWord ++ le32 versionV2 ++
      front.flatMap sectionBytes ++ le32 (Crc32.hash s.body).toNat).length := by
    simp only [sectionStart, List.length_append, length_le32]
  rw [fileOf_split hsplit, hstart, overwrite_append _ _ _ _ hlen]

theorem length_overwrite_fileOf (hsplit : secs records = front ++ s :: back)
    (hlen : body.length = s.body.length) :
    (overwrite (fileOf records) (sectionStart front) body).length = (fileOf records).length := by
  rw [overwrite_fileOf hsplit hlen, fileOf_split hsplit]
  simp only [List.length_append, hlen]

/-- The header and the sections of the file, with the new body in its place. -/
theorem liesAt_overwrite (hsplit : secs records = front ++ s :: back)
    (hlen : body.length = s.body.length) :
    LiesAt (overwrite (fileOf records) (sectionStart front) body) 0
        (le32 magicWord ++ le32 versionV2) ∧
      LiesAt (overwrite (fileOf records) (sectionStart front) body) 8
        (front.flatMap sectionBytes ++ (le32 (Crc32.hash s.body).toNat ++ (body ++
          (back.flatMap sectionBytes ++ footerBytes (dirOf records) (footerOffOf records))))) := by
  have hparts : overwrite (fileOf records) (sectionStart front) body =
      (le32 magicWord ++ le32 versionV2) ++ (front.flatMap sectionBytes ++
        (le32 (Crc32.hash s.body).toNat ++ (body ++ (back.flatMap sectionBytes ++
          footerBytes (dirOf records) (footerOffOf records))))) := by
    rw [overwrite_fileOf hsplit hlen]
    simp only [List.append_assoc]
  have hwords : 0 + (le32 magicWord ++ le32 versionV2).length = 8 := by
    rw [List.length_append, length_le32, length_le32]
  rw [hparts]
  have hself := LiesAt.self ((le32 magicWord ++ le32 versionV2) ++ (front.flatMap sectionBytes ++
    (le32 (Crc32.hash s.body).toNat ++ (body ++ (back.flatMap sectionBytes ++
      footerBytes (dirOf records) (footerOffOf records))))))
  have hsections := hself.right
  rw [hwords] at hsections
  exact ⟨hself.left, hsections⟩

/-- The directory stays as it was. -/
theorem decodeFooter_overwrite [LawfulRmp SectionDir] (hfile : (fileOf records).length < 2 ^ 63)
    (hsplit : secs records = front ++ s :: back) (hlen : body.length = s.body.length) :
    decodeFooter (overwrite (fileOf records) (sectionStart front) body) = .ok (dirOf records) := by
  obtain ⟨hfooter, hoff⟩ := wordAt_footerBytes hfile
  rw [← decodeFooter_fileOf hfile, overwrite_fileOf hsplit hlen, fileOf_split hsplit,
    ← List.append_assoc, ← List.append_assoc]
  refine decodeFooter_congr ?_ hfooter ?_
  · simp only [List.length_append, hlen]
  · rw [hoff, footerOffOf, hsplit, List.flatMap_append, List.flatMap_cons, sectionBytes]
    simp only [List.length_append, length_le32]
    omega

end Overwrite

omit [Crc32] [Unicode] [Deflate] [Rmp SectionDir] [FloatBits ν] [Rmp (List (BlockMeta ν))]
  [Numeral ν] in
theorem header_of_liesAt {file : Bytes} (h : LiesAt file 0 (le32 magicWord ++ le32 versionV2)) :
    header file = .ok versionV2 := by
  have hle := h.le_length
  have hright := h.right
  rw [List.length_append, length_le32, length_le32] at hle
  rw [length_le32, Nat.zero_add] at hright
  have hmagic := wordAt_of_liesAt h.left (by decide)
  have hversion := wordAt_of_liesAt hright (by decide)
  rw [header, Res.check_true (by omega), Res.ok_bind, Res.check_true hmagic, Res.ok_bind, hversion]
  rfl

variable [LawfulFloatBits ν] [LawfulRmp (List (BlockMeta ν))]

/-- The walk over the directory stops at the section that went bad. -/
theorem foldlM_damaged (hs : Storable records) (hfile : (fileOf records).length < 2 ^ 63)
    {front back : List SectionBody} {s : SectionBody} (hsplit : secs records = front ++ s :: back)
    {file : Bytes} (hsize : file.length < 2 ^ 63)
    (hfront : LiesAt file 8 (front.flatMap sectionBytes))
    (hbad : verifiedSlice file (sectionEntry (8 + (front.flatMap sectionBytes).length) s) =
      .error (corrupt ("section crc mismatch (kind " ++ toString s.kind ++ ")"))) :
    (layout 8 (secs records)).foldlM (decodeSection file records.length) ({} : Decoding ν) =
      .error (corrupt ("section crc mismatch (kind " ++ toString s.kind ++ ")")) := by
  obtain ⟨st, -, hfold, -⟩ := foldlM_secs hs hfile (liesAt_sections records)
  have hsections := liesAt_sections records
  rw [hsplit, List.flatMap_append] at hsections
  rw [hsplit, layout_append, List.foldlM_append] at hfold ⊢
  rw [foldlM_layout_congr hfile hsize records.length hsections.left hfront]
  -- The sections before it are as they were written.
  cases hbefore : (layout 8 front).foldlM (decodeSection (fileOf records) records.length)
      ({} : Decoding ν) with
  | error e =>
      rw [hbefore] at hfold
      cases hfold
  | ok st' =>
      rw [Res.ok_bind, layout, List.foldlM_cons, decodeSection, hbad]
      rfl

variable [DetectsBursts] [LawfulRmp SectionDir] [Rmp (List (Record ν))]

/-- When the body of one section of a file goes bad within 32 consecutive bits, the file is refused
as a whole, with the kind of that section. -/
theorem readAllRecords_damaged (hs : Storable records) (hfile : (fileOf records).length < 2 ^ 63)
    {front back : List SectionBody} {s : SectionBody}
    (hsplit : secs records = front ++ s :: back) {body : Bytes}
    (hburst : Burst 32 (bitsOf s.body) (bitsOf body)) (hbad : body ≠ s.body) :
    readAllRecords (ν := ν) (overwrite (fileOf records) (sectionStart front) body) =
      .error (corrupt ("section crc mismatch (kind " ++ toString s.kind ++ ")")) := by
  have hlen := length_of_burst hburst
  have hhash : Crc32.hash body ≠ Crc32.hash s.body :=
    fun h => hbad (DetectsBursts.eq_of_hash_eq hburst h.symm).symm
  have hsize : (overwrite (fileOf records) (sectionStart front) body).length < 2 ^ 63 := by
    rwa [length_overwrite_fileOf hsplit hlen]
  obtain ⟨hheader, hsections⟩ := liesAt_overwrite hsplit hlen
  have hbody := hsections.right.right.left
  rw [length_le32] at hbody
  -- Header and directory are intact, so the walk gets as far as the bad section.
  have hrefused := verifiedSlice_damaged hsections.right.left hbody hlen hhash hsize
  have hwalk := foldlM_damaged hs hfile hsplit hsize hsections.left hrefused
  have hentries : (dirOf records).entries = layout 8 (secs records) := rfl
  rw [readAllRecords, header_of_liesAt hheader, Res.ok_bind, if_neg (by decide), if_pos rfl,
    decodeV2Columns, decodeFooter_overwrite hfile hsplit hlen, Res.ok_bind]
  simp only [toNat_count hs]
  rw [hentries, hwalk]
  rfl

end Whole

end Segments

section Sample

local instance instDamageSampleUnicode : Unicode := instAssemblyUnicode

local instance instDamageDeflate : Deflate := instAssemblyDeflate

noncomputable local instance instDamageRmpBlocks : Rmp (List (BlockMeta Binary64)) :=
  instAssemblyRmpBlocks

noncomputable local instance instDamageRmpDir : Rmp SectionDir := instAssemblyRmpDir

local instance instDamageRmpRecords : Rmp (List (Record Binary64)) := instAssemblyRmpRecords

/-- The sample with the second key changed in place. -/
theorem readAllRecords_damaged_sampleRows :
    letI := ieeeCrc32
    readAllRecords (ν := Binary64) (overwrite (fileOf sampleRows) 12
        (encodeStrings [utf8 "a", utf8 "c"])) =
      .error (corrupt "section crc mismatch (kind 0)") := by
  let _ := ieeeCrc32
  have hdetects : DetectsBursts := detectsBursts_ieee
  have hlawful : LawfulRmp (List (BlockMeta Binary64)) := instAssemblyLawfulRmpBlocks
  have hlawful' : LawfulRmp SectionDir := instAssemblyLawfulRmpDir
  have hkeys : bitsOf (encodeStrings (sampleRows.map (fun r => utf8 r.key))) =
      bitsOf ((encodeStrings [utf8 "a", utf8 "b"]).take 29) ++ (byteBits 98 ++ []) := by
    decide +kernel
  have hkeys' : bitsOf (encodeStrings [utf8 "a", utf8 "c"]) =
      bitsOf ((encodeStrings [utf8 "a", utf8 "b"]).take 29) ++ (byteBits 99 ++ []) := by
    decide +kernel
  have hburst : Burst 32 (bitsOf (encodeStrings (sampleRows.map (fun r => utf8 r.key))))
      (bitsOf (encodeStrings [utf8 "a", utf8 "c"])) := by
    rw [hkeys, hkeys']
    exact burst_of_split rfl (by decide)
  have hsplit : secs sampleRows = [] ++ ⟨kKeys, "", encodeStrings
      (sampleRows.map (fun r => utf8 r.key))⟩ :: (secs sampleRows).tail := rfl
  exact readAllRecords_damaged storable_sampleRows length_sampleRows hsplit hburst
    (by decide +kernel)

end Sample

end Girder
