import Mathlib.Tactic.IntervalCases
import Girder.Durability

/-!
# Replaying — what a log file gives back

A log starts on a new file, on one with a header or on a headerless one of an older version, and
`append_batch` adds the frames of its records.

`replay_truncated` says what replay makes of the first bytes of such a file: exactly the records
whose frames lie within them.  `append_batch` takes records of any size, and replay refuses frames
over the cap: `acked_replayable_iff` says that all acknowledged records come back exactly when none
is over it.
-/

namespace Girder

open Lib

namespace LogFile

variable {ν : Type} [Rmp (Record ν)] [Crc32]

/-- `Wal::open` of a file with these bytes: an empty file is stamped. -/
def openFile (bs : Bytes) : OpenLog := ⟨if bs.isEmpty then header else bs, 0, 0⟩

/-- A sequence of `append_batch` calls that return `Ok`. -/
def OpenLog.appendAll (policy : FsyncPolicy) (w : OpenLog) (batches : List (List (Record ν))) :
    OpenLog :=
  batches.foldl (OpenLog.appendBatch policy) w

/-- A log file as it was left: the bytes, the records they hold and where the frames start once the
file is open. -/
inductive Stored : Bytes → List (Record ν) → Nat → Prop
  | new : Stored [] [] 8
  | stamped (records : List (Record ν)) : Stored (header ++ framesBytes records) records 8
  | headerless {records : List (Record ν)} : records ≠ [] →
      Stored (framesBytes records) records 0

/-- Where each frame ends in a file whose frames start at `start`. -/
def frameEnds : Nat → List (Record ν) → List Nat
  | _, [] => []
  | start, r :: records =>
      (start + (frameBytes r).length) :: frameEnds (start + (frameBytes r).length) records

/-- The records whose frames lie within the first `n` bytes. -/
def wholeFrames (start n : Nat) (records : List (Record ν)) : List (Record ν) :=
  ((records.zip (frameEnds start records)).filter (fun re => decide (re.2 ≤ n))).map Prod.fst

/-! ## The file of a log -/

@[simp]
theorem file_appendBatch (policy : FsyncPolicy) (w : OpenLog) (records : List (Record ν)) :
    (w.appendBatch policy records).file = w.file ++ framesBytes records := by
  cases policy with
  | always => rfl
  | everyN n =>
      simp only [OpenLog.appendBatch]
      split <;> rfl
  | os => rfl

theorem framesBytes_append (records records' : List (Record ν)) :
    framesBytes (records ++ records') = framesBytes records ++ framesBytes records' :=
  List.flatMap_append

theorem file_appendAll (policy : FsyncPolicy) (w : OpenLog) (batches : List (List (Record ν))) :
    (w.appendAll policy batches).file = w.file ++ framesBytes batches.flatten := by
  induction batches generalizing w with
  | nil => simp [OpenLog.appendAll, framesBytes]
  | cons records batches ih =>
      have hrest := ih (w.appendBatch policy records)
      rw [file_appendBatch, List.append_assoc, ← framesBytes_append] at hrest
      exact hrest

theorem framesBytes_ne_nil {records : List (Record ν)} (h : records ≠ []) :
    framesBytes records ≠ [] := by
  obtain ⟨r, rest, rfl⟩ := List.exists_cons_of_ne_nil h
  intro hnil
  have hlen := congrArg List.length hnil
  rw [framesBytes, List.flatMap_cons, List.length_append, length_frameBytes, List.length_nil] at hlen
  omega

/-- What a log file holds after appends: a header or none, and the frames of all its records. -/
theorem file_of_stored {file : Bytes} {records : List (Record ν)} {start : Nat}
    (h : Stored file records start) (policy : FsyncPolicy) (batches : List (List (Record ν))) :
    (start = 8 ∧ ((openFile file).appendAll policy batches).file =
        header ++ framesBytes (records ++ batches.flatten)) ∨
      (start = 0 ∧ records ≠ [] ∧ ((openFile file).appendAll policy batches).file =
        framesBytes (records ++ batches.flatten)) := by
  rw [file_appendAll, framesBytes_append]
  cases h with
  | new => exact Or.inl ⟨rfl, rfl⟩
  | stamped =>
      refine Or.inl ⟨rfl, ?_⟩
      have hne : ¬ (header ++ framesBytes records).isEmpty = true := by
        intro hempty
        have hlen := congrArg List.length (List.isEmpty_iff.1 hempty)
        simp at hlen
      rw [openFile, if_neg hne, List.append_assoc]
  | headerless hne =>
      refine Or.inr ⟨rfl, hne, ?_⟩
      rw [openFile, if_neg (by simpa using framesBytes_ne_nil hne)]

/-- The first word of a file without a header is the length of its first frame, and no frame is as
long as the magic word says. -/
theorem replay_headerless {r : Record ν} (records : List (Record ν))
    (hfits : (Rmp.toVec r).length ≤ maxFrameLen) (n : Nat) :
    replay (ν := ν) ((framesBytes (r :: records)).take n) =
      .ok (frames ((framesBytes (r :: records)).take n)) := by
  by_cases hshort : ((framesBytes (r :: records)).take n).length < 8
  · have hnone : frameAt (ν := ν) ((framesBytes (r :: records)).take n) = none := by
      rw [frameAt, if_pos hshort]
    rw [replay, if_pos hshort, frames_eq_nil hnone]
  · have hn : 8 ≤ n := by
      rw [List.length_take] at hshort
      omega
    have hword : leNat (((framesBytes (r :: records)).take n).take 4) = (Rmp.toVec r).length := by
      rw [List.take_take, min_eq_left (by omega), framesBytes, List.flatMap_cons, frameBytes,
        List.append_assoc, List.append_assoc, List.take_left' (length_le32 _)]
      exact leNat_leBytes_of_lt (lt_of_le_of_lt hfits (by decide))
    have hmagic : (Rmp.toVec r).length ≠ walMagic := by
      have hlt : maxFrameLen < walMagic := by decide
      omega
    rw [replay, if_neg hshort, hword, if_neg hmagic]
    rfl

/-! ## Cut files -/

theorem le_of_mem_frameEnds {start e : Nat} {records : List (Record ν)}
    (h : e ∈ frameEnds start records) : start + 8 ≤ e := by
  induction records generalizing start with
  | nil => cases h
  | cons r records ih =>
      have hlen := length_frameBytes r
      rcases List.mem_cons.1 h with rfl | h
      · omega
      · have hle := ih h
        omega

/-- No frame ends before the frames start. -/
theorem wholeFrames_eq_nil {start n : Nat} (h : n < start + 8) (records : List (Record ν)) :
    wholeFrames start n records = [] := by
  rw [wholeFrames, List.map_eq_nil_iff, List.filter_eq_nil_iff]
  rintro ⟨r, e⟩ hre
  have hle := le_of_mem_frameEnds (List.of_mem_zip hre).2
  simp only [decide_eq_true_eq]
  omega

/-- By induction on the records: either the cut is behind the first frame, or nothing is whole. -/
theorem frames_take_eq {records : List (Record ν)} (h : ∀ r ∈ records, Replayable r)
    (start n : Nat) :
    frames ((framesBytes records).take (n - start)) = wholeFrames start n records := by
  induction records generalizing start with
  | nil => simp [framesBytes, frames, replayFrames, wholeFrames, frameEnds]
  | cons r records ih =>
      have hr := h r List.mem_cons_self
      have hlen := length_frameBytes r
      have hrest := ih (fun s hs => h s (List.mem_cons_of_mem r hs))
        (start + (frameBytes r).length)
      have hwhole : wholeFrames start n (r :: records) =
          (if start + (frameBytes r).length ≤ n then [r] else []) ++
            wholeFrames (start + (frameBytes r).length) n records := by
        simp only [wholeFrames, frameEnds, List.zip_cons_cons, List.filter_cons, decide_eq_true_eq]
        split <;> rfl
      rw [hwhole, framesBytes, List.flatMap_cons]
      by_cases hcut : start + (frameBytes r).length ≤ n
      · have hsub : n - start - (frameBytes r).length = n - (start + (frameBytes r).length) := by
          omega
        rw [if_pos hcut, List.take_append, List.take_of_length_le (by omega), hsub,
          frames_cons hr, ← hrest]
        rfl
      · rw [if_neg hcut, wholeFrames_eq_nil (by omega), List.take_append_of_le_length (by omega),
          frames_eq_nil (frameAt_torn hr (by omega))]
        rfl

/-- Replay of the first `n` bytes of a log returns exactly the records whose frames lie within them,
in append order. -/
theorem replay_truncated {file : Bytes} {records : List (Record ν)} {start : Nat}
    (hfile : Stored file records start) (policy : FsyncPolicy)
    {batches : List (List (Record ν))}
    (hfits : ∀ r ∈ records ++ batches.flatten, (Rmp.toVec r).length ≤ maxFrameLen)
    (hdecodes : ∀ r ∈ records ++ batches.flatten, Rmp.fromSlice (Rmp.toVec r) = .ok r) (n : Nat) :
    replay (((openFile file).appendAll policy batches).file.take n) =
      .ok (wholeFrames start n (records ++ batches.flatten)) := by
  have hreplayable : ∀ r ∈ records ++ batches.flatten, Replayable r :=
    fun r hr => ⟨hfits r hr, hdecodes r hr⟩
  rcases file_of_stored hfile policy batches with ⟨rfl, hbytes⟩ | ⟨rfl, hne, hbytes⟩
  · rw [hbytes]
    by_cases hn : n < 8
    · have hshort : ((header ++ framesBytes (records ++ batches.flatten)).take n).length < 8 := by
        rw [List.length_take]
        omega
      rw [replay, if_pos hshort, wholeFrames_eq_nil (by omega)]
    · rw [List.take_append, length_header, List.take_of_length_le (by rw [length_header]; omega),
        replay_header, frames_take_eq hreplayable]
  · rw [hbytes]
    obtain ⟨r, rest, rfl⟩ := List.exists_cons_of_ne_nil hne
    rw [List.cons_append, replay_headerless _ (hfits r (by simp)), ← List.cons_append,
      ← frames_take_eq hreplayable]
    rfl

/-! ## Frames replay refuses -/

/-- A record over the cap ends the replay, also where its length does not fit the length word: the
frame then claims a strict prefix of the body, which does not decode. -/
theorem frameAt_overlong {r : Record ν} (hlong : maxFrameLen < (Rmp.toVec r).length)
    (htorn : ∀ k < (Rmp.toVec r).length,
      ∃ e, Rmp.fromSlice (α := Record ν) ((Rmp.toVec r).take k) = .error e) (rest : Bytes) :
    frameAt (ν := ν) (frameBytes r ++ rest) = none := by
  have hword : leNat (le32 (Rmp.toVec r).length) = (Rmp.toVec r).length % 2 ^ 32 :=
    leNat_leBytes 4 _
  unfold frameAt
  split
  · rfl
  · rw [frameBytes_eq_frame, take_frame, drop_frame, hword]
    simp only
    split
    · rfl
    · rename_i hplausible
      -- The word has wrapped around.
      have hless : (Rmp.toVec r).length % 2 ^ 32 < (Rmp.toVec r).length := by omega
      split
      · rfl
      · split
        · rfl
        · rw [List.take_append_of_le_length hless.le]
          obtain ⟨e, herror⟩ := htorn _ hless
          rw [herror]

/-- What replay makes of a file it can read from the start. -/
theorem replay_stored {file : Bytes} {records : List (Record ν)} {start : Nat}
    (hfile : Stored file records start) (policy : FsyncPolicy)
    (batches : List (List (Record ν))) (hold : ∀ r ∈ records, Replayable r) :
    replay ((openFile file).appendAll policy batches).file =
      .ok (records ++ frames (framesBytes batches.flatten)) := by
  rcases file_of_stored hfile policy batches with ⟨-, hbytes⟩ | ⟨-, hne, hbytes⟩
  · rw [hbytes, replay_header, framesBytes_append, frames_append hold]
  · obtain ⟨r, rest, rfl⟩ := List.exists_cons_of_ne_nil hne
    have hwhole := replay_headerless (rest ++ batches.flatten)
      (hold r List.mem_cons_self).fits (framesBytes (r :: (rest ++ batches.flatten))).length
    rw [List.take_length] at hwhole
    rw [hbytes, List.cons_append, hwhole, ← List.cons_append, framesBytes_append,
      frames_append hold]

theorem frames_framesBytes {records : List (Record ν)} (h : ∀ r ∈ records, Replayable r) :
    frames (framesBytes records) = records := by
  have hwhole := frames_append h []
  have hnil : frames (ν := ν) [] = [] := rfl
  rwa [List.append_nil, hnil, List.append_nil] at hwhole

omit [Crc32] in
/-- The first record over the cap, with those before it. -/
theorem exists_first_overlong {records : List (Record ν)}
    (h : ∃ r ∈ records, maxFrameLen < (Rmp.toVec r).length) :
    ∃ front r back, records = front ++ r :: back ∧
      (∀ s ∈ front, (Rmp.toVec s).length ≤ maxFrameLen) ∧ maxFrameLen < (Rmp.toVec r).length := by
  induction records with
  | nil => simp at h
  | cons s records ih =>
      by_cases hs : maxFrameLen < (Rmp.toVec s).length
      · exact ⟨[], s, records, rfl, by simp, hs⟩
      · have hrest : ∃ r ∈ records, maxFrameLen < (Rmp.toVec r).length := by
          simpa [hs] using h
        obtain ⟨front, r, back, rfl, hfront, hover⟩ := ih hrest
        refine ⟨s :: front, r, back, rfl, ?_, hover⟩
        intro t ht
        rcases List.mem_cons.1 ht with rfl | ht
        · exact Nat.not_lt.1 hs
        · exact hfront t ht

/-- Every acknowledged record comes back, with all that were acknowledged after it, exactly when no
record is over the cap replay puts on a frame. -/
theorem acked_replayable_iff {file : Bytes} {records : List (Record ν)} {start : Nat}
    (hfile : Stored file records start) (hold : ∀ r ∈ records, Replayable r) (policy : FsyncPolicy)
    {batches : List (List (Record ν))}
    (hdecodes : ∀ r ∈ batches.flatten, Rmp.fromSlice (Rmp.toVec r) = .ok r)
    (htorn : ∀ r ∈ batches.flatten, ∀ k < (Rmp.toVec r).length,
      ∃ e, Rmp.fromSlice (α := Record ν) ((Rmp.toVec r).take k) = .error e) :
    (∀ front r back, batches.flatten = front ++ r :: back →
        ∃ out, replay ((openFile file).appendAll policy batches).file = .ok out ∧
          (r :: back).Sublist out) ↔
      ∀ r ∈ batches.flatten, (Rmp.toVec r).length ≤ maxFrameLen := by
  rw [replay_stored hfile policy batches hold]
  generalize batches.flatten = acked at hdecodes htorn ⊢
  constructor
  · intro hall
    by_contra hlong
    push Not at hlong
    obtain ⟨front, r, back, rfl, hfront, hover⟩ := exists_first_overlong hlong
    -- The first record over the cap ends the replay, and it is not among those before it.
    have hread : ∀ s ∈ front, Replayable s :=
      fun s hs => ⟨hfront s hs, hdecodes s (List.mem_append_left _ hs)⟩
    have hframes : frames (framesBytes (front ++ r :: back)) = front := by
      rw [framesBytes_append, frames_append hread, framesBytes, List.flatMap_cons,
        frames_eq_nil (frameAt_overlong hover (htorn r (by simp)) _), List.append_nil]
    obtain ⟨out, hout, hsub⟩ := hall front r back rfl
    have hback : r ∈ records ++ front := by
      rw [← hframes, Except.ok.inj hout]
      exact hsub.subset List.mem_cons_self
    have hfits : (Rmp.toVec r).length ≤ maxFrameLen := by
      rcases List.mem_append.1 hback with hin | hin
      · exact (hold r hin).fits
      · exact hfront r hin
    omega
  · rintro hfits front r back rfl
    rw [frames_framesBytes (fun r hr => ⟨hfits r hr, hdecodes r hr⟩)]
    exact ⟨_, rfl, (List.sublist_append_right front _).trans (List.sublist_append_right _ _)⟩

/-- A record over the cap hides itself and all that follows. -/
theorem replay_overlong {r : Record ν} (hlong : maxFrameLen < (Rmp.toVec r).length)
    (hlen : (Rmp.toVec r).length < 2 ^ 32) (policy : FsyncPolicy)
    (batches : List (List (Record ν))) :
    replay (ν := ν) ((openFile []).appendAll policy ([r] :: batches)).file = .ok [] := by
  rw [replay_stored .new policy _ (fun s hs => absurd hs List.not_mem_nil), List.flatten_cons,
    List.singleton_append, framesBytes, List.flatMap_cons,
    frames_eq_nil (frameAt_oversized hlong hlen _)]
  rfl

end LogFile

/-! ## Fixed inputs -/

section Samples

/-- The MessagePack form of a record with a long payload: as `packPlain`, with a byte string of a
four-byte length. -/
def packLong (r : Record Int) : Bytes :=
  0x95 :: UInt8.ofNat (0xa0 + (utf8 r.key).length) :: utf8 r.key ++
    0x00 :: 0x80 :: 0x80 :: 0xc6 :: (leBytes 4 r.payload.length).reverse ++ r.payload

theorem length_packLong (r : Record Int) :
    (packLong r).length = 10 + (utf8 r.key).length + r.payload.length := by
  simp only [packLong, List.cons_append, List.length_cons, List.length_append, List.length_reverse,
    length_leBytes]
  omega

/-- A decoder for the forms of the records given. -/
@[reducible]
def packLongOf (known : List (Record Int)) : Rmp (Record Int) where
  toVec := packLong
  fromSlice bs :=
    match known.find? (fun r => packLong r == bs) with
    | some r => .ok r
    | none => .error "invalid type"

/-- A payload of 64 MiB. -/
def bigRecord : Record Int := plain "k" (List.replicate maxFrameLen 0)

end Samples

namespace LogFile

/-- Three records, the first in a file without a header, cut inside the third. -/
theorem replay_truncated_headerless :
    letI := ieeeCrc32
    letI := packOf [plain "a" [7], plain "b" [7], plain "c" [1]]
    replay (((openFile (framesBytes [plain "a" [7]])).appendAll .always
        [[plain "b" [7]], [plain "c" [1]]]).file.take 40) =
      .ok (wholeFrames 0 40 [plain "a" [7], plain "b" [7], plain "c" [1]]) := by
  let _ := ieeeCrc32
  let _ := packOf [plain "a" [7], plain "b" [7], plain "c" [1]]
  have hall : ∀ r ∈ [plain "a" [7]] ++ [[plain "b" [7]], [plain "c" [1]]].flatten,
      (Rmp.toVec r).length ≤ maxFrameLen ∧ Rmp.fromSlice (Rmp.toVec r) = .ok r := by
    intro r hr
    simp only [List.flatten_cons, List.flatten_nil, List.append_nil, List.singleton_append,
      List.mem_cons, List.not_mem_nil, or_false] at hr
    rcases hr with rfl | rfl | rfl <;> exact ⟨by decide, rfl⟩
  exact replay_truncated (Stored.headerless (List.cons_ne_nil _ _)) .always
    (fun r hr => (hall r hr).1) (fun r hr => (hall r hr).2) 40

/-- Two records in two batches on a new file. -/
theorem acked_replayable_two :
    letI := ieeeCrc32
    letI := packOf [plain "a" [7], plain "b" [7]]
    (∀ front r back, [[plain "a" [7]], [plain "b" [7]]].flatten = front ++ r :: back →
        ∃ out, replay ((openFile []).appendAll .always [[plain "a" [7]], [plain "b" [7]]]).file =
          .ok out ∧ (r :: back).Sublist out) ↔
      ∀ r ∈ [[plain "a" [7]], [plain "b" [7]]].flatten, (Rmp.toVec r).length ≤ maxFrameLen := by
  let _ := ieeeCrc32
  let _ := packOf [plain "a" [7], plain "b" [7]]
  refine acked_replayable_iff .new (fun r hr => absurd hr List.not_mem_nil) .always ?_ ?_
  · intro r hr
    simp only [List.flatten_cons, List.flatten_nil, List.append_nil, List.singleton_append,
      List.mem_cons, List.not_mem_nil, or_false] at hr
    rcases hr with rfl | rfl <;> rfl
  · intro r hr k hk
    simp only [List.flatten_cons, List.flatten_nil, List.append_nil, List.singleton_append,
      List.mem_cons, List.not_mem_nil, or_false] at hr
    rcases hr with rfl | rfl
    · have hk : k < 9 := hk
      interval_cases k <;> exact ⟨_, rfl⟩
    · have hk : k < 9 := hk
      interval_cases k <;> exact ⟨_, rfl⟩

/-- A record with a payload of 64 MiB is acknowledged and hides itself and the next one. -/
theorem big_record_not_replayed :
    letI := ieeeCrc32
    letI := packLongOf [bigRecord, plain "b" [1]]
    ¬ ∀ (batches : List (List (Record Int))) (front : List (Record Int)) (r : Record Int)
        (back : List (Record Int)), batches.flatten = front ++ r :: back →
      ∃ out, replay ((openFile []).appendAll .always batches).file = .ok out ∧
        (r :: back).Sublist out := by
  let _ := ieeeCrc32
  let _ := packLongOf [bigRecord, plain "b" [1]]
  intro hall
  have hlength : (packLong bigRecord).length = 11 + maxFrameLen := by
    have hpayload : bigRecord.payload.length = maxFrameLen := List.length_replicate
    have hkey : (utf8 bigRecord.key).length = 1 := by rfl
    rw [length_packLong, hpayload, hkey]
  have hcap : maxFrameLen < 2 ^ 27 := by decide
  have hlong : maxFrameLen < (packLong bigRecord).length := by omega
  have hlen : (packLong bigRecord).length < 2 ^ 32 := by omega
  obtain ⟨out, hout, hsub⟩ := hall [[bigRecord], [plain "b" [1]]] [] bigRecord [plain "b" [1]] rfl
  rw [replay_overlong hlong hlen] at hout
  rw [← Except.ok.inj hout] at hsub
  cases hsub

end LogFile

end Girder
