import Girder.Format
import Girder.Wal

/-!
# LogFile — the bytes of a log file

A log starts with an eight-byte header and holds one frame a record: the length of the body, its
CRC-32 and the body.  `replay` reads frames until one is short, implausible, corrupt or undecodable.

`replay_cut` is what a crash needs: a cut file replays to a prefix of its records.
`replay_eq_wal_replay` is what the rest of the development abstracts to: a file of whole frames, with
a torn one at most at its end, replays as `Wal.replay` does.
-/

namespace Girder

open Lib

namespace LogFile

def walMagic : Nat := 0x4c415747

def walVersion : Nat := 1

/-- The header stamped on a new file. -/
def header : Bytes := le32 walMagic ++ le32 walVersion

@[simp] theorem length_header : header.length = 8 := by decide

variable {ν : Type} [Rmp (Record ν)] [Crc32]

/-- One frame: the body's length, its checksum, the body. -/
def frameBytes (r : Record ν) : Bytes :=
  le32 (Rmp.toVec r).length ++ le32 (Crc32.hash (Rmp.toVec r)).toNat ++ Rmp.toVec r

/-- The buffer of `append_batch`. -/
def framesBytes (records : List (Record ν)) : Bytes := records.flatMap frameBytes

/-- One round of the replay loop: a record and what follows its frame, or the end of the replay. -/
def frameAt (bs : Bytes) : Option (Record ν × Bytes) :=
  if bs.length < 8 then none
  else
    let len := leNat (bs.take 4)
    let crc := leNat ((bs.drop 4).take 4)
    if maxFrameLen < len then none
    else if (bs.drop 8).length < len then none
    else
      let body := (bs.drop 8).take len
      if (Crc32.hash body).toNat ≠ crc then none
      else
        match Rmp.fromSlice body with
        | .ok record => some (record, (bs.drop 8).drop len)
        | .error _ => none

/-- The frames from here on.  Every frame takes at least eight bytes, so the number of bytes bounds
the rounds. -/
def replayFrames : Nat → Bytes → List (Record ν)
  | 0, _ => []
  | fuel + 1, bs =>
      match frameAt bs with
      | none => []
      | some (record, rest) => record :: replayFrames fuel rest

/-- `Wal::replay` over what could be read of the file: a read error and the end of the file both end
the replay.  A file without the magic word has no header. -/
def replay (bs : Bytes) : Except GirderError (List (Record ν)) :=
  if bs.length < 8 then .ok []
  else if leNat (bs.take 4) = walMagic then
    let version := leNat ((bs.drop 4).take 4)
    if walVersion < version then
      .error (.corrupt "wal" s!"unsupported wal version {version}")
    else .ok (replayFrames bs.length (bs.drop 8))
  else .ok (replayFrames bs.length bs)

/-! ## One frame -/

/-- The frame around a body. -/
def frame (body : Bytes) : Bytes := le32 body.length ++ le32 (Crc32.hash body).toNat ++ body

theorem frameBytes_eq_frame (r : Record ν) : frameBytes r = frame (Rmp.toVec r) := rfl

@[simp] theorem length_frame (body : Bytes) : (frame body).length = 8 + body.length := by
  simp only [frame, List.length_append, le32, length_leBytes]

theorem take_frame (body rest : Bytes) : (frame body ++ rest).take 4 = le32 body.length := by
  rw [frame, List.append_assoc, List.append_assoc]
  exact List.take_left' (length_le32 _)

theorem drop_frame (body rest : Bytes) : (frame body ++ rest).drop 8 = body ++ rest := by
  rw [frame, List.append_assoc]
  exact List.drop_left' (by simp [le32])

theorem crc_frame (body rest : Bytes) :
    leNat (((frame body ++ rest).drop 4).take 4) = (Crc32.hash body).toNat := by
  have hcrc : (Crc32.hash body).toNat < 256 ^ 4 := (Crc32.hash body).toNat_lt
  have hdrop : (frame body ++ rest).drop 4 = le32 (Crc32.hash body).toNat ++ (body ++ rest) := by
    rw [frame, List.append_assoc, List.append_assoc, List.drop_left' (length_le32 _)]
  rw [hdrop, List.take_left' (length_le32 _)]
  exact leNat_leBytes_of_lt hcrc

/-- A whole frame with the right checksum is read when its body is within the cap and decodes. -/
theorem frameAt_frame {body : Bytes} (hlen : body.length < 2 ^ 32) (rest : Bytes) :
    frameAt (ν := ν) (frame body ++ rest) =
      if maxFrameLen < body.length then none
      else
        match Rmp.fromSlice body with
        | .ok record => some (record, rest)
        | .error _ => none := by
  have hlen' : body.length < 256 ^ 4 := hlen
  have hsize : ¬ (frame body ++ rest).length < 8 := by
    rw [List.length_append, length_frame]
    omega
  have hshort : ¬ (body ++ rest).length < body.length := by
    rw [List.length_append]
    omega
  unfold frameAt
  rw [if_neg hsize, take_frame, crc_frame, drop_frame]
  simp only [le32, leNat_leBytes_of_lt hlen', if_neg hshort, List.take_left, List.drop_left, ne_eq,
    not_true_eq_false, if_false]

/-- What a round of the loop reads is a whole frame. -/
theorem eq_frame_of_frameAt {bs rest : Bytes} {r : Record ν} (h : frameAt bs = some (r, rest)) :
    ∃ body, bs = frame body ++ rest ∧ body.length ≤ maxFrameLen ∧ Rmp.fromSlice body = .ok r := by
  unfold frameAt at h
  split at h
  · cases h
  · rename_i hsize
    dsimp only at h
    split at h
    · cases h
    · rename_i hcap
      split at h
      · cases h
      · rename_i hshort
        split at h
        · cases h
        · rename_i hcrc
          have htake : ((bs.drop 8).take (leNat (bs.take 4))).length = leNat (bs.take 4) := by
            rw [List.length_take]
            omega
          cases hdecode : Rmp.fromSlice (α := Record ν)
              ((bs.drop 8).take (leNat (bs.take 4))) with
          | error e =>
              rw [hdecode] at h
              cases h
          | ok record =>
              rw [hdecode] at h
              cases h
              refine ⟨_, ?_, by omega, hdecode⟩
              -- Length and checksum, written again, are the bytes they were read from.
              have hword : le32 (leNat (bs.take 4)) = bs.take 4 := by
                have hback := leBytes_leNat (bs.take 4)
                rwa [List.length_take, min_eq_left (by omega)] at hback
              have hsum : le32 (leNat ((bs.drop 4).take 4)) = (bs.drop 4).take 4 := by
                have hback := leBytes_leNat ((bs.drop 4).take 4)
                rwa [List.length_take, List.length_drop, min_eq_left (by omega)] at hback
              rw [frame, htake, not_not.mp hcrc, hword, hsum, List.append_assoc,
                List.append_assoc, List.take_append_drop]
              calc bs = bs.take 4 ++ bs.drop 4 := (List.take_append_drop 4 bs).symm
                _ = bs.take 4 ++ ((bs.drop 4).take 4 ++ (bs.drop 4).drop 4) := by
                    rw [List.take_append_drop 4 (bs.drop 4)]
                _ = bs.take 4 ++ ((bs.drop 4).take 4 ++ bs.drop 8) := by rw [List.drop_drop]

/-- A frame cut short ends the replay. -/
theorem frameAt_take_frame {body : Bytes} (hlen : body.length < 2 ^ 32) {k : Nat}
    (hk : k < (frame body).length) : frameAt (ν := ν) ((frame body).take k) = none := by
  cases hframe : frameAt (ν := ν) ((frame body).take k) with
  | none => rfl
  | some found =>
      obtain ⟨other, heq, hcap, _⟩ := eq_frame_of_frameAt hframe
      have hsize := congrArg List.length heq
      have hword := congrArg (List.take 4) heq
      rw [length_frame] at hk
      simp only [List.length_take, List.length_append, length_frame] at hsize
      rw [List.take_take, min_eq_left (by omega), take_frame] at hword
      have htake := take_frame body []
      rw [List.append_nil] at htake
      have hsame : leNat (le32 body.length) = leNat (le32 other.length) :=
        congrArg leNat (htake.symm.trans hword)
      have hother : other.length < 256 ^ 4 := lt_of_le_of_lt hcap (by decide)
      rw [le32, le32, leNat_leBytes_of_lt hlen, leNat_leBytes_of_lt hother] at hsame
      omega

/-- Replay accepts the record's frame and decodes it. -/
structure Replayable (r : Record ν) : Prop where
  fits : (Rmp.toVec r).length ≤ maxFrameLen
  decodes : Rmp.fromSlice (Rmp.toVec r) = .ok r

omit [Crc32] in
theorem Replayable.length_lt {r : Record ν} (h : Replayable r) : (Rmp.toVec r).length < 2 ^ 32 :=
  lt_of_le_of_lt h.fits (by decide)

theorem length_frameBytes (r : Record ν) :
    (frameBytes r).length = 8 + (Rmp.toVec r).length := length_frame _

theorem frameAt_frameBytes {r : Record ν} (h : Replayable r) (rest : Bytes) :
    frameAt (frameBytes r ++ rest) = some (r, rest) := by
  rw [frameBytes_eq_frame, frameAt_frame h.length_lt, if_neg (Nat.not_lt.mpr h.fits), h.decodes]

theorem frameAt_torn {r : Record ν} (h : Replayable r) {k : Nat}
    (hk : k < (frameBytes r).length) : frameAt (ν := ν) ((frameBytes r).take k) = none :=
  frameAt_take_frame h.length_lt hk

/-- A frame with a body over the cap ends the replay. -/
theorem frameAt_oversized {r : Record ν} (hlong : maxFrameLen < (Rmp.toVec r).length)
    (hlen : (Rmp.toVec r).length < 2 ^ 32) (rest : Bytes) :
    frameAt (ν := ν) (frameBytes r ++ rest) = none := by
  rw [frameBytes_eq_frame, frameAt_frame hlen, if_pos hlong]

/-- A frame takes eight bytes at least. -/
theorem length_of_frameAt {bs rest : Bytes} {r : Record ν} (h : frameAt bs = some (r, rest)) :
    rest.length + 8 ≤ bs.length := by
  obtain ⟨body, rfl, _, _⟩ := eq_frame_of_frameAt h
  rw [List.length_append, length_frame]
  omega

/-! ## Runs of frames -/

/-- More rounds than bytes change nothing. -/
theorem replayFrames_fuel :
    ∀ (fuel : Nat) (bs : Bytes), bs.length ≤ fuel → ∀ fuel', bs.length ≤ fuel' →
      replayFrames (ν := ν) fuel bs = replayFrames fuel' bs := by
  have hnil : ∀ (fuel : Nat), replayFrames (ν := ν) fuel [] = [] := by
    intro fuel
    cases fuel <;> rfl
  intro fuel
  induction fuel with
  | zero =>
      intro bs hbs fuel' _
      rw [List.length_eq_zero_iff.mp (Nat.le_zero.mp hbs), hnil, hnil]
  | succ fuel ih =>
      intro bs hbs fuel' hbs'
      cases fuel' with
      | zero => rw [List.length_eq_zero_iff.mp (Nat.le_zero.mp hbs'), hnil, hnil]
      | succ fuel' =>
          rw [replayFrames, replayFrames]
          cases hframe : frameAt (ν := ν) bs with
          | none => rfl
          | some found =>
              have hrest := length_of_frameAt hframe
              exact congrArg _ (ih found.2 (by omega) fuel' (by omega))

/-- The frames of a byte string. -/
def frames (bs : Bytes) : List (Record ν) := replayFrames bs.length bs

theorem replayFrames_eq_frames {fuel : Nat} {bs : Bytes} (h : bs.length ≤ fuel) :
    replayFrames (ν := ν) fuel bs = frames bs :=
  replayFrames_fuel fuel bs h _ le_rfl

theorem frames_eq_nil {bs : Bytes} (h : frameAt (ν := ν) bs = none) :
    frames (ν := ν) bs = [] := by
  unfold frames
  cases bs with
  | nil => rfl
  | cons b bs => rw [List.length_cons, replayFrames, h]

theorem frames_eq_cons {bs rest : Bytes} {r : Record ν} (h : frameAt bs = some (r, rest)) :
    frames bs = r :: frames rest := by
  have hrest := length_of_frameAt h
  obtain ⟨n, hn⟩ : ∃ n, bs.length = n + 1 := ⟨bs.length - 1, by omega⟩
  rw [frames, hn, replayFrames, h]
  exact congrArg _ (replayFrames_eq_frames (by omega))

theorem frames_cons {r : Record ν} (h : Replayable r) (rest : Bytes) :
    frames (frameBytes r ++ rest) = r :: frames rest :=
  frames_eq_cons (frameAt_frameBytes h rest)

/-- Whole frames are read back in order. -/
theorem frames_append {records : List (Record ν)} (h : ∀ r ∈ records, Replayable r)
    (rest : Bytes) : frames (framesBytes records ++ rest) = records ++ frames rest := by
  induction records with
  | nil => rfl
  | cons r records ih =>
      have hrest := ih (fun s hs => h s (List.mem_cons_of_mem r hs))
      rw [framesBytes, List.flatMap_cons, List.append_assoc]
      rw [frames_cons (h r List.mem_cons_self)]
      exact congrArg (r :: ·) hrest

/-- A cut inside the frames leaves whole frames and at most one that is torn. -/
theorem frames_take {records : List (Record ν)} (h : ∀ r ∈ records, Replayable r) (k : Nat) :
    ∃ m, frames ((framesBytes records).take k) = records.take m ∧
      ∀ j, (framesBytes (records.take j)).length ≤ k → (records.take j).length ≤ m := by
  induction records generalizing k with
  | nil => exact ⟨0, by simp [framesBytes, frames, replayFrames], fun j _ => by simp⟩
  | cons r records ih =>
      have hr := h r List.mem_cons_self
      rw [framesBytes, List.flatMap_cons]
      by_cases hk : k < (frameBytes r).length
      · -- The cut is inside the first frame.
        refine ⟨0, ?_, fun j hj => ?_⟩
        · rw [List.take_append_of_le_length (Nat.le_of_lt hk)]
          rw [frames_eq_nil (frameAt_torn hr hk), List.take_zero]
        · cases j with
          | zero => simp
          | succ j =>
              rw [List.take_succ_cons, framesBytes, List.flatMap_cons, List.length_append] at hj
              omega
      · obtain ⟨m, hm, hmax⟩ := ih (fun s hs => h s (List.mem_cons_of_mem r hs))
          (k - (frameBytes r).length)
        refine ⟨m + 1, ?_, fun j hj => ?_⟩
        · rw [List.take_append, List.take_of_length_le (by omega), frames_cons hr]
          exact congrArg (r :: ·) hm
        · cases j with
          | zero => simp
          | succ j =>
              rw [List.take_succ_cons, framesBytes, List.flatMap_cons, List.length_append] at hj
              have hle := hmax j (by rw [framesBytes]; omega)
              rw [List.take_succ_cons, List.length_cons]
              omega

/-! ## Files -/

/-- A stamped file replays its frames. -/
theorem replay_header (bs : Bytes) :
    replay (ν := ν) (header ++ bs) = .ok (frames bs) := by
  have hsize : ¬ (header ++ bs).length < 8 := by
    rw [List.length_append, length_header]
    omega
  have hmagic : leNat ((header ++ bs).take 4) = walMagic := by
    rw [List.take_append_of_le_length (by decide)]
    decide
  have hversion : leNat (((header ++ bs).drop 4).take 4) = walVersion := by
    rw [List.drop_append_of_le_length (by decide), List.take_append_of_le_length (by decide)]
    decide
  have hdrop : (header ++ bs).drop 8 = bs := List.drop_left' length_header
  have hle : bs.length ≤ (header ++ bs).length := by
    rw [List.length_append]
    omega
  rw [replay, if_neg hsize, if_pos hmagic]
  simp only [hversion, lt_self_iff_false, if_false, hdrop, replayFrames_eq_frames hle]

/-- A stamped file cut anywhere replays a prefix of its records, and every record whose frame is
wholly kept is in it. -/
theorem replay_cut {records : List (Record ν)} (h : ∀ r ∈ records, Replayable r) (k : Nat) :
    ∃ m, replay ((header ++ framesBytes records).take k) = .ok (records.take m) ∧
      ∀ j, (header ++ framesBytes (records.take j)).length ≤ k → (records.take j).length ≤ m := by
  by_cases hk : k < 8
  · refine ⟨0, ?_, fun j hj => ?_⟩
    · have hsize : ((header ++ framesBytes records).take k).length < 8 := by
        rw [List.length_take]
        omega
      rw [replay, if_pos hsize, List.take_zero]
    · rw [List.length_append, length_header] at hj
      omega
  · obtain ⟨m, hm, hmax⟩ := frames_take h (k - 8)
    refine ⟨m, ?_, fun j hj => hmax j ?_⟩
    · rw [List.take_append, length_header, List.take_of_length_le (by rw [length_header]; omega)]
      rw [replay_header, hm]
    · rw [List.length_append, length_header] at hj
      omega

/-! ## The frames as the rest of the development sees them -/

/-- The body length replay tests. -/
@[reducible]
def frameBody : FrameBody ν := ⟨fun r => (Rmp.toVec r).length⟩

/-- A torn tail is what a cut frame leaves. -/
def tornBytes : Option (Record ν × Nat) → Bytes
  | none => []
  | some (r, k) => (frameBytes r).take k

def tornFrames : Option (Record ν × Nat) → List (Frame ν)
  | none => []
  | some _ => [.torn]

/-- The log files of `Wal` are these bytes: whole frames, at most the last one torn. -/
theorem replay_eq_wal_replay {records : List (Record ν)} {torn : Option (Record ν × Nat)}
    (hlen : ∀ r ∈ records, (Rmp.toVec r).length < 2 ^ 32)
    (hdecodes : ∀ r ∈ records, Rmp.fromSlice (Rmp.toVec r) = .ok r)
    (htorn : ∀ r k, torn = some (r, k) → Replayable r ∧ k < (frameBytes r).length) :
    replay (header ++ (framesBytes records ++ tornBytes torn)) =
      .ok (@Wal.replay ν frameBody (Wal.frames records ++ tornFrames torn)) := by
  rw [replay_header]
  refine congrArg Except.ok ?_
  induction records with
  | nil =>
      cases torn with
      | none => rfl
      | some cut =>
          obtain ⟨hr, hk⟩ := htorn cut.1 cut.2 rfl
          exact frames_eq_nil (frameAt_torn hr hk)
  | cons r records ih =>
      have hrest := ih (fun s hs => hlen s (List.mem_cons_of_mem r hs))
        (fun s hs => hdecodes s (List.mem_cons_of_mem r hs))
      rw [framesBytes, List.flatMap_cons, List.append_assoc]
      -- An oversized body ends both replays.
      by_cases hfits : (Rmp.toVec r).length ≤ maxFrameLen
      · rw [frames_cons ⟨hfits, hdecodes r List.mem_cons_self⟩]
        have hwal : @Wal.replay ν frameBody (Wal.frames (r :: records) ++ tornFrames torn) =
            r :: @Wal.replay ν frameBody (Wal.frames records ++ tornFrames torn) := if_pos hfits
        rw [hwal]
        exact congrArg (r :: ·) hrest
      · have hwal : @Wal.replay ν frameBody (Wal.frames (r :: records) ++ tornFrames torn) = [] :=
          if_neg hfits
        rw [hwal]
        exact frames_eq_nil
          (frameAt_oversized (Nat.lt_of_not_le hfits) (hlen r List.mem_cons_self) _)

end LogFile

end Girder
