import Girder.Durability
import Girder.Merge

/-!
# Leftovers — recovery over logs that may not be readable

`open_inner` replays every log the directory lists, flushes what it found and deletes the logs.  A log
that cannot be opened, or whose reading breaks off, replays like one that ends there, and the deletion
goes by the directory and not by what was read.  `recoverySafe_iff` says which files and failures lose
frames: the frames of a file are what its bytes hold, also behind a place where replay stops.
-/

namespace Girder

open Lib

namespace LogFile

variable {ν : Type} [Rmp (Record ν)] [Crc32]

/-! ## What a log file holds -/

/-- What stands in a log file, one after the other. -/
inductive Chunk
  /-- A whole frame around this body, with the right length and checksum. -/
  | frame (body : Bytes)
  /-- Anything else: a torn frame, a damaged one, bytes of another origin. -/
  | other (bytes : Bytes)
  deriving DecidableEq

namespace Chunk

def bytes : Chunk → Bytes
  | frame body => LogFile.frame body
  | other bs => bs

/-- The bodies of the whole frames. -/
def bodies (chunks : List Chunk) : List Bytes :=
  chunks.filterMap fun
    | frame body => some body
    | other _ => none

omit [Crc32] in
@[simp] theorem bodies_frame (body : Bytes) (chunks : List Chunk) :
    bodies (frame body :: chunks) = body :: bodies chunks := rfl

omit [Crc32] in
@[simp] theorem bodies_other (bs : Bytes) (chunks : List Chunk) :
    bodies (other bs :: chunks) = bodies chunks := rfl

omit [Crc32] in
theorem bodies_eq_nil_iff {chunks : List Chunk} :
    bodies chunks = [] ↔ ∃ others, chunks = List.map other others := by
  constructor
  · intro h
    induction chunks with
    | nil => exact ⟨[], rfl⟩
    | cons chunk chunks ih =>
        cases chunk with
        | frame body => cases h
        | other bs =>
            obtain ⟨others, rfl⟩ := ih h
            exact ⟨bs :: others, rfl⟩
  · rintro ⟨others, rfl⟩
    induction others with
    | nil => rfl
    | cons bs others ih => exact ih

end Chunk

/-- The file begins with the magic word and a version. -/
def Stamped (content : Bytes) : Prop := 8 ≤ content.length ∧ leNat (content.take 4) = walMagic

instance (content : Bytes) : Decidable (Stamped content) :=
  inferInstanceAs (Decidable (_ ∧ _))

/-- Where the frames begin. -/
def start (content : Bytes) : Nat := if Stamped content then 8 else 0

/-- The version is one this program does not know. -/
def UnknownVersion (content : Bytes) : Prop :=
  Stamped content ∧ walVersion < leNat ((content.drop 4).take 4)

instance (content : Bytes) : Decidable (UnknownVersion content) :=
  inferInstanceAs (Decidable (_ ∧ _))

/-- The frames of the chunks are whole and nothing else of them begins with a whole frame. -/
structure Framed (chunks : List Chunk) : Prop where
  short : ∀ body, .frame body ∈ chunks → body.length < 2 ^ 32
  apart : ∀ front bs back, chunks = front ++ .other bs :: back →
    ∀ body rest, body.length < 2 ^ 32 → bs ++ back.flatMap Chunk.bytes ≠ frame body ++ rest

theorem Framed.tail {chunk : Chunk} {chunks : List Chunk} (h : Framed (chunk :: chunks)) :
    Framed chunks where
  short body hbody := h.short body (List.mem_cons_of_mem _ hbody)
  apart front bs back hsplit :=
    h.apart (chunk :: front) bs back (congrArg (chunk :: ·) hsplit)

/-- Every byte string falls into such chunks: by the number of bytes, a whole frame is taken off the
front or everything is of the other kind. -/
theorem exists_framed (bs : Bytes) :
    ∃ chunks, Framed chunks ∧ chunks.flatMap Chunk.bytes = bs := by
  induction hn : bs.length using Nat.strong_induction_on generalizing bs with
  | _ n ih =>
    by_cases hframe : ∃ body rest, body.length < 2 ^ 32 ∧ bs = frame body ++ rest
    · -- The frame comes off and the rest is shorter.
      obtain ⟨body, rest, hlen, rfl⟩ := hframe
      rw [List.length_append, length_frame] at hn
      obtain ⟨chunks, hframed, hbytes⟩ := ih rest.length (by omega) rest rfl
      refine ⟨.frame body :: chunks, ⟨?_, ?_⟩, ?_⟩
      · intro b hb
        rcases List.mem_cons.mp hb with heq | hmem
        · cases heq
          exact hlen
        · exact hframed.short b hmem
      · intro front bs back hsplit
        cases front with
        | nil => cases hsplit
        | cons chunk front => exact hframed.apart front bs back (List.cons.inj hsplit).2
      · rw [List.flatMap_cons, hbytes]
        rfl
    · refine ⟨[.other bs], ⟨?_, ?_⟩, by simp [Chunk.bytes]⟩
      · intro b hb
        cases List.mem_singleton.mp hb
      · intro front bs' back hsplit body rest hlen heq
        have hfront : front = [] := by
          cases front with
          | nil => rfl
          | cons chunk front => exact absurd (List.cons.inj hsplit).2 (by simp)
        subst hfront
        cases hsplit
        rw [List.flatMap_nil, List.append_nil] at heq
        exact hframe ⟨body, rest, hlen, heq⟩

/-- A log file left by an earlier process, and how the file system answers. -/
structure Leftover [Crc32] where
  seq : Nat
  content : Bytes
  /-- What the file holds behind its header. -/
  chunks : List Chunk
  bytes_eq : content.drop (start content) = chunks.flatMap Chunk.bytes
  framed : Framed chunks
  /-- The file cannot be opened, or reading it delivers at most this many bytes. -/
  reads : Option Nat
  /-- Deleting it fails. -/
  removeFails : Bool := false
  deriving DecidableEq

namespace Leftover

/-- The bodies of the intact frames the file stores, wherever they stand. -/
def intact (f : Leftover) : List Bytes := Chunk.bodies f.chunks

/-- `Wal::replay` of the file. -/
def replay (f : Leftover) : Except GirderError (List (Record ν)) :=
  match f.reads with
  | none => .ok []
  | some k => LogFile.replay (f.content.take k)

end Leftover

/-- What `open_inner` has done when it returns. -/
structure Opening (ν : Type) where
  result : Except GirderError Unit
  /-- The rows of the segment the manifest lists for the recovered records. -/
  segment : Option (List (Record ν))
  /-- The leftover logs still there. -/
  left : List Leftover

/-- The replay loop, the checkpoint and the deletion of `open_inner`.  `flushed` is the answer of
`put_batch` and `flush`. -/
def openInner [Numeral ν] (logs : List Leftover) (flushed : Except GirderError Unit) :
    Opening ν :=
  match logs.mapM Leftover.replay with
  | .error e => ⟨.error e, none, logs⟩
  | .ok replayed =>
      if replayed.flatten.isEmpty then ⟨.ok (), none, logs⟩
      else
        match flushed with
        | .error e => ⟨.error e, none, logs⟩
        | .ok () =>
            ⟨.ok (), some (mergeRows replayed.flatten).values, logs.filter Leftover.removeFails⟩

/-- Every intact frame of the file was replayed and is in a listed segment. -/
def Preserved (out : Opening ν) (f : Leftover) : Prop :=
  f.intact = [] ∨
    out.segment.isSome = true ∧ ∃ records : List (Record ν), f.replay = .ok records ∧
      List.Forall₂ (fun body r => Rmp.fromSlice body = .ok r) f.intact records

/-- A deleted log was preserved, and where one is not, the open fails and leaves all of them. -/
def RecoverySafe (logs : List Leftover) (out : Opening ν) : Prop :=
  (∀ f ∈ logs, f ∉ out.left → Preserved out f) ∧
    ((∃ f ∈ logs, ¬ Preserved out f) → out.result.isOk = false ∧ out.left = logs)

/-! ## Which files are read in full -/

/-- Replay takes a frame with this body. -/
def Accepted (ν : Type) [Rmp (Record ν)] (body : Bytes) : Prop :=
  body.length ≤ maxFrameLen ∧ ∃ r : Record ν, Rmp.fromSlice body = .ok r

namespace Leftover

/-- Enough of the file was read to see that its version is unknown. -/
def Refused (f : Leftover) : Prop :=
  UnknownVersion f.content ∧ ∃ k, f.reads = some k ∧ 8 ≤ k

/-- The file begins with a frame that replay takes, and the frame was read. -/
def Yields (ν : Type) [Rmp (Record ν)] (f : Leftover) : Prop :=
  ∃ body chunks, f.chunks = .frame body :: chunks ∧ Accepted ν body ∧
    ∃ k, f.reads = some k ∧ start f.content + (frame body).length ≤ k

/-- The intact frames of the file stand at its front, replay takes them all and they were read. -/
def ReadInFull (ν : Type) [Rmp (Record ν)] (f : Leftover) : Prop :=
  ∃ bodies others, f.chunks = List.map .frame bodies ++ List.map .other others ∧
    (∀ body ∈ bodies, Accepted ν body) ∧
    (bodies ≠ [] → ∃ k, f.reads = some k ∧
      start f.content + (bodies.flatMap frame).length ≤ k)

end Leftover

/-- What replay finds in the first `k` bytes of the chunks. -/
def found : Nat → List Chunk → List (Record ν)
  | k, .frame body :: chunks =>
      if (frame body).length ≤ k ∧ body.length ≤ maxFrameLen then
        match Rmp.fromSlice body with
        | .ok r => r :: found (k - (frame body).length) chunks
        | .error _ => []
      else []
  | _, _ => []

theorem found_frame {body : Bytes} {r : Record ν} (hcap : body.length ≤ maxFrameLen)
    (hdecode : Rmp.fromSlice body = .ok r) {k : Nat} (hk : (frame body).length ≤ k)
    (chunks : List Chunk) :
    found k (.frame body :: chunks) = r :: found (k - (frame body).length) chunks := by
  rw [found, if_pos ⟨hk, hcap⟩, hdecode]

theorem found_frame_eq_nil {body : Bytes} {k : Nat}
    (h : ¬ (Accepted ν body ∧ (frame body).length ≤ k)) (chunks : List Chunk) :
    found (ν := ν) k (.frame body :: chunks) = [] := by
  unfold found
  split
  · rename_i hfits
    cases hdecode : Rmp.fromSlice (α := Record ν) body with
    | ok r => exact absurd ⟨⟨hfits.2, r, hdecode⟩, hfits.1⟩ h
    | error e => rfl
  · rfl

/-- By induction on the chunks: replay reads the frames at the front. -/
theorem frames_take_chunks {chunks : List Chunk} (h : Framed chunks) (k : Nat) :
    frames (ν := ν) ((chunks.flatMap Chunk.bytes).take k) = found k chunks := by
  induction chunks generalizing k with
  | nil => simp [frames, replayFrames, found]
  | cons chunk chunks ih =>
      rw [List.flatMap_cons]
      cases chunk with
      | other bs =>
          -- What begins with a frame when cut does so in full.
          refine frames_eq_nil ?_
          cases hframe : frameAt (ν := ν)
              ((Chunk.bytes (.other bs) ++ chunks.flatMap Chunk.bytes).take k) with
          | none => rfl
          | some cut =>
              obtain ⟨body, heq, hcap, _⟩ := eq_frame_of_frameAt hframe
              refine absurd ?_ (h.apart [] bs chunks rfl body
                (cut.2 ++ (bs ++ chunks.flatMap Chunk.bytes).drop k)
                (lt_of_le_of_lt hcap (by decide)))
              rw [← List.append_assoc, ← heq]
              exact (List.take_append_drop k _).symm
      | frame body =>
          have hlen := h.short body List.mem_cons_self
          by_cases hk : (frame body).length ≤ k
          · have hcut : (Chunk.bytes (.frame body) ++ chunks.flatMap Chunk.bytes).take k =
                frame body ++ (chunks.flatMap Chunk.bytes).take (k - (frame body).length) := by
              rw [Chunk.bytes, List.take_append, List.take_of_length_le hk]
            rw [hcut]
            by_cases haccepted : Accepted ν body
            · obtain ⟨hcap, r, hdecode⟩ := haccepted
              have hread := frameAt_frame (ν := ν) hlen
                ((chunks.flatMap Chunk.bytes).take (k - (frame body).length))
              rw [if_neg (Nat.not_lt.mpr hcap), hdecode] at hread
              rw [found_frame hcap hdecode hk, frames_eq_cons hread, ih h.tail]
            · rw [found_frame_eq_nil (fun hboth => haccepted hboth.1)]
              refine frames_eq_nil ?_
              rw [frameAt_frame hlen]
              split
              · rfl
              · rename_i hcap
                cases hdecode : Rmp.fromSlice (α := Record ν) body with
                | ok r => exact absurd ⟨Nat.not_lt.mp hcap, r, hdecode⟩ haccepted
                | error e => rfl
          · rw [found_frame_eq_nil (fun hboth => hk hboth.2)]
            rw [Chunk.bytes, List.take_append_of_le_length (by omega)]
            exact frames_eq_nil (frameAt_take_frame hlen (by omega))

/-- Replay finds something exactly when the first chunk is a frame it takes. -/
theorem found_ne_nil_iff {k : Nat} {chunks : List Chunk} :
    found (ν := ν) k chunks ≠ [] ↔ ∃ body rest, chunks = .frame body :: rest ∧
      Accepted ν body ∧ (frame body).length ≤ k := by
  constructor
  · intro h
    cases chunks with
    | nil => exact absurd rfl h
    | cons chunk chunks =>
        cases chunk with
        | other bs => exact absurd rfl h
        | frame body =>
            refine ⟨body, chunks, rfl, ?_⟩
            by_contra hnot
            exact h (found_frame_eq_nil hnot chunks)
  · rintro ⟨body, rest, rfl, ⟨hcap, r, hdecode⟩, hk⟩
    rw [found_frame hcap hdecode hk]
    exact List.cons_ne_nil _ _

/-- By induction on the chunks: replay finds the records of all frames exactly when these stand at the
front, it takes each and they end within what was read. -/
theorem forall₂_found_iff {k : Nat} {chunks : List Chunk} :
    List.Forall₂ (fun body (r : Record ν) => Rmp.fromSlice body = .ok r)
        (Chunk.bodies chunks) (found k chunks) ↔
      ∃ bodies others, chunks = List.map .frame bodies ++ List.map .other others ∧
        (∀ body ∈ bodies, Accepted ν body) ∧
        (bodies ≠ [] → (bodies.flatMap frame).length ≤ k) := by
  induction chunks generalizing k with
  | nil => exact ⟨fun _ => ⟨[], [], rfl, by simp, by simp⟩, fun _ => List.Forall₂.nil⟩
  | cons chunk chunks ih =>
      cases chunk with
      | other bs =>
          -- Replay stops here, so no frame may follow.
          rw [Chunk.bodies_other]
          change List.Forall₂ _ _ [] ↔ _
          rw [List.forall₂_nil_right_iff, Chunk.bodies_eq_nil_iff]
          constructor
          · rintro ⟨others, rfl⟩
            exact ⟨[], bs :: others, rfl, by simp, by simp⟩
          · rintro ⟨bodies, others, hsplit, -, -⟩
            cases bodies with
            | nil =>
                cases others with
                | nil => cases hsplit
                | cons o others => exact ⟨others, (List.cons.inj hsplit).2⟩
            | cons body bodies => cases hsplit
      | frame body =>
          rw [Chunk.bodies_frame]
          by_cases htaken : Accepted ν body ∧ (frame body).length ≤ k
          · -- The frame is read and taken, and the rest is a matter of what remains to be read.
            obtain ⟨⟨hcap, r, hdecode⟩, hk⟩ := htaken
            rw [found_frame hcap hdecode hk, List.forall₂_cons, ih]
            constructor
            · rintro ⟨-, bodies, others, rfl, haccepted, hread⟩
              refine ⟨body :: bodies, others, rfl, ?_, fun _ => ?_⟩
              · exact List.forall_mem_cons.mpr ⟨⟨hcap, r, hdecode⟩, haccepted⟩
              · rw [List.flatMap_cons, List.length_append]
                cases bodies with
                | nil => simpa using hk
                | cons next bodies =>
                    have := hread (List.cons_ne_nil _ _)
                    omega
            · rintro ⟨bodies, others, hsplit, haccepted, hread⟩
              refine ⟨hdecode, ?_⟩
              cases bodies with
              | nil =>
                  cases others with
                  | nil => cases hsplit
                  | cons o others => cases hsplit
              | cons b bodies =>
                  cases hsplit
                  refine ⟨bodies, others, rfl, fun b hb => haccepted b (List.mem_cons_of_mem _ hb),
                    fun _ => ?_⟩
                  have := hread (List.cons_ne_nil _ _)
                  rw [List.flatMap_cons, List.length_append] at this
                  omega
          · -- Replay stops at this frame, whose record is missing.
            rw [found_frame_eq_nil htaken]
            constructor
            · intro h
              cases h
            · rintro ⟨bodies, others, hsplit, haccepted, hread⟩
              exfalso
              cases bodies with
              | nil =>
                  cases others with
                  | nil => cases hsplit
                  | cons o others => cases hsplit
              | cons b bodies =>
                  cases hsplit
                  refine htaken ⟨haccepted _ List.mem_cons_self, ?_⟩
                  have := hread (List.cons_ne_nil _ _)
                  rw [List.flatMap_cons, List.length_append] at this
                  omega

namespace Leftover

/-- What replay finds in the file, its version being known. -/
def found (f : Leftover) : List (Record ν) :=
  match f.reads with
  | none => []
  | some k => LogFile.found (k - start f.content) f.chunks

theorem replay_of_refused {f : Leftover} (h : f.Refused) : ∃ e, f.replay (ν := ν) = .error e := by
  obtain ⟨⟨⟨hsize, hmagic⟩, hversion⟩, k, hreads, hk⟩ := h
  have hlong : ¬ (f.content.take k).length < 8 := by
    rw [List.length_take]
    omega
  rw [replay, hreads]
  simp only [LogFile.replay, if_neg hlong]
  rw [List.take_take, min_eq_left (by omega), hmagic, if_pos rfl, List.drop_take, List.take_take,
    min_eq_left (by omega), if_pos hversion]
  exact ⟨_, rfl⟩

theorem replay_of_not_refused {f : Leftover} (h : ¬ f.Refused) :
    f.replay (ν := ν) = .ok f.found := by
  unfold replay found
  cases hreads : f.reads with
  | none => rfl
  | some k =>
      have hfound : LogFile.found (ν := ν) (k - start f.content) f.chunks =
          frames ((f.content.take k).drop (start f.content)) := by
        rw [← frames_take_chunks f.framed, ← f.bytes_eq, List.drop_take]
      dsimp only
      rw [hfound, LogFile.replay]
      by_cases hshort : (f.content.take k).length < 8
      · -- Too little was read for a header or a frame.
        rw [if_pos hshort, frames_eq_nil]
        unfold frameAt
        rw [if_pos (by rw [List.length_drop]; omega)]
      · rw [if_neg hshort]
        rw [List.length_take] at hshort
        have hword : (f.content.take k).take 4 = f.content.take 4 := by
          rw [List.take_take, min_eq_left (by omega)]
        have hversion : ((f.content.take k).drop 4).take 4 = (f.content.drop 4).take 4 := by
          rw [List.drop_take, List.take_take, min_eq_left (by omega)]
        rw [hword, hversion]
        by_cases hmagic : leNat (f.content.take 4) = walMagic
        · have hstamped : Stamped f.content := ⟨by omega, hmagic⟩
          have hknown : ¬ walVersion < leNat ((f.content.drop 4).take 4) := by
            intro hunknown
            exact h ⟨⟨hstamped, hunknown⟩, k, hreads, by omega⟩
          rw [if_pos hmagic, if_neg hknown, start, if_pos hstamped]
          exact congrArg Except.ok (replayFrames_eq_frames (by rw [List.length_drop]; omega))
        · -- A file without a header holds frames from its first byte.
          have hplain : ¬ Stamped f.content := fun hstamped => hmagic hstamped.2
          rw [if_neg hmagic, start, if_neg hplain, List.drop_zero]
          rfl

/-- A file is read in full exactly when replay finds the record of every intact frame. -/
theorem readInFull_iff {f : Leftover} :
    f.ReadInFull ν ↔
      List.Forall₂ (fun body (r : Record ν) => Rmp.fromSlice body = .ok r) f.intact f.found := by
  unfold ReadInFull found intact
  cases hreads : f.reads with
  | none =>
      dsimp only
      rw [List.forall₂_nil_right_iff, Chunk.bodies_eq_nil_iff]
      constructor
      · rintro ⟨bodies, others, hsplit, -, hread⟩
        cases bodies with
        | nil => exact ⟨others, hsplit⟩
        | cons body bodies =>
            obtain ⟨k, hk, -⟩ := hread (List.cons_ne_nil _ _)
            cases hk
      · rintro ⟨others, hsplit⟩
        exact ⟨[], others, hsplit, by simp, by simp⟩
  | some k =>
      rw [forall₂_found_iff]
      -- A frame is not empty, so it ends within `k` bytes only if the header does.
      have hroom : ∀ bodies : List Bytes, bodies ≠ [] →
          ((∃ n, some k = some n ∧ start f.content + (bodies.flatMap frame).length ≤ n) ↔
            (bodies.flatMap frame).length ≤ k - start f.content) := by
        intro bodies hne
        obtain ⟨body, rest, rfl⟩ := List.exists_cons_of_ne_nil hne
        have hpos : 0 < ((body :: rest).flatMap frame).length := by
          rw [List.flatMap_cons, List.length_append, length_frame]
          omega
        constructor
        · rintro ⟨n, hn, hle⟩
          cases hn
          omega
        · exact fun hle => ⟨k, rfl, by omega⟩
      constructor
      · rintro ⟨bodies, others, hsplit, haccepted, hread⟩
        exact ⟨bodies, others, hsplit, haccepted, fun hne => (hroom bodies hne).mp (hread hne)⟩
      · rintro ⟨bodies, others, hsplit, haccepted, hread⟩
        exact ⟨bodies, others, hsplit, haccepted, fun hne => (hroom bodies hne).mpr (hread hne)⟩

theorem yields_iff {f : Leftover} : f.Yields ν ↔ f.found (ν := ν) ≠ [] := by
  unfold Yields found
  cases hreads : f.reads with
  | none =>
      constructor
      · rintro ⟨_, _, _, _, k, hk, _⟩
        cases hk
      · exact fun h => absurd rfl h
  | some k =>
      rw [found_ne_nil_iff]
      constructor
      · rintro ⟨body, chunks, hchunks, haccepted, n, hn, hle⟩
        cases hn
        exact ⟨body, chunks, hchunks, haccepted, by omega⟩
      · rintro ⟨body, chunks, hchunks, haccepted, hle⟩
        rw [length_frame] at hle
        exact ⟨body, chunks, hchunks, haccepted, k, rfl, by rw [length_frame]; omega⟩

end Leftover

variable {logs : List Leftover} {flushed : Except GirderError Unit}

theorem recoverySafe_of_error {out : Opening ν} (hleft : out.left = logs)
    (herror : out.result.isOk = false) : RecoverySafe logs out := by
  refine ⟨fun f hf hnot => absurd (hleft ▸ hf) hnot, fun _ => ⟨herror, hleft⟩⟩

/-- An open that succeeds is safe when every log is preserved, and only then. -/
theorem recoverySafe_iff_of_ok {out : Opening ν} (hok : out.result.isOk = true) :
    RecoverySafe logs out ↔ ∀ f ∈ logs, Preserved out f := by
  constructor
  · rintro ⟨_, hfail⟩ f hf
    by_contra hlost
    have herror := (hfail ⟨f, hf, hlost⟩).1
    rw [hok] at herror
    cases herror
  · intro h
    refine ⟨fun f hf _ => h f hf, ?_⟩
    rintro ⟨f, hf, hlost⟩
    exact absurd (h f hf) hlost

/-- Preserved and read in full are the same once the records of all logs are in a segment. -/
theorem preserved_iff_of_segment {out : Opening ν} (hsegment : out.segment.isSome = true)
    {f : Leftover} (hf : ¬ f.Refused) : Preserved out f ↔ f.ReadInFull ν := by
  rw [Leftover.readInFull_iff]
  unfold Preserved
  rw [Leftover.replay_of_not_refused hf]
  constructor
  · rintro (hnil | ⟨_, records, hreplay, hall⟩)
    · rw [← Leftover.readInFull_iff]
      obtain ⟨others, hothers⟩ := Chunk.bodies_eq_nil_iff.mp hnil
      exact ⟨[], others, hothers, by simp, by simp⟩
    · cases hreplay
      exact hall
  · exact fun hall => Or.inr ⟨hsegment, _, rfl, hall⟩

/-- The same where no log gave a record and no segment was written. -/
theorem preserved_iff_of_empty {out : Opening ν} (hsegment : out.segment = none)
    {f : Leftover} (hf : f.found (ν := ν) = []) : Preserved out f ↔ f.ReadInFull ν := by
  rw [Leftover.readInFull_iff, hf, List.forall₂_nil_right_iff]
  unfold Preserved
  rw [hsegment]
  constructor
  · rintro (hnil | ⟨hsome, _⟩)
    · exact hnil
    · cases hsome
  · exact Or.inl

section Open

variable [Numeral ν]

theorem openInner_of_refused {f : Leftover} (hf : f ∈ logs) (h : f.Refused) :
    (openInner (ν := ν) logs flushed).left = logs ∧
      (openInner (ν := ν) logs flushed).result.isOk = false := by
  obtain ⟨e, he⟩ := Leftover.replay_of_refused (ν := ν) h
  obtain ⟨e', he'⟩ := mapM_error hf he
  unfold openInner
  rw [he']
  exact ⟨rfl, rfl⟩

theorem openInner_of_not_refused (h : ∀ f ∈ logs, ¬ f.Refused) :
    openInner (ν := ν) logs flushed =
      if (logs.map (Leftover.found (ν := ν))).flatten.isEmpty then ⟨.ok (), none, logs⟩
      else
        match flushed with
        | .error e => ⟨.error e, none, logs⟩
        | .ok () => ⟨.ok (), some (mergeRows (logs.map (Leftover.found (ν := ν))).flatten).values,
            logs.filter Leftover.removeFails⟩ := by
  unfold openInner
  rw [mapM_ok (g := Leftover.found) (fun f hf => Leftover.replay_of_not_refused (h f hf))]
  cases flushed <;> rfl

/-- `open_inner` discards no frame it has not flushed exactly when the intact frames of every log stand
at its front, are ones replay takes and were read, or some log is of an unknown version, or there was
something to flush and the flush failed. -/
theorem recoverySafe_iff (logs : List Leftover) (flushed : Except GirderError Unit) :
    RecoverySafe logs (openInner (ν := ν) logs flushed) ↔
      (∃ f ∈ logs, f.Refused) ∨ (flushed.isOk = false ∧ ∃ f ∈ logs, f.Yields ν) ∨
        ∀ f ∈ logs, f.ReadInFull ν := by
  by_cases hfail : ∃ f ∈ logs, f.Refused
  · -- The open fails and leaves every log.
    refine ⟨fun _ => Or.inl hfail, fun _ => ?_⟩
    obtain ⟨f, hf, hrefused⟩ := hfail
    have hopen : (openInner (ν := ν) logs flushed).left = logs ∧ _ :=
      openInner_of_refused hf hrefused
    exact recoverySafe_of_error hopen.1 hopen.2
  · have hknown : ∀ f ∈ logs, ¬ f.Refused := fun f hf hrefused => hfail ⟨f, hf, hrefused⟩
    rw [openInner_of_not_refused hknown]
    by_cases hempty : (logs.map (Leftover.found (ν := ν))).flatten.isEmpty = true
    · -- Nothing was found: the logs stay and the open succeeds.
      rw [if_pos hempty]
      have hnil : ∀ f ∈ logs, f.found (ν := ν) = [] := by
        intro f hf
        rw [List.isEmpty_iff, List.flatten_eq_nil_iff] at hempty
        exact hempty _ (List.mem_map_of_mem hf)
      rw [recoverySafe_iff_of_ok rfl]
      constructor
      · exact fun h => Or.inr (Or.inr fun f hf => (preserved_iff_of_empty rfl (hnil f hf)).mp (h f hf))
      · rintro (hbad | ⟨_, f, hf, hyields⟩ | hfull) f' hf'
        · exact absurd hbad hfail
        · exact absurd (hnil f hf) (Leftover.yields_iff.mp hyields)
        · exact (preserved_iff_of_empty rfl (hnil f' hf')).mpr (hfull f' hf')
    · rw [if_neg hempty]
      have hsome : ∃ f ∈ logs, f.Yields ν := by
        by_contra hnone
        refine hempty ?_
        rw [List.isEmpty_iff, List.flatten_eq_nil_iff]
        intro records hrecords
        obtain ⟨f, hf, rfl⟩ := List.mem_map.mp hrecords
        by_contra hne
        exact hnone ⟨f, hf, Leftover.yields_iff.mpr hne⟩
      -- Rows were found: the logs go once they are in a segment.
      cases flushed with
      | error e =>
          refine ⟨fun _ => Or.inr (Or.inl ⟨rfl, hsome⟩), fun _ => ?_⟩
          exact recoverySafe_of_error rfl rfl
      | ok _ =>
          rw [recoverySafe_iff_of_ok rfl]
          constructor
          · exact fun h => Or.inr (Or.inr fun f hf =>
              (preserved_iff_of_segment rfl (hknown f hf)).mp (h f hf))
          · rintro (hbad | ⟨herror, _⟩ | hfull) f' hf'
            · exact absurd hbad hfail
            · cases herror
            · exact (preserved_iff_of_segment rfl (hknown f' hf')).mpr (hfull f' hf')

end Open

end LogFile

namespace LogFile

/-- A log of one record, as the writer leaves it. -/
def oneFrame [Crc32] (seq : Nat) (body : Bytes) (hlen : body.length < 2 ^ 32) (reads : Option Nat) :
    Leftover where
  seq := seq
  content := header ++ frame body
  chunks := [.frame body]
  bytes_eq := by
    have hstart : start (header ++ frame body) = 8 := by
      refine if_pos ⟨by rw [List.length_append, length_header]; omega, ?_⟩
      rw [List.take_append_of_le_length (by decide)]
      decide
    rw [hstart, List.drop_left' length_header]
    exact (List.append_nil _).symm
  framed := by
    refine ⟨fun b hb => ?_, fun front bs back hsplit => ?_⟩
    · cases List.mem_singleton.mp hb
      exact hlen
    · have hmem : Chunk.other bs ∈ [Chunk.frame body] := by
        rw [hsplit]
        simp
      cases List.mem_singleton.mp hmem
  reads := reads

/-- Two leftover logs of one record each, of which the first cannot be opened. -/
def unopenable : List (@Leftover ieeeCrc32) :=
  letI := ieeeCrc32
  [oneFrame 0 (packPlain (plain "a" [1])) (by decide) none,
    oneFrame 1 (packPlain (plain "b" [1])) (by decide) (some 64)]

/-- The first log is deleted unread. -/
theorem unopenable_log_deleted :
    letI := ieeeCrc32
    letI := packOf [plain "a" [1], plain "b" [1]]
    ¬ RecoverySafe unopenable (openInner (ν := Int) unopenable (.ok ())) := by
  let _ := ieeeCrc32
  let _ := packOf [plain "a" [1], plain "b" [1]]
  intro h
  have hleft : (openInner (ν := Int) unopenable (.ok ())).left = [] := by decide +kernel
  have hpreserved := h.1 _ List.mem_cons_self (by rw [hleft]; exact List.not_mem_nil)
  rcases hpreserved with hnil | ⟨_, records, hreplay, hall⟩
  · cases hnil
  · cases hreplay
    cases hall

end LogFile

end Girder
