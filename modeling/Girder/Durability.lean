import Girder.LogFile

/-!
# Durability — what the logs keep of the acknowledged records

Two things can come between an acknowledged record and its replay.

* A failed append leaves a prefix of its bytes in the file, and the writer appends behind it.
  `acked_replayed` needs every such prefix to end at the end of a frame.
* A crash loses what was not synced.  Under `EveryN(n)` each log alone loses fewer than `n` records;
  `fewer_than_n_lost` needs that no record goes to a new log while an older one has an unsynced tail.
-/

namespace Girder

open Lib

namespace LogFile

variable {ν : Type} [Rmp (Record ν)] [Crc32]

/-! ## Failed appends -/

/-- One call of `append_batch`. -/
inductive Append (ν : Type)
  | ok (records : List (Record ν))
  /-- The call failed after its first `k` bytes had reached the file. -/
  | failed (records : List (Record ν)) (k : Nat)

namespace Append

def records : Append ν → List (Record ν)
  | ok records => records
  | failed records _ => records

/-- What the call adds to the file. -/
def bytes : Append ν → Bytes
  | ok records => framesBytes records
  | failed records k => (framesBytes records).take k

/-- The records of a call that returned `Ok`. -/
def acked : Append ν → List (Record ν)
  | ok records => records
  | failed _ _ => []

end Append

/-- The file after these calls. -/
def fileAfter (calls : List (Append ν)) : Bytes := header ++ calls.flatMap Append.bytes

def ackedBy (calls : List (Append ν)) : List (Record ν) := calls.flatMap Append.acked

/-- Every frame that reaches the file is within replay's cap, and a failed call that is followed by an
acknowledged record has left whole frames only. -/
def Harmless : List (Append ν) → Prop
  | [] => True
  | .ok records :: calls =>
      (∀ r ∈ records, (Rmp.toVec r).length ≤ maxFrameLen) ∧ Harmless calls
  | .failed records k :: calls =>
      ackedBy calls = [] ∨
        (∃ n, (framesBytes records).take k = framesBytes (records.take n) ∧
          ∀ r ∈ records.take n, (Rmp.toVec r).length ≤ maxFrameLen) ∧ Harmless calls

theorem Harmless.take :
    ∀ {calls : List (Append ν)}, Harmless calls → ∀ n, Harmless (calls.take n) := by
  intro calls
  induction calls with
  | nil => exact fun _ n => by rw [List.take_nil]; trivial
  | cons call calls ih =>
      intro h n
      cases n with
      | zero => trivial
      | succ n =>
          rw [List.take_succ_cons]
          cases call with
          | ok records => exact ⟨h.1, ih h.2 n⟩
          | failed records k =>
              rcases h with hnone | ⟨hwhole, hrest⟩
              · left
                have hall : ∀ c ∈ calls, Append.acked c = [] := List.flatMap_eq_nil_iff.mp hnone
                exact List.flatMap_eq_nil_iff.mpr (fun c hc => hall c (List.mem_of_mem_take hc))
              · exact Or.inr ⟨hwhole, ih hrest n⟩

/-- By induction on the calls: whole frames are read over, and a torn one has nothing acknowledged
behind it. -/
theorem frames_harmless {calls : List (Append ν)}
    (hdecodes : ∀ call ∈ calls, ∀ r ∈ call.records, Rmp.fromSlice (Rmp.toVec r) = .ok r)
    (h : Harmless calls) :
    (ackedBy calls).Sublist (frames (calls.flatMap Append.bytes)) := by
  induction calls with
  | nil => exact List.nil_sublist _
  | cons call calls ih =>
      have hhere := hdecodes call List.mem_cons_self
      have hbehind := ih (fun c hc => hdecodes c (List.mem_cons_of_mem call hc))
      rw [ackedBy, List.flatMap_cons, List.flatMap_cons]
      cases call with
      | ok records =>
          obtain ⟨hfits, hrest⟩ := h
          rw [Append.bytes, frames_append (fun r hr => ⟨hfits r hr, hhere r hr⟩)]
          exact List.Sublist.append_left (hbehind hrest) records
      | failed records k =>
          rcases h with hnone | ⟨⟨n, hwhole, hfits⟩, hrest⟩
          · have hnil : List.flatMap Append.acked calls = [] := hnone
            rw [hnil]
            exact List.nil_sublist _
          · rw [Append.bytes, hwhole, frames_append
              (fun r hr => ⟨hfits r hr, hhere r (List.mem_of_mem_take hr)⟩)]
            exact (hbehind hrest).trans (List.sublist_append_right _ _)

/-- In a run of calls in which every failed one that is followed by an acknowledged record left whole
frames, replay returns every acknowledged record, in order, after every call. -/
theorem acked_replayed {calls : List (Append ν)}
    (hdecodes : ∀ call ∈ calls, ∀ r ∈ call.records, Rmp.fromSlice (Rmp.toVec r) = .ok r)
    (h : Harmless calls) (n : Nat) :
    ∃ out, replay (fileAfter (calls.take n)) = .ok out ∧
      (ackedBy (calls.take n)).Sublist out := by
  refine ⟨_, replay_header _, frames_harmless (fun call hcall => ?_) (h.take n)⟩
  exact hdecodes call (List.mem_of_mem_take hcall)

end LogFile

/-! ## Fixed inputs -/

section Samples

/-- A record with a key and a payload only. -/
def plain (key : String) (payload : Bytes) : Record Int where
  key := key
  timestamp := 0
  labels := ∅
  numerics := ∅
  payload := payload
  text := none

/-- The MessagePack form of such a record: an array of five, a short string, a small integer, two
empty maps and a short byte string. -/
def packPlain (r : Record Int) : Bytes :=
  0x95 :: UInt8.ofNat (0xa0 + (utf8 r.key).length) :: utf8 r.key ++
    0x00 :: 0x80 :: 0x80 :: 0xc4 :: UInt8.ofNat r.payload.length :: r.payload

/-- A decoder for the forms of the records given. -/
@[reducible]
def packOf (known : List (Record Int)) : Rmp (Record Int) where
  toVec := packPlain
  fromSlice bs :=
    match known.find? (fun r => packPlain r == bs) with
    | some r => .ok r
    | none => .error "invalid type"

end Samples

namespace LogFile

/-- A batch that fails behind its first frame, then one that succeeds. -/
def boundaryThenOk : List (Append Int) :=
  [.failed [plain "a" [7], plain "b" [7]] 17, .ok [plain "c" [1]]]

theorem acked_replayed_boundary :
    letI := ieeeCrc32
    letI := packOf [plain "a" [7], plain "b" [7], plain "c" [1]]
    ∃ out, replay (fileAfter boundaryThenOk) = .ok out ∧ [plain "c" [1]].Sublist out := by
  let _ := ieeeCrc32
  let _ := packOf [plain "a" [7], plain "b" [7], plain "c" [1]]
  have hdecodes : ∀ call ∈ boundaryThenOk, ∀ r ∈ call.records,
      Rmp.fromSlice (Rmp.toVec r) = .ok r := by
    intro call hcall r hr
    simp only [boundaryThenOk, List.mem_cons, List.not_mem_nil, or_false] at hcall
    rcases hcall with rfl | rfl
    · simp only [Append.records, List.mem_cons, List.not_mem_nil, or_false] at hr
      rcases hr with rfl | rfl <;> rfl
    · simp only [Append.records, List.mem_cons, List.not_mem_nil, or_false] at hr
      subst hr
      rfl
  have hharmless : Harmless boundaryThenOk := by
    refine Or.inr ⟨⟨1, by decide +kernel, ?_⟩, ?_, trivial⟩ <;> decide +kernel
  exact acked_replayed hdecodes hharmless 2

/-- A batch that fails after the eight bytes of its frame header, then one that succeeds. -/
def tornThenOk : List (Append Int) :=
  [.failed [plain "a" (List.replicate 40 7)] 8, .ok [plain "b" [1]]]

/-- The second batch is acknowledged, and replay takes its bytes for the body of the first. -/
theorem torn_append_hides_next :
    letI := ieeeCrc32
    letI := packOf [plain "a" (List.replicate 40 7), plain "b" [1]]
    8 < (framesBytes [plain "a" (List.replicate 40 7)]).length ∧
      ackedBy tornThenOk = [plain "b" [1]] ∧
      replay (fileAfter tornThenOk) = .ok ([] : List (Record Int)) :=
  ⟨by decide +kernel, rfl, rfl⟩

end LogFile

/-! ## Crashes under `EveryN` -/

/-- When to sync a log. -/
inductive FsyncPolicy
  | always
  | everyN (n : Nat)
  | os
  deriving DecidableEq, Repr

namespace LogFile

/-- An open log: its bytes, how many of them the last `sync_data` covered, and the `u32` count of the
records appended since. -/
structure OpenLog where
  file : Bytes
  synced : Nat
  sinceSync : Nat

namespace OpenLog

variable {ν : Type} [Rmp (Record ν)] [Crc32]

/-- `Wal::open` of a new file. -/
def opened : OpenLog := ⟨header, 0, 0⟩

/-- `sync_data`, and the count starts again. -/
def sync (w : OpenLog) : OpenLog := { w with synced := w.file.length, sinceSync := 0 }

def appendBatch (policy : FsyncPolicy) (w : OpenLog) (records : List (Record ν)) : OpenLog :=
  let w' := { w with
    file := w.file ++ framesBytes records
    sinceSync := (w.sinceSync + records.length % 2 ^ 32) % 2 ^ 32 }
  match policy with
  | .always => w'.sync
  | .everyN n => if n ≤ w'.sinceSync then w'.sync else w'
  | .os => w'

/-- What a crash leaves: the synced bytes and any prefix of the rest. -/
def cut (w : OpenLog) (keep : Nat) : Bytes := w.file.take (max w.synced keep)

end OpenLog

/-- The logs of one process with the acknowledged records each covers. -/
structure Logs (ν : Type) where
  policy : FsyncPolicy
  /-- Records whose log has been flushed to a segment. -/
  flushed : List (Record ν) := []
  /-- Rotated logs whose memtable waits for its flush, oldest first. -/
  frozen : List (List (Record ν) × OpenLog) := []
  /-- The records in the memtable, in order, and their log. -/
  current : List (Record ν) × OpenLog := ([], OpenLog.opened)

/-- What happens to the logs between two crashes. -/
inductive LogStep (ν : Type)
  /-- An acknowledged `put_batch` or `incr`. -/
  | put (records : List (Record ν))
  | freeze
  /-- The oldest frozen memtable is in a segment and its log is removed. -/
  | flush
  | sync

/-- The records a step appends. -/
def LogStep.records {ν : Type} : LogStep ν → List (Record ν)
  | .put records => records
  | _ => []

namespace Logs

variable {ν : Type} [Rmp (Record ν)] [Crc32]

def step (s : Logs ν) : LogStep ν → Logs ν
  | .put records =>
      { s with
        current := (s.current.1 ++ records, s.current.2.appendBatch s.policy records) }
  | .freeze =>
      -- An empty memtable is not frozen.
      if s.current.1.isEmpty then s
      else { s with frozen := s.frozen ++ [s.current], current := ([], OpenLog.opened) }
  | .flush =>
      match s.frozen with
      | [] => s
      | (records, _) :: rest => { s with flushed := s.flushed ++ records, frozen := rest }
  | .sync => { s with current := (s.current.1, s.current.2.sync) }

def run (s : Logs ν) (steps : List (LogStep ν)) : Logs ν := steps.foldl step s

/-- The logs not yet flushed, in replay order. -/
def logs (s : Logs ν) : List (List (Record ν) × OpenLog) := s.frozen ++ [s.current]

/-- The acknowledged records, in the order of their acknowledgements. -/
def acked (s : Logs ν) : List (Record ν) := s.flushed ++ s.logs.flatMap Prod.fst

/-- What recovery finds after a crash: the segments, and the logs replayed in order. -/
def recovered (s : Logs ν) (keep : Nat → Nat) : Except GirderError (List (Record ν)) :=
  (fun replayed => s.flushed ++ replayed.flatten) <$>
    s.logs.zipIdx.mapM (fun w => replay (w.1.2.cut (keep w.2)))

/-- The records lost form a suffix of the acknowledged ones and are fewer than `n`. -/
def LosesFewerThan (s : Logs ν) (n : Nat) : Prop :=
  ∀ keep, ∃ m, s.recovered keep = .ok (s.acked.take m) ∧ s.acked.length - m < n

/-! ### One log -/

/-- The bytes of a log are those of its records. -/
structure Holds (l : List (Record ν) × OpenLog) : Prop where
  file_eq : l.2.file = header ++ framesBytes l.1
  replayable : ∀ r ∈ l.1, Replayable r

/-- The last sync covered the whole file. -/
def Synced (l : List (Record ν) × OpenLog) : Prop := l.2.file.length ≤ l.2.synced

/-- The records not covered by the last sync are counted, and they are fewer than `n`. -/
def Within (n : Nat) (l : List (Record ν) × OpenLog) : Prop :=
  l.2.sinceSync < n ∧ ∃ j, j + l.2.sinceSync = l.1.length ∧
    (j = 0 ∨ (header ++ framesBytes (l.1.take j)).length ≤ l.2.synced)

variable {l : List (Record ν) × OpenLog} {n : Nat}

theorem Holds.opened : Holds (ν := ν) ([], OpenLog.opened) :=
  ⟨by simp [OpenLog.opened, framesBytes], fun _ hr => absurd hr List.not_mem_nil⟩

theorem Within.opened (hn : 1 ≤ n) : Within (ν := ν) n ([], OpenLog.opened) :=
  ⟨hn, 0, rfl, Or.inl rfl⟩

theorem Holds.sync (h : Holds l) : Holds (l.1, l.2.sync) := ⟨h.file_eq, h.replayable⟩

theorem Within.sync (h : Holds l) (hn : 1 ≤ n) : Within n (l.1, l.2.sync) := by
  refine ⟨hn, l.1.length, rfl, Or.inr ?_⟩
  rw [List.take_length, ← h.file_eq]
  exact le_rfl

theorem Holds.append {records : List (Record ν)} (h : Holds l)
    (hrecords : ∀ r ∈ records, Replayable r) (policy : FsyncPolicy) :
    Holds (l.1 ++ records, l.2.appendBatch policy records) := by
  have hfile : (l.2.appendBatch policy records).file = l.2.file ++ framesBytes records := by
    unfold OpenLog.appendBatch
    cases policy with
    | always => rfl
    | everyN n => dsimp only; split <;> rfl
    | os => rfl
  refine ⟨?_, fun r hr => ?_⟩
  · rw [hfile, h.file_eq, List.append_assoc]
    exact congrArg _ List.flatMap_append.symm
  · rcases List.mem_append.mp hr with hr | hr
    · exact h.replayable r hr
    · exact hrecords r hr

/-- The wrapped count calls for no sync only where the true count does not either. -/
def Counted (n : Nat) (w : OpenLog) (records : List (Record ν)) : Prop :=
  (w.sinceSync + records.length % 2 ^ 32) % 2 ^ 32 < n → w.sinceSync + records.length < n

theorem Within.append {records : List (Record ν)} (h : Within n l) (hholds : Holds l)
    (hrecords : ∀ r ∈ records, Replayable r) (hn : 1 ≤ n) (hn32 : n < 2 ^ 32)
    (hcounted : Counted n l.2 records) :
    Within n (l.1 ++ records, l.2.appendBatch (.everyN n) records) := by
  have hholds' := hholds.append hrecords .os
  unfold OpenLog.appendBatch
  dsimp only
  split
  · exact Within.sync hholds' hn
  · rename_i hless
    -- No sync: the count has not wrapped, and the covered records are the same.
    have htrue := hcounted (Nat.lt_of_not_le hless)
    have heq : (l.2.sinceSync + records.length % 2 ^ 32) % 2 ^ 32 =
        l.2.sinceSync + records.length := by
      rw [Nat.mod_eq_of_lt (by omega : records.length < 2 ^ 32), Nat.mod_eq_of_lt (by omega)]
    obtain ⟨_, j, hj, hcover⟩ := h
    refine ⟨by rw [heq]; exact htrue, j, ?_, ?_⟩
    · rw [heq, List.length_append]
      dsimp only
      omega
    · rcases hcover with hzero | hcover
      · exact Or.inl hzero
      · right
        rw [List.take_append_of_le_length (by omega)]
        exact hcover

/-- A synced log loses nothing. -/
theorem replay_synced (h : Holds l) (hs : Synced l) (keep : Nat) :
    replay (l.2.cut keep) = .ok l.1 := by
  have hall : l.2.cut keep = header ++ (framesBytes l.1 ++ []) := by
    rw [OpenLog.cut, List.take_of_length_le (le_trans hs (le_max_left _ _)), h.file_eq,
      List.append_nil]
  rw [hall, replay_header, frames_append h.replayable]
  exact congrArg Except.ok (List.append_nil _)

/-- A log loses a suffix of its records, and fewer than `n` of them. -/
theorem replay_within (h : Holds l) (hw : Within n l) (keep : Nat) :
    ∃ m, replay (l.2.cut keep) = .ok (l.1.take m) ∧ l.1.length - m < n := by
  obtain ⟨hcount, j, hj, hcover⟩ := hw
  obtain ⟨m, hm, hmax⟩ := replay_cut h.replayable (max l.2.synced keep)
  refine ⟨m, by rw [OpenLog.cut, h.file_eq, hm], ?_⟩
  have hjm : j ≤ m := by
    rcases hcover with hzero | hcover
    · omega
    · have hle := hmax j (le_trans hcover (le_max_left _ _))
      rw [List.length_take] at hle
      omega
  omega

/-- A log without records replays to nothing. -/
theorem replay_empty (h : Holds l) (hnil : l.1 = []) (keep : Nat) :
    replay (l.2.cut keep) = .ok ([] : List (Record ν)) := by
  obtain ⟨m, hm, _⟩ := replay_cut h.replayable (max l.2.synced keep)
  rw [OpenLog.cut, h.file_eq, hm, hnil, List.take_nil]

/-! ### All logs -/

/-- Only one log has unsynced records, and the logs behind it have none at all. -/
structure Bounded (n : Nat) (s : Logs ν) : Prop where
  policy_eq : s.policy = .everyN n
  holds : ∀ l ∈ s.logs, Holds l
  within : ∀ l ∈ s.logs, Within n l
  tail : (∀ l ∈ s.frozen, Synced l) ∨
    s.current.1 = [] ∧ ∃ front last, s.frozen = front ++ [last] ∧ ∀ l ∈ front, Synced l

/-- What is recovered when the unsynced records are all in one log. -/
theorem recovered_of_split {s : Logs ν} {front back : List (List (Record ν) × OpenLog)}
    {last : List (Record ν) × OpenLog} (hlogs : s.logs = front ++ last :: back)
    (hholds : ∀ l ∈ s.logs, Holds l) (hfront : ∀ l ∈ front, Synced l) (hlast : Within n last)
    (hback : ∀ l ∈ back, l.1 = []) : s.LosesFewerThan n := by
  intro keep
  rw [hlogs] at hholds
  -- The logs in front are whole, those behind are empty, and one may lose its end.
  obtain ⟨m, hm, hlost⟩ :=
    replay_within (hholds last (by simp)) hlast (keep front.length)
  have hbacknil : back.flatMap Prod.fst = [] := List.flatMap_eq_nil_iff.mpr hback
  have hfronts : front.zipIdx.mapM (fun w => replay (w.1.2.cut (keep w.2))) =
      .ok (front.zipIdx.map (fun w => w.1.1)) := by
    refine mapM_ok fun w hw => ?_
    have hmem := List.fst_mem_of_mem_zipIdx hw
    exact replay_synced (hholds _ (List.mem_append_left _ hmem)) (hfront _ hmem) _
  have hbacks : (back.zipIdx (front.length + 1)).mapM
      (fun w => replay (w.1.2.cut (keep w.2))) =
      .ok ((back.zipIdx (front.length + 1)).map (fun _ => ([] : List (Record ν)))) := by
    refine mapM_ok fun w hw => ?_
    have hmem := List.fst_mem_of_mem_zipIdx hw
    exact replay_empty (hholds _ (by simp [hmem])) (hback _ hmem) _
  have hrecords : (front.zipIdx.map (fun w => w.1.1)).flatten = front.flatMap Prod.fst := by
    have hmap : front.zipIdx.map (fun w => w.1.1) = front.map Prod.fst := by
      conv_rhs => rw [← List.zipIdx_map_fst 0 front, List.map_map]
      rfl
    rw [hmap, List.flatMap_def]
  have hacked : s.acked = (s.flushed ++ front.flatMap Prod.fst) ++ last.1 := by
    rw [acked, hlogs, List.flatMap_append, List.flatMap_cons, hbacknil, List.append_nil,
      List.append_assoc]
  refine ⟨(s.flushed ++ front.flatMap Prod.fst).length + m, ?_, ?_⟩
  · rw [recovered, hlogs, List.zipIdx_append, List.mapM_append, List.zipIdx_cons, List.mapM_cons]
    simp only [Nat.zero_add]
    rw [hfronts, hm, hbacks, hacked, List.take_length_add_append]
    show Except.ok (s.flushed ++ (_ ++ last.1.take m :: _).flatten) = _
    rw [List.flatten_append, hrecords, List.flatten_cons]
    simp
  · rw [hacked, List.length_append]
    omega

theorem Bounded.loses {s : Logs ν} (h : Bounded n s) : s.LosesFewerThan n := by
  rcases h.tail with hsynced | ⟨hnil, front, last, hfrozen, hsynced⟩
  · have hlogs : s.logs = s.frozen ++ s.current :: [] := rfl
    exact recovered_of_split hlogs h.holds hsynced (h.within _ (by simp [logs]))
      (fun _ hl => absurd hl List.not_mem_nil)
  · have hlogs : s.logs = front ++ last :: [s.current] := by
      rw [logs, hfrozen, List.append_assoc]
      rfl
    refine recovered_of_split hlogs h.holds hsynced (h.within _ (by simp [hlogs])) ?_
    intro l hl
    rw [List.mem_singleton.mp hl]
    exact hnil

/-! ### Steps and runs -/

/-- No record is appended to a log while an older one has unsynced bytes and is not yet flushed.
Bodies are within replay's cap and the record count does not wrap past `n`. -/
def CleanStep (n : Nat) (s : Logs ν) : LogStep ν → Prop
  | .put records =>
      (∀ r ∈ records, (Rmp.toVec r).length ≤ maxFrameLen) ∧ Counted n s.current.2 records ∧
        (records = [] ∨ ∀ l ∈ s.frozen, Synced l)
  | _ => True

def CleanRun (n : Nat) : Logs ν → List (LogStep ν) → Prop
  | _, [] => True
  | s, a :: steps => CleanStep n s a ∧ CleanRun n (s.step a) steps

/-- Replacing the open log. -/
theorem Bounded.set_current {s : Logs ν} (h : Bounded n s) {c : List (Record ν) × OpenLog}
    (hholds : Holds c) (hwithin : Within n c)
    (htail : (∀ l ∈ s.frozen, Synced l) ∨ c.1 = s.current.1) :
    Bounded n { s with current := c } := by
  have hmem : ∀ l, l ∈ ({ s with current := c } : Logs ν).logs → l ∈ s.frozen ∨ l = c := by
    intro l hl
    simpa [logs] using hl
  refine ⟨h.policy_eq, fun l hl => ?_, fun l hl => ?_, ?_⟩
  · rcases hmem l hl with hl | rfl
    · exact h.holds l (List.mem_append_left _ hl)
    · exact hholds
  · rcases hmem l hl with hl | rfl
    · exact h.within l (List.mem_append_left _ hl)
    · exact hwithin
  · rcases htail with hsynced | heq
    · exact Or.inl hsynced
    · rcases h.tail with hsynced | ⟨hnil, hsplit⟩
      · exact Or.inl hsynced
      · exact Or.inr ⟨heq.trans hnil, hsplit⟩

theorem Bounded.step {s : Logs ν} (h : Bounded n s) (hn : 1 ≤ n) (hn32 : n < 2 ^ 32)
    {a : LogStep ν} (ha : CleanStep n s a)
    (hdecodes : ∀ r ∈ a.records, Rmp.fromSlice (Rmp.toVec r) = .ok r) : Bounded n (s.step a) := by
  have hcurrent : s.current ∈ s.logs := by simp [logs]
  cases a with
  | put records =>
      obtain ⟨hfits, hcounted, hclear⟩ := ha
      have hrecords : ∀ r ∈ records, Replayable r := fun r hr => ⟨hfits r hr, hdecodes r hr⟩
      have hholds := (h.holds _ hcurrent).append hrecords s.policy
      have hwithin := (h.within _ hcurrent).append (h.holds _ hcurrent) hrecords hn hn32 hcounted
      rw [← h.policy_eq] at hwithin
      refine h.set_current hholds hwithin ?_
      rcases hclear with rfl | hsynced
      · exact Or.inr (List.append_nil _)
      · exact Or.inl hsynced
  | sync =>
      have hholds := h.holds _ hcurrent
      exact h.set_current hholds.sync (Within.sync hholds hn) (Or.inr rfl)
  | freeze =>
      rw [Logs.step]
      split
      · exact h
      · rename_i hsome
        have hmem : ∀ l, l ∈ (s.frozen ++ [s.current]) ++ [([], OpenLog.opened)] →
            l ∈ s.logs ∨ l = ([], OpenLog.opened) := by
          intro l hl
          rcases List.mem_append.mp hl with hl | hl
          · exact Or.inl hl
          · exact Or.inr (List.mem_singleton.mp hl)
        refine ⟨h.policy_eq, fun l hl => ?_, fun l hl => ?_,
          Or.inr ⟨rfl, s.frozen, s.current, rfl, ?_⟩⟩
        · rcases hmem l hl with hl | rfl
          · exact h.holds l hl
          · exact Holds.opened
        · rcases hmem l hl with hl | rfl
          · exact h.within l hl
          · exact Within.opened hn
        · -- A log with records has no unsynced log before it.
          rcases h.tail with hsynced | ⟨hnil, _⟩
          · exact hsynced
          · exact absurd (by rw [hnil]; rfl) hsome
  | flush =>
      rw [Logs.step]
      cases hfrozen : s.frozen with
      | nil => exact h
      | cons l rest =>
          have hsub : ∀ x, x ∈ rest ++ [s.current] → x ∈ s.logs := by
            intro x hx
            rw [logs, hfrozen]
            exact List.mem_cons_of_mem l hx
          refine ⟨h.policy_eq, fun x hx => h.holds x (hsub x hx),
            fun x hx => h.within x (hsub x hx), ?_⟩
          -- The oldest log goes; if it was the one with unsynced records, none is left.
          rcases h.tail with hsynced | ⟨hnil, front, last, hsplit, hsynced⟩
          · exact Or.inl fun x hx => hsynced x (by rw [hfrozen]; exact List.mem_cons_of_mem l hx)
          · rw [hfrozen] at hsplit
            cases front with
            | nil =>
                cases hsplit
                exact Or.inl fun x hx => absurd hx List.not_mem_nil
            | cons f front =>
                obtain ⟨rfl, rfl⟩ := List.cons.inj hsplit
                exact Or.inr ⟨hnil, front, last, rfl,
                  fun x hx => hsynced x (List.mem_cons_of_mem l hx)⟩

theorem Bounded.run {n : Nat} (hn : 1 ≤ n) (hn32 : n < 2 ^ 32) :
    ∀ {steps : List (LogStep ν)} {s : Logs ν}, Bounded n s → CleanRun n s steps →
      (∀ a ∈ steps, ∀ r ∈ a.records, Rmp.fromSlice (Rmp.toVec r) = .ok r) →
      Bounded n (s.run steps) := by
  intro steps
  induction steps with
  | nil => exact fun h _ _ => h
  | cons a steps ih =>
      intro s h hclean hdecodes
      refine ih (h.step hn hn32 hclean.1 (hdecodes a List.mem_cons_self)) hclean.2 ?_
      exact fun b hb => hdecodes b (List.mem_cons_of_mem a hb)

/-- What a process starts with. -/
def opened (policy : FsyncPolicy) : Logs ν := { policy := policy }

theorem Bounded.opened (hn : 1 ≤ n) : Bounded (ν := ν) n (Logs.opened (.everyN n)) := by
  refine ⟨rfl, fun l hl => ?_, fun l hl => ?_, Or.inl fun l hl => absurd hl List.not_mem_nil⟩
  · rw [List.mem_singleton.mp hl]
    exact Holds.opened
  · rw [List.mem_singleton.mp hl]
    exact Within.opened hn

theorem CleanRun.take {s : Logs ν} {steps : List (LogStep ν)} (h : CleanRun n s steps) (k : Nat) :
    CleanRun n s (steps.take k) := by
  induction steps generalizing s k with
  | nil => rw [List.take_nil]; trivial
  | cons a steps ih =>
      cases k with
      | zero => trivial
      | succ k => exact ⟨h.1, ih h.2 k⟩

/-- Under `EveryN(n)` a crash at any point of a clean run loses a suffix of the acknowledged records,
fewer than `n` of them. -/
theorem fewer_than_n_lost {n : Nat} (hn : 1 ≤ n) (hn32 : n < 2 ^ 32) {steps : List (LogStep ν)}
    (hdecodes : ∀ a ∈ steps, ∀ r ∈ a.records, Rmp.fromSlice (Rmp.toVec r) = .ok r)
    (hclean : CleanRun n (opened (.everyN n)) steps) (k : Nat) :
    ((opened (.everyN n)).run (steps.take k)).LosesFewerThan n := by
  have h := Bounded.run hn hn32 (Bounded.opened hn) (hclean.take k)
    (fun a ha => hdecodes a (List.mem_of_mem_take ha))
  exact h.loses

end Logs

namespace Logs

/-- Two records are synced together, the log is rotated, and one more is appended. -/
def syncedThenRotated : List (LogStep Int) :=
  [.put [plain "a" [1], plain "b" [1]], .freeze, .put [plain "c" [1]]]

theorem fewer_than_n_lost_rotated :
    letI := ieeeCrc32
    letI := packOf [plain "a" [1], plain "b" [1], plain "c" [1]]
    ((opened (.everyN 2)).run syncedThenRotated).LosesFewerThan 2 := by
  let _ := ieeeCrc32
  let _ := packOf [plain "a" [1], plain "b" [1], plain "c" [1]]
  have hdecodes : ∀ a ∈ syncedThenRotated, ∀ r ∈ a.records,
      Rmp.fromSlice (Rmp.toVec r) = .ok r := by
    intro a ha r hr
    simp only [syncedThenRotated, List.mem_cons, List.not_mem_nil, or_false] at ha
    rcases ha with rfl | rfl | rfl
    · simp only [LogStep.records, List.mem_cons, List.not_mem_nil, or_false] at hr
      rcases hr with rfl | rfl <;> rfl
    · exact absurd hr List.not_mem_nil
    · simp only [LogStep.records, List.mem_cons, List.not_mem_nil, or_false] at hr
      subst hr
      rfl
  have hclean : CleanRun 2 (opened (.everyN 2)) syncedThenRotated := by
    refine ⟨⟨by decide +kernel, ?_, Or.inr fun l hl => absurd hl List.not_mem_nil⟩, trivial,
      ⟨by decide +kernel, ?_, Or.inr ?_⟩, trivial⟩
    · exact fun h => absurd h (by decide +kernel)
    · exact fun _ => by decide +kernel
    · intro l hl
      rw [List.mem_singleton.mp hl]
      show _ ≤ _
      decide +kernel
  exact fewer_than_n_lost (by decide) (by decide) hdecodes hclean 3

/-- One record in each of two logs: `EveryN(2)` has synced neither. -/
def rotatedUnsynced : List (LogStep Int) :=
  [.put [plain "a" [1]], .freeze, .put [plain "b" [1]]]

/-- A crash then loses both. -/
theorem rotation_loses_two :
    letI := ieeeCrc32
    letI := packOf [plain "a" [1], plain "b" [1]]
    ¬ ((opened (.everyN 2)).run rotatedUnsynced).LosesFewerThan 2 := by
  let _ := ieeeCrc32
  let _ := packOf [plain "a" [1], plain "b" [1]]
  intro h
  obtain ⟨m, hm, hlost⟩ := h (fun _ => 0)
  have hnone : ((opened (.everyN 2)).run rotatedUnsynced).recovered (fun _ => 0) =
      .ok ([] : List (Record Int)) := rfl
  have hacked : ((opened (.everyN 2)).run rotatedUnsynced).acked =
      [plain "a" [1], plain "b" [1]] := rfl
  rw [hnone, hacked] at hm
  rw [hacked] at hlost
  have hnil := congrArg List.length (Except.ok.inj hm)
  simp only [List.length_nil, List.length_take, List.length_cons] at hnil hlost
  omega

end Logs

end LogFile

end Girder
