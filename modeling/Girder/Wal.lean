import Girder.Engine
import Girder.Merge

/-!
# Wal — the log files and the rest of the hot directory

A log file is a sequence of frames, one record each.  Replay reads the intact frames up to the first
one that is torn or that claims an implausible length.

A `Disk` is what survives a crash: the log files, the segment files and the manifest last stored.
-/

namespace Girder

open Lib

/-- A frame of a log file: a whole record, or the torn frame a crash left behind. -/
inductive Frame (ν : Type)
  | whole (record : Record ν)
  | torn

/-- The length of a record's encoded frame body. -/
class FrameBody (ν : Type) where
  bodyLen : Record ν → Nat

/-- Frames with a longer body are refused by replay. -/
def maxFrameLen : Nat := 64 * 1024 * 1024

/-- Replay accepts the record's frame. -/
def Record.Fits {ν : Type} [FrameBody ν] (r : Record ν) : Prop :=
  FrameBody.bodyLen r ≤ maxFrameLen

instance instDecidableFits {ν : Type} [FrameBody ν] (r : Record ν) : Decidable r.Fits :=
  inferInstanceAs (Decidable (FrameBody.bodyLen r ≤ maxFrameLen))

namespace Wal

variable {ν : Type}

/-- The frames of an append. -/
def frames (records : List (Record ν)) : List (Frame ν) :=
  records.map Frame.whole

variable [FrameBody ν]

/-- Replay every intact frame; the first torn or implausible one ends it. -/
def replay : List (Frame ν) → List (Record ν)
  | [] => []
  | .torn :: _ => []
  | .whole r :: fs => if r.Fits then r :: replay fs else []

theorem replay_frames {records : List (Record ν)} (h : ∀ r ∈ records, r.Fits) :
    replay (frames records) = records := by
  induction records with
  | nil => rfl
  | cons r records ih =>
      have hr : r.Fits := h r (by simp)
      have hrest := ih (fun s hs => h s (by simp [hs]))
      simp only [frames, List.map_cons, replay, if_pos hr] at hrest ⊢
      rw [hrest]

/-- A torn tail is dropped. -/
theorem replay_frames_torn (records : List (Record ν)) :
    replay (frames records ++ [.torn]) = replay (frames records) := by
  induction records with
  | nil => rfl
  | cons r records ih =>
      simp only [frames, List.map_cons, List.cons_append, replay] at ih ⊢
      rw [ih]

end Wal

/-- The hot directory. -/
structure Disk (ν : Type) where
  /-- Log files by sequence number. -/
  wals : List (Nat × List (Frame ν)) := []
  /-- Segment files by sequence number. -/
  files : List (Nat × List (Record ν)) := []
  manifest : Manifest ν := {}

namespace Disk

variable {ν : Type}

/-- `Wal::open`: create the log unless it exists. -/
def openWal (d : Disk ν) (seq : Nat) : Disk ν :=
  if (d.wals.map Prod.fst).contains seq then d else { d with wals := d.wals ++ [(seq, [])] }

def appendFrame (d : Disk ν) (seq : Nat) (frame : Frame ν) : Disk ν :=
  { d with wals := d.wals.map (fun w => if w.1 = seq then (w.1, w.2 ++ [frame]) else w) }

def removeWal (d : Disk ν) (seq : Nat) : Disk ν :=
  { d with wals := d.wals.filter (fun w => decide (w.1 ≠ seq)) }

/-- Write a segment file in one step, replacing any file of that name. -/
def writeSegment (d : Disk ν) (file : Nat) (rows : List (Record ν)) : Disk ν :=
  { d with files := (file, rows) :: d.files.filter (fun f => decide (f.1 ≠ file)) }

/-- Replace the manifest in one step. -/
def storeManifest (d : Disk ν) (manifest : Manifest ν) : Disk ν :=
  { d with manifest := manifest }

/-- The rows of a segment file. -/
def rowsAt (d : Disk ν) (file : Nat) : List (Record ν) :=
  ((d.files.find? (fun f => decide (f.1 = file))).map Prod.snd).getD []

/-- The stored manifest, its entries read from their files. -/
def loadManifest (d : Disk ν) : Manifest ν :=
  { d.manifest with
    segments := d.manifest.segments.map (fun s => { s with rows := d.rowsAt s.file }) }

/-- The log files, ascending. -/
def sortedWals (d : Disk ν) : List (Nat × List (Frame ν)) :=
  sortAsc Prod.fst d.wals

def walSeqs (d : Disk ν) : List Nat :=
  d.sortedWals.map Prod.fst

def nextWalSeq (d : Disk ν) : Nat :=
  (d.walSeqs.getLast?.map (· + 1)).getD 0

section Replay

variable [FrameBody ν]

/-- The records of every leftover log, in replay order. -/
def logRecords (d : Disk ν) : List (Record ν) :=
  d.sortedWals.flatMap (fun w => Wal.replay w.2)

/-- The leftover logs, replayed. -/
def recovered [Numeral ν] (d : Disk ν) : OrdMap String (Record ν) :=
  mergeRows d.logRecords

end Replay

theorem mem_openWal {d : Disk ν} {w : Nat × List (Frame ν)} (hw : w ∈ d.wals) (seq : Nat) :
    w ∈ (d.openWal seq).wals := by
  unfold openWal
  split
  · exact hw
  · exact List.mem_append_left _ hw

@[simp] theorem openWal_files (d : Disk ν) (seq : Nat) : (d.openWal seq).files = d.files := by
  unfold openWal
  split <;> rfl

@[simp]
theorem openWal_manifest (d : Disk ν) (seq : Nat) : (d.openWal seq).manifest = d.manifest := by
  unfold openWal
  split <;> rfl

theorem rowsAt_writeSegment (d : Disk ν) (file : Nat) (rows : List (Record ν)) (file' : Nat) :
    (d.writeSegment file rows).rowsAt file' = if file = file' then rows else d.rowsAt file' := by
  unfold rowsAt writeSegment
  by_cases h : file = file'
  · simp [h]
  · have hskip : (d.files.filter (fun f => decide (f.1 ≠ file))).find?
        (fun f => decide (f.1 = file')) = d.files.find? (fun f => decide (f.1 = file')) := by
      rw [List.find?_filter]
      refine congrArg (fun p => List.find? p d.files) ?_
      funext f
      by_cases hf : f.1 = file'
      · simp [hf, Ne.symm h]
      · simp [hf]
    simp only [List.find?_cons, h, decide_false, if_neg, hskip, not_false_iff]

end Disk

end Girder
