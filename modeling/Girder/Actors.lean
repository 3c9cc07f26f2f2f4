import Girder.Lib.Runs
import Girder.Process

/-!
# Actors — the writer and the flush, lock section by lock section, with I/O errors

The writer handles one message at a time and `flush_pending` runs beside it.  A `Move` is one
section under a lock, or one I/O operation with its outcome; the moves of the two interleave freely.

* The writer: append to the log, insert into the memtable, and when the memtable is full take it,
  open the next log, push the frozen memtable, reply.
* `flush_pending`: read the oldest frozen memtable, allocate a sequence number, write the segment,
  push it to the manifest and store the manifest, remove the log (an error of that is dropped), drop
  the frozen memtable.

An error ends the message or the flush on the spot; whatever was already changed stays changed.

`Traced` adds the clients' side: for every call, what of it reached the log and which file, which
memtable its writes were inserted into, and whether it was acknowledged.
-/

namespace Girder

open Lib

variable {ν : Type}

/-- Append frames to a log. -/
def Disk.appendFrames (d : Disk ν) (seq : Nat) (frames : List (Frame ν)) : Disk ν :=
  { d with wals := d.wals.map (fun w => if w.1 = seq then (w.1, w.2 ++ frames) else w) }

/-- The writer inside `handle_call`; no request means a bare `Freeze` message. -/
inductive WriterPhase (ν : Type)
  | idle
  | appended (req : Request ν)
  | inserted (req : Request ν)
  /-- `freeze` has taken the memtable; the next log is not open yet. -/
  | taken (req : Option (Request ν)) (map : MemTable ν) (seq : Nat)
  /-- The next log is open; the frozen memtable is not in the list yet. -/
  | opened (req : Option (Request ν)) (map : MemTable ν) (seq : Nat)
  | pushed (req : Option (Request ν))

/-- `flush_pending` inside its loop, with the entry it read. -/
inductive MaintPhase (ν : Type)
  | idle
  | picked (entry : Nat × MemTable ν)
  | allotted (entry : Nat × MemTable ν) (seq : Nat)
  | written (entry : Nat × MemTable ν) (seq : Nat)
  /-- The manifest that lists the segment is stored. -/
  | listed (entry : Nat × MemTable ν)
  /-- The log is removed, or could not be; the frozen memtable is still in the list. -/
  | unlogged (entry : Nat × MemTable ν)

/-- The two actors, the engine they share and the directory. -/
structure Actors (ν : Type) where
  engine : Engine ν
  disk : Disk ν
  /-- The file `state.wal` appends to. -/
  wal : Nat
  walSeq : Nat
  writer : WriterPhase ν := .idle
  maint : MaintPhase ν := .idle

/-- One lock section, or one I/O operation with its outcome. -/
inductive Move (ν : Type)
  | append (req : Request ν)
  /-- `append_batch` fails after `n` whole frames, possibly in the middle of the next one. -/
  | appendFails (req : Request ν) (n : Nat) (torn : Bool)
  | insert
  | take
  | openWal
  /-- `Wal::open` fails, before or after the file was created. -/
  | openFails (created : Bool)
  | push
  | reply
  | pick
  | alloc
  | writeSegment
  | writeFails
  | list (now : Int64)
  /-- The segment is pushed to the manifest and storing the manifest fails. -/
  | listFails (now : Int64)
  | removeWal
  /-- Removing the log fails, which changes nothing. -/
  | removeFails
  | dropFrozen

namespace Actors

/-- The memtable a freeze holds. -/
def hand (s : Actors ν) : Option (MemTable ν) :=
  match s.writer with
  | .taken _ map _ => some map
  | .opened _ map _ => some map
  | _ => none

/-- The size check after an insert sends the message into `freeze`, which finds the memtable
non-empty. -/
def freezes (s : Actors ν) : Bool :=
  decide (s.engine.config.memtableMaxRecords ≤ s.engine.memtable.len) &&
    !s.engine.memtable.isEmpty

/-- `std::mem::take` and the new sequence number. -/
def take (s : Actors ν) (req : Option (Request ν)) : Actors ν :=
  { s with
    engine := { s.engine with memtable := {} }
    walSeq := s.walSeq + 1
    writer := .taken req s.engine.memtable s.walSeq }

/-- The manifest with a flushed segment. -/
def listing [SegmentFile ν] (s : Actors ν) (seq : Nat) (now : Int64) (rows : List (Record ν)) :
    Manifest ν :=
  { s.engine.manifest with
    segments := s.engine.manifest.segments ++ [Process.flushedSegment seq now rows] }

section Step

variable [Unicode] [Numeral ν] [SegmentFile ν]

def step (s : Actors ν) : Move ν → Option (Actors ν)
  | .append req =>
      match s.writer with
      | .idle =>
          some { s with
            disk := s.disk.appendFrames s.wal (Wal.frames req.msg.records)
            writer := .appended req }
      | _ => none
  | .appendFails req n torn =>
      match s.writer with
      | .idle =>
          let frames := Wal.frames (req.msg.records.take n) ++ (if torn then [.torn] else [])
          some { s with disk := s.disk.appendFrames s.wal frames }
      | _ => none
  | .insert =>
      match s.writer with
      | .appended req =>
          let memtable := req.writes.foldl MemTable.applyWrite s.engine.memtable
          some { s with engine := { s.engine with memtable := memtable }, writer := .inserted req }
      | _ => none
  | .take =>
      match s.writer with
      | .idle => if s.engine.memtable.isEmpty then none else some (s.take none)
      | .inserted req => if s.freezes then some (s.take (some req)) else none
      | _ => none
  | .openWal =>
      match s.writer with
      | .taken req map seq =>
          some { s with
            disk := s.disk.openWal s.walSeq
            wal := s.walSeq
            writer := .opened req map seq }
      | _ => none
  | .openFails created =>
      match s.writer with
      | .taken _ _ _ =>
          some { s with
            disk := if created then s.disk.openWal s.walSeq else s.disk
            writer := .idle }
      | _ => none
  | .push =>
      match s.writer with
      | .opened req map seq =>
          some { s with
            engine := { s.engine with frozen := s.engine.frozen ++ [(seq, map)] }
            writer := .pushed req }
      | _ => none
  | .reply =>
      match s.writer with
      | .inserted _ => if s.freezes then none else some { s with writer := .idle }
      | .pushed _ => some { s with writer := .idle }
      | _ => none
  | .pick =>
      match s.maint, s.engine.frozen with
      | .idle, f :: _ => some { s with maint := .picked f }
      | _, _ => none
  | .alloc =>
      match s.maint with
      | .picked entry =>
          let seq := s.engine.manifest.nextSegmentId
          some { s with
            engine :=
              { s.engine with manifest := { s.engine.manifest with nextSegmentId := seq + 1 } }
            maint := .allotted entry seq }
      | _ => none
  | .writeSegment =>
      match s.maint with
      | .allotted entry seq =>
          some { s with
            disk := s.disk.writeSegment seq entry.2.values
            maint := .written entry seq }
      | _ => none
  | .writeFails =>
      match s.maint with
      | .allotted _ _ => some { s with maint := .idle }
      | _ => none
  | .list now =>
      match s.maint with
      | .written entry seq =>
          let manifest := s.listing seq now entry.2.values
          some { s with
            engine := { s.engine with manifest := manifest }
            disk := s.disk.storeManifest manifest
            maint := .listed entry }
      | _ => none
  | .listFails now =>
      match s.maint with
      | .written entry seq =>
          some { s with
            engine := { s.engine with manifest := s.listing seq now entry.2.values }
            maint := .idle }
      | _ => none
  | .removeWal =>
      match s.maint with
      | .listed entry =>
          some { s with disk := s.disk.removeWal entry.1, maint := .unlogged entry }
      | _ => none
  | .removeFails =>
      match s.maint with
      | .listed entry => some { s with maint := .unlogged entry }
      | _ => none
  | .dropFrozen =>
      match s.maint with
      | .unlogged _ =>
          some { s with
            engine := { s.engine with frozen := s.engine.frozen.tail }
            maint := .idle }
      | _ => none

/-- What each move needs and does. -/
inductive Step : Actors ν → Move ν → Actors ν → Prop
  | append {s : Actors ν} {req : Request ν} (hwriter : s.writer = .idle) :
      Step s (.append req)
        { s with
          disk := s.disk.appendFrames s.wal (Wal.frames req.msg.records)
          writer := .appended req }
  | appendFails {s : Actors ν} {req : Request ν} {n : Nat} {torn : Bool}
      (hwriter : s.writer = .idle) :
      Step s (.appendFails req n torn)
        { s with
          disk := s.disk.appendFrames s.wal
            (Wal.frames (req.msg.records.take n) ++ (if torn then [.torn] else [])) }
  | insert {s : Actors ν} {req : Request ν} (hwriter : s.writer = .appended req) :
      Step s .insert
        { s with
          engine :=
            { s.engine with memtable := req.writes.foldl MemTable.applyWrite s.engine.memtable }
          writer := .inserted req }
  | takeIdle {s : Actors ν} (hwriter : s.writer = .idle)
      (hfull : s.engine.memtable.isEmpty = false) : Step s .take (s.take none)
  | takeFull {s : Actors ν} {req : Request ν} (hwriter : s.writer = .inserted req)
      (hfull : s.freezes = true) : Step s .take (s.take (some req))
  | openWal {s : Actors ν} {req : Option (Request ν)} {map : MemTable ν} {seq : Nat}
      (hwriter : s.writer = .taken req map seq) :
      Step s .openWal
        { s with
          disk := s.disk.openWal s.walSeq
          wal := s.walSeq
          writer := .opened req map seq }
  | openFails {s : Actors ν} {req : Option (Request ν)} {map : MemTable ν} {seq : Nat}
      {created : Bool} (hwriter : s.writer = .taken req map seq) :
      Step s (.openFails created)
        { s with
          disk := if created then s.disk.openWal s.walSeq else s.disk
          writer := .idle }
  | push {s : Actors ν} {req : Option (Request ν)} {map : MemTable ν} {seq : Nat}
      (hwriter : s.writer = .opened req map seq) :
      Step s .push
        { s with
          engine := { s.engine with frozen := s.engine.frozen ++ [(seq, map)] }
          writer := .pushed req }
  | replyInserted {s : Actors ν} {req : Request ν} (hwriter : s.writer = .inserted req)
      (hroom : s.freezes = false) : Step s .reply { s with writer := .idle }
  | replyPushed {s : Actors ν} {req : Option (Request ν)} (hwriter : s.writer = .pushed req) :
      Step s .reply { s with writer := .idle }
  | pick {s : Actors ν} {f : Nat × MemTable ν} {rest : List (Nat × MemTable ν)}
      (hmaint : s.maint = .idle) (hfrozen : s.engine.frozen = f :: rest) :
      Step s .pick { s with maint := .picked f }
  | alloc {s : Actors ν} {entry : Nat × MemTable ν} (hmaint : s.maint = .picked entry) :
      Step s .alloc
        { s with
          engine :=
            { s.engine with
              manifest :=
                { s.engine.manifest with
                  nextSegmentId := s.engine.manifest.nextSegmentId + 1 } }
          maint := .allotted entry s.engine.manifest.nextSegmentId }
  | writeSegment {s : Actors ν} {entry : Nat × MemTable ν} {seq : Nat}
      (hmaint : s.maint = .allotted entry seq) :
      Step s .writeSegment
        { s with disk := s.disk.writeSegment seq entry.2.values, maint := .written entry seq }
  | writeFails {s : Actors ν} {entry : Nat × MemTable ν} {seq : Nat}
      (hmaint : s.maint = .allotted entry seq) : Step s .writeFails { s with maint := .idle }
  | list {s : Actors ν} {entry : Nat × MemTable ν} {seq : Nat} {now : Int64}
      (hmaint : s.maint = .written entry seq) :
      Step s (.list now)
        { s with
          engine := { s.engine with manifest := s.listing seq now entry.2.values }
          disk := s.disk.storeManifest (s.listing seq now entry.2.values)
          maint := .listed entry }
  | listFails {s : Actors ν} {entry : Nat × MemTable ν} {seq : Nat} {now : Int64}
      (hmaint : s.maint = .written entry seq) :
      Step s (.listFails now)
        { s with
          engine := { s.engine with manifest := s.listing seq now entry.2.values }
          maint := .idle }
  | removeWal {s : Actors ν} {entry : Nat × MemTable ν} (hmaint : s.maint = .listed entry) :
      Step s .removeWal { s with disk := s.disk.removeWal entry.1, maint := .unlogged entry }
  | removeFails {s : Actors ν} {entry : Nat × MemTable ν} (hmaint : s.maint = .listed entry) :
      Step s .removeFails { s with maint := .unlogged entry }
  | dropFrozen {s : Actors ν} {entry : Nat × MemTable ν} (hmaint : s.maint = .unlogged entry) :
      Step s .dropFrozen
        { s with engine := { s.engine with frozen := s.engine.frozen.tail }, maint := .idle }

theorem step_cases {s s' : Actors ν} {a : Move ν} (h : s.step a = some s') : Step s a s' := by
  -- A move is possible in one phase of its actor only.
  cases a with
  | append req =>
      cases hwriter : s.writer <;> simp only [step, hwriter, reduceCtorEq, Option.some.injEq] at h
      exact h ▸ .append hwriter
  | appendFails req n torn =>
      cases hwriter : s.writer <;> simp only [step, hwriter, reduceCtorEq, Option.some.injEq] at h
      rw [← h, ← hwriter]
      exact .appendFails hwriter
  | insert =>
      cases hwriter : s.writer <;> simp only [step, hwriter, reduceCtorEq, Option.some.injEq] at h
      exact h ▸ .insert hwriter
  | take =>
      cases hwriter : s.writer <;>
        simp only [step, hwriter, reduceCtorEq, Option.ite_none_left_eq_some,
          Option.ite_none_right_eq_some, Option.some.injEq] at h
      · exact h.2 ▸ .takeIdle hwriter (by simpa using h.1)
      · exact h.2 ▸ .takeFull hwriter h.1
  | openWal =>
      cases hwriter : s.writer <;> simp only [step, hwriter, reduceCtorEq, Option.some.injEq] at h
      exact h ▸ .openWal hwriter
  | openFails created =>
      cases hwriter : s.writer <;> simp only [step, hwriter, reduceCtorEq, Option.some.injEq] at h
      exact h ▸ .openFails hwriter
  | push =>
      cases hwriter : s.writer <;> simp only [step, hwriter, reduceCtorEq, Option.some.injEq] at h
      exact h ▸ .push hwriter
  | reply =>
      cases hwriter : s.writer <;>
        simp only [step, hwriter, reduceCtorEq, Option.ite_none_left_eq_some,
          Option.some.injEq] at h
      · exact h.2 ▸ .replyInserted hwriter (by simpa using h.1)
      · exact h ▸ .replyPushed hwriter
  | pick =>
      cases hmaint : s.maint <;> cases hfrozen : s.engine.frozen <;>
        simp only [step, hmaint, hfrozen, reduceCtorEq, Option.some.injEq] at h
      exact h ▸ .pick hmaint hfrozen
  | alloc =>
      cases hmaint : s.maint <;> simp only [step, hmaint, reduceCtorEq, Option.some.injEq] at h
      exact h ▸ .alloc hmaint
  | writeSegment =>
      cases hmaint : s.maint <;> simp only [step, hmaint, reduceCtorEq, Option.some.injEq] at h
      exact h ▸ .writeSegment hmaint
  | writeFails =>
      cases hmaint : s.maint <;> simp only [step, hmaint, reduceCtorEq, Option.some.injEq] at h
      exact h ▸ .writeFails hmaint
  | list now =>
      cases hmaint : s.maint <;> simp only [step, hmaint, reduceCtorEq, Option.some.injEq] at h
      exact h ▸ .list hmaint
  | listFails now =>
      cases hmaint : s.maint <;> simp only [step, hmaint, reduceCtorEq, Option.some.injEq] at h
      exact h ▸ .listFails hmaint
  | removeWal =>
      cases hmaint : s.maint <;> simp only [step, hmaint, reduceCtorEq, Option.some.injEq] at h
      exact h ▸ .removeWal hmaint
  | removeFails =>
      cases hmaint : s.maint <;> simp only [step, hmaint, reduceCtorEq, Option.some.injEq] at h
      exact h ▸ .removeFails hmaint
  | dropFrozen =>
      cases hmaint : s.maint <;> simp only [step, hmaint, reduceCtorEq, Option.some.injEq] at h
      exact h ▸ .dropFrozen hmaint

/-- Only an append changes the message the writer is about to insert. -/
theorem appended_of_step {s s' : Actors ν} {a : Move ν} (hstep : s.step a = some s')
    {req : Request ν} (hreq : s'.writer = .appended req) :
    s.writer = .appended req ∨ a = .append req := by
  cases step_cases hstep with
  | append hwriter =>
      cases hreq
      exact .inr rfl
  | insert _ => cases hreq
  | takeIdle _ _ => cases hreq
  | takeFull _ _ => cases hreq
  | openWal _ => cases hreq
  | openFails _ => cases hreq
  | push _ => cases hreq
  | replyInserted _ _ => cases hreq
  | replyPushed _ => cases hreq
  | _ => exact .inl hreq

end Step

end Actors

/-! ## The clients' side -/

/-- One call, as far as it got. -/
structure Call (ν : Type) where
  /-- The writes whose frames reached the log. -/
  writes : List (Write ν)
  /-- The log file they went to. -/
  file : Nat
  /-- The memtable they were inserted into, by number. -/
  epoch : Option Nat := none
  acked : Bool := false

/-- The actors and what the clients know; calls are listed newest first. -/
structure Traced (ν : Type) where
  now : Actors ν
  calls : List (Call ν) := []
  /-- The number of the live memtable. -/
  epoch : Nat := 0
  /-- The numbers of the frozen memtables, oldest first. -/
  queue : List Nat := []
  /-- The numbers of the memtables that are flushed and whose log was to be removed. -/
  flushed : List Nat := []

namespace Traced

/-- Change the latest call. -/
def amend (f : Call ν → Call ν) : List (Call ν) → List (Call ν)
  | [] => []
  | c :: cs => f c :: cs

/-- What a move means to the clients. -/
def note (t : Traced ν) : Move ν → Traced ν
  | .append req => { t with calls := { writes := req.writes, file := t.now.wal } :: t.calls }
  | .appendFails req n _ =>
      { t with calls := { writes := req.writes.take n, file := t.now.wal } :: t.calls }
  | .insert => { t with calls := amend (fun c => { c with epoch := some t.epoch }) t.calls }
  | .take => { t with epoch := t.epoch + 1 }
  | .push => { t with queue := t.queue ++ [t.epoch - 1] }
  | .reply =>
      match t.now.writer with
      | .pushed none => t
      | _ => { t with calls := amend (fun c => { c with acked := true }) t.calls }
  | .removeWal => { t with flushed := t.queue.take 1 ++ t.flushed }
  | .removeFails => { t with flushed := t.queue.take 1 ++ t.flushed }
  | .dropFrozen => { t with queue := t.queue.tail }
  | _ => t

theorem note_reply_inserted {t : Traced ν} {req : Request ν} (h : t.now.writer = .inserted req) :
    t.note .reply = { t with calls := amend (fun c => { c with acked := true }) t.calls } := by
  simp [note, h]

theorem note_reply_pushed {t : Traced ν} {req : Request ν} (h : t.now.writer = .pushed (some req)) :
    t.note .reply = { t with calls := amend (fun c => { c with acked := true }) t.calls } := by
  simp [note, h]

/-- A freeze without a message acknowledges nothing. -/
theorem note_reply_idle {t : Traced ν} (h : t.now.writer = .pushed none) : t.note .reply = t := by
  simp [note, h]

section Step

variable [Unicode] [Numeral ν] [SegmentFile ν]

def step (t : Traced ν) (a : Move ν) : Option (Traced ν) :=
  (t.now.step a).map (fun s => { t.note a with now := s })

theorem step_cases {t t' : Traced ν} {a : Move ν} (h : t.step a = some t') :
    ∃ s, Actors.Step t.now a s ∧ t' = { t.note a with now := s } := by
  obtain ⟨s, hs, rfl⟩ := Option.map_eq_some_iff.1 h
  exact ⟨s, Actors.step_cases hs, rfl⟩

end Step

/-- The state when `open` returns: nothing in memory, a new log. -/
def opened (config : Config) (manifest : Manifest ν) (disk : Disk ν) (seq : Nat) : Traced ν where
  now :=
    { engine := { config := config, manifest := manifest }
      disk := disk.openWal seq
      wal := seq
      walSeq := seq }

end Traced

end Girder
