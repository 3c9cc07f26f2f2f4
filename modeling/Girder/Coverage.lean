import Girder.Compaction
import Girder.Traces

/-!
# Coverage — which log covers which memtable

A frozen memtable carries the number of the log that covers it, and flushing it deletes that log.
The number is `state.wal_seq`, the file is the open `state.wal`; `freeze` advances the first before
it opens the second, so after a failed `Wal::open` the two part.  From then on records go to the old
file under the new number: flushing them deletes a log that never held them and leaves behind the one
that does, whose records the next open replays over whatever has been flushed since.

`remove_file` may fail as well, and its error is dropped: the log then stays behind, and the next open
replays it over whatever has been flushed since.

Memtables and logs are numbered alike (`Rotation`), the logs on disk are a range that starts at the
oldest memtable not yet dropped, and the ones that stayed behind (`Files`), and a log holds what the
calls appended to it.  `wal_covers_iff`: every memtable is covered by the log it is numbered with,
and no surviving log holds a version older than a flushed one, exactly when the logs that `open` left
replay nothing, nothing is inserted after a failed rotation, and no log that stays behind replays a
key of the memtable that is flushed.
-/

namespace Girder

open Lib

variable {ν : Type}

/-- The records of the whole frames of a log. -/
def Wal.wholes (frames : List (Frame ν)) : List (Record ν) :=
  frames.filterMap (fun f => match f with
    | .whole r => some r
    | .torn => none)

/-- The records stored in a log file. -/
def Disk.recordsAt (d : Disk ν) (seq : Nat) : List (Record ν) :=
  Wal.wholes (((d.wals.find? (fun w => decide (w.1 = seq))).map Prod.snd).getD [])

/-- The log file holds the writes, in order. -/
def Disk.Logs (d : Disk ν) (seq : Nat) (ws : List (Write ν)) : Prop :=
  (ws.map Write.record).Sublist (d.recordsAt seq)

namespace Actors

variable [Unicode] [Numeral ν]

/-- Each memtable is made of writes stored in the log it is numbered with.  The oldest frozen one
needs no log between its removal and its own. -/
structure Covered (s : Actors ν) : Prop where
  memtable : ∃ ws, s.engine.memtable = memtableOf ws ∧ s.disk.Logs s.walSeq ws
  frozen {f : Nat × MemTable ν} : f ∈ s.engine.frozen →
    s.maint = .unlogged f ∨ ∃ ws, f.2 = memtableOf ws ∧ s.disk.Logs f.1 ws

end Actors

namespace Traced

/-- No call that wrote the key to this log or a later one has been flushed. -/
def Unflushed (t : Traced ν) (file : Nat) (key : String) : Prop :=
  ∀ c ∈ t.calls, file ≤ c.file → (∃ v ∈ c.writes, v.key = key) → ∀ g ∈ c.epoch, g ∉ t.flushed

/-- Whatever a surviving log would replay was logged by a call since the store was opened, which
flushes what it finds in the logs, and neither that version of the key nor a newer one has been
flushed since. -/
def ReplaysFresh [FrameBody ν] (t : Traced ν) : Prop :=
  ∀ w ∈ t.now.disk.wals, ∀ r ∈ Wal.replay w.2,
    (∃ c ∈ t.calls, c.file = w.1 ∧ ∃ v ∈ c.writes, v.record = r) ∧ t.Unflushed w.1 r.key

/-- Records are inserted only while the open log is the one numbered next. -/
def logsHere (t : Traced ν) : Move ν → Bool
  | .insert =>
      match t.now.writer with
      | .appended req => req.writes.isEmpty || decide (t.now.wal = t.now.walSeq)
      | _ => true
  | _ => true

/-- No log below a number replays a key of the memtable. -/
def clearBelow [FrameBody ν] (t : Traced ν) (bound : Nat) (map : MemTable ν) : Bool :=
  t.now.disk.wals.all (fun w => decide (bound ≤ w.1) ||
    (Wal.replay w.2).all (fun r => (map.get r.key).isNone))

/-- When a memtable is flushed, no log that stays behind replays one of its keys: none of an earlier
memtable whose removal failed, nor its own if removing that fails. -/
def leavesClear [FrameBody ν] (t : Traced ν) (a : Move ν) : Bool :=
  match a, t.now.maint with
  | .removeWal, .listed entry => t.clearBelow entry.1 entry.2
  | .removeFails, .listed entry => t.clearBelow (entry.1 + 1) entry.2
  | _, _ => true

theorem clearBelow_iff [FrameBody ν] {t : Traced ν} {bound : Nat} {map : MemTable ν} :
    t.clearBelow bound map = true ↔
      ∀ w ∈ t.now.disk.wals, w.1 < bound → ∀ r ∈ Wal.replay w.2, map.get r.key = none := by
  simp [clearBelow, List.all_eq_true, or_iff_not_imp_left]

/-! ## Numbers -/

/-- The log of the oldest frozen memtable is removed. -/
def Unlogged (t : Traced ν) : Prop :=
  match t.now.maint with
  | .unlogged _ => True
  | _ => False

/-- Where the writer stands between two logs; `m` memtables are flushed and dropped. -/
def Rotation (base m : Nat) (t : Traced ν) : Prop :=
  match t.now.writer with
  | .taken _ _ seq =>
      t.now.wal = seq ∧ seq + 1 = base + t.epoch ∧ m + t.queue.length + 1 = t.epoch ∧
        t.now.engine.memtable.isEmpty = true
  | .opened _ _ seq =>
      t.now.wal = seq + 1 ∧ seq + 1 = base + t.epoch ∧ m + t.queue.length + 1 = t.epoch
  | _ =>
      t.now.wal = base + t.epoch ∧ m + t.queue.length = t.epoch ∨
        -- A rotation failed and its memtable is lost.
        t.now.wal + 1 = base + t.epoch ∧ m + t.queue.length + 1 = t.epoch ∧
          t.now.engine.memtable.isEmpty = true

/-- The writes of the calls that went to a log, oldest first. -/
def loggedTo (t : Traced ν) (file : Nat) : List (Write ν) :=
  (t.calls.reverse.filter (fun c => decide (c.file = file))).flatMap Call.writes

/-- A log that stayed behind. -/
def Kept [FrameBody ν] (t : Traced ν) (w : Nat × List (Frame ν)) : Prop :=
  w.1 < t.now.wal ∧ ∀ r ∈ Wal.replay w.2, t.Unflushed w.1 r.key

/-- Which logs there are and what they hold. -/
structure Files [FrameBody ν] (base m : Nat) (t : Traced ν) : Prop where
  nodup : (t.now.disk.wals.map Prod.fst).Nodup
  leftover {w : Nat × List (Frame ν)} : w ∈ t.now.disk.wals → w.1 < base → Wal.replay w.2 = []
  logged {w : Nat × List (Frame ν)} : w ∈ t.now.disk.wals → base ≤ w.1 →
    Wal.wholes w.2 = (t.loggedTo w.1).map Write.record
  floor {w : Nat × List (Frame ν)} : w ∈ t.now.disk.wals → base ≤ w.1 →
    base + m ≤ w.1 ∧ (t.Unlogged → base + m < w.1) ∨ t.Kept w
  span {f : Nat} : base + m ≤ f → f ≤ t.now.wal →
    f ∈ t.now.disk.wals.map Prod.fst ∨ f = base + m ∧ t.Unlogged

/-- Which call went to which log. -/
structure Filed (base : Nat) (t : Traced ν) : Prop where
  atBase : base ≤ t.now.wal
  file {c : Call ν} : c ∈ t.calls → c.writes ≠ [] → ∀ g ∈ c.epoch, c.file = base + g
  sorted : (t.calls.map Call.file).Pairwise (· ≥ ·)
  bound {c : Call ν} : c ∈ t.calls → c.file ≤ t.now.wal
  latest {req : Request ν} : t.now.writer = .appended req →
    ∃ c cs, t.calls = c :: cs ∧ c.file = t.now.wal

/-- Memtables and logs are numbered alike, and memtables are flushed in order. -/
structure Numbers (base m : Nat) (t : Traced ν) : Prop where
  walSeq : t.now.walSeq = base + t.epoch
  queue : t.queue = List.range' m t.queue.length
  frozen : t.now.engine.frozen.map Prod.fst = t.queue.map (fun g => base + g)
  flushed : ∀ g ∈ t.flushed, g < m ∨ g = m ∧ t.Unlogged

/-- What the runs keep that insert nothing after a failed rotation. -/
structure Logging [Unicode] [Numeral ν] [FrameBody ν] (base m : Nat) (t : Traced ν) : Prop where
  tracks : t.Tracks
  numbers : t.Numbers base m
  rotation : t.Rotation base m
  files : t.Files base m
  filed : t.Filed base

section Logs

variable {t : Traced ν}

/-- The oldest memtable that is not dropped, and the live log. -/
theorem Rotation.wal_ge {base m : Nat} (h : t.Rotation base m) :
    base + m + t.queue.length ≤ t.now.wal := by
  unfold Rotation at h
  split at h <;> omega

theorem mem_loggedTo {file : Nat} {v : Write ν} :
    v ∈ t.loggedTo file ↔ ∃ c ∈ t.calls, c.file = file ∧ v ∈ c.writes := by
  simp [loggedTo, List.mem_flatMap, and_assoc]

/-- A memtable's writes are among those of the log it is numbered with. -/
theorem Filed.writesOf_sublist {base : Nat} (h : t.Filed base) (g : Nat) :
    (t.writesOf g).Sublist (t.loggedTo (base + g)) := by
  have hgen : ∀ calls : List (Call ν), (∀ c ∈ calls, c ∈ t.calls) →
      ((calls.filter (fun c => decide (c.epoch = some g))).flatMap Call.writes).Sublist
        ((calls.filter (fun c => decide (c.file = base + g))).flatMap Call.writes) := by
    intro calls
    induction calls with
    | nil => exact fun _ => List.Sublist.refl _
    | cons c calls ih =>
        intro hcalls
        have hrest := ih (fun c' hc' => hcalls c' (by simp [hc']))
        by_cases hepoch : c.epoch = some g
        · by_cases hwrites : c.writes = []
          · by_cases hfile : c.file = base + g <;>
              simp [hepoch, hfile, hwrites, hrest]
          · have hfile := h.file (hcalls c (by simp)) hwrites g hepoch
            simpa [hepoch, hfile] using hrest
        · by_cases hfile : c.file = base + g
          · simpa [hepoch, hfile] using hrest.trans (List.sublist_append_right _ _)
          · simpa [hepoch, hfile] using hrest
  exact hgen _ (fun c hc => List.mem_reverse.1 hc)

/-- What went to a log depends on the calls' writes and files only. -/
theorem loggedTo_congr {t' : Traced ν}
    (h : t'.calls.map (fun c => (c.writes, c.file, c.epoch)) =
      t.calls.map (fun c => (c.writes, c.file, c.epoch))) (file : Nat) :
    t'.loggedTo file = t.loggedTo file := by
  have heq : ∀ calls : List (Call ν),
      (calls.reverse.filter (fun c => decide (c.file = file))).flatMap Call.writes =
        (((calls.map (fun c => (c.writes, c.file, c.epoch))).reverse.filter
          (fun p => decide (p.2.1 = file))).flatMap Prod.fst) := by
    intro calls
    rw [← List.map_reverse, List.filter_map, List.flatMap_map]
    rfl
  rw [loggedTo, loggedTo, heq, heq, h]

theorem map_amend_acked (calls : List (Call ν)) :
    (amend (fun c => { c with acked := true }) calls).map (fun c => (c.writes, c.file, c.epoch)) =
      calls.map (fun c => (c.writes, c.file, c.epoch)) := by
  cases calls <;> rfl

/-- A call has its counterpart with the same writes, file and epoch. -/
theorem exists_call_of_map_eq {t' : Traced ν}
    (h : t'.calls.map (fun c => (c.writes, c.file, c.epoch)) =
      t.calls.map (fun c => (c.writes, c.file, c.epoch))) {c : Call ν} (hc : c ∈ t'.calls) :
    ∃ c₀ ∈ t.calls, c.writes = c₀.writes ∧ c.file = c₀.file ∧ c.epoch = c₀.epoch := by
  have hin := List.mem_map_of_mem (f := fun c : Call ν => (c.writes, c.file, c.epoch)) hc
  rw [h] at hin
  obtain ⟨c₀, hc₀, heq⟩ := List.mem_map.1 hin
  obtain ⟨hw, hf, he⟩ := by simpa only [Prod.mk.injEq] using heq
  exact ⟨c₀, hc₀, hw.symm, hf.symm, he.symm⟩

/-- A log stays clear while the calls get no epoch that is flushed. -/
theorem Kept.of_calls [FrameBody ν] {t' : Traced ν} {w : Nat × List (Frame ν)} (h : t.Kept w)
    (hwal : t.now.wal ≤ t'.now.wal) (hflushed : t'.flushed = t.flushed)
    (hcalls : ∀ c ∈ t'.calls, ∀ g ∈ c.epoch, g ∉ t.flushed ∨
      ∃ c₀ ∈ t.calls, c.writes = c₀.writes ∧ c.file = c₀.file ∧ g ∈ c₀.epoch) : t'.Kept w := by
  refine ⟨h.1.trans_le hwal, fun r hr c hc hle hkey g hg => ?_⟩
  rw [hflushed]
  rcases hcalls c hc g hg with hnot | ⟨c₀, hc₀, hw, hf, hg₀⟩
  · exact hnot
  · exact h.2 r hr c₀ hc₀ (hf ▸ hle) (hw ▸ hkey) g hg₀

theorem Filed.congr {base : Nat} (h : t.Filed base) {t' : Traced ν}
    (hcalls : t'.calls.map (fun c => (c.writes, c.file, c.epoch)) =
      t.calls.map (fun c => (c.writes, c.file, c.epoch)))
    (hwal : t'.now.wal = t.now.wal)
    (hwriter : ∀ req, t'.now.writer = .appended req → t.now.writer = .appended req) :
    t'.Filed base := by
  have hmem := fun c (hc : c ∈ t'.calls) => exists_call_of_map_eq hcalls hc
  refine ⟨hwal ▸ h.atBase, fun hc hne g hg => ?_, ?_, fun hc => ?_, fun {req} hreq => ?_⟩
  · obtain ⟨c₀, hc₀, hw, hf, he⟩ := hmem _ hc
    rw [hf]
    exact h.file hc₀ (hw ▸ hne) g (he ▸ hg)
  · have hfiles : t'.calls.map Call.file = t.calls.map Call.file := by
      have hproj := congrArg (List.map (fun p : List (Write ν) × Nat × Option Nat => p.2.1)) hcalls
      simpa only [List.map_map, Function.comp_def] using hproj
    rw [hfiles]
    exact h.sorted
  · obtain ⟨c₀, hc₀, -, hf, -⟩ := hmem _ hc
    rw [hf, hwal]
    exact h.bound hc₀
  · obtain ⟨c₀, cs₀, hcalls₀, hfile⟩ := h.latest (hwriter req hreq)
    rw [hcalls₀] at hcalls
    cases hcs : t'.calls with
    | nil => simp [hcs] at hcalls
    | cons c cs =>
        rw [hcs, List.map_cons, List.map_cons, List.cons.injEq, Prod.mk.injEq, Prod.mk.injEq]
          at hcalls
        exact ⟨c, cs, rfl, by rw [hcalls.1.2.1, hfile, hwal]⟩

theorem Wal.wholes_frames (records : List (Record ν)) :
    Wal.wholes (Wal.frames records) = records := by
  rw [Wal.wholes, Wal.frames, List.filterMap_map]
  exact List.filterMap_some

theorem Wal.replay_sublist [FrameBody ν] (frames : List (Frame ν)) :
    (Wal.replay frames).Sublist (Wal.wholes frames) := by
  induction frames with
  | nil => exact List.Sublist.refl _
  | cons f frames ih =>
      cases f with
      | torn => exact List.nil_sublist _
      | whole r =>
          rw [Wal.replay]
          split
          · exact ih.cons_cons r
          · exact List.nil_sublist _

end Logs

section Main

variable [Unicode] [Numeral ν] [FrameBody ν] {t : Traced ν} {base m : Nat}

omit [Unicode] [Numeral ν] in
/-- A log on disk holds what was logged to it. -/
theorem Files.recordsAt (h : t.Files base m) {file : Nat} (hbase : base ≤ file)
    (hfile : file ∈ t.now.disk.wals.map Prod.fst) :
    t.now.disk.recordsAt file = (t.loggedTo file).map Write.record := by
  obtain ⟨w, hw, rfl⟩ := List.mem_map.1 hfile
  have hfind : t.now.disk.wals.find? (fun w' => decide (w'.1 = w.1)) = some w := by
    have hinj := List.inj_on_of_nodup_map h.nodup
    cases hf : t.now.disk.wals.find? (fun w' => decide (w'.1 = w.1)) with
    | none => simpa using List.find?_eq_none.1 hf w hw
    | some w' =>
        have hkey := List.find?_some hf
        rw [hinj (List.mem_of_find?_eq_some hf) hw (of_decide_eq_true hkey)]
  rw [Disk.recordsAt, hfind]
  exact h.logged hw hbase

namespace Logging

/-- The log a memtable is numbered with holds its writes. -/
theorem logs (h : t.Logging base m) {g : Nat}
    (hfile : base + g ∈ t.now.disk.wals.map Prod.fst) :
    t.now.disk.Logs (base + g) (t.writesOf g) := by
  rw [Disk.Logs, h.files.recordsAt (Nat.le_add_right _ _) hfile]
  exact (h.filed.writesOf_sublist g).map _

/-- Frozen memtables with their logs. -/
theorem frozen_eq (h : t.Logging base m) :
    t.now.engine.frozen = t.queue.map (fun g => (base + g, memtableOf (t.writesOf g))) := by
  rw [List.zip_of_prod h.numbers.frozen h.tracks.frozen, List.zip_map']

/-- The log that is removed is that of the oldest frozen memtable. -/
theorem unlogged_head (h : t.Logging base m) (hun : t.Unlogged) :
    0 < t.queue.length ∧
      t.now.maint = .unlogged (base + m, memtableOf (t.writesOf m)) := by
  have hmaint := h.tracks.maint
  unfold Unlogged at hun
  split at hun
  · rename_i entry hphase
    simp only [MaintOk, hphase] at hmaint
    have hhead := hmaint.1
    rw [h.frozen_eq, h.numbers.queue] at hhead
    cases hlen : t.queue.length with
    | zero => simp [hlen] at hhead
    | succ n =>
        rw [hlen, List.range'_succ, List.map_cons, List.head?_cons] at hhead
        exact ⟨Nat.succ_pos n, by rw [hphase, ← Option.some.inj hhead]⟩
  · cases hun

theorem covered (h : t.Logging base m) : t.now.Covered where
  memtable := by
    have hrotation := h.rotation
    have hlive : t.now.wal = base + t.epoch ∨ t.now.engine.memtable.isEmpty = true := by
      unfold Rotation at hrotation
      split at hrotation
      · exact .inr hrotation.2.2.2
      · exact .inl (hrotation.1.trans hrotation.2.1)
      · exact hrotation.imp And.left (fun hlost => hlost.2.2)
    refine ⟨t.writesOf t.epoch, h.tracks.current, ?_⟩
    rw [h.numbers.walSeq]
    rcases hlive with hwal | hempty
    · -- The live log is on disk.
      refine h.logs ?_
      have hge := hrotation.wal_ge
      rcases h.files.span (f := base + t.epoch) (by omega) (by omega) with hin | ⟨heq, hun⟩
      · exact hin
      · have hpos := (h.unlogged_head hun).1
        omega
    · rw [h.tracks.current] at hempty
      rw [eq_nil_of_isEmpty hempty]
      exact List.nil_sublist _
  frozen {f} hf := by
    rw [h.frozen_eq] at hf
    obtain ⟨g, hg, rfl⟩ := List.mem_map.1 hf
    have hrange := hg
    rw [h.numbers.queue, List.mem_range'_1] at hrange
    have hge := h.rotation.wal_ge
    rcases h.files.span (f := base + g) (by omega) (by omega) with hin | ⟨heq, hun⟩
    · exact .inr ⟨_, rfl, h.logs hin⟩
    · -- Its log is removed.
      have hgm : g = m := by omega
      rw [hgm]
      exact .inl (h.unlogged_head hun).2

theorem replaysFresh (h : t.Logging base m) : t.ReplaysFresh := by
  intro w hw r hr
  have hbase : base ≤ w.1 := by
    by_contra hlt
    rw [h.files.leftover hw (by omega)] at hr
    cases hr
  have hmem := (Wal.replay_sublist w.2).mem hr
  rw [h.files.logged hw hbase] at hmem
  obtain ⟨v, hv, rfl⟩ := List.mem_map.1 hmem
  obtain ⟨c, hc, hfile, hvc⟩ := mem_loggedTo.1 hv
  refine ⟨⟨c, hc, hfile, v, hvc, rfl⟩, ?_⟩
  rcases h.files.floor hw hbase with ⟨hfloor, hun⟩ | hkept
  · -- A flushed call went to a log below the ones that did not stay behind.
    rintro c' hc' hle ⟨v', hv', -⟩ g hg hflushed
    have hfile' := h.filed.file hc' (List.ne_nil_of_mem hv') g hg
    rcases h.numbers.flushed g hflushed with hlt | ⟨rfl, hunlogged⟩
    · omega
    · have hfloor' := hun hunlogged
      omega
  · exact hkept.2 _ hr

/-- A move that leaves the logs, the numbers and what each call wrote where alone. -/
theorem congr (h : t.Logging base m) {t' : Traced ν} (htracks : t'.Tracks)
    (hrotation : t'.Rotation base m)
    (hcalls : t'.calls.map (fun c => (c.writes, c.file, c.epoch)) =
      t.calls.map (fun c => (c.writes, c.file, c.epoch)))
    (hepoch : t'.epoch = t.epoch) (hqueue : t'.queue = t.queue) (hflushed : t'.flushed = t.flushed)
    (hwriter : ∀ req, t'.now.writer = .appended req → t.now.writer = .appended req)
    (hwal : t'.now.wal = t.now.wal) (hwalSeq : t'.now.walSeq = t.now.walSeq)
    (hfrozen : t'.now.engine.frozen = t.now.engine.frozen)
    (hwals : t'.now.disk.wals = t.now.disk.wals) (hun : t'.Unlogged ↔ t.Unlogged) :
    t'.Logging base m where
  tracks := htracks
  numbers :=
    { walSeq := by rw [hwalSeq, hepoch, h.numbers.walSeq]
      queue := by
        rw [hqueue]
        exact h.numbers.queue
      frozen := by rw [hfrozen, hqueue, h.numbers.frozen]
      flushed := by
        rw [hflushed, hun]
        exact h.numbers.flushed }
  rotation := hrotation
  files := by
    have hlogged : t'.loggedTo = t.loggedTo := funext (loggedTo_congr hcalls)
    refine ⟨?_, ?_, ?_, ?_, ?_⟩
    · rw [hwals]
      exact h.files.nodup
    · rw [hwals]
      exact h.files.leftover
    · rw [hwals, hlogged]
      exact h.files.logged
    · intro w hw hbase
      rw [hwals] at hw
      rw [hun]
      refine (h.files.floor hw hbase).imp_right (fun hkept => ?_)
      refine hkept.of_calls hwal.ge hflushed (fun c hc g hg => .inr ?_)
      obtain ⟨c₀, hc₀, hw₀, hf₀, he₀⟩ := exists_call_of_map_eq hcalls hc
      exact ⟨c₀, hc₀, hw₀, hf₀, he₀ ▸ hg⟩
    · rw [hwals, hwal, hun]
      exact h.files.span
  filed := h.filed.congr hcalls hwal hwriter

/-- Frames are appended to the open log. -/
theorem appended (h : t.Logging base m) {c : Call ν} (hfile : c.file = t.now.wal)
    (hepoch : c.epoch = none) {frames : List (Frame ν)}
    (hframes : Wal.wholes frames = c.writes.map Write.record) {s : Actors ν}
    (htracks : Traced.Tracks { t with calls := c :: t.calls, now := s })
    (hrotation : Traced.Rotation base m { t with calls := c :: t.calls, now := s })
    (hwal : s.wal = t.now.wal) (hwalSeq : s.walSeq = t.now.walSeq)
    (hfrozen : s.engine.frozen = t.now.engine.frozen) (hmaint : s.maint = t.now.maint)
    (hdisk : s.disk = t.now.disk.appendFrames t.now.wal frames) :
    Traced.Logging base m { t with calls := c :: t.calls, now := s } := by
  have hun : Traced.Unlogged { t with calls := c :: t.calls, now := s } ↔ t.Unlogged := by
    simp only [Traced.Unlogged, hmaint]
  have hnames : s.disk.wals.map Prod.fst = t.now.disk.wals.map Prod.fst := by
    rw [hdisk, Disk.appendFrames, List.map_map]
    refine List.map_congr_left (fun w _ => ?_)
    show (if w.1 = t.now.wal then (w.1, w.2 ++ frames) else w).1 = w.1
    split <;> rfl
  -- A log on disk is an old one, with the frames added if it is the open one.
  have hold : ∀ w ∈ s.disk.wals, ∃ w₀ ∈ t.now.disk.wals,
      w = if w₀.1 = t.now.wal then (w₀.1, w₀.2 ++ frames) else w₀ := by
    intro w hw
    rw [hdisk] at hw
    obtain ⟨w₀, hw₀, rfl⟩ := List.mem_map.1 hw
    exact ⟨w₀, hw₀, rfl⟩
  refine ⟨htracks, ⟨?_, h.numbers.queue, ?_, ?_⟩, hrotation, ⟨?_, ?_, ?_, ?_, ?_⟩, ?_⟩
  · exact hwalSeq.trans h.numbers.walSeq
  · exact (congrArg (List.map Prod.fst) hfrozen).trans h.numbers.frozen
  · rw [hun]
    exact h.numbers.flushed
  · exact hnames ▸ h.files.nodup
  · intro w hw hlt
    obtain ⟨w₀, hw₀, rfl⟩ := hold w hw
    have hbase := h.filed.atBase
    split at hlt
    · exact absurd hlt (by simp only; omega)
    · rename_i hne
      rw [if_neg hne]
      exact h.files.leftover hw₀ hlt
  · intro w hw hbase
    obtain ⟨w₀, hw₀, rfl⟩ := hold w hw
    by_cases heq : w₀.1 = t.now.wal
    · rw [if_pos heq] at hbase ⊢
      have hlogged := h.files.logged hw₀ hbase
      have hsame : c.file = w₀.1 := hfile.trans heq.symm
      simp only [Wal.wholes] at hlogged hframes ⊢
      rw [List.filterMap_append, hlogged, hframes]
      simp [loggedTo, hsame]
    · rw [if_neg heq] at hbase ⊢
      have hother : c.file ≠ w₀.1 := fun hc => heq (hc.symm.trans hfile)
      rw [h.files.logged hw₀ hbase]
      simp [loggedTo, hother]
  · intro w hw hbase
    obtain ⟨w₀, hw₀, rfl⟩ := hold w hw
    have hname : (if w₀.1 = t.now.wal then (w₀.1, w₀.2 ++ frames) else w₀).1 = w₀.1 := by
      split <;> rfl
    rw [hun]
    rw [hname] at hbase
    rw [hname]
    refine (h.files.floor hw₀ hbase).imp_right (fun hkept => ?_)
    -- The open log did not stay behind, and the call has no epoch yet.
    rw [if_neg hkept.1.ne]
    refine hkept.of_calls hwal.ge rfl (fun c' hc' g hg => ?_)
    rcases List.mem_cons.1 hc' with rfl | hc'
    · simp [hepoch] at hg
    · exact .inr ⟨c', hc', rfl, rfl, hg⟩
  · intro f hlo hhi
    rw [hun]
    show f ∈ s.disk.wals.map Prod.fst ∨ _
    rw [hnames]
    exact h.files.span hlo (hwal ▸ hhi)
  · refine ⟨hwal ▸ h.filed.atBase, ?_, ?_, ?_, fun _ => ⟨c, t.calls, rfl, hfile.trans hwal.symm⟩⟩
    · intro c' hc' hne g hg
      rcases List.mem_cons.1 hc' with rfl | hc'
      · simp [hepoch] at hg
      · exact h.filed.file hc' hne g hg
    · refine List.pairwise_cons.2 ⟨fun f hf => ?_, h.filed.sorted⟩
      obtain ⟨c', hc', rfl⟩ := List.mem_map.1 hf
      rw [hfile]
      exact h.filed.bound hc'
    · intro c' hc'
      show c'.file ≤ s.wal
      rw [hwal]
      rcases List.mem_cons.1 hc' with rfl | hc'
      · exact hfile.le
      · exact h.filed.bound hc'

/-- The message is inserted into the live memtable. -/
theorem insert (h : t.Logging base m) {req : Request ν} (hwriter : t.now.writer = .appended req)
    (hhere : req.writes = [] ∨ t.now.wal = t.now.walSeq)
    (htracks : Traced.Tracks
      { t with
        calls := amend (fun c => { c with epoch := some t.epoch }) t.calls
        now :=
          { t.now with
            engine :=
              { t.now.engine with
                memtable := req.writes.foldl MemTable.applyWrite t.now.engine.memtable }
            writer := .inserted req } }) :
    Traced.Logging base m
      { t with
        calls := amend (fun c => { c with epoch := some t.epoch }) t.calls
        now :=
          { t.now with
            engine :=
              { t.now.engine with
                memtable := req.writes.foldl MemTable.applyWrite t.now.engine.memtable }
            writer := .inserted req } } := by
  obtain ⟨c, cs, hcalls, hfile⟩ := h.filed.latest hwriter
  obtain ⟨c', cs', hcalls', hwrites, -⟩ : ∃ c cs, t.calls = c :: cs ∧ c.writes = req.writes ∧
      c.epoch = none := by
    have hlatest := h.tracks.latest
    simpa only [LatestOk, hwriter] using hlatest
  obtain ⟨rfl, rfl⟩ := List.cons.inj (hcalls'.symm.trans hcalls)
  have hamend : amend (fun c => { c with epoch := some t.epoch }) t.calls =
      { c' with epoch := some t.epoch } :: cs' := by
    rw [hcalls]
    rfl
  -- The call only learns its epoch, so the logs hold what they held.
  have hlogged : ∀ t' : Traced ν, t'.calls = { c' with epoch := some t.epoch } :: cs' →
      ∀ f, t'.loggedTo f = t.loggedTo f := by
    intro t' ht' f
    by_cases hf : c'.file = f <;> simp [loggedTo, ht', hcalls, hf]
  have hmem : ∀ c ∈ { c' with epoch := some t.epoch } :: cs',
      c = { c' with epoch := some t.epoch } ∨ c ∈ t.calls := by
    intro c hc
    rcases List.mem_cons.1 hc with rfl | hc
    · exact .inl rfl
    · exact .inr (by rw [hcalls]; exact List.mem_cons_of_mem _ hc)
  rw [hamend] at htracks ⊢
  refine ⟨htracks, ⟨h.numbers.walSeq, h.numbers.queue, h.numbers.frozen, h.numbers.flushed⟩, ?_,
    ⟨h.files.nodup, h.files.leftover, ?_, ?_, h.files.span⟩,
    ⟨h.filed.atBase, ?_, ?_, ?_, fun hreq => by cases hreq⟩⟩
  · -- After a failed rotation nothing is inserted.
    have hrotation := h.rotation
    simp only [Rotation, hwriter] at hrotation ⊢
    refine hrotation.imp id (fun hlost => ⟨hlost.1, hlost.2.1, ?_⟩)
    have hseq := h.numbers.walSeq
    rw [hhere.resolve_right (by omega)]
    exact hlost.2.2
  · intro w hw hbase
    rw [hlogged _ rfl]
    exact h.files.logged hw hbase
  · intro w hw hbase
    refine (h.files.floor hw hbase).imp_right (fun hkept => ?_)
    refine hkept.of_calls (Nat.le_refl _) rfl (fun c hc g hg => ?_)
    rcases hmem c hc with rfl | hc
    · obtain rfl : t.epoch = g := by simpa using hg
      exact .inl (fun hflushed => absurd (h.tracks.flushed _ hflushed).1 (lt_irrefl _))
    · exact .inr ⟨c, hc, rfl, rfl, hg⟩
  · intro c hc hne g hg
    rcases hmem c hc with rfl | hc
    · obtain rfl : t.epoch = g := by simpa using hg
      have hwal := hhere.resolve_left (hwrites ▸ hne)
      exact hfile.trans (hwal.trans h.numbers.walSeq)
    · exact h.filed.file hc hne g hg
  · have hsorted := h.filed.sorted
    rw [hcalls] at hsorted
    exact hsorted
  · intro c hc
    rcases hmem c hc with rfl | hc
    · exact hfile.le
    · exact h.filed.bound hc

/-- The memtable is taken; that it is not empty says that the open log is its own. -/
theorem take (h : t.Logging base m) {req : Option (Request ν)}
    (hphase : t.now.writer = .idle ∨ ∃ r, t.now.writer = .inserted r)
    (hfull : t.now.engine.memtable.isEmpty = false)
    (htracks : Traced.Tracks { t with epoch := t.epoch + 1, now := t.now.take req }) :
    Traced.Logging base m { t with epoch := t.epoch + 1, now := t.now.take req } := by
  have hrotation : t.now.wal = base + t.epoch ∧ m + t.queue.length = t.epoch := by
    have hrotation := h.rotation
    rcases hphase with hidle | ⟨r, hins⟩
    · simp only [Rotation, hidle, hfull] at hrotation
      simpa using hrotation
    · simp only [Rotation, hins, hfull] at hrotation
      simpa using hrotation
  have hseq := h.numbers.walSeq
  refine ⟨htracks, ⟨?_, h.numbers.queue, h.numbers.frozen, h.numbers.flushed⟩, ?_,
    ⟨h.files.nodup, h.files.leftover, h.files.logged, h.files.floor, h.files.span⟩,
    ⟨h.filed.atBase, h.filed.file, h.filed.sorted, h.filed.bound, fun hreq => by cases hreq⟩⟩
  · show t.now.walSeq + 1 = base + (t.epoch + 1)
    omega
  · refine ⟨?_, ?_, ?_, ?_⟩
    · exact hrotation.1.trans hseq.symm
    · show t.now.walSeq + 1 = base + (t.epoch + 1)
      omega
    · show m + t.queue.length + 1 = t.epoch + 1
      omega
    · simp [Actors.take, MemTable.isEmpty]

/-- The next log is created. -/
theorem files_openWal (h : t.Logging base m) {req : Option (Request ν)} {map : MemTable ν}
    {seq : Nat} (hwriter : t.now.writer = .taken req map seq) {s : Actors ν}
    (hdisk : s.disk = t.now.disk.openWal t.now.walSeq) (hmaint : s.maint = t.now.maint)
    (hwal : s.wal = t.now.walSeq ∨ s.wal = t.now.wal) :
    Traced.Files base m { t with now := s } := by
  have hrotation := h.rotation
  simp only [Rotation, hwriter] at hrotation
  have hseq := h.numbers.walSeq
  have hun : Traced.Unlogged { t with now := s } ↔ t.Unlogged := by
    simp only [Traced.Unlogged, hmaint]
  -- The new file is there, empty, unless a file of that name was.
  have hmem : ∀ w ∈ s.disk.wals, w ∈ t.now.disk.wals ∨ w = (t.now.walSeq, []) := by
    intro w hw
    rw [hdisk, Disk.openWal] at hw
    split at hw
    · exact .inl hw
    · rcases List.mem_append.1 hw with hw | hw
      · exact .inl hw
      · exact .inr (List.mem_singleton.1 hw)
  have hnames : ∀ f, f ∈ s.disk.wals.map Prod.fst ↔
      f ∈ t.now.disk.wals.map Prod.fst ∨ f = t.now.walSeq := by
    intro f
    rw [hdisk, Disk.openWal]
    split
    · rename_i hin
      refine ⟨.inl, fun hf => hf.elim id (fun heq => ?_)⟩
      rw [heq]
      exact List.contains_iff_mem.1 hin
    · simp
  refine ⟨?_, ?_, ?_, ?_, ?_⟩
  · show (s.disk.wals.map Prod.fst).Nodup
    rw [hdisk, Disk.openWal]
    split
    · exact h.files.nodup
    · rename_i hout
      rw [List.map_append, List.nodup_append]
      refine ⟨h.files.nodup, by simp, fun a ha b hb heq => hout ?_⟩
      have hb' : b = t.now.walSeq := by simpa using hb
      rw [heq, hb'] at ha
      exact List.contains_iff_mem.2 ha
  · intro w hw hlt
    rcases hmem w hw with hw | rfl
    · exact h.files.leftover hw hlt
    · rfl
  · intro w hw hbase
    rcases hmem w hw with hw | rfl
    · exact h.files.logged hw hbase
    · -- Nothing has been logged to the new file.
      have hnil : t.loggedTo t.now.walSeq = [] := by
        refine List.eq_nil_iff_forall_not_mem.2 (fun v hv => ?_)
        obtain ⟨c, hc, hfile, -⟩ := mem_loggedTo.1 hv
        have hbound := h.filed.bound hc
        omega
      exact (congrArg (List.map Write.record) hnil).symm
  · intro w hw hbase
    rw [hun]
    rcases hmem w hw with hw | rfl
    · refine (h.files.floor hw hbase).imp_right (fun hkept => ?_)
      exact hkept.of_calls (by show t.now.wal ≤ s.wal; omega) rfl
        (fun c hc g hg => .inr ⟨c, hc, rfl, rfl, hg⟩)
    · left
      show base + m ≤ t.now.walSeq ∧ (_ → base + m < t.now.walSeq)
      omega
  · intro f hlo hhi
    rw [hun]
    show f ∈ s.disk.wals.map Prod.fst ∨ _
    rw [hnames]
    have hhi' : f ≤ s.wal := hhi
    by_cases heq : f = t.now.walSeq
    · exact .inl (.inr heq)
    · exact (h.files.span hlo (by omega)).imp .inl id

/-- The rotation succeeds. -/
theorem openWal (h : t.Logging base m) {req : Option (Request ν)} {map : MemTable ν} {seq : Nat}
    (hwriter : t.now.writer = .taken req map seq) {s : Actors ν}
    (htracks : Traced.Tracks { t with now := s })
    (hs : s = { t.now with
      disk := t.now.disk.openWal t.now.walSeq
      wal := t.now.walSeq
      writer := .opened req map seq }) : Traced.Logging base m { t with now := s } := by
  have hfiles : Traced.Files base m { t with now := s } :=
    h.files_openWal hwriter (by rw [hs]) (by rw [hs]) (.inl (by rw [hs]))
  have hrotation := h.rotation
  simp only [Rotation, hwriter] at hrotation
  have hseq := h.numbers.walSeq
  have hwal : t.now.wal ≤ t.now.walSeq := by omega
  subst hs
  refine ⟨htracks, ⟨h.numbers.walSeq, h.numbers.queue, h.numbers.frozen, h.numbers.flushed⟩, ?_,
    hfiles, ⟨?_, h.filed.file, h.filed.sorted, ?_, fun hreq => by cases hreq⟩⟩
  · exact ⟨hseq.trans hrotation.2.1.symm, hrotation.2.1, hrotation.2.2.1⟩
  · exact h.filed.atBase.trans hwal
  · exact fun hc => (h.filed.bound hc).trans hwal

/-- The rotation fails, before or after the file was created. -/
theorem openFails (h : t.Logging base m) {req : Option (Request ν)} {map : MemTable ν} {seq : Nat}
    (hwriter : t.now.writer = .taken req map seq) {created : Bool} {s : Actors ν}
    (htracks : Traced.Tracks { t with now := s })
    (hs : s = { t.now with
      disk := if created then t.now.disk.openWal t.now.walSeq else t.now.disk
      writer := .idle }) : Traced.Logging base m { t with now := s } := by
  have hrotation := h.rotation
  simp only [Rotation, hwriter] at hrotation
  have hfiles : Traced.Files base m { t with now := s } := by
    cases created with
    | true => exact h.files_openWal hwriter (by rw [hs]; rfl) (by rw [hs]) (.inr (by rw [hs]))
    | false =>
        subst hs
        exact ⟨h.files.nodup, h.files.leftover, h.files.logged, h.files.floor, h.files.span⟩
  subst hs
  refine ⟨htracks, ⟨h.numbers.walSeq, h.numbers.queue, h.numbers.frozen, h.numbers.flushed⟩, ?_,
    hfiles, ⟨h.filed.atBase, h.filed.file, h.filed.sorted, h.filed.bound,
      fun hreq => by cases hreq⟩⟩
  exact .inr ⟨by rw [hrotation.1]; exact hrotation.2.1, hrotation.2.2.1, hrotation.2.2.2⟩

/-- The frozen memtable is queued. -/
theorem push (h : t.Logging base m) {req : Option (Request ν)} {map : MemTable ν} {seq : Nat}
    (hwriter : t.now.writer = .opened req map seq)
    (htracks : Traced.Tracks
      { t with
        queue := t.queue ++ [t.epoch - 1]
        now :=
          { t.now with
            engine := { t.now.engine with frozen := t.now.engine.frozen ++ [(seq, map)] }
            writer := .pushed req } }) :
    Traced.Logging base m
      { t with
        queue := t.queue ++ [t.epoch - 1]
        now :=
          { t.now with
            engine := { t.now.engine with frozen := t.now.engine.frozen ++ [(seq, map)] }
            writer := .pushed req } } := by
  have hrotation := h.rotation
  simp only [Rotation, hwriter] at hrotation
  obtain ⟨hwal, hseq, hcount⟩ := hrotation
  refine ⟨htracks, ⟨h.numbers.walSeq, ?_, ?_, h.numbers.flushed⟩, ?_,
    ⟨h.files.nodup, h.files.leftover, h.files.logged, h.files.floor, h.files.span⟩,
    ⟨h.filed.atBase, h.filed.file, h.filed.sorted, h.filed.bound, fun hreq => by cases hreq⟩⟩
  · -- The queue counts up to the epoch before the current one.
    show t.queue ++ [t.epoch - 1] = List.range' m (t.queue ++ [t.epoch - 1]).length
    rw [List.length_append, List.length_singleton, List.range'_concat, ← h.numbers.queue]
    congr 2
    omega
  · show (t.now.engine.frozen ++ [(seq, map)]).map Prod.fst = (t.queue ++ [t.epoch - 1]).map _
    rw [List.map_append, List.map_append, h.numbers.frozen]
    congr 1
    simp only [List.map_cons, List.map_nil, List.cons.injEq, and_true]
    omega
  · refine .inl ⟨hwal.trans hseq, ?_⟩
    show m + (t.queue ++ [t.epoch - 1]).length = t.epoch
    rw [List.length_append, List.length_singleton]
    omega

/-- The flushed memtable is the oldest of the queue, and the number of its log the lowest. -/
theorem listed_head (h : t.Logging base m) {entry : Nat × MemTable ν}
    (hmaint : t.now.maint = .listed entry) :
    entry = (base + m, memtableOf (t.writesOf m)) ∧ t.queue.take 1 = [m] ∧
      base + m < t.now.wal := by
  have hok := h.tracks.maint
  simp only [MaintOk, hmaint] at hok
  have hhead := hok.1
  have hge := h.rotation.wal_ge
  rw [h.frozen_eq, h.numbers.queue] at hhead
  rw [h.numbers.queue]
  cases hlen : t.queue.length with
  | zero => simp [hlen] at hhead
  | succ n =>
      rw [hlen, List.range'_succ, List.map_cons, List.head?_cons] at hhead
      refine ⟨(Option.some.inj hhead).symm, by simp [List.range'_succ], by omega⟩

/-- A log that stays clear of the memtable that is flushed. -/
theorem Kept.flushed (h : t.Logging base m) {entry : Nat × MemTable ν}
    (hmaint : t.now.maint = .listed entry) {w : Nat × List (Frame ν)}
    (hwal : w.1 < t.now.wal)
    (hclear : ∀ r ∈ Wal.replay w.2, entry.2.get r.key = none ∧ t.Unflushed w.1 r.key)
    {disk : Disk ν} :
    Traced.Kept
      { t with
        flushed := t.queue.take 1 ++ t.flushed
        now := { t.now with disk := disk, maint := .unlogged entry } } w := by
  obtain ⟨rfl, hqueue, -⟩ := h.listed_head hmaint
  refine ⟨hwal, fun r hr c hc hle hkey g hg hflushed => ?_⟩
  rcases List.mem_append.1 hflushed with hnow | hbefore
  · -- The memtable holds what its calls wrote.
    obtain rfl : g = m := by simpa [hqueue] using hnow
    obtain ⟨v, hv, hvkey⟩ := hkey
    refine get_memtableOf_eq_none.1 (hclear r hr).1 v ?_ hvkey
    rw [writesOf, List.mem_flatMap]
    exact ⟨c, List.mem_filter.2 ⟨List.mem_reverse.2 hc, decide_eq_true hg⟩, hv⟩
  · exact (hclear r hr).2 c hc hle hkey g hg hbefore

/-- The log of the flushed memtable is removed, or cannot be. -/
theorem flushed_next (h : t.Logging base m) {entry : Nat × MemTable ν}
    (hmaint : t.now.maint = .listed entry) (fails : Bool) {disk : Disk ν}
    (hdisk : disk = if fails then t.now.disk else t.now.disk.removeWal entry.1)
    (hclear : t.clearBelow (if fails then entry.1 + 1 else entry.1) entry.2 = true)
    (htracks : Traced.Tracks
      { t with
        flushed := t.queue.take 1 ++ t.flushed
        now := { t.now with disk := disk, maint := .unlogged entry } }) :
    Traced.Logging base m
      { t with
        flushed := t.queue.take 1 ++ t.flushed
        now := { t.now with disk := disk, maint := .unlogged entry } } := by
  have hnot : ¬ t.Unlogged := by simp [Unlogged, hmaint]
  obtain ⟨hentry, hqueue, hopen⟩ := h.listed_head hmaint
  have hlow : entry.1 = base + m := by rw [hentry]
  rw [clearBelow_iff] at hclear
  have hwals : ∀ w, w ∈ disk.wals ↔ w ∈ t.now.disk.wals ∧ (fails = true ∨ w.1 ≠ base + m) := by
    intro w
    cases fails with
    | true => simp [hdisk]
    | false => simp [hdisk, Disk.removeWal, hlow]
  refine ⟨htracks, ⟨h.numbers.walSeq, h.numbers.queue, h.numbers.frozen, ?_⟩, h.rotation,
    ⟨?_, ?_, ?_, ?_, ?_⟩,
    ⟨h.filed.atBase, h.filed.file, h.filed.sorted, h.filed.bound, h.filed.latest⟩⟩
  · intro g hg
    rcases List.mem_append.1 hg with hg | hg
    · exact .inr ⟨by simpa [hqueue] using hg, trivial⟩
    · exact (h.numbers.flushed g hg).imp id (fun hlast => absurd hlast.2 hnot)
  · show (disk.wals.map Prod.fst).Nodup
    rw [hdisk]
    split
    · exact h.files.nodup
    · exact h.files.nodup.sublist (List.filter_sublist.map _)
  · exact fun hw => h.files.leftover ((hwals _).1 hw).1
  · exact fun hw => h.files.logged ((hwals _).1 hw).1
  · intro w hw hbase
    obtain ⟨hin, hstays⟩ := (hwals w).1 hw
    have hunflushed := fun r (hr : r ∈ Wal.replay w.2) => (h.replaysFresh w hin r hr).2
    by_cases hlater : base + m < w.1
    · exact .inl ⟨hlater.le, fun _ => hlater⟩
    · -- An earlier log whose removal failed, or the log itself if its removal fails.
      have hbelow : w.1 < if fails then entry.1 + 1 else entry.1 := by
        rcases hstays with rfl | hne
        · simp only [if_true]
          omega
        · split <;> omega
      exact .inr (Kept.flushed h hmaint (by omega)
        (fun r hr => ⟨hclear w hin hbelow r hr, hunflushed r hr⟩))
  · intro f hlo hhi
    by_cases hf : f = base + m
    · exact .inr ⟨hf, trivial⟩
    · rcases h.files.span hlo hhi with hin | ⟨heq, -⟩
      · obtain ⟨w, hw, rfl⟩ := List.mem_map.1 hin
        exact .inl (List.mem_map_of_mem ((hwals w).2 ⟨hw, .inr hf⟩))
      · exact absurd heq hf

/-- The flushed memtable is dropped. -/
theorem dropFrozen (h : t.Logging base m) {entry : Nat × MemTable ν}
    (hmaint : t.now.maint = .unlogged entry)
    (htracks : Traced.Tracks
      { t with
        queue := t.queue.tail
        now :=
          { t.now with
            engine := { t.now.engine with frozen := t.now.engine.frozen.tail }, maint := .idle } }) :
    Traced.Logging base (m + 1)
      { t with
        queue := t.queue.tail
        now :=
          { t.now with
            engine := { t.now.engine with frozen := t.now.engine.frozen.tail }
            maint := .idle } } := by
  have hun : t.Unlogged := by simp [Unlogged, hmaint]
  have hpos := (h.unlogged_head hun).1
  have htail : t.queue.tail.length + 1 = t.queue.length := by
    rw [List.length_tail]
    omega
  refine ⟨htracks, ⟨h.numbers.walSeq, ?_, ?_, ?_⟩, ?_, ⟨h.files.nodup, h.files.leftover,
    h.files.logged, ?_, ?_⟩,
    ⟨h.filed.atBase, h.filed.file, h.filed.sorted, h.filed.bound, h.filed.latest⟩⟩
  · show t.queue.tail = List.range' (m + 1) t.queue.tail.length
    have hqueue := h.numbers.queue
    rw [← htail, List.range'_succ] at hqueue
    exact (congrArg List.tail hqueue).trans rfl
  · show t.now.engine.frozen.tail.map Prod.fst = t.queue.tail.map _
    rw [List.map_tail, List.map_tail, h.numbers.frozen]
  · intro g hg
    have hle := h.numbers.flushed g hg
    left
    omega
  · -- One more flushed, one fewer queued: the sum the rotation speaks of stays.
    have hrotation := h.rotation
    have hcount : m + 1 + t.queue.tail.length = m + t.queue.length := by omega
    unfold Rotation at hrotation ⊢
    simp only [hcount]
    exact hrotation
  · intro w hw hbase
    rcases h.files.floor hw hbase with ⟨-, hfloor⟩ | hkept
    · have hlater := hfloor hun
      exact .inl ⟨by omega, fun hidle => by cases hidle⟩
    · exact .inr hkept
  · -- The one log that may be missing is the one of the memtable just dropped.
    intro f hlo hhi
    rcases h.files.span (f := f) (by omega) hhi with hin | ⟨heq, -⟩
    · exact .inl hin
    · omega

/-- A move of the flush that removes no log. -/
theorem of_flush (h : t.Logging base m) {s : Actors ν} (htracks : Traced.Tracks { t with now := s })
    (hwriter : s.writer = t.now.writer) (hwal : s.wal = t.now.wal)
    (hwalSeq : s.walSeq = t.now.walSeq) (hmem : s.engine.memtable = t.now.engine.memtable)
    (hfrozen : s.engine.frozen = t.now.engine.frozen) (hwals : s.disk.wals = t.now.disk.wals)
    (hbefore : ∀ entry, t.now.maint ≠ .unlogged entry)
    (hafter : ∀ entry, s.maint ≠ .unlogged entry) : Traced.Logging base m { t with now := s } := by
  have hnot : ∀ t' : Traced ν, (∀ entry, t'.now.maint ≠ .unlogged entry) → ¬ t'.Unlogged := by
    intro t' hne hun
    unfold Unlogged at hun
    split at hun
    · rename_i entry hphase
      exact hne entry hphase
    · exact hun
  refine h.congr htracks ?_ rfl rfl rfl rfl (fun req hreq => hwriter ▸ hreq) hwal hwalSeq hfrozen
    hwals (iff_of_false (hnot _ hafter) (hnot _ hbefore))
  have hrotation := h.rotation
  unfold Rotation at hrotation ⊢
  simp only [hwriter, hwal, hmem]
  exact hrotation

/-- Every move keeps the logs in order, as long as nothing is inserted after a failed rotation and
what stays behind is clear of what is flushed. -/
theorem step [SegmentFile ν] (h : t.Logging base m) {a : Move ν} {t' : Traced ν}
    (hhere : t.logsHere a = true) (hclear : t.leavesClear a = true) (hstep : t.step a = some t') :
    t'.Logging base m ∨ t'.Logging base (m + 1) := by
  have htracks := h.tracks.step hstep
  obtain ⟨s, hs, rfl⟩ := step_cases hstep
  have hrotation := h.rotation
  unfold Rotation at hrotation
  cases hs with
  | @append req hwriter =>
      refine .inl (h.appended rfl rfl ?_ htracks ?_ rfl rfl rfl rfl rfl)
      · rw [Wal.wholes_frames]
        exact (WriterMsg.map_record_writes req.msg).symm
      · simpa only [Rotation, hwriter] using hrotation
  | @appendFails req n torn hwriter =>
      refine .inl (h.appended rfl rfl ?_ htracks ?_ rfl rfl rfl rfl rfl)
      · -- Only the whole frames of the failed append count.
        have htorn : Wal.wholes (ν := ν) (if torn then [.torn] else []) = [] := by
          cases torn <;> rfl
        have hwhole := Wal.wholes_frames (req.msg.records.take n)
        simp only [Wal.wholes] at htorn hwhole ⊢
        rw [List.filterMap_append, htorn, hwhole, List.append_nil, List.map_take]
        exact congrArg (List.take n) (WriterMsg.map_record_writes req.msg).symm
      · simpa only [Rotation, hwriter] using hrotation
  | insert hwriter =>
      simp only [logsHere, hwriter, Bool.or_eq_true, List.isEmpty_iff, decide_eq_true_eq] at hhere
      exact .inl (h.insert hwriter hhere htracks)
  | takeIdle hwriter hfull => exact .inl (h.take (.inl hwriter) hfull htracks)
  | takeFull hwriter hfull =>
      have hfull' : t.now.engine.memtable.isEmpty = false := by
        rw [Actors.freezes, Bool.and_eq_true, Bool.not_eq_true'] at hfull
        exact hfull.2
      exact .inl (h.take (.inr ⟨_, hwriter⟩) hfull' htracks)
  | openWal hwriter => exact .inl (h.openWal hwriter htracks rfl)
  | openFails hwriter => exact .inl (h.openFails hwriter htracks rfl)
  | push hwriter => exact .inl (h.push hwriter htracks)
  | removeWal hmaint =>
      simp only [leavesClear, hmaint] at hclear
      exact .inl (h.flushed_next hmaint false rfl hclear htracks)
  | removeFails hmaint =>
      simp only [leavesClear, hmaint] at hclear
      exact .inl (h.flushed_next hmaint true rfl hclear htracks)
  | dropFrozen hmaint => exact .inr (h.dropFrozen hmaint htracks)
  | @replyInserted req hwriter hroom =>
      simp only [hwriter] at hrotation
      rw [note_reply_inserted hwriter] at htracks ⊢
      refine .inl (h.congr htracks ?_ (map_amend_acked t.calls) rfl rfl rfl
        (fun req hreq => by cases hreq) rfl rfl rfl rfl Iff.rfl)
      simpa only [Rotation] using hrotation
  | @replyPushed req hwriter =>
      simp only [hwriter] at hrotation
      cases req with
      | none =>
          rw [note_reply_idle hwriter] at htracks ⊢
          refine .inl (h.congr htracks ?_ rfl rfl rfl rfl (fun req hreq => by cases hreq) rfl rfl
            rfl rfl Iff.rfl)
          simpa only [Rotation] using hrotation
      | some req =>
          rw [note_reply_pushed hwriter] at htracks ⊢
          refine .inl (h.congr htracks ?_ (map_amend_acked t.calls) rfl rfl rfl
            (fun req hreq => by cases hreq) rfl rfl rfl rfl Iff.rfl)
          simpa only [Rotation] using hrotation
  | pick hphase hfrozen =>
      exact .inl (h.of_flush htracks rfl rfl rfl rfl rfl rfl (by simp [hphase]) (by simp))
  | alloc hphase =>
      exact .inl (h.of_flush htracks rfl rfl rfl rfl rfl rfl (by simp [hphase]) (by simp))
  | writeSegment hphase =>
      exact .inl (h.of_flush htracks rfl rfl rfl rfl rfl rfl (by simp [hphase]) (by simp))
  | writeFails hphase =>
      exact .inl (h.of_flush htracks rfl rfl rfl rfl rfl rfl (by simp [hphase]) (by simp))
  | list hphase =>
      exact .inl (h.of_flush htracks rfl rfl rfl rfl rfl rfl (by simp [hphase]) (by simp))
  | listFails hphase =>
      exact .inl (h.of_flush htracks rfl rfl rfl rfl rfl rfl (by simp [hphase]) (by simp))

/-- A record inserted under the next number while the old log is open is not in the log it is
numbered with. -/
theorem logsHere_of_covered [SegmentFile ν] (h : t.Logging base m) {a : Move ν} {t' : Traced ν}
    (hstep : t.step a = some t') (hcovered : t'.now.Covered) : t.logsHere a = true := by
  obtain ⟨s, hs, rfl⟩ := step_cases hstep
  cases hs with
  | @insert req hwriter =>
      simp only [logsHere, hwriter, Bool.or_eq_true, List.isEmpty_iff, decide_eq_true_eq]
      by_contra hnot
      obtain ⟨hne, hwal⟩ := not_or.1 hnot
      obtain ⟨ws, hmem, hlogs⟩ := hcovered.memtable
      have hrotation := h.rotation
      simp only [Rotation, hwriter] at hrotation
      have hseq := h.numbers.walSeq
      have hlast : t.now.wal + 1 = t.now.walSeq := by omega
      -- Nothing was ever logged under that number.
      have hnone : t.now.disk.recordsAt t.now.walSeq = [] := by
        by_cases hfile : t.now.walSeq ∈ t.now.disk.wals.map Prod.fst
        · rw [h.files.recordsAt (by omega) hfile, List.map_eq_nil_iff]
          refine List.eq_nil_iff_forall_not_mem.2 (fun v hv => ?_)
          obtain ⟨c, hc, hcfile, -⟩ := mem_loggedTo.1 hv
          have hbound := h.filed.bound hc
          omega
        · have hfind : t.now.disk.wals.find? (fun w => decide (w.1 = t.now.walSeq)) = none := by
            refine List.find?_eq_none.2 (fun w hw => ?_)
            simpa using fun heq => hfile (List.mem_map.2 ⟨w, hw, heq⟩)
          rw [Disk.recordsAt, hfind]
          rfl
      have hws : ws = [] := by
        have hsub : (ws.map Write.record).Sublist (t.now.disk.recordsAt t.now.walSeq) := hlogs
        rw [hnone, List.sublist_nil] at hsub
        exact List.map_eq_nil_iff.1 hsub
      have hempty : (req.writes.foldl MemTable.applyWrite t.now.engine.memtable).isEmpty = true := by
        rw [hws] at hmem
        exact (congrArg MemTable.isEmpty hmem).trans (by simp [memtableOf, MemTable.isEmpty])
      rw [isEmpty_foldl_applyWrite hne] at hempty
      cases hempty
  | _ => rfl

/-- A log that stays behind with a key of the flushed memtable replays what is flushed. -/
theorem leavesClear_of_fresh [SegmentFile ν] (h : t.Logging base m) {a : Move ν} {t' : Traced ν}
    (hstep : t.step a = some t') (hfresh : t'.ReplaysFresh) : t.leavesClear a = true := by
  -- A call that is flushed now wrote the key.
  have hcall : ∀ {entry : Nat × MemTable ν}, t.now.maint = .listed entry →
      t'.calls = t.calls → t'.flushed = t.queue.take 1 ++ t.flushed →
        ∀ w ∈ t'.now.disk.wals, w.1 ≤ entry.1 → ∀ r ∈ Wal.replay w.2,
          entry.2.get r.key = none := by
    intro entry hmaint hcalls hflushed w hw hle r hr
    obtain ⟨rfl, hqueue, -⟩ := h.listed_head hmaint
    refine get_memtableOf_eq_none.2 (fun v hv hkey => ?_)
    obtain ⟨c, hc, hvc⟩ := List.mem_flatMap.1 hv
    obtain ⟨hc, hepoch⟩ := List.mem_filter.1 hc
    have hepoch := of_decide_eq_true hepoch
    have hin := List.mem_reverse.1 hc
    have hfile := h.filed.file hin (List.ne_nil_of_mem hvc) m hepoch
    refine (hfresh w hw r hr).2 c (hcalls ▸ hin) (hfile ▸ hle) ⟨v, hvc, hkey⟩ m hepoch ?_
    rw [hflushed, hqueue]
    simp
  obtain ⟨s, hs, rfl⟩ := step_cases hstep
  cases hs with
  | removeWal hmaint =>
      simp only [leavesClear, hmaint]
      refine clearBelow_iff.2 (fun w hw hlt r hr => hcall hmaint rfl rfl w ?_ hlt.le r hr)
      exact List.mem_filter.2 ⟨hw, decide_eq_true hlt.ne⟩
  | removeFails hmaint =>
      simp only [leavesClear, hmaint]
      exact clearBelow_iff.2 (fun w hw hlt r hr =>
        hcall hmaint rfl rfl w hw (Nat.le_of_lt_succ hlt) r hr)
  | _ => rfl

end Logging

/-- A store that has just been opened. -/
theorem logging_opened (config : Config) (manifest : Manifest ν) {disk : Disk ν} {seq : Nat}
    (hnodup : (disk.wals.map Prod.fst).Nodup) (hfresh : ∀ w ∈ disk.wals, w.1 < seq)
    (hleft : ∀ w ∈ disk.wals, Wal.replay w.2 = []) :
    (opened config manifest disk seq).Logging seq 0 := by
  have hnew : seq ∉ disk.wals.map Prod.fst := by
    intro hin
    obtain ⟨w, hw, heq⟩ := List.mem_map.1 hin
    exact absurd (hfresh w hw) (by omega)
  have hwals : (disk.openWal seq).wals = disk.wals ++ [(seq, [])] := by
    rw [Disk.openWal, if_neg (by simpa using hnew)]
  -- Whatever was on disk is a leftover without whole frames; the new log is empty.
  refine ⟨tracks_opened config manifest disk seq, ⟨rfl, rfl, rfl, fun g hg => by cases hg⟩,
    .inl ⟨rfl, rfl⟩, ⟨?_, ?_, ?_, ?_, ?_⟩,
    ⟨le_refl seq, fun hc => (by cases hc), List.Pairwise.nil, fun hc => (by cases hc),
      fun hreq => (by cases hreq)⟩⟩
  · show ((disk.openWal seq).wals.map Prod.fst).Nodup
    rw [hwals, List.map_append, List.nodup_append]
    refine ⟨hnodup, by simp, fun a ha b hb heq => hnew ?_⟩
    have hb' : b = seq := by simpa using hb
    rw [heq, hb'] at ha
    exact ha
  · intro w hw _
    have hw' : w ∈ (disk.openWal seq).wals := hw
    rw [hwals] at hw'
    rcases List.mem_append.1 hw' with hw' | hw'
    · exact hleft w hw'
    · rw [List.mem_singleton.1 hw']
      rfl
  · intro w hw hbase
    have hw' : w ∈ (disk.openWal seq).wals := hw
    rw [hwals] at hw'
    rcases List.mem_append.1 hw' with hw' | hw'
    · exact absurd (hfresh w hw') (by omega)
    · rw [List.mem_singleton.1 hw']
      rfl
  · exact fun _ hbase => .inl ⟨hbase, fun hun => by cases hun⟩
  · intro f hlo hhi
    have hf : f = seq := le_antisymm hhi hlo
    left
    show f ∈ (disk.openWal seq).wals.map Prod.fst
    rw [hwals, hf]
    simp

/-- Along a run of the writer and the flush, with whatever fails on the way: every memtable is made
of records in the log it is numbered with, and no log on disk holds a record that is flushed or of
which a newer version is, exactly when the logs that `open` left replay nothing, records are inserted
only while the open log is the numbered one, and no log that stays behind when a memtable is flushed
replays one of its keys. -/
theorem wal_covers_iff [SegmentFile ν] (config : Config) (manifest : Manifest ν) {disk : Disk ν}
    {seq : Nat} (hnodup : (disk.wals.map Prod.fst).Nodup) (hfresh : ∀ w ∈ disk.wals, w.1 < seq)
    (moves : List (Move ν)) :
    Throughout step (fun t => t.now.Covered ∧ t.ReplaysFresh)
        (opened config manifest disk seq) moves ↔
      (∀ w ∈ disk.wals, Wal.replay w.2 = []) ∧
        EachStep step (fun t a => t.logsHere a = true ∧ t.leavesClear a = true)
          (opened config manifest disk seq) moves := by
  have hiff : (∀ w ∈ disk.wals, Wal.replay w.2 = []) →
      (Throughout step (fun t => t.now.Covered ∧ t.ReplaysFresh)
          (opened config manifest disk seq) moves ↔
        EachStep step (fun t a => t.logsHere a = true ∧ t.leavesClear a = true)
          (opened config manifest disk seq) moves) := by
    intro hleft
    have hstart := logging_opened config manifest hnodup hfresh hleft
    refine throughout_iff_eachStep (fun t => ∃ m, t.Logging seq m) ?_ ?_ ⟨0, hstart⟩
      ⟨hstart.covered, hstart.replaysFresh⟩
    · rintro t a t' ⟨m, h⟩ - ⟨hhere, hclear⟩ hstep
      rcases h.step hhere hclear hstep with h' | h'
      · exact ⟨⟨m, h'⟩, h'.covered, h'.replaysFresh⟩
      · exact ⟨⟨m + 1, h'⟩, h'.covered, h'.replaysFresh⟩
    · rintro t a t' ⟨m, h⟩ - hstep ⟨hcovered, hreplays⟩
      exact ⟨h.logsHere_of_covered hstep hcovered, h.leavesClear_of_fresh hstep hreplays⟩
  refine ⟨fun hall => ?_, fun h => (hiff h.1).2 h.2⟩
  -- Nothing has been logged yet, so what is replayed is what `open` has flushed.
  have hleft : ∀ w ∈ disk.wals, Wal.replay w.2 = [] := by
    refine fun w hw => List.eq_nil_iff_forall_not_mem.2 (fun r hr => ?_)
    obtain ⟨⟨c, hc, -⟩, -⟩ := hall.start.2 w (Disk.mem_openWal hw seq) r hr
    cases hc
  exact ⟨hleft, (hiff hleft).1 hall⟩

end Main

end Traced

section Sample

local instance instCoverageUnicode : Unicode := asciiUnicode

local instance instCoverageFile : SegmentFile Int := footprintFile Int

local instance instCoverageBody : FrameBody Int where
  bodyLen _ := 1

/-- A put from its append to its reply. -/
def putA (timestamp : Int64) : List (Move Int) :=
  [.append (.putBatch [Record.bare "a" timestamp]), .insert, .reply]

/-- A freeze and the flush of the frozen memtable. -/
def freezeAndFlush : List (Move Int) :=
  [.take, .openWal, .push, .reply, .pick, .alloc, .writeSegment, .list 0, .removeWal, .dropFrozen]

/-- A rotation fails, then a put goes to the old log. -/
def rotationFails : List (Move Int) := putA 1 ++ [.take, .openFails false] ++ putA 2

/-- It is flushed, and so is one more. -/
def rotationFailed : List (Move Int) :=
  rotationFails ++ (freezeAndFlush ++ putA 3 ++ freezeAndFlush)

theorem rotationFails_runs :
    (runFrom Traced.step (Traced.opened (ν := Int) {} {} {} 0) rotationFails).isSome = true := by
  decide

theorem rotationFailed_runs :
    (runFrom Traced.step (Traced.opened (ν := Int) {} {} {} 0) rotationFailed).isSome = true := by
  decide

/-- The second put is not in the log its memtable is numbered with; in the end a log is left whose
replay gives `a` the second put's version although the third one is flushed. -/
theorem rotationFailed_replays_stale :
    (¬ Throughout Traced.step (fun t => t.now.Covered ∧ t.ReplaysFresh)
      (Traced.opened (ν := Int) {} {} {} 0) rotationFailed) ∧
    ∃ t, runFrom Traced.step (Traced.opened (ν := Int) {} {} {} 0) rotationFailed = some t ∧
      t.now.disk.recovered["a"]? = some (Record.bare "a" 2) ∧
      t.now.engine.getOnce "a" = some (Record.bare "a" 3) := by
  refine ⟨fun h => ?_, _, (Option.some_get rotationFailed_runs).symm, by decide, by decide⟩
  obtain ⟨ws, hmem, hlogs⟩ :=
    ((Throughout.of_append h).last (Option.some_get rotationFails_runs).symm).1.memtable
  have hnone : (((runFrom Traced.step (Traced.opened (ν := Int) {} {} {} 0) rotationFails).get
      rotationFails_runs).now.disk.recordsAt 1) = [] := by decide
  have hsub : (ws.map Write.record).Sublist [] := hnone ▸ hlogs
  rw [List.map_eq_nil_iff.1 (List.sublist_nil.1 hsub)] at hmem
  exact absurd (congrArg MemTable.isEmpty hmem) (by decide)

/-- A freeze and a flush whose log cannot be removed. -/
def freezeAndKeep : List (Move Int) :=
  [.take, .openWal, .push, .reply, .pick, .alloc, .writeSegment, .list 0, .removeFails, .dropFrozen]

/-- A log that could not be removed is replayed over what has been flushed since. -/
example :
    (runFrom Traced.step (Traced.opened (ν := Int) {} {} {} 0)
        (putA 1 ++ freezeAndKeep ++ putA 2 ++ freezeAndFlush)).map
      (fun t => (t.now.disk.recovered["a"]?, t.now.engine.getOnce "a")) =
        some (some (Record.bare "a" 1), some (Record.bare "a" 2)) := by
  decide

/-- Two puts, each flushed, and a third one in the live log.  The first log begins with the torn
frame of an append that failed, so that it can stay behind. -/
def putsFlushed : List (Move Int) :=
  [.appendFails (.putBatch [Record.bare "a" 0]) 0 true] ++ putA 1 ++ freezeAndKeep ++
    putA 2 ++ freezeAndFlush ++ putA 3

theorem putsFlushed_covered :
    Throughout Traced.step (fun t => t.now.Covered ∧ t.ReplaysFresh)
      (Traced.opened (ν := Int) {} {} {} 0) putsFlushed :=
  have hnodup : (({} : Disk Int).wals.map Prod.fst).Nodup := List.nodup_nil
  have hfresh : ∀ w ∈ ({} : Disk Int).wals, w.1 < 0 := fun _ hw => absurd hw List.not_mem_nil
  (Traced.wal_covers_iff {} {} hnodup hfresh putsFlushed).2 ⟨by simp, by decide⟩

end Sample

end Girder
