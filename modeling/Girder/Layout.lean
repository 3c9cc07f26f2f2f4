import Girder.Process

/-!
# Layout — which file holds which writes

While a process runs, each of its memtables is covered by a log of its own: the frozen ones by the
logs they were rotated out of, the live one by the writer's log, in that order after whatever logs
were there at open.  `Process.Layout` says so, and one lemma per operation says how the operation
moves writes from one place to the next.

`Process.Filed` is the same for the manifest: the segments in memory are those on disk, every listed
file holds its rows, and no number is handed out twice.
-/

namespace Girder

open Lib

variable {ν : Type}

/-! ## Log files -/

/-- A log that holds some writes. -/
def logFile (log : Nat × List (Write ν)) : Nat × List (Frame ν) :=
  (log.1, Wal.frames (log.2.map Write.record))

namespace Disk

/-- Logs are listed by ascending number. -/
def Ascending (d : Disk ν) : Prop :=
  d.wals.Pairwise (fun a b => a.1 < b.1)

theorem Ascending.sortedWals_eq {d : Disk ν} (h : d.Ascending) : d.sortedWals = d.wals :=
  sortAsc_eq_of_perm (List.Perm.refl _) h

theorem Ascending.lt_last {d : Disk ν} (h : d.Ascending) {older : List (Nat × List (Frame ν))}
    {last : Nat × List (Frame ν)} (hw : d.wals = older ++ [last]) :
    ∀ w ∈ older, w.1 < last.1 := by
  have hasc : d.wals.Pairwise (fun a b => a.1 < b.1) := h
  rw [hw] at hasc
  exact fun w hmem => (List.pairwise_append.1 hasc).2.2 w hmem last (by simp)

theorem wals_appendFrame {d : Disk ν} (h : d.Ascending) {older : List (Nat × List (Frame ν))}
    {seq : Nat} {frames : List (Frame ν)} (hw : d.wals = older ++ [(seq, frames)])
    (frame : Frame ν) :
    (d.appendFrame seq frame).wals = older ++ [(seq, frames ++ [frame])] := by
  have holder : older.map (fun w => if w.1 = seq then (w.1, w.2 ++ [frame]) else w) = older := by
    refine (List.map_congr_left (fun w hmem => ?_)).trans (List.map_id older)
    rw [if_neg (Nat.ne_of_lt (h.lt_last hw w hmem))]
    rfl
  simp [appendFrame, hw, holder]

theorem ascending_appendFrame {d : Disk ν} (h : d.Ascending) (seq : Nat) (frame : Frame ν) :
    (d.appendFrame seq frame).Ascending := by
  refine List.pairwise_map.2 (h.imp (fun {a b} hab => ?_))
  split <;> split <;> exact hab

theorem wals_openWal {d : Disk ν} {seq : Nat} (hfresh : ∀ w ∈ d.wals, w.1 < seq) :
    (d.openWal seq).wals = d.wals ++ [(seq, [])] := by
  unfold openWal
  rw [if_neg]
  intro hmem
  simp only [List.contains_eq_mem, List.mem_map, decide_eq_true_eq] at hmem
  obtain ⟨w, hw, rfl⟩ := hmem
  exact absurd (hfresh w hw) (Nat.lt_irrefl _)

theorem ascending_openWal {d : Disk ν} (h : d.Ascending) {seq : Nat}
    (hfresh : ∀ w ∈ d.wals, w.1 < seq) : (d.openWal seq).Ascending := by
  unfold Ascending
  rw [wals_openWal hfresh]
  refine List.pairwise_append.2 ⟨h, List.pairwise_singleton _ _, fun a ha b hb => ?_⟩
  rw [List.mem_singleton.1 hb]
  exact hfresh a ha

theorem wals_removeWal {d : Disk ν} (h : d.Ascending) {older newer : List (Nat × List (Frame ν))}
    {log : Nat × List (Frame ν)} (hw : d.wals = older ++ log :: newer) :
    (d.removeWal log.1).wals = older ++ newer := by
  have hasc : d.wals.Pairwise (fun a b => a.1 < b.1) := h
  rw [hw] at hasc
  obtain ⟨-, hnewer, holder⟩ := List.pairwise_append.1 hasc
  have hkeep : ∀ w ∈ older ++ newer, decide (w.1 ≠ log.1) = true := by
    intro w hmem
    rw [decide_eq_true_eq]
    rcases List.mem_append.1 hmem with hmem | hmem
    · exact Nat.ne_of_lt (holder w hmem log (by simp))
    · exact Nat.ne_of_gt ((List.pairwise_cons.1 hnewer).1 w hmem)
  have hfilter := List.filter_eq_self.2 hkeep
  have hgone : decide (log.1 ≠ log.1) = false := by simp
  rw [List.filter_append] at hfilter
  rw [removeWal, hw, List.filter_append, List.filter_cons, hgone]
  exact hfilter

theorem ascending_removeWal {d : Disk ν} (h : d.Ascending) (seq : Nat) :
    (d.removeWal seq).Ascending :=
  h.filter _

/-- The next log number is past every log. -/
theorem lt_nextWalSeq {d : Disk ν} (h : d.Ascending) : ∀ w ∈ d.wals, w.1 < d.nextWalSeq := by
  intro w hw
  unfold nextWalSeq walSeqs
  rw [h.sortedWals_eq]
  rcases List.eq_nil_or_concat d.wals with hnil | ⟨older, last, hlast⟩
  · simp [hnil] at hw
  · rw [List.concat_eq_append] at hlast
    have hle : w.1 ≤ last.1 := by
      rw [hlast] at hw
      rcases List.mem_append.1 hw with hw | hw
      · exact Nat.le_of_lt (h.lt_last hlast w hw)
      · exact le_of_eq (congrArg Prod.fst (List.mem_singleton.1 hw))
    simpa [hlast] using Nat.lt_succ_of_le hle

end Disk

/-! ## Writes and their places -/

/-- The logs there at open (`base`), then the log of each frozen memtable (`logs`), then the
writer's log with what the memtable holds (`cur`) and what a message has appended so far. -/
structure Process.Layout [Unicode] [Numeral ν] [FrameBody ν] (p : Process ν) (d : Disk ν)
    (base : List (Nat × List (Frame ν))) (logs : List (Nat × List (Write ν)))
    (cur : List (Write ν)) : Prop where
  wals : d.wals = base ++ logs.map logFile ++ [logFile (p.walSeq, cur ++ p.writer.logged)]
  ascending : d.Ascending
  memtable : p.engine.memtable = memtableOf cur
  frozen : p.engine.frozen = logs.map (fun log => (log.1, memtableOf log.2))
  fits : ∀ w ∈ logs.flatMap Prod.snd ++ (cur ++ p.writer.logged), w.record.Fits

namespace Process

namespace Layout

variable [Unicode] [Numeral ν] [FrameBody ν] {p : Process ν} {d : Disk ν}
  {base : List (Nat × List (Frame ν))} {logs : List (Nat × List (Write ν))} {cur : List (Write ν)}

/-- What the next open would replay. -/
theorem logRecords (h : p.Layout d base logs cur) :
    d.logRecords = base.flatMap (fun w => Wal.replay w.2) ++
      (logs.flatMap Prod.snd ++ (cur ++ p.writer.logged)).map Write.record := by
  have hfile : ∀ log : Nat × List (Write ν), (∀ w ∈ log.2, w.record.Fits) →
      Wal.replay (logFile log).2 = log.2.map Write.record := by
    intro log hfits
    refine Wal.replay_frames (fun r hr => ?_)
    obtain ⟨w, hw, rfl⟩ := List.mem_map.1 hr
    exact hfits w hw
  have hlogs : (logs.map logFile).flatMap (fun w => Wal.replay w.2) =
      (logs.flatMap Prod.snd).map Write.record := by
    rw [List.flatMap_map, List.map_flatMap]
    refine List.flatMap_congr (fun log hlog => hfile log (fun w hw => h.fits w ?_))
    exact List.mem_append_left _ (List.mem_flatMap.2 ⟨log, hlog, hw⟩)
  have hlast : Wal.replay (logFile (p.walSeq, cur ++ p.writer.logged)).2 =
      (cur ++ p.writer.logged).map Write.record :=
    hfile (p.walSeq, cur ++ p.writer.logged) (fun w hw => h.fits w (List.mem_append_right _ hw))
  rw [Disk.logRecords, h.ascending.sortedWals_eq, h.wals, List.flatMap_append, List.flatMap_append,
    hlogs, List.flatMap_singleton, hlast, List.append_assoc, ← List.map_append]

omit [FrameBody ν] in
theorem memtableOf_nil_isEmpty : (memtableOf ([] : List (Write ν))).isEmpty = true := by
  simp [memtableOf, MemTable.isEmpty]

theorem memtable_isEmpty (h : p.Layout d base logs []) : p.engine.memtable.isEmpty = true := by
  rw [h.memtable]
  exact memtableOf_nil_isEmpty

theorem lt_walSeq (h : p.Layout d base logs cur) : ∀ w ∈ base ++ logs.map logFile, w.1 < p.walSeq :=
  h.ascending.lt_last h.wals

/-- Operations that touch neither the logs nor the memtables. -/
theorem congr (h : p.Layout d base logs cur) {p' : Process ν} {d' : Disk ν}
    (hwals : d'.wals = d.wals) (hseq : p'.walSeq = p.walSeq)
    (hlogged : p'.writer.logged = p.writer.logged)
    (hmem : p'.engine.memtable = p.engine.memtable) (hfrozen : p'.engine.frozen = p.engine.frozen) :
    p'.Layout d' base logs cur where
  wals := by rw [hwals, hseq, hlogged, h.wals]
  ascending := by
    unfold Disk.Ascending
    rw [hwals]
    exact h.ascending
  memtable := hmem.trans h.memtable
  frozen := hfrozen.trans h.frozen
  fits := by
    rw [hlogged]
    exact h.fits

/-- One more frame of the message is in the log. -/
theorem appendFrame (h : p.Layout d base logs cur) {msg : WriterMsg ν} {n : Nat} {r : Record ν}
    (hwriter : p.writer = .appending msg n) (hr : msg.records[n]? = some r) (hfits : r.Fits) :
    Layout { p with writer := .appending msg (n + 1) } (d.appendFrame p.walSeq (.whole r)) base
      logs cur := by
  rw [← msg.map_record_writes, List.getElem?_map] at hr
  obtain ⟨w, hw, rfl⟩ := Option.map_eq_some_iff.1 hr
  have hlogged : msg.writes.take (n + 1) = p.writer.logged ++ [w] := by
    rw [hwriter, List.take_add_one, hw]
    rfl
  refine ⟨?_, Disk.ascending_appendFrame h.ascending _ _, h.memtable, h.frozen, ?_⟩
  · have hwals := Disk.wals_appendFrame h.ascending h.wals (.whole w.record)
    show (d.appendFrame p.walSeq (.whole w.record)).wals =
      base ++ logs.map logFile ++ [logFile (p.walSeq, cur ++ msg.writes.take (n + 1))]
    rw [hwals, hlogged]
    simp [logFile, Wal.frames]
  · intro v hv
    have hv' : v ∈ logs.flatMap Prod.snd ++ (cur ++ msg.writes.take (n + 1)) := hv
    rw [hlogged, ← List.append_assoc, ← List.append_assoc, List.append_assoc _ cur] at hv'
    rcases List.mem_append.1 hv' with hv' | hv'
    · exact h.fits v hv'
    · rw [List.mem_singleton.1 hv']
      exact hfits

/-- The message becomes visible. -/
theorem apply (h : p.Layout d base logs cur) {msg : WriterMsg ν}
    (hwriter : p.writer = .appending msg msg.records.length) :
    Layout
      { p with
        engine :=
          { p.engine with memtable := msg.writes.foldl MemTable.applyWrite p.engine.memtable }
        writer := .applied msg } d base logs (cur ++ msg.writes) := by
  have hlogged : p.writer.logged = msg.writes := by
    rw [hwriter, ← msg.map_record_writes, List.length_map]
    exact List.take_length
  have hvisible : cur ++ p.writer.logged = cur ++ msg.writes ++ (Writer.applied msg).logged := by
    rw [hlogged]
    exact (List.append_nil _).symm
  refine ⟨?_, h.ascending, ?_, h.frozen, ?_⟩
  · rw [h.wals, hvisible]
  · show msg.writes.foldl MemTable.applyWrite p.engine.memtable = _
    rw [h.memtable, memtableOf, memtableOf, List.foldl_append]
  · rw [← hvisible]
    exact h.fits

/-- The memtable is frozen and the log rotated. -/
theorem freeze (h : p.Layout d base logs cur) (hwriter : p.writer.logged = []) :
    p.frozen.Layout (d.openWal (p.walSeq + 1)) base (logs ++ [(p.walSeq, cur)]) [] := by
  have hwals := h.wals
  rw [hwriter, List.append_nil] at hwals
  have hfresh : ∀ w ∈ d.wals, w.1 < p.walSeq + 1 := by
    intro w hw
    rw [hwals] at hw
    rcases List.mem_append.1 hw with hw | hw
    · exact Nat.lt_succ_of_lt (h.lt_walSeq w hw)
    · rw [List.mem_singleton.1 hw]
      exact Nat.lt_succ_self _
  have hlogged : p.frozen.writer.logged = [] := hwriter
  refine ⟨?_, Disk.ascending_openWal h.ascending hfresh, rfl, ?_, ?_⟩
  · rw [Disk.wals_openWal hfresh, hwals, hlogged]
    simp [Process.frozen, logFile, Wal.frames]
  · show p.engine.frozen ++ [(p.walSeq, p.engine.memtable)] = _
    rw [h.frozen, h.memtable, List.map_append]
    rfl
  · have hfits := h.fits
    rw [hwriter, List.append_nil] at hfits
    rw [hlogged]
    simpa [List.flatMap_append] using hfits

/-- The log of the oldest frozen memtable is deleted. -/
theorem removeWal {log : Nat × List (Write ν)} (h : p.Layout d base (log :: logs) cur) :
    Layout
      { p with
        engine := { p.engine with frozen := logs.map (fun log => (log.1, memtableOf log.2)) }
        flush := .idle } (d.removeWal log.1) base logs cur where
  wals := by
    have hwals : d.wals = base ++ logFile log ::
        (logs.map logFile ++ [logFile (p.walSeq, cur ++ p.writer.logged)]) := by
      simpa using h.wals
    have hrest := Disk.wals_removeWal h.ascending hwals
    simpa [logFile] using hrest
  ascending := Disk.ascending_removeWal h.ascending _
  memtable := h.memtable
  frozen := rfl
  fits w hw := h.fits w (by
    rw [List.flatMap_cons, List.append_assoc]
    exact List.mem_append_right _ hw)

/-- The oldest leftover log is deleted. -/
theorem removeLeftover {log : Nat × List (Frame ν)} (h : p.Layout d (log :: base) logs cur)
    (stage : Stage) : Layout { p with stage := stage } (d.removeWal log.1) base logs cur where
  wals := by
    have hwals : d.wals = [] ++ log ::
        (base ++ logs.map logFile ++ [logFile (p.walSeq, cur ++ p.writer.logged)]) := by
      simpa using h.wals
    simpa using Disk.wals_removeWal h.ascending hwals
  ascending := Disk.ascending_removeWal h.ascending _
  memtable := h.memtable
  frozen := h.frozen
  fits := h.fits

/-- A crash in the middle of a frame loses nothing replay would have read. -/
theorem logRecords_tear (h : p.Layout d base logs cur) (torn : Bool) :
    (p.tear torn d).logRecords = d.logRecords := by
  unfold tear
  split
  · have hwals := Disk.wals_appendFrame h.ascending h.wals .torn
    have hasc := Disk.ascending_appendFrame h.ascending p.walSeq (Frame.torn : Frame ν)
    rw [Disk.logRecords, Disk.logRecords, hasc.sortedWals_eq, h.ascending.sortedWals_eq, hwals,
      h.wals]
    simp only [List.flatMap_append, List.flatMap_singleton, logFile]
    rw [Wal.replay_frames_torn]
  · rfl

end Layout

theorem ascending_tear {d : Disk ν} (h : d.Ascending) (p : Process ν) (torn : Bool) :
    (p.tear torn d).Ascending := by
  unfold tear
  split
  · exact Disk.ascending_appendFrame h _ _
  · exact h

end Process

/-! ## Segments and their files -/

/-- What the stored manifest lists is there. -/
structure Disk.Stored (d : Disk ν) : Prop where
  numbered {s : Segment ν} : s ∈ d.manifest.segments →
    s.id < d.manifest.nextSegmentId ∧ s.file < d.manifest.nextSegmentId
  ids_nodup : (d.manifest.segments.map Segment.id).Nodup
  sorted {s : Segment ν} : s ∈ d.manifest.segments → s.Sorted
  backed {s : Segment ν} : s ∈ d.manifest.segments → d.rowsAt s.file = s.rows

theorem Disk.Stored.loadManifest_eq {d : Disk ν} (h : d.Stored) : d.loadManifest = d.manifest := by
  have hsegments : d.manifest.segments.map (fun s => { s with rows := d.rowsAt s.file }) =
      d.manifest.segments := by
    refine (List.map_congr_left (fun s hs => ?_)).trans (List.map_id _)
    rw [h.backed hs]
    rfl
  rw [loadManifest, hsegments]

/-- The manifest in memory and the files on disk. -/
structure Process.Filed (p : Process ν) (d : Disk ν) : Prop where
  stored : d.Stored
  segments : p.engine.manifest.segments = d.manifest.segments
  next_le : d.manifest.nextSegmentId ≤ p.engine.manifest.nextSegmentId
  written {seq : Nat} : p.flush = .written seq → d.manifest.nextSegmentId ≤ seq ∧
    seq < p.engine.manifest.nextSegmentId ∧
      ∀ f ∈ p.engine.frozen.head?, d.rowsAt seq = f.2.values
  pending : p.flush ≠ .idle → p.engine.frozen ≠ []

namespace Process.Filed

variable {p : Process ν} {d : Disk ν}

/-- Operations that touch neither the manifest nor the segment files. -/
theorem congr (h : p.Filed d) {p' : Process ν} {d' : Disk ν} (hfiles : d'.files = d.files)
    (hdisk : d'.manifest = d.manifest) (hmanifest : p'.engine.manifest = p.engine.manifest)
    (hflush : p'.flush = p.flush)
    (hfrozen : p.flush ≠ .idle → p'.engine.frozen.head? = p.engine.frozen.head?) :
    p'.Filed d' := by
  have hrows : ∀ file, d'.rowsAt file = d.rowsAt file := by
    intro file
    rw [Disk.rowsAt, Disk.rowsAt, hfiles]
  refine ⟨⟨?_, ?_, ?_, ?_⟩, ?_, ?_, ?_, ?_⟩
  · rw [hdisk]
    exact h.stored.numbered
  · rw [hdisk]
    exact h.stored.ids_nodup
  · rw [hdisk]
    exact h.stored.sorted
  · intro s hs
    rw [hrows]
    exact h.stored.backed (by rw [← hdisk]; exact hs)
  · rw [hmanifest, hdisk]
    exact h.segments
  · rw [hmanifest, hdisk]
    exact h.next_le
  · intro seq hseq
    rw [hflush] at hseq
    rw [hdisk, hmanifest, hrows, hfrozen (by rw [hseq]; simp)]
    exact h.written hseq
  · intro hbusy
    rw [hflush] at hbusy
    have hne := h.pending hbusy
    intro hnil
    have hhead := hfrozen hbusy
    rw [hnil, List.head?_nil] at hhead
    exact hne (List.head?_eq_none_iff.1 hhead.symm)

theorem freeze (h : p.Filed d) : p.frozen.Filed (d.openWal (p.walSeq + 1)) := by
  refine h.congr (Disk.openWal_files d _) (Disk.openWal_manifest d _) rfl rfl (fun hbusy => ?_)
  show (p.engine.frozen ++ [(p.walSeq, p.engine.memtable)]).head? = _
  rw [List.head?_append_of_ne_nil _ (h.pending hbusy)]

/-- The segment file is written under a number no listed segment has. -/
theorem writeSegment (h : p.Filed d) {f : Nat × MemTable ν} {rest : List (Nat × MemTable ν)}
    (hfrozen : p.engine.frozen = f :: rest) :
    Filed
      { p with
        engine :=
          { p.engine with
            manifest :=
              { p.engine.manifest with nextSegmentId := p.engine.manifest.nextSegmentId + 1 } }
        flush := .written p.engine.manifest.nextSegmentId }
      (d.writeSegment p.engine.manifest.nextSegmentId f.2.values) where
  stored :=
    { numbered := h.stored.numbered
      ids_nodup := h.stored.ids_nodup
      sorted := h.stored.sorted
      backed := by
        intro s hs
        have hlt := (h.stored.numbered hs).2
        have hle := h.next_le
        rw [Disk.rowsAt_writeSegment, if_neg (by omega)]
        exact h.stored.backed hs }
  segments := h.segments
  next_le := Nat.le_succ_of_le h.next_le
  written {seq} hseq := by
    cases hseq
    refine ⟨h.next_le, Nat.lt_succ_self _, fun g hg => ?_⟩
    have hfg : f = g := by simpa [hfrozen] using hg
    rw [Disk.rowsAt_writeSegment, if_pos rfl, hfg]
  pending _ := by simp [hfrozen]

/-- The manifest that lists the written segment is stored. -/
theorem storeManifest [SegmentFile ν] (h : p.Filed d) {f : Nat × MemTable ν}
    {rest : List (Nat × MemTable ν)} (hfrozen : p.engine.frozen = f :: rest) {seq : Nat}
    (hflush : p.flush = .written seq) (hsorted : f.2.values.Pairwise (fun a b => a.key < b.key))
    (now : Int64) :
    Filed
      { p with
        engine := { p.engine with manifest := p.listing seq now f.2.values }, flush := .listed }
      (d.storeManifest (p.listing seq now f.2.values)) := by
  obtain ⟨hle, hlt, hrows⟩ := h.written hflush
  have hnew : ∀ s ∈ p.engine.manifest.segments, s.id < seq ∧ s.file < seq := by
    intro s hs
    rw [h.segments] at hs
    exact ⟨Nat.lt_of_lt_of_le (h.stored.numbered hs).1 hle,
      Nat.lt_of_lt_of_le (h.stored.numbered hs).2 hle⟩
  -- A listed segment is one of the old ones or the one just written.
  have hcases : ∀ s ∈ (p.listing seq now f.2.values).segments,
      s ∈ d.manifest.segments ∨ s = flushedSegment seq now f.2.values := by
    intro s hs
    rcases List.mem_append.1 hs with hs | hs
    · exact .inl (h.segments ▸ hs)
    · exact .inr (List.mem_singleton.1 hs)
  refine ⟨⟨?_, ?_, ?_, ?_⟩, rfl, Nat.le_refl _, fun hseq => (by cases hseq), fun _ => ?_⟩
  · intro s hs
    show s.id < p.engine.manifest.nextSegmentId ∧ s.file < p.engine.manifest.nextSegmentId
    rcases hcases s hs with hs | rfl
    · have hnum := h.stored.numbered hs
      exact ⟨by omega, by omega⟩
    · exact ⟨hlt, hlt⟩
  · refine Engine.ids_nodup_concat ?_ (fun s hs => (hnew s hs).1)
    rw [h.segments]
    exact h.stored.ids_nodup
  · intro s hs
    rcases hcases s hs with hs | rfl
    · exact h.stored.sorted hs
    · exact hsorted
  · intro s hs
    show d.rowsAt s.file = s.rows
    rcases hcases s hs with hs | rfl
    · exact h.stored.backed hs
    · exact hrows f (by simp [hfrozen])
  · show p.engine.frozen ≠ []
    simp [hfrozen]

theorem segVersions_listing [SegmentFile ν] (h : p.Filed d) {seq : Nat}
    (hflush : p.flush = .written seq) (now : Int64) (rows : List (Record ν)) (key : String) :
    Engine.segVersions (p.listing seq now rows).segments key =
      (rowOf rows key).toList ++ Engine.segVersions p.engine.manifest.segments key := by
  refine Engine.segVersions_concat ?_ (fun s hs => ?_) key
  · rw [h.segments]
    exact h.stored.ids_nodup
  · rw [h.segments] at hs
    exact Nat.lt_of_lt_of_le (h.stored.numbered hs).1 (h.written hflush).1

theorem removeWal (h : p.Filed d) (seq : Nat) (rest : List (Nat × MemTable ν)) :
    Filed { p with engine := { p.engine with frozen := rest }, flush := .idle }
      (d.removeWal seq) where
  stored := ⟨h.stored.numbered, h.stored.ids_nodup, h.stored.sorted, h.stored.backed⟩
  segments := h.segments
  next_le := h.next_le
  written hseq := by cases hseq
  pending hbusy := absurd rfl hbusy

end Process.Filed

end Girder
