import Girder.Layout
import Girder.Lib.Journal

/-!
# Serving — an open store, and what a crash leaves of it

`Closed d history` says that replaying the logs of a directory over its segments restores the
history, key by key (`Layering.Durable`).  `Serving` is the invariant of an open store: segments,
frozen memtables and memtable hold consecutive parts of the history, each covered by a log as long
as it is not in a listed segment.

`Serving.step` carries the invariant through every operation and `Serving.crash` back to a closed
directory.  The crash has to be *clean* (`Process.cleanStep`): between storing the manifest and
deleting the log the same writes are held twice, and replaying an increment twice counts it twice.
`Serving.tiles_versions` is what reads rest on.
-/

namespace Girder

open Lib

variable {ν : Type}

/-! ## Rows of one key -/

/-- The rows of a key. -/
def keyRows (key : String) (rows : List (Record ν)) : List (Record ν) :=
  rows.filter (fun r => decide (r.key = key))

@[simp]
theorem keyRows_append (key : String) (xs ys : List (Record ν)) :
    keyRows key (xs ++ ys) = keyRows key xs ++ keyRows key ys :=
  List.filter_append xs ys

@[simp]
theorem recordsOf_append (key : String) (xs ys : List (Write ν)) :
    recordsOf key (xs ++ ys) = recordsOf key xs ++ recordsOf key ys := by
  simp [recordsOf]

@[simp] theorem recordsOf_nil (key : String) : recordsOf key ([] : List (Write ν)) = [] := rfl

theorem keyRows_records (key : String) (ws : List (Write ν)) :
    keyRows key (ws.map Write.record) = recordsOf key ws := rfl

theorem Request.writes_ok {req : Request ν} (h : req.Unreserved) : ∀ w ∈ req.writes, w.Ok := by
  intro w hw
  cases req with
  | putBatch records =>
      obtain ⟨r, hr, rfl⟩ := List.mem_map.1 hw
      exact h r hr
  | delete key timestamp =>
      have hw' : w = .put (Record.tombstone key timestamp) := by
        simpa [writes, msg, WriterMsg.writes] using hw
      rw [hw']
      show Record.isDelta (Record.tombstone key timestamp) = false
      simp [Record.isDelta, Record.tombstone, Record.deltaLabel_ne_tombstoneLabel.symm]
  | incr key timestamp deltas =>
      have hw' : w = .incr (Record.delta key timestamp deltas) := by
        simpa [writes, msg, WriterMsg.writes] using hw
      rw [hw']
      constructor
      · simp [Record.isDelta, Record.delta]
      · simp [Record.isTombstone, Record.delta, Record.deltaLabel_ne_tombstoneLabel]

/-! ## Clean runs -/

namespace Process

/-- A crash would leave the writes of the key in the logs and somewhere else as well: in the segment
a flush has listed, or among what recovery has put back. -/
def overlaps (p : Process ν) (key : String) : Bool :=
  match p.stage with
  | .serving => (p.listedVersion key).isSome
  | .recovering _ =>
      match p.writer with
      | .appending msg n => (rowOf (msg.records.take n) key).isSome
      | _ => true
  | .deleting _ => true

/-- No frame is too long to be replayed, and when a crash comes the logs hold a full record of every
key they hold that is held elsewhere as well. -/
def cleanStep [FrameBody ν] (p : Process ν) (d : Disk ν) : Action ν → Bool
  | .appendFrame => p.writer.next?.all (fun r => decide r.Fits)
  | .crash _ =>
      d.logRecords.all (fun r =>
        !p.overlaps r.key || (keyRows r.key d.logRecords).any (fun full => !full.isDelta))
  | _ => true

end Process

namespace Store

variable [Unicode] [Numeral ν] [SegmentFile ν] [FrameBody ν]

def clean (s : Store ν) (a : Action ν) : Bool :=
  match s.process with
  | none => true
  | some p => p.cleanStep s.disk a

/-- Every operation of the run is clean in the state it starts from. -/
def cleanRun (s : Store ν) : List (Action ν) → Bool
  | [] => true
  | a :: as =>
      s.clean a &&
        match s.step a with
        | none => true
        | some s' => s'.cleanRun as

end Store

/-- After a clean crash the next open recovers no increment of an overlapping key. -/
theorem Process.isDelta_of_clean [Numeral ν] [FrameBody ν] {p : Process ν} {d : Disk ν}
    {torn : Bool} (h : p.cleanStep d (.crash torn) = true) {key : String}
    (hover : p.overlaps key = true) {r : Record ν}
    (hr : (recordLayers ν).replay (keyRows key d.logRecords) = some r) :
    r.isDelta = false := by
  have hne : keyRows key d.logRecords ≠ [] := by
    intro hnil
    rw [hnil] at hr
    cases hr
  -- The key has a record in the logs, so a clean crash leaves a full one there.
  obtain ⟨first, hfirst⟩ := List.exists_mem_of_ne_nil _ hne
  obtain ⟨hmem, hkey⟩ := List.mem_filter.1 hfirst
  have hkey' : first.key = key := by simpa using hkey
  have hall := List.all_eq_true.1 h first hmem
  rw [hkey', hover, Bool.not_true, Bool.false_or] at hall
  obtain ⟨full, hfull, hdelta⟩ := List.any_eq_true.1 hall
  have hdelta' : full.isDelta = false := by simpa using hdelta
  exact Layering.isPartial_replay_of_mem mergeDelta_fullBase hfull hdelta' hr

/-! ## Closed stores -/

section Invariants

variable [Unicode] [Numeral ν] [FrameBody ν]

omit [Unicode] [Numeral ν] [FrameBody ν] in
theorem keyRows_plain {rows : List (Record ν)} (h : ∀ r ∈ rows, r.PlainDelta) (key : String) :
    ∀ r ∈ keyRows key rows, r.PlainDelta :=
  fun r hr => h r (List.mem_filter.1 hr).1

/-- A directory nobody has open: replaying its logs over its segments restores the history. -/
structure Closed (d : Disk ν) (history : List (Write ν)) : Prop where
  ascending : d.Ascending
  stored : d.Stored
  plain : ∀ r ∈ d.logRecords, r.PlainDelta
  durable (key : String) : (recordLayers ν).Durable
    (Engine.segVersions d.manifest.segments key) (keyRows key d.logRecords) (recordsOf key history)

omit [Unicode] in
theorem closed_empty : Closed ({} : Disk ν) [] where
  ascending := List.Pairwise.nil
  stored :=
    { numbered := fun hs => by cases hs
      ids_nodup := List.nodup_nil
      sorted := fun hs => by cases hs
      backed := fun hs => by cases hs }
  plain r hr := by cases hr
  durable key := Layering.Durable.of_tiles Layering.Tiles.nil

/-- What survives a crash depends on the directory only through its logs and its manifest. -/
theorem closed_of_tear {p : Process ν} {d : Disk ν} {base : List (Nat × List (Frame ν))}
    {logs : List (Nat × List (Write ν))} {cur : List (Write ν)} {history : List (Write ν)}
    (hlayout : p.Layout d base logs cur) (hfiled : p.Filed d) (torn : Bool)
    (hplain : ∀ r ∈ d.logRecords, r.PlainDelta)
    (hdurable : ∀ key, (recordLayers ν).Durable
      (Engine.segVersions p.engine.manifest.segments key) (keyRows key d.logRecords)
        (recordsOf key history)) :
    Closed (p.tear torn d) history := by
  have hfiles : (p.tear torn d).files = d.files ∧ (p.tear torn d).manifest = d.manifest := by
    unfold Process.tear
    split <;> exact ⟨rfl, rfl⟩
  have hfiled' : p.Filed (p.tear torn d) :=
    hfiled.congr hfiles.1 hfiles.2 rfl rfl (fun _ => rfl)
  refine ⟨Process.ascending_tear hlayout.ascending p torn, hfiled'.stored, ?_, fun key => ?_⟩
  · rw [hlayout.logRecords_tear]
    exact hplain
  · rw [hlayout.logRecords_tear, hfiles.2, ← hfiled.segments]
    exact hdurable key

/-! ## Serving -/

/-- The writer works on the call in flight. -/
def Writer.Serves : Writer ν → Option (Request ν) → Prop
  | .idle, pending => pending = none
  | .appending msg _, pending => ∃ req, pending = some req ∧ req.msg = msg
  | .applied msg, pending => ∃ req, pending = some req ∧ req.msg = msg

/-- An open store: segments, frozen memtables and memtable hold the history in this order. -/
structure Serving (p : Process ν) (d : Disk ν) (history : List (Write ν))
    (base : List (Nat × List (Frame ν))) (logs : List (Nat × List (Write ν)))
    (cur : List (Write ν)) : Prop where
  stage : p.stage = .serving
  layout : p.Layout d base logs cur
  filed : p.Filed d
  leftovers : base.flatMap (fun w => Wal.replay w.2) = []
  ok : ∀ w ∈ logs.flatMap Prod.snd ++ cur, w.Ok
  tiled (key : String) : ∃ vs flushed, (recordLayers ν).Tiles vs flushed ∧
    Engine.segVersions p.engine.manifest.segments key = (p.listedVersion key).toList ++ vs ∧
      flushed ++ recordsOf key (logs.flatMap Prod.snd ++ cur) =
        recordsOf key (history ++ p.writer.visible)

omit [Unicode] [Numeral ν] [FrameBody ν] in
theorem listedVersion_congr {p p' : Process ν} (hflush : p'.flush = p.flush)
    (hfrozen : p.flush ≠ .idle → p'.engine.frozen.head? = p.engine.frozen.head?) (key : String) :
    p'.listedVersion key = p.listedVersion key := by
  unfold Process.listedVersion
  rw [hflush]
  cases hp : p.flush with
  | idle => rfl
  | written seq => rfl
  | listed =>
      have hhead := hfrozen (by rw [hp]; simp)
      cases hq : p'.engine.frozen with
      | nil =>
          rw [hq, List.head?_nil] at hhead
          rw [List.head?_eq_none_iff.1 hhead.symm]
      | cons f rest =>
          cases hr : p.engine.frozen with
          | nil => simp [hq, hr] at hhead
          | cons g rest' =>
              have hfg : f = g := by simpa [hq, hr] using hhead
              rw [hfg]

namespace Serving

variable {p : Process ν} {d : Disk ν} {history : List (Write ν)}
  {base : List (Nat × List (Frame ν))} {logs : List (Nat × List (Write ν))} {cur : List (Write ν)}

theorem cur_ok (h : Serving p d history base logs cur) : ∀ w ∈ cur, w.Ok :=
  fun w hw => h.ok w (List.mem_append_right _ hw)

/-- Operations of the writer that leave segments and frozen memtables alone. -/
theorem of_writer (h : Serving p d history base logs cur) {p' : Process ν} {d' : Disk ν}
    {history' cur' : List (Write ν)} (hlayout : p'.Layout d' base logs cur')
    (hfiled : p'.Filed d') (hstage : p'.stage = p.stage)
    (hmanifest : p'.engine.manifest = p.engine.manifest) (hflush : p'.flush = p.flush)
    (hfrozen : p'.engine.frozen = p.engine.frozen) (hok : ∀ w ∈ cur', w.Ok)
    (hhist : ∃ more, cur' = cur ++ more ∧
      ∀ key, recordsOf key (history ++ p.writer.visible ++ more) =
        recordsOf key (history' ++ p'.writer.visible)) :
    Serving p' d' history' base logs cur' where
  stage := hstage.trans h.stage
  layout := hlayout
  filed := hfiled
  leftovers := h.leftovers
  ok w hw := by
    rcases List.mem_append.1 hw with hw | hw
    · exact h.ok w (List.mem_append_left _ hw)
    · exact hok w hw
  tiled key := by
    obtain ⟨vs, flushed, htiles, hsegs, hsplit⟩ := h.tiled key
    obtain ⟨more, rfl, hmore⟩ := hhist
    refine ⟨vs, flushed, htiles, ?_, ?_⟩
    · rw [hmanifest, hsegs, listedVersion_congr hflush (fun _ => by rw [hfrozen])]
    · rw [← hmore key, recordsOf_append key _ more, ← hsplit]
      simp

theorem freeze (h : Serving p d history base logs cur) (hwriter : p.writer.logged = []) :
    Serving p.frozen (d.openWal (p.walSeq + 1)) history base (logs ++ [(p.walSeq, cur)]) [] where
  stage := h.stage
  layout := h.layout.freeze hwriter
  filed := h.filed.freeze
  leftovers := h.leftovers
  ok w hw := h.ok w (by simpa [List.flatMap_append] using hw)
  tiled key := by
    obtain ⟨vs, flushed, htiles, hsegs, hsplit⟩ := h.tiled key
    refine ⟨vs, flushed, htiles, ?_, ?_⟩
    · have hlisted : p.frozen.listedVersion key = p.listedVersion key := by
        have hhead : p.flush ≠ .idle → p.frozen.engine.frozen.head? = p.engine.frozen.head? :=
          fun hbusy => List.head?_append_of_ne_nil _ (h.filed.pending hbusy)
        have hflush : p.frozen.flush = p.flush := rfl
        exact listedVersion_congr hflush hhead key
      rw [hlisted]
      exact hsegs
    · have hvisible : p.frozen.writer.visible = p.writer.visible := rfl
      simpa [List.flatMap_append, hvisible] using hsplit

theorem writeSegment (h : Serving p d history base logs cur) (hflush : p.flush = .idle)
    {f : Nat × MemTable ν} {rest : List (Nat × MemTable ν)}
    (hfrozen : p.engine.frozen = f :: rest) :
    Serving
      { p with
        engine :=
          { p.engine with
            manifest :=
              { p.engine.manifest with nextSegmentId := p.engine.manifest.nextSegmentId + 1 } }
        flush := .written p.engine.manifest.nextSegmentId }
      (d.writeSegment p.engine.manifest.nextSegmentId f.2.values) history base logs cur where
  stage := h.stage
  layout := h.layout.congr rfl rfl rfl rfl rfl
  filed := h.filed.writeSegment hfrozen
  leftovers := h.leftovers
  ok := h.ok
  tiled key := by
    obtain ⟨vs, flushed, htiles, hsegs, hsplit⟩ := h.tiled key
    have hnone : p.listedVersion key = none := by simp [Process.listedVersion, hflush]
    rw [hnone] at hsegs
    exact ⟨vs, flushed, htiles, hsegs, hsplit⟩

theorem storeManifest [SegmentFile ν] (h : Serving p d history base logs cur) {seq : Nat}
    (hflush : p.flush = .written seq) {f : Nat × MemTable ν} {rest : List (Nat × MemTable ν)}
    (hfrozen : p.engine.frozen = f :: rest) (now : Int64) :
    Serving
      { p with
        engine := { p.engine with manifest := p.listing seq now f.2.values }, flush := .listed }
      (d.storeManifest (p.listing seq now f.2.values)) history base logs cur := by
  have hconsistent : f.2.Consistent := by
    have hmem : f ∈ p.engine.frozen := by simp [hfrozen]
    rw [h.layout.frozen] at hmem
    obtain ⟨log, -, rfl⟩ := List.mem_map.1 hmem
    exact memtableOf_consistent log.2
  refine ⟨h.stage, h.layout.congr rfl rfl rfl rfl rfl,
    h.filed.storeManifest hfrozen hflush (MemTable.values_sorted hconsistent) now, h.leftovers,
    h.ok, fun key => ?_⟩
  obtain ⟨vs, flushed, htiles, hsegs, hsplit⟩ := h.tiled key
  refine ⟨vs, flushed, htiles, ?_, hsplit⟩
  have hnone : p.listedVersion key = none := by simp [Process.listedVersion, hflush]
  rw [hnone] at hsegs
  show Engine.segVersions (p.listing seq now f.2.values).segments key = _
  rw [h.filed.segVersions_listing hflush, hsegs, ← Engine.get_eq_rowOf hconsistent]
  simp [Process.listedVersion, hfrozen]

omit [FrameBody ν] in
/-- What a log's memtable holds. -/
theorem get_log {ws : List (Write ν)} (hws : ∀ w ∈ ws, w.Ok) (key : String) :
    (memtableOf ws).get key = (recordLayers ν).replay (recordsOf key ws) :=
  get_memtableOf (fun w hw _ => hws w hw)

theorem removeWal {log : Nat × List (Write ν)} (h : Serving p d history base (log :: logs) cur)
    (hflush : p.flush = .listed) :
    Serving
      { p with
        engine := { p.engine with frozen := logs.map (fun log => (log.1, memtableOf log.2)) }
        flush := .idle } (d.removeWal log.1) history base logs cur where
  stage := h.stage
  layout := h.layout.removeWal
  filed := h.filed.removeWal log.1 _
  leftovers := h.leftovers
  ok w hw := h.ok w (by
    rw [List.flatMap_cons, List.append_assoc]
    exact List.mem_append_right _ hw)
  tiled key := by
    obtain ⟨vs, flushed, htiles, hsegs, hsplit⟩ := h.tiled key
    have hlisted : p.listedVersion key = (recordLayers ν).replay (recordsOf key log.2) := by
      have hget : (memtableOf log.2).get key = _ :=
        get_log (fun w hw => h.ok w (by simp [hw])) key
      simpa [Process.listedVersion, hflush, h.layout.frozen] using hget
    refine ⟨(p.listedVersion key).toList ++ vs, flushed ++ recordsOf key log.2, ?_, hsegs, ?_⟩
    · rw [hlisted]
      exact htiles.push _
    · simpa using hsplit

/-- The listed segment holds what the oldest log does. -/
theorem listedVersion_cases (h : Serving p d history base logs cur) (key : String) :
    p.listedVersion key = none ∨ ∃ log rest, logs = log :: rest ∧
      p.listedVersion key = (recordLayers ν).replay (recordsOf key log.2) := by
  unfold Process.listedVersion
  split
  · rename_i f fs _ hfrozen
    rw [h.layout.frozen] at hfrozen
    cases hlogs : logs with
    | nil => simp [hlogs] at hfrozen
    | cons log rest =>
        rw [hlogs, List.map_cons] at hfrozen
        rw [← (List.cons.inj hfrozen).1]
        exact .inr ⟨log, rest, rfl, get_log (fun w hw => h.ok w (by simp [hlogs, hw])) key⟩
  · exact .inl rfl

/-- So the logs begin with the writes of the listed segment. -/
theorem exists_listed_part (h : Serving p d history base logs cur) (key : String) :
    ∃ part rest, recordsOf key (logs.flatMap Prod.snd ++ cur) = part ++ rest ∧
      p.listedVersion key = (recordLayers ν).replay part := by
  rcases h.listedVersion_cases key with hnone | ⟨log, rest, rfl, hlisted⟩
  · exact ⟨[], _, rfl, hnone⟩
  · exact ⟨recordsOf key log.2, recordsOf key (rest.flatMap Prod.snd ++ cur), by simp, hlisted⟩

/-- A clean crash keeps what was applied, and of the message in progress what was logged. -/
theorem crash (h : Serving p d history base logs cur) (hlogged : ∀ w ∈ p.writer.logged, w.Ok)
    {torn : Bool} (hclean : p.cleanStep d (.crash torn) = true) :
    Closed (p.tear torn d) (history ++ p.writer.visible ++ p.writer.logged) := by
  have hrecords : d.logRecords =
      ((logs.flatMap Prod.snd ++ cur) ++ p.writer.logged).map Write.record := by
    rw [h.layout.logRecords, h.leftovers, List.nil_append, List.append_assoc]
  have hplain : ∀ r ∈ d.logRecords, r.PlainDelta := by
    rw [hrecords]
    refine plainDelta_of_ok (fun w hw => ?_)
    rcases List.mem_append.1 hw with hw | hw
    · exact h.ok w hw
    · exact hlogged w hw
  refine closed_of_tear h.layout h.filed torn hplain (fun key => ?_)
  obtain ⟨vs, flushed, htiles, hsegs, hsplit⟩ := h.tiled key
  obtain ⟨part, rest, hunflushed, hlisted⟩ := h.exists_listed_part key
  have hkey : keyRows key d.logRecords = part ++ (rest ++ recordsOf key p.writer.logged) := by
    rw [hrecords, keyRows_records, recordsOf_append, hunflushed, List.append_assoc]
  have hhistory : recordsOf key (history ++ p.writer.visible ++ p.writer.logged) =
      flushed ++ (part ++ (rest ++ recordsOf key p.writer.logged)) := by
    rw [recordsOf_append, ← hsplit, hunflushed]
    simp
  rw [hsegs, hlisted, hhistory, hkey]
  apply htiles.durable_of_overlap mergeDelta_keepsPartial
  · rw [← hkey]
    exact keyRows_plain hplain key
  · intro hpart v hv
    -- The key is in the listed segment and in the logs: only a full value may be replayed again.
    have hover : p.overlaps key = true := by
      have hsome : (recordLayers ν).replay part ≠ none :=
        fun hnone => hpart (Layering.replay_eq_none hnone)
      simpa [Process.overlaps, h.stage, hlisted, Option.isSome_iff_ne_none] using hsome
    exact Process.isDelta_of_clean hclean hover (by rw [hkey]; exact hv)

/-! Reads -/

omit [Unicode] [FrameBody ν] in
/-- The frozen memtables continue what the segments hold. -/
theorem tiles_frozen (key : String) :
    ∀ (logs : List (Nat × List (Write ν))) {vs flushed : List (Record ν)},
      (recordLayers ν).Tiles vs flushed →
        (recordLayers ν).Tiles
          (logs.reverse.filterMap (fun log => (recordLayers ν).replay (recordsOf key log.2)) ++ vs)
          (flushed ++ recordsOf key (logs.flatMap Prod.snd)) := by
  intro logs
  induction logs with
  | nil =>
      intro vs flushed h
      simpa using h
  | cons log logs ih =>
      intro vs flushed h
      have hpush := ih (h.push (recordsOf key log.2))
      have hhead : [log].filterMap (fun log => (recordLayers ν).replay (recordsOf key log.2)) =
          ((recordLayers ν).replay (recordsOf key log.2)).toList := by
        cases hr : (recordLayers ν).replay (recordsOf key log.2) <;> simp [hr]
      rw [List.reverse_cons, List.filterMap_append, hhead, List.append_assoc, List.flatMap_cons,
        recordsOf_append, ← List.append_assoc flushed]
      exact hpush

theorem wf (h : Serving p d history base logs cur) : p.engine.WF where
  memtable_consistent := by
    rw [h.layout.memtable]
    exact memtableOf_consistent cur
  frozen_consistent hf := by
    rw [h.layout.frozen] at hf
    obtain ⟨log, -, rfl⟩ := List.mem_map.1 hf
    exact memtableOf_consistent log.2
  ids_nodup := by
    rw [h.filed.segments]
    exact h.filed.stored.ids_nodup
  sorted hs := by
    rw [h.filed.segments] at hs
    exact h.filed.stored.sorted hs

theorem versions_eq (h : Serving p d history base logs cur) (key : String) :
    p.engine.versions key =
      ((recordLayers ν).replay (recordsOf key cur)).toList ++
        (logs.reverse.filterMap (fun log => (recordLayers ν).replay (recordsOf key log.2)) ++
          Engine.segVersions p.engine.manifest.segments key) := by
  have hfrozen : p.engine.frozen.reverse.filterMap (fun f => f.2.get key) =
      logs.reverse.filterMap (fun log => (recordLayers ν).replay (recordsOf key log.2)) := by
    rw [h.layout.frozen, ← List.map_reverse, List.filterMap_map]
    refine List.filterMap_congr (fun log hlog => ?_)
    refine get_log (fun w hw => h.ok w (List.mem_append_left _ ?_)) key
    exact List.mem_flatMap.2 ⟨log, List.mem_reverse.1 hlog, hw⟩
  have hmem : p.engine.memtable.get key = (recordLayers ν).replay (recordsOf key cur) := by
    rw [h.layout.memtable]
    exact get_log h.cur_ok key
  rw [Engine.versions_eq, Engine.memVersions_eq h.wf, hfrozen, hmem, List.append_assoc]

/-- An open store holds every write once, unless a flush has listed an increment whose memtable is
still there. -/
theorem tiles_versions (h : Serving p d history base logs cur) {key : String}
    (hlisted : ∀ r, p.listedVersion key = some r → r.isDelta = false) :
    (recordLayers ν).Tiles (p.engine.versions key)
      (recordsOf key (history ++ p.writer.visible)) := by
  obtain ⟨vs, flushed, htiles, hsegs, hsplit⟩ := h.tiled key
  have hall : (recordLayers ν).Tiles
      (((recordLayers ν).replay (recordsOf key cur)).toList ++
        (logs.reverse.filterMap (fun log => (recordLayers ν).replay (recordsOf key log.2)) ++ vs))
      (recordsOf key (history ++ p.writer.visible)) := by
    rw [← hsplit, recordsOf_append, ← List.append_assoc flushed]
    exact (tiles_frozen key logs htiles).push _
  rw [h.versions_eq, hsegs]
  rcases h.listedVersion_cases key with hnone | ⟨log, rest, rfl, hlog⟩
  · rw [hnone]
    exact hall
  · cases hv : p.listedVersion key with
    | none => exact hall
    | some v =>
        -- The version is in the oldest frozen memtable too, right above its segment.
        rw [hv] at hlog
        simp only [List.reverse_cons, List.filterMap_append, List.filterMap_cons,
          List.filterMap_nil, ← hlog, Option.toList_some, List.append_assoc, List.cons_append,
          List.nil_append] at hall ⊢
        rw [← List.append_assoc] at hall ⊢
        exact hall.of_double (hlisted v hv)

/-! The writer's message -/

/-- A call starts a message. -/
theorem call (h : Serving p d history base logs cur) (hwriter : p.writer = .idle)
    (req : Request ν) :
    Serving { p with writer := .appending req.msg 0 } d history base logs cur := by
  refine h.of_writer (h.layout.congr rfl rfl ?_ rfl rfl)
    (h.filed.congr rfl rfl rfl rfl (fun _ => rfl)) rfl rfl rfl rfl h.cur_ok ⟨[], by simp, ?_⟩
  · simp [Writer.logged, hwriter]
  · simp [Writer.visible, hwriter]

/-- A frame reaches the log and nothing else. -/
theorem appendFrame (h : Serving p d history base logs cur) {msg : WriterMsg ν} {n : Nat}
    {r : Record ν} (hwriter : p.writer = .appending msg n) (hr : msg.records[n]? = some r)
    (hfits : r.Fits) :
    Serving { p with writer := .appending msg (n + 1) } (d.appendFrame p.walSeq (.whole r)) history
      base logs cur := by
  refine h.of_writer (h.layout.appendFrame hwriter hr hfits)
    (h.filed.congr rfl rfl rfl rfl (fun _ => rfl)) rfl rfl rfl rfl h.cur_ok ⟨[], by simp, ?_⟩
  simp [Writer.visible, hwriter]

/-- The message becomes visible as a whole. -/
theorem apply (h : Serving p d history base logs cur) {msg : WriterMsg ν}
    (hwriter : p.writer = .appending msg msg.records.length) (hok : ∀ w ∈ msg.writes, w.Ok) :
    Serving
      { p with
        engine :=
          { p.engine with memtable := msg.writes.foldl MemTable.applyWrite p.engine.memtable }
        writer := .applied msg } d history base logs (cur ++ msg.writes) := by
  refine h.of_writer (h.layout.apply hwriter) (h.filed.congr rfl rfl rfl rfl (fun _ => rfl))
    rfl rfl rfl rfl ?_ ⟨msg.writes, rfl, ?_⟩
  · intro w hw
    rcases List.mem_append.1 hw with hw | hw
    · exact h.cur_ok w hw
    · exact hok w hw
  · simp [Writer.visible, hwriter]

/-- The acknowledgement adds to the history what was visible already. -/
theorem ack (h : Serving p d history base logs cur) {msg : WriterMsg ν}
    (hwriter : p.writer = .applied msg) :
    Serving { p with writer := .idle } d (history ++ msg.writes) base logs cur := by
  refine h.of_writer (h.layout.congr rfl rfl ?_ rfl rfl)
    (h.filed.congr rfl rfl rfl rfl (fun _ => rfl)) rfl rfl rfl rfl h.cur_ok ⟨[], by simp, ?_⟩
  · simp [Writer.logged, hwriter]
  · simp [Writer.visible, hwriter]

/-- One operation of an open store. -/
theorem step [SegmentFile ν] (h : Serving p d history base logs cur) {pending : Option (Request ν)}
    (hserves : p.writer.Serves pending) (hpending : ∀ req, pending = some req → req.Unreserved)
    {a : Action ν} (hclean : p.cleanStep d a = true) {q : Disk ν × Process ν}
    (hstep : p.step d a = some q) :
    ∃ history' pending' logs' cur', Answers history pending a history' pending' ∧
      q.2.writer.Serves pending' ∧ Serving q.2 q.1 history' base logs' cur' := by
  cases a with
  | «open» config => simp [Process.step] at hstep
  | crash torn => simp [Process.step] at hstep
  | call req =>
      obtain ⟨-, hwriter, rfl⟩ := Process.step_call hstep
      rw [hwriter] at hserves
      exact ⟨history, some req, logs, cur, ⟨hserves, rfl, rfl⟩, ⟨req, rfl, rfl⟩, h.call hwriter req⟩
  | appendFrame =>
      obtain ⟨msg, n, r, hwriter, hr, rfl⟩ := Process.step_appendFrame hstep
      have hfits : r.Fits := by
        simpa [Process.cleanStep, hwriter, Writer.next?, hr] using hclean
      rw [hwriter] at hserves
      exact ⟨history, pending, logs, cur, ⟨rfl, rfl⟩, hserves, h.appendFrame hwriter hr hfits⟩
  | apply =>
      obtain ⟨msg, hwriter, rfl⟩ := Process.step_apply hstep
      rw [hwriter] at hserves
      obtain ⟨req, hreq, rfl⟩ := hserves
      have hok : ∀ w ∈ req.msg.writes, w.Ok := Request.writes_ok (hpending req hreq)
      exact ⟨history, pending, logs, cur ++ req.msg.writes, ⟨rfl, rfl⟩, ⟨req, hreq, rfl⟩,
        h.apply hwriter hok⟩
  | freeze =>
      obtain ⟨-, hwriter, rfl⟩ := Process.step_freeze hstep
      exact ⟨history, pending, _, _, ⟨rfl, rfl⟩, hserves, h.freeze hwriter⟩
  | ack =>
      obtain ⟨-, msg, hwriter, rfl⟩ := Process.step_ack hstep
      rw [hwriter] at hserves
      obtain ⟨req, rfl, rfl⟩ := hserves
      exact ⟨history ++ req.writes, none, logs, cur, ⟨req, rfl, rfl, rfl⟩, rfl, h.ack hwriter⟩
  | writeSegment =>
      obtain ⟨hflush, f, rest, hfrozen, rfl⟩ := Process.step_writeSegment hstep
      exact ⟨history, pending, logs, cur, ⟨rfl, rfl⟩, hserves, h.writeSegment hflush hfrozen⟩
  | storeManifest now =>
      obtain ⟨seq, f, rest, hflush, hfrozen, rfl⟩ := Process.step_storeManifest hstep
      exact ⟨history, pending, logs, cur, ⟨rfl, rfl⟩, hserves, h.storeManifest hflush hfrozen now⟩
  | removeWal =>
      obtain ⟨hflush, f, rest, hfrozen, rfl⟩ := Process.step_removeWal hstep
      -- The frozen memtable that goes is the one of the oldest log.
      have hlogs := h.layout.frozen
      rw [hfrozen] at hlogs
      cases logs with
      | nil => simp at hlogs
      | cons log logs =>
          obtain ⟨rfl, rfl⟩ := List.cons.inj hlogs
          exact ⟨history, pending, logs, cur, ⟨rfl, rfl⟩, hserves, h.removeWal hflush⟩
  -- The rest are operations of a recovery, which is over.
  | reappended =>
      obtain ⟨seqs, msg, hstage, -⟩ := Process.step_reappended hstep
      simp [h.stage] at hstage
  | checkpointed =>
      obtain ⟨seqs, hstage, -⟩ := Process.step_checkpointed hstep
      simp [h.stage] at hstage
  | removeLeftover =>
      obtain ⟨seq, rest, hstage, -⟩ := Process.step_removeLeftover hstep
      simp [h.stage] at hstage
  | opened =>
      obtain ⟨hstage, -⟩ := Process.step_opened hstep
      simp [h.stage] at hstage

end Serving

end Invariants

end Girder
