import Girder.Lib.Runs
import Girder.Groom
import Girder.Process
import Girder.Reclaim
import Girder.Rewrite

/-!
# Upkeep — the maintenance passes, one I/O operation at a time

A `Bench` is what the maintenance actor works on: the shared engine with its in-memory manifest, and
the segment files of the hot and the cold directory, the pull cache and the object store.  Each pass
is a script of operations computed from the bench it starts on; an operation that fails ends it.

A manifest entry carries the rows its file was written with, and a script is computed from them; that
a listed file holds these rows wherever it is read is an invariant of every run (`Bench.Readable`).
-/

namespace Girder

open Lib

variable {ν : Type}

/-! ## Files -/

/-- The directories a segment's bytes can be in, and the object store. -/
inductive Place
  | hot
  | cold
  | pull
  | store
  deriving DecidableEq, Repr

/-- `segment_path`: a remote segment is looked for in the pull cache. -/
def Tier.place : Tier → Place
  | hot => .hot
  | cold => .cold
  | remote => .pull

/-- What a segment file holds. -/
structure FileData (ν : Type) where
  version : Nat
  rows : List (Record ν)

/-- The content an entry's file was written with. -/
def Segment.data (s : Segment ν) : FileData ν := ⟨s.version, s.rows⟩

/-- `SegmentMeta::cache_key`: the sequence number in the file name. -/
def Segment.cacheKey (s : Segment ν) : Nat := s.file

/-- Segment files by place and sequence number. -/
abbrev Files (ν : Type) := Place → Nat → Option (FileData ν)

/-- Put a file there, or take it away. -/
def Files.set (files : Files ν) (place : Place) (file : Nat) (data : Option (FileData ν)) : Files ν :=
  fun p f => if p = place ∧ f = file then data else files p f

theorem Files.set_apply (files : Files ν) (place p : Place) (file f : Nat)
    (data : Option (FileData ν)) :
    files.set place file data p f = if p = place ∧ f = file then data else files p f := rfl

@[simp]
theorem Files.set_same (files : Files ν) (place : Place) (file : Nat) (data : Option (FileData ν)) :
    files.set place file data place file = data := if_pos ⟨rfl, rfl⟩

theorem Files.set_of_ne (files : Files ν) {place p : Place} {file f : Nat}
    (data : Option (FileData ν)) (h : p ≠ place ∨ f ≠ file) :
    files.set place file data p f = files p f := by
  refine if_neg ?_
  rintro ⟨rfl, rfl⟩
  rcases h with h | h <;> exact h rfl

/-- What tiering is configured with. -/
structure Tiering where
  hotTtlNanos : Int64
  remoteTtlNanos : Int64
  /-- Is an object store injected? -/
  hasStore : Bool
  /-- Are the two directories on one file system? -/
  sameFs : Bool

/-- The state the maintenance actor works on. -/
structure Bench (ν : Type) where
  engine : Engine ν
  files : Files ν
  /-- The files this process has met: those listed when it opened the store, and those it wrote. -/
  met : List Nat := []

namespace Bench

def segments (b : Bench ν) : List (Segment ν) := b.engine.manifest.segments

def next (b : Bench ν) : Nat := b.engine.manifest.nextSegmentId

end Bench

/-! ## Operations -/

/-- One operation of a pass. -/
inductive Op (ν : Type)
  /-- Open or read a segment at its path. -/
  | read (s : Segment ν)
  | alloc
  | write (place : Place) (file : Nat) (data : FileData ν)
  /-- Take the segments of these ids out, add the outputs, and store the manifest. -/
  | swap (ids : List Nat) (outputs : List (Segment ν))
  /-- Change the tier of an entry and store the manifest. -/
  | setTier (id : Nat) (tier : Tier)
  | remove (place : Place) (file : Nat)
  /-- Move a file from the hot to the cold directory. -/
  | rename (s : Segment ν)
  | copy (s : Segment ν)
  /-- Remove the hot file behind a copy. -/
  | removeSource (s : Segment ν)
  /-- Read the cold file and upload it. -/
  | put (s : Segment ν)
  | popFrozen
  | setCursor (id : Nat)
  | fail (e : GirderError)

namespace Manifest

/-- The manifest with some segments taken out and others added. -/
def swap (m : Manifest ν) (ids : List Nat) (outputs : List (Segment ν)) : Manifest ν :=
  { m with segments := m.segments.filter (fun s => !ids.contains s.id) ++ outputs }

def setTier (m : Manifest ν) (id : Nat) (tier : Tier) : Manifest ν :=
  { m with
    segments := m.segments.map (fun s => if s.id = id then { s with tier := tier } else s) }

end Manifest

namespace Bench

/-- Open a file that may be missing. -/
def open? (b : Bench ν) (place : Place) (file : Nat) : Except GirderError (FileData ν) :=
  match b.files place file with
  | some data => .ok data
  | none => .error (.io "NotFound")

def withManifest (b : Bench ν) (m : Manifest ν) : Bench ν :=
  { b with engine := { b.engine with manifest := m } }

/-- What one operation does.  Whether a remote segment is in the pull cache when it is read is left to
`perform`. -/
def exec (b : Bench ν) : Op ν → Except GirderError (Bench ν)
  | .read s =>
      if s.tier = .remote then .ok b else (b.open? s.tier.place s.file).map (fun _ => b)
  | .alloc => .ok (b.withManifest { b.engine.manifest with nextSegmentId := b.next + 1 })
  | .write place file data =>
      .ok { b with files := b.files.set place file (some data), met := file :: b.met }
  | .swap ids outputs => .ok (b.withManifest (b.engine.manifest.swap ids outputs))
  | .setTier id tier => .ok (b.withManifest (b.engine.manifest.setTier id tier))
  | .remove place file => .ok { b with files := b.files.set place file none }
  | .rename s =>
      (b.open? .hot s.file).map (fun data =>
        { b with files := (b.files.set .cold s.file (some data)).set .hot s.file none })
  | .copy s =>
      (b.open? .hot s.file).map (fun data =>
        { b with files := b.files.set .cold s.file (some data) })
  | .removeSource s =>
      (b.open? .hot s.file).map (fun _ => { b with files := b.files.set .hot s.file none })
  | .put s =>
      (b.open? .cold s.file).map (fun data =>
        { b with files := b.files.set .store s.file (some data) })
  | .popFrozen => .ok { b with engine := { b.engine with frozen := b.engine.frozen.tail } }
  | .setCursor id => .ok { b with engine := { b.engine with reclaimCursor := id } }
  | .fail e => .error e

/-- Perform one operation: every read needs its file. -/
def perform (b : Bench ν) : Op ν → Except GirderError (Bench ν)
  | .read s => (b.open? s.tier.place s.file).map (fun _ => b)
  | op => b.exec op

/-- The operation as a partial step. -/
def step (b : Bench ν) (op : Op ν) : Option (Bench ν) := (b.exec op).toOption

/-- A script, up to the first operation that fails. -/
def runOps : List (Op ν) → Bench ν → Bench ν × Except GirderError Unit
  | [], b => (b, .ok ())
  | op :: ops, b =>
      match b.perform op with
      | .ok b' => runOps ops b'
      | .error e => (b, .error e)

end Bench

/-- Does the operation store the manifest? -/
def Op.stores : Op ν → Bool
  | .swap _ _ => true
  | .setTier _ _ => true
  | _ => false

/-! ## Scripts of the passes -/

/-- `drop_segment_file`. -/
def dropFile (t : Tiering) (s : Segment ν) : List (Op ν) :=
  match s.tier with
  | .remote => (if t.hasStore then [.remove .store s.file] else []) ++ [.remove .pull s.file]
  | _ => [.remove s.tier.place s.file]

/-- Allocate a name for each output and write it. -/
def outputOps : Nat → List (Segment ν) → List (Op ν)
  | _, [] => []
  | next, s :: outputs =>
      List.replicate (s.file + 1 - next) .alloc ++ .write s.tier.place s.file s.data ::
        outputOps (s.file + 1) outputs

namespace Engine

section Scripts

variable [Numeral ν] [SegmentFile ν]

/-- `flush_pending`: each frozen memtable becomes a segment. -/
def flushOps (clock : Nat → Int64) : Nat → List (Nat × MemTable ν) → List (Op ν)
  | _, [] => []
  | next, f :: frozen =>
      let s := Process.flushedSegment next (clock next) f.2.values
      outputOps next [s] ++ [.swap [] [s], .popFrozen] ++ flushOps clock (next + 1) frozen

/-- `compact_run`. -/
def compactRunOps (t : Tiering) (e : Engine ν) (run : List (Segment ν)) (purge : Option String)
    (now : Int64) : List (Op ν) :=
  let outputs := e.outputs run purge now
  (sortAsc Segment.id run).map Op.read ++ outputOps e.manifest.nextSegmentId outputs ++
    [.swap (run.map Segment.id) outputs] ++ run.flatMap (dropFile t)

def compactOps (t : Tiering) (e : Engine ν) (now : Int64) : List (Op ν) :=
  match chooseRun e.config e.manifest.segments with
  | none => []
  | some run => e.compactRunOps t run none now

/-- The check of `purge_key` stops at the first delta-flagged row of the key. -/
def purgeCheckOps (key : String) : List (Segment ν) → List (Op ν)
  | [] => []
  | m :: rest =>
      .read m ::
        if m.rows.any (fun r => decide (r.key = key) && r.isDelta) then
          [.fail (.config "purge_key refuses counter (delta-flagged) keys")]
        else purgeCheckOps key rest

def purgeOps (t : Tiering) (e : Engine ν) (key : String) (now : Int64) : List (Op ν) :=
  let run := e.purgeRun key
  if run.isEmpty then [] else purgeCheckOps key run ++ e.compactRunOps t run (some key) now

/-- The older segments an audit opens, and what it knows of its rows afterwards. -/
def olderReads : List (Segment ν) → List AuditRow → List (Segment ν) × List AuditRow
  | [], rows => ([], rows)
  | m :: older, rows =>
      if rows.any (needsBelow m) then
        let rest := olderReads older (rows.map (auditOlderRow m m.version))
        (m :: rest.1, rest.2)
      else olderReads older rows

/-- The segments an audit opens as evidence, and its rows at the end. -/
def evidence (e : Engine ν) (cand : Segment ν) : List (Segment ν) × List AuditRow :=
  let rows := (auditStart cand).map (newerRow (e.newerEvidence cand))
  if rows.any AuditRow.tomb then
    let older := olderReads (e.olderEvidence cand) rows
    (e.newerEvidence cand ++ older.1, older.2)
  else (e.newerEvidence cand, rows)

/-- Replace a segment by one with other rows in its slot, or drop it when none are left. -/
def rewriteOps (e : Engine ν) (s : Segment ν) (rows : List (Record ν)) (drop : List (Op ν)) :
    List (Op ν) :=
  if rows.isEmpty then .swap [s.id] [] :: drop
  else
    let output := e.rewrittenSegment s rows
    outputOps e.manifest.nextSegmentId [output] ++
      [.swap [s.id] [output], .remove s.tier.place s.file]

/-- `reclaim_sealed`. -/
def reclaimOps (t : Tiering) (e : Engine ν) : List (Op ν) :=
  match e.reclaimPick with
  | none => []
  | some cand =>
      [.setCursor cand.id, .read cand] ++
        if cand.version ≠ 2 ∨ cand.rows.length = 0 then []
        else
          let audited := e.evidence cand
          audited.1.map Op.read ++
            if audited.2.countP AuditRow.dead * 2 < audited.2.length then []
            else
              let deadKeys := (audited.2.filter AuditRow.dead).map AuditRow.key
              .read cand ::
                e.rewriteOps cand (cand.rows.filter (fun r => !deadKeys.contains r.key))
                  (dropFile t cand)

/-- The rows of a candidate that are kept. -/
def groomedRows (e : Engine ν) (now : Int64) (m : Segment ν) : List (Record ν) :=
  (rowsOf (mergeRows m.rows)).filter (e.config.retentionPolicy.keeps now)

/-- One candidate of `groom`. -/
def groomOneOps (e : Engine ν) (now : Int64) (m : Segment ν) : List (Op ν) :=
  if allExpired e.config.retentionPolicy now m then
    [.swap [m.id] [], .remove m.tier.place m.file]
  else
    .read m ::
      if (e.groomedRows now m).length = m.zone.count then []
      else e.rewriteOps m (e.groomedRows now m) [.remove m.tier.place m.file]

/-- Does the candidate take a new file? -/
def groomWrites (e : Engine ν) (now : Int64) (m : Segment ν) : Bool :=
  !allExpired e.config.retentionPolicy now m &&
    !decide ((e.groomedRows now m).length = m.zone.count) && !(e.groomedRows now m).isEmpty

/-- The candidates one after the other, with the counter where the ones before leave it. -/
def groomLoopOps (now : Int64) : List (Segment ν) → Engine ν → List (Op ν)
  | [], _ => []
  | m :: rest, e =>
      let next := if e.groomWrites now m then e.manifest.nextSegmentId + 1
        else e.manifest.nextSegmentId
      e.groomOneOps now m ++
        groomLoopOps now rest { e with manifest := { e.manifest with nextSegmentId := next } }

def groomOps (e : Engine ν) (now : Int64) : List (Op ν) :=
  if e.config.retentionPolicy.isEmpty then [] else groomLoopOps now (e.groomCandidates now) e

/-- The entry of a migrated segment: same slot, tier and stamp, current format. -/
def migratedSegment (next : Nat) (s : Segment ν) : Segment ν :=
  { s with file := next, bytes := SegmentFile.fileBytes s.rows, version := 2, pulled := false }

/-- `migrate`, oldest first: a file that cannot be opened is skipped, and the first one in an older
format is rewritten. -/
def migrateOps (files : Files ν) : Nat → List (Segment ν) → List (Op ν)
  | _, [] => []
  | next, s :: rest =>
      match files s.tier.place s.file with
      | none => migrateOps files next rest
      | some data =>
          if 2 ≤ data.version then migrateOps files next rest
          else
            let output := migratedSegment next s
            match s.tier with
            | .remote => [.read s, .alloc] ++ migrateOps files (next + 1) rest
            | _ => .read s :: outputOps next [output] ++
                [.swap [s.id] [output], .remove s.tier.place s.file]

end Scripts

/-- The hot segments past their time. -/
def toCold (t : Tiering) (e : Engine ν) (now : Int64) : List (Segment ν) :=
  e.manifest.segments.filter (fun s =>
    decide (s.tier = .hot) && decide (s.createdUnixNanos < now - t.hotTtlNanos))

/-- The segments that were cold when the pass started and are past their time. -/
def toRemote (t : Tiering) (e : Engine ν) (now : Int64) : List (Segment ν) :=
  e.manifest.segments.filter (fun s =>
    decide (s.tier = .cold) && decide (s.createdUnixNanos < now - t.remoteTtlNanos))

/-- The hot-to-cold move of one segment. -/
def coldMove (t : Tiering) (s : Segment ν) : List (Op ν) :=
  (if t.sameFs then [.rename s] else [.copy s, .removeSource s]) ++ [.setTier s.id .cold]

/-- The cold-to-remote move of one segment. -/
def remoteMove (s : Segment ν) : List (Op ν) :=
  [.put s, .setTier s.id .remote, .remove .cold s.file]

/-- `tier` and `tier_to_remote`. -/
def tierOps (t : Tiering) (e : Engine ν) (now : Int64) : List (Op ν) :=
  (e.toCold t now).flatMap (coldMove t) ++
    if t.hasStore then (e.toRemote t now).flatMap remoteMove else []

/-- `open_inner` with a store: delete unlisted objects, then stale local copies of remote
segments. -/
def reconcileOps (t : Tiering) (objects : List Nat) (m : Manifest ν) : List (Op ν) :=
  if t.hasStore then
    let remote := m.segments.filter (fun s => decide (s.tier = .remote))
    (objects.filter (fun f => !(remote.map Segment.file).contains f)).map (Op.remove .store) ++
      remote.flatMap (fun s => [.remove .hot s.file, .remove .cold s.file])
  else []

/-! ## What the moves between tiers are made of -/

section Moved

variable {t : Tiering} {e : Engine ν} {now : Int64} {s : Segment ν} {op : Op ν}

theorem of_mem_toCold (h : s ∈ e.toCold t now) : s ∈ e.manifest.segments ∧ s.tier = .hot := by
  obtain ⟨hmem, hcond⟩ := List.mem_filter.mp h
  exact ⟨hmem, of_decide_eq_true (Bool.and_eq_true_iff.mp hcond).1⟩

theorem of_mem_toRemote (h : s ∈ e.toRemote t now) : s ∈ e.manifest.segments ∧ s.tier = .cold := by
  obtain ⟨hmem, hcond⟩ := List.mem_filter.mp h
  exact ⟨hmem, of_decide_eq_true (Bool.and_eq_true_iff.mp hcond).1⟩

theorem cases_of_mem_coldMove (h : op ∈ coldMove t s) :
    op = .rename s ∨ op = .copy s ∨ op = .removeSource s ∨ op = .setTier s.id .cold := by
  unfold coldMove at h
  rcases List.mem_append.mp h with h | h
  · split at h
    · exact Or.inl (List.mem_singleton.mp h)
    · rcases List.mem_cons.mp h with h | h
      · exact Or.inr (Or.inl h)
      · exact Or.inr (Or.inr (Or.inl (List.mem_singleton.mp h)))
  · exact Or.inr (Or.inr (Or.inr (List.mem_singleton.mp h)))

theorem cases_of_mem_remoteMove (h : op ∈ remoteMove s) :
    op = .put s ∨ op = .setTier s.id .remote ∨ op = .remove .cold s.file := by
  simpa only [remoteMove, List.mem_cons, List.not_mem_nil, or_false] using h

theorem cases_of_mem_tierOps (h : op ∈ e.tierOps t now) :
    (∃ s ∈ e.toCold t now, op ∈ coldMove t s) ∨
      (t.hasStore = true ∧ ∃ s ∈ e.toRemote t now, op ∈ remoteMove s) := by
  unfold tierOps at h
  rcases List.mem_append.mp h with h | h
  · exact Or.inl (List.mem_flatMap.mp h)
  · split at h
    · rename_i hstore
      exact Or.inr ⟨hstore, List.mem_flatMap.mp h⟩
    · exact absurd h List.not_mem_nil

end Moved

end Engine

/-- The passes of the maintenance actor with the clock readings they take. -/
inductive Pass
  | flush (clock : Nat → Int64)
  | compact (now : Int64)
  | purge (key : String) (now : Int64)
  | reclaim
  | tier (now : Int64)
  | groom (now : Int64)
  | migrate

/-- The script of a pass. -/
def Pass.ops [Numeral ν] [SegmentFile ν] (t : Tiering) (b : Bench ν) : Pass → List (Op ν)
  | .flush clock => Engine.flushOps clock b.next b.engine.frozen
  | .compact now => b.engine.compactOps t now
  | .purge key now => b.engine.purgeOps t key now
  | .reclaim => b.engine.reclaimOps t
  | .tier now => b.engine.tierOps t now
  | .groom now => b.engine.groomOps now
  | .migrate => Engine.migrateOps b.files b.next (sortAsc Segment.id b.segments)

end Girder
