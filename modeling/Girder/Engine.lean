import Girder.MemTable
import Girder.Segment

/-!
# Engine — the state of an open store, and point reads

An `Engine` holds the live memtable, the frozen memtables awaiting flush (oldest first) and the
manifest's segments.  Its *sources*, newest first, are the memtable, the frozen memtables from the
last to the first, and the segments by descending id; `versions` lists what they hold for a key.

`getOnce` is the engine's point read.  `getOnce_eq` states what it answers: the newest-first fold
of the versions of the key, surfaced.
-/

namespace Girder

open Lib

/-- The knobs the modelled passes read. -/
structure Config where
  memtableMaxRecords : Nat := 10000
  compactMinSegments : Nat := 8
  maxSegmentRecords : Nat := 128 * 1024
  maxSegmentBytes : Nat := 256 * 1024 * 1024
  retentionNanos : Option Int64 := none
  retention : List (String × Int64) := []

/-- The authoritative list of live segments. -/
structure Manifest (ν : Type) where
  nextSegmentId : Nat := 0
  segments : List (Segment ν) := []

/-- The shared engine internals. -/
structure Engine (ν : Type) where
  config : Config := {}
  memtable : MemTable ν := {}
  /-- Frozen memtables with the log that covers each, oldest first. -/
  frozen : List (Nat × MemTable ν) := []
  manifest : Manifest ν := {}
  /-- Last audited segment id. -/
  reclaimCursor : Nat := 0

namespace Engine

variable {ν : Type}

/-! ## Sources and versions -/

/-- The segments, newest first. -/
def recency (segments : List (Segment ν)) : List (Segment ν) :=
  sortDesc Segment.id segments

/-- The rows of the in-memory sources, newest first. -/
def memSources (e : Engine ν) : List (List (Record ν)) :=
  e.memtable.values :: e.frozen.reverse.map (fun f => f.2.values)

/-- The rows of every source, newest first. -/
def sources (e : Engine ν) : List (List (Record ν)) :=
  e.memSources ++ (recency e.manifest.segments).map Segment.rows

/-- The versions of `key` in the memtable and the frozen memtables, newest first. -/
def memVersions (e : Engine ν) (key : String) : List (Record ν) :=
  e.memSources.filterMap (fun rows => rowOf rows key)

/-- The versions of `key` in some segments, newest first. -/
def segVersions (segments : List (Segment ν)) (key : String) : List (Record ν) :=
  (recency segments).filterMap (fun s => rowOf s.rows key)

/-- The versions of `key`, newest first. -/
def versions (e : Engine ν) (key : String) : List (Record ν) :=
  e.sources.filterMap (fun rows => rowOf rows key)

/-- The invariant of an open store. -/
structure WF [Unicode] (e : Engine ν) : Prop where
  memtable_consistent : e.memtable.Consistent
  frozen_consistent {f : Nat × MemTable ν} : f ∈ e.frozen → f.2.Consistent
  ids_nodup : (e.manifest.segments.map Segment.id).Nodup
  sorted {s : Segment ν} : s ∈ e.manifest.segments → s.Sorted

/-- Every segment id has been handed out. -/
def Numbered (e : Engine ν) : Prop :=
  ∀ s ∈ e.manifest.segments, s.id < e.manifest.nextSegmentId

section Reads

variable [Numeral ν]

/-- What a read of some versions, newest first, surfaces. -/
def readVersions (vs : List (Record ν)) : Option (Record ν) :=
  ((recordLayers ν).readNewest vs).bind Record.surface

/-- The value of `key`: its versions folded newest first, then surfaced. -/
def valueOf (e : Engine ν) (key : String) : Option (Record ν) :=
  readVersions (e.versions key)

/-- Zone-map pruned segments, newest first. -/
def prunedSegments (e : Engine ν) (spec : QuerySpec ν) : List (Segment ν) :=
  recency (e.manifest.segments.filter (fun s => s.zone.mayMatch spec))

/-- Feed the version a source holds, if any, to a newest-first walk. -/
def feedVersion (st : Option (Layering.Fold (Record ν))) (version : Option (Record ν)) :
    Option (Layering.Fold (Record ν)) :=
  match version with
  | none => st
  | some r => (recordLayers ν).feed st r

/-- The point read: newest to oldest, folding increments until a full version ends the walk. -/
def getOnce (e : Engine ν) (key : String) : Option (Record ν) :=
  let st := feedVersion none (e.memtable.get key)
  let st := e.frozen.reverse.foldl (fun st f => feedVersion st (f.2.get key)) st
  let st := (e.prunedSegments { keyPrefix := some key }).foldl
    (fun st s => feedVersion st (s.lookup key)) st
  st.bind (fun fold => fold.value.surface)

end Reads

/-! ## Versions -/

theorem versions_eq (e : Engine ν) (key : String) :
    e.versions key = e.memVersions key ++ segVersions e.manifest.segments key := by
  simp [versions, sources, memVersions, segVersions, List.filterMap_append, List.filterMap_map]

theorem mem_segVersions {segments : List (Segment ν)} {key : String} {r : Record ν} :
    r ∈ segVersions segments key ↔ ∃ s ∈ segments, rowOf s.rows key = some r := by
  simp [segVersions, recency, List.mem_filterMap]

theorem mem_versions {e : Engine ν} {key : String} {r : Record ν} :
    r ∈ e.versions key ↔ ∃ rows ∈ e.sources, rowOf rows key = some r := by
  simp [versions, List.mem_filterMap]

theorem mem_versions_of_segment {e : Engine ν} {s : Segment ν} (hs : s ∈ e.manifest.segments)
    {key : String} {r : Record ν} (hrow : rowOf s.rows key = some r) : r ∈ e.versions key := by
  rw [versions_eq]
  exact List.mem_append_right _ (mem_segVersions.2 ⟨s, hs, hrow⟩)

theorem key_of_mem_versions {e : Engine ν} {key : String} {r : Record ν}
    (h : r ∈ e.versions key) : r.key = key := by
  obtain ⟨rows, -, hrow⟩ := mem_versions.1 h
  exact (rowOf_eq_some hrow).2

/-- The order in which the manifest lists its segments does not matter. -/
theorem segVersions_perm {segments segments' : List (Segment ν)}
    (hd : (segments.map Segment.id).Nodup) (hp : segments.Perm segments') (key : String) :
    segVersions segments key = segVersions segments' key := by
  unfold segVersions recency
  rw [sortDesc_congr hp hd]

/-- Segments without the key contribute nothing. -/
theorem segVersions_filter {segments : List (Segment ν)} (hd : (segments.map Segment.id).Nodup)
    {p : Segment ν → Bool} {key : String}
    (hp : ∀ s ∈ segments, p s = false → rowOf s.rows key = none) :
    segVersions (segments.filter p) key = segVersions segments key := by
  unfold segVersions recency
  rw [sortDesc_filter hd, List.filterMap_filter]
  refine List.filterMap_congr (fun s hs => ?_)
  have hs' : s ∈ segments := (mem_sortDesc Segment.id).1 hs
  cases hps : p s with
  | true => simp
  | false => simp [hp s hs' hps]

/-- The newest segment version: held by a segment no newer segment of the key overrides. -/
theorem head?_segVersions {segments : List (Segment ν)} (hd : (segments.map Segment.id).Nodup)
    {key : String} {r : Record ν} :
    (segVersions segments key).head? = some r ↔
      ∃ s ∈ segments, rowOf s.rows key = some r ∧
        ∀ s' ∈ segments, s.id < s'.id → rowOf s'.rows key = none := by
  have hsorted := sortDesc_pairwise_gt hd
  rw [segVersions, List.head?_filterMap, List.findSome?_eq_some_iff]
  constructor
  · rintro ⟨pre, s, post, hsplit, hrow, hpre⟩
    rw [recency] at hsplit
    have hs : s ∈ segments := (mem_sortDesc Segment.id).1 (by simp [hsplit])
    refine ⟨s, hs, hrow, fun s' hs' hlt => ?_⟩
    have hs'' : s' ∈ sortDesc Segment.id segments := (mem_sortDesc Segment.id).2 hs'
    rw [hsplit] at hs'' hsorted
    rcases List.mem_append.1 hs'' with hin | hin
    · exact hpre s' hin
    · obtain ⟨-, htail, -⟩ := List.pairwise_append.1 hsorted
      rcases List.mem_cons.1 hin with rfl | hin
      · exact absurd hlt (lt_irrefl _)
      · exact absurd ((List.pairwise_cons.1 htail).1 s' hin) (not_lt.2 hlt.le)
  · rintro ⟨s, hs, hrow, hnewer⟩
    obtain ⟨pre, post, hsplit⟩ := List.append_of_mem ((mem_sortDesc Segment.id).2 hs)
    refine ⟨pre, s, post, hsplit, hrow, fun s' hs' => ?_⟩
    rw [hsplit] at hsorted
    have hlt : s.id < s'.id := (List.pairwise_append.1 hsorted).2.2 s' hs' s (by simp)
    have hmem : s' ∈ segments := (mem_sortDesc Segment.id).1 (by simp [hsplit, hs'])
    exact hnewer s' hmem hlt

/-! ## A segment newer than all others -/

theorem ids_nodup_concat {segments : List (Segment ν)} {s : Segment ν}
    (hd : (segments.map Segment.id).Nodup) (hnew : ∀ t ∈ segments, t.id < s.id) :
    ((segments ++ [s]).map Segment.id).Nodup := by
  rw [List.map_append, List.nodup_append]
  refine ⟨hd, by simp, fun id hid id' hid' => ?_⟩
  obtain ⟨t, ht, rfl⟩ := List.mem_map.1 hid
  rw [List.map_singleton, List.mem_singleton] at hid'
  rw [hid']
  exact Nat.ne_of_lt (hnew t ht)

/-- It is read first. -/
theorem segVersions_concat {segments : List (Segment ν)} {s : Segment ν}
    (hd : (segments.map Segment.id).Nodup) (hnew : ∀ t ∈ segments, t.id < s.id) (key : String) :
    segVersions (segments ++ [s]) key =
      (rowOf s.rows key).toList ++ segVersions segments key := by
  have hrecency : recency (segments ++ [s]) = s :: recency segments := by
    refine sortDesc_eq_of_perm ?_ (List.pairwise_cons.2 ⟨fun t ht => ?_, sortDesc_pairwise_gt hd⟩)
    · exact (List.perm_append_singleton s segments).trans ((sortDesc_perm _ _).symm.cons s)
    · exact hnew t ((mem_sortDesc Segment.id).1 ht)
  rw [segVersions, hrecency, List.filterMap_cons]
  cases rowOf s.rows key <;> rfl

section Sources

variable [Unicode]

/-- A store with nothing in memory. -/
theorem wf_of_segments {e : Engine ν} (hm : e.memtable = {}) (hf : e.frozen = [])
    (hd : (e.manifest.segments.map Segment.id).Nodup)
    (hs : ∀ s ∈ e.manifest.segments, s.Sorted) : e.WF where
  memtable_consistent := by
    rw [hm]
    exact MemTable.empty_consistent
  frozen_consistent hmem := by simp [hf] at hmem
  ids_nodup := hd
  sorted hmem := hs _ hmem

theorem get_eq_rowOf {m : MemTable ν} (h : m.Consistent) (key : String) :
    m.get key = rowOf m.values key :=
  (rowOf_rowsOf h.keyed key).symm

theorem sources_sorted {e : Engine ν} (h : e.WF) {rows : List (Record ν)}
    (hrows : rows ∈ e.sources) : rows.Pairwise (fun a b => a.key < b.key) := by
  simp only [sources, memSources, List.mem_append, List.mem_cons, List.mem_map,
    List.mem_reverse] at hrows
  rcases hrows with (rfl | ⟨f, hf, rfl⟩) | ⟨s, hs, rfl⟩
  · exact MemTable.values_sorted h.memtable_consistent
  · exact MemTable.values_sorted (h.frozen_consistent hf)
  · exact h.sorted ((mem_sortDesc Segment.id).1 hs)

theorem memVersions_eq {e : Engine ν} (h : e.WF) (key : String) :
    e.memVersions key =
      (e.memtable.get key).toList ++ e.frozen.reverse.filterMap (fun f => f.2.get key) := by
  have hfrozen : e.frozen.reverse.filterMap (fun f => f.2.get key) =
      e.frozen.reverse.filterMap (fun f => rowOf f.2.values key) := by
    refine List.filterMap_congr (fun f hf => ?_)
    exact get_eq_rowOf (h.frozen_consistent (List.mem_reverse.1 hf)) key
  rw [hfrozen, get_eq_rowOf h.memtable_consistent]
  simp only [memVersions, memSources, List.filterMap_cons, List.filterMap_map, Function.comp_def]
  cases rowOf e.memtable.values key <;> rfl

end Sources

/-! ## Point reads -/

section Get

variable [Unicode] [Numeral ν]

omit [Unicode] in
theorem foldl_feedVersion {α : Type} (f : α → Option (Record ν)) :
    ∀ (l : List α) (st : Option (Layering.Fold (Record ν))),
      l.foldl (fun st a => feedVersion st (f a)) st =
        (l.filterMap f).foldl (recordLayers ν).feed st := by
  intro l
  induction l with
  | nil => exact fun _ => rfl
  | cons a l ih =>
      intro st
      rw [List.foldl_cons, ih]
      cases ha : f a with
      | none => simp [feedVersion, ha]
      | some r => simp [feedVersion, ha]

omit [Unicode] in
theorem mem_of_mem_prunedSegments (e : Engine ν) (spec : QuerySpec ν) :
    ∀ s ∈ e.prunedSegments spec, s ∈ e.manifest.segments :=
  fun _ hs => List.mem_of_mem_filter ((mem_sortDesc Segment.id).1 hs)

omit [Unicode] in
/-- A full version ends the walk: older ones change nothing. -/
theorem foldl_feedVersion_done (segments : List (Segment ν)) (key : String) (r : Record ν) :
    segments.foldl (fun st s => feedVersion st (s.lookup key)) (some (.done r)) =
      some (.done r) := by
  induction segments with
  | nil => rfl
  | cons s segments ih =>
      rw [List.foldl_cons]
      cases s.lookup key <;> exact ih

/-- Pruning by a key prefix keeps every segment that holds the key. -/
theorem filterMap_prunedSegments [LawfulNumeral ν] {e : Engine ν} (h : e.WF) (key : String) :
    (e.prunedSegments { keyPrefix := some key }).filterMap (fun s => s.lookup key) =
      segVersions e.manifest.segments key := by
  have hlookup : (e.prunedSegments { keyPrefix := some key }).filterMap (fun s => s.lookup key) =
      segVersions (e.manifest.segments.filter
        (fun s => s.zone.mayMatch { keyPrefix := some key })) key := by
    refine List.filterMap_congr (fun s hs => ?_)
    have hs' := List.mem_of_mem_filter ((mem_sortDesc Segment.id).1 hs)
    exact Segment.lookup_eq_rowOf (h.sorted hs') key
  rw [hlookup]
  refine segVersions_filter h.ids_nodup (fun s _ hpruned => ?_)
  cases hrow : rowOf s.rows key with
  | none => rfl
  | some r =>
      obtain ⟨hr, rfl⟩ := rowOf_eq_some hrow
      have hmatch : ({ keyPrefix := some r.key } : QuerySpec ν).matchesFields r = true := by
        simp [QuerySpec.matchesFields, QuerySpec.timeOk, QuerySpec.prefixOk, QuerySpec.labelsOk,
          QuerySpec.numericsOk, startsWith_self]
      have hmay := ZoneMap.mayMatch_of_covers (Segment.zone_covers hr) hmatch
      simp [hmay] at hpruned

/-- What a point read answers. -/
theorem getOnce_eq [LawfulNumeral ν] {e : Engine ν} (h : e.WF) (key : String) :
    e.getOnce key = e.valueOf key := by
  have hfirst : feedVersion none (e.memtable.get key) =
      (e.memtable.get key).toList.foldl (recordLayers ν).feed none := by
    cases e.memtable.get key <;> rfl
  simp only [getOnce, hfirst, foldl_feedVersion, filterMap_prunedSegments h, ← List.foldl_append]
  rw [valueOf, versions_eq, memVersions_eq h, readVersions, Layering.readNewest,
    Layering.foldNewest, Option.bind_map]
  rfl

end Get

end Engine

end Girder
