import Girder.Actors
import Girder.Compaction
import Girder.ScanFold

/-!
# Readers — a scan beside the writer and the flush

A scan takes the engine's locks one after the other: `deltas_possible` looks at the memtable, the
frozen memtables and the manifest, then the chosen path reads the three again.  Between any two of
these six steps the writer and the flush may move (`Scanning.step`).  What the scan returns is its
path applied to the `view` it put together, a memtable, a frozen list and a manifest of three
different moments.

The paths that do not fold rely on the check, but the check is about earlier moments.
`scan_never_leaks_delta`: when no read after a negative check meets an increment as the first version
of a key, the scan and the count answer as the oracle does on their view, and no record returned
carries the delta label.
-/

namespace Girder

open Lib

variable {ν : Type}

/-! ## What every state satisfies -/

namespace Actors

/-- The flush works on the oldest frozen memtable, under a number newer than every segment's. -/
def FlushHead (s : Actors ν) : Prop :=
  match s.maint with
  | .idle => True
  | .picked entry => s.engine.frozen.head? = some entry
  | .allotted entry seq => s.engine.frozen.head? = some entry ∧
      (∀ m ∈ s.engine.manifest.segments, m.id < seq) ∧ seq < s.engine.manifest.nextSegmentId
  | .written entry seq => s.engine.frozen.head? = some entry ∧
      (∀ m ∈ s.engine.manifest.segments, m.id < seq) ∧ seq < s.engine.manifest.nextSegmentId
  | .listed entry => s.engine.frozen.head? = some entry
  | .unlogged entry => s.engine.frozen.head? = some entry

/-- The containers are well formed, whatever the two actors are at. -/
structure Sound [Unicode] (s : Actors ν) : Prop where
  wf : s.engine.WF
  numbered : s.engine.Numbered
  hand {map : MemTable ν} : s.hand = some map → map.Consistent
  flush : s.FlushHead

/-- Every stored record satisfies `P`. -/
structure All (P : Record ν → Prop) (s : Actors ν) : Prop where
  memtable : ∀ r ∈ s.engine.memtable.values, P r
  hand {map : MemTable ν} : s.hand = some map → ∀ r ∈ map.values, P r
  frozen {f : Nat × MemTable ν} : f ∈ s.engine.frozen → ∀ r ∈ f.2.values, P r
  segments {m : Segment ν} : m ∈ s.engine.manifest.segments → ∀ r ∈ m.rows, P r

/-- A change that leaves the oldest frozen memtable and the segments alone. -/
theorem FlushHead.congr {s s' : Actors ν} (h : s.FlushHead) (hmaint : s'.maint = s.maint)
    (hhead : ∀ f, s.engine.frozen.head? = some f → s'.engine.frozen.head? = some f)
    (hmanifest : s'.engine.manifest = s.engine.manifest) : s'.FlushHead := by
  unfold FlushHead at h ⊢
  rw [hmaint, hmanifest]
  cases hphase : s.maint with
  | idle => trivial
  | picked entry =>
      simp only [hphase] at h
      exact hhead _ h
  | allotted entry seq =>
      simp only [hphase] at h
      exact ⟨hhead _ h.1, h.2⟩
  | written entry seq =>
      simp only [hphase] at h
      exact ⟨hhead _ h.1, h.2⟩
  | listed entry =>
      simp only [hphase] at h
      exact hhead _ h
  | unlogged entry =>
      simp only [hphase] at h
      exact hhead _ h

section Steps

variable [Unicode] [Numeral ν] [SegmentFile ν]

omit [Numeral ν] in
/-- Listing the segment of the oldest frozen memtable. -/
theorem wf_listing {s : Actors ν} (h : s.Sound) {entry : Nat × MemTable ν} {seq : Nat}
    {now : Int64} (hmaint : s.maint = .written entry seq) :
    Engine.WF { s.engine with manifest := s.listing seq now entry.2.values } ∧
      Engine.Numbered { s.engine with manifest := s.listing seq now entry.2.values } := by
  have hflush := h.flush
  simp only [FlushHead, hmaint] at hflush
  obtain ⟨hhead, hnewest, hnext⟩ := hflush
  have hentry : entry.2.Consistent := h.wf.frozen_consistent (List.mem_of_head? hhead)
  refine ⟨⟨h.wf.memtable_consistent, h.wf.frozen_consistent, ?_, ?_⟩, ?_⟩
  · exact Engine.ids_nodup_concat h.wf.ids_nodup hnewest
  · intro m hm
    rcases List.mem_append.1 hm with hm | hm
    · exact h.wf.sorted hm
    · rw [List.mem_singleton.1 hm]
      exact MemTable.values_sorted hentry
  · intro m hm
    rcases List.mem_append.1 hm with hm | hm
    · exact h.numbered m hm
    · rw [List.mem_singleton.1 hm]
      exact hnext

/-- Every move keeps the containers well formed. -/
theorem Sound.step {s s' : Actors ν} {a : Move ν} (h : s.Sound) (hstep : s.step a = some s') :
    s'.Sound := by
  have hflush := h.flush
  unfold FlushHead at hflush
  cases step_cases hstep with
  | append hwriter =>
      exact ⟨h.wf, h.numbered, fun hmap => (by cases hmap), h.flush.congr rfl (fun _ => id) rfl⟩
  | appendFails hwriter =>
      exact ⟨h.wf, h.numbered, h.hand, h.flush.congr rfl (fun _ => id) rfl⟩
  | insert hwriter =>
      refine ⟨⟨?_, h.wf.frozen_consistent, h.wf.ids_nodup, h.wf.sorted⟩, h.numbered,
        fun hmap => (by cases hmap), h.flush.congr rfl (fun _ => id) rfl⟩
      exact foldl_applyWrite_consistent h.wf.memtable_consistent _
  | takeIdle hwriter hfull =>
      refine ⟨⟨MemTable.empty_consistent, h.wf.frozen_consistent, h.wf.ids_nodup, h.wf.sorted⟩,
        h.numbered, fun hmap => ?_, h.flush.congr rfl (fun _ => id) rfl⟩
      rw [← Option.some.inj hmap]
      exact h.wf.memtable_consistent
  | takeFull hwriter hfull =>
      refine ⟨⟨MemTable.empty_consistent, h.wf.frozen_consistent, h.wf.ids_nodup, h.wf.sorted⟩,
        h.numbered, fun hmap => ?_, h.flush.congr rfl (fun _ => id) rfl⟩
      rw [← Option.some.inj hmap]
      exact h.wf.memtable_consistent
  | openWal hwriter =>
      refine ⟨h.wf, h.numbered, fun hmap => ?_, h.flush.congr rfl (fun _ => id) rfl⟩
      exact h.hand (by simpa [Actors.hand, hwriter] using hmap)
  | openFails hwriter =>
      exact ⟨h.wf, h.numbered, fun hmap => (by cases hmap), h.flush.congr rfl (fun _ => id) rfl⟩
  | push hwriter =>
      refine ⟨⟨h.wf.memtable_consistent, ?_, h.wf.ids_nodup, h.wf.sorted⟩, h.numbered,
        fun hmap => (by cases hmap), h.flush.congr rfl (fun f hf => ?_) rfl⟩
      · -- The memtable in hand becomes the newest frozen one.
        intro f hf
        rcases List.mem_append.1 hf with hf | hf
        · exact h.wf.frozen_consistent hf
        · rw [List.mem_singleton.1 hf]
          exact h.hand (by simp [Actors.hand, hwriter])
      · obtain ⟨rest, hrest⟩ := List.head?_eq_some_iff.1 hf
        simp [hrest]
  | replyInserted hwriter hroom =>
      exact ⟨h.wf, h.numbered, fun hmap => (by cases hmap), h.flush.congr rfl (fun _ => id) rfl⟩
  | replyPushed hwriter =>
      exact ⟨h.wf, h.numbered, fun hmap => (by cases hmap), h.flush.congr rfl (fun _ => id) rfl⟩
  | pick hmaint hfrozen =>
      refine ⟨h.wf, h.numbered, h.hand, ?_⟩
      show s.engine.frozen.head? = _
      rw [hfrozen, List.head?_cons]
  | alloc hmaint =>
      simp only [hmaint] at hflush
      exact ⟨⟨h.wf.memtable_consistent, h.wf.frozen_consistent, h.wf.ids_nodup, h.wf.sorted⟩,
        fun m hm => (h.numbered m hm).trans (Nat.lt_succ_self _), h.hand,
        hflush, h.numbered, Nat.lt_succ_self _⟩
  | writeSegment hmaint =>
      simp only [hmaint] at hflush
      exact ⟨h.wf, h.numbered, h.hand, hflush⟩
  | writeFails hmaint => exact ⟨h.wf, h.numbered, h.hand, trivial⟩
  | list hmaint =>
      simp only [hmaint] at hflush
      exact ⟨(wf_listing h hmaint).1, (wf_listing h hmaint).2, h.hand, hflush.1⟩
  | listFails hmaint => exact ⟨(wf_listing h hmaint).1, (wf_listing h hmaint).2, h.hand, trivial⟩
  | removeWal hmaint =>
      simp only [hmaint] at hflush
      exact ⟨h.wf, h.numbered, h.hand, hflush⟩
  | removeFails hmaint =>
      simp only [hmaint] at hflush
      exact ⟨h.wf, h.numbered, h.hand, hflush⟩
  | dropFrozen hmaint =>
      exact ⟨⟨h.wf.memtable_consistent, fun hf => h.wf.frozen_consistent (List.mem_of_mem_tail hf),
        h.wf.ids_nodup, h.wf.sorted⟩, h.numbered, h.hand, trivial⟩

/-- What holds of every stored record and of every message being inserted holds of every stored
record afterwards. -/
theorem All.step {P : Record ν → Prop} {s s' : Actors ν} {a : Move ν} (h : s.All P)
    (hsound : s.Sound)
    (hinsert : ∀ req, s.writer = .appended req → a = .insert →
      ∀ r ∈ (req.writes.foldl MemTable.applyWrite s.engine.memtable).values, P r)
    (hstep : s.step a = some s') : s'.All P := by
  have hflush := hsound.flush
  unfold FlushHead at hflush
  -- A listed segment holds the rows of a frozen memtable.
  have hlisting : ∀ {entry : Nat × MemTable ν} {seq : Nat} {now : Int64},
      s.engine.frozen.head? = some entry → ∀ {m : Segment ν},
        m ∈ (s.listing seq now entry.2.values).segments → ∀ r ∈ m.rows, P r := by
    intro entry seq now hhead m hm
    rcases List.mem_append.1 hm with hm | hm
    · exact h.segments hm
    · rw [List.mem_singleton.1 hm]
      exact h.frozen (List.mem_of_head? hhead)
  have hempty : ∀ r ∈ ({} : MemTable ν).values, P r := by
    intro r hr
    cases hr
  cases step_cases hstep with
  | append hwriter =>
      exact ⟨h.memtable, fun hmap => (by cases hmap), h.frozen, h.segments⟩
  | appendFails hwriter => exact ⟨h.memtable, h.hand, h.frozen, h.segments⟩
  | insert hwriter =>
      exact ⟨hinsert _ hwriter rfl, fun hmap => (by cases hmap), h.frozen, h.segments⟩
  | takeIdle hwriter hfull =>
      refine ⟨hempty, fun hmap => ?_, h.frozen, h.segments⟩
      rw [← Option.some.inj hmap]
      exact h.memtable
  | takeFull hwriter hfull =>
      refine ⟨hempty, fun hmap => ?_, h.frozen, h.segments⟩
      rw [← Option.some.inj hmap]
      exact h.memtable
  | openWal hwriter =>
      exact ⟨h.memtable, fun hmap => h.hand (by simpa [Actors.hand, hwriter] using hmap),
        h.frozen, h.segments⟩
  | push hwriter =>
      refine ⟨h.memtable, fun hmap => (by cases hmap), fun hf => ?_, h.segments⟩
      rcases List.mem_append.1 hf with hf | hf
      · exact h.frozen hf
      · rw [List.mem_singleton.1 hf]
        exact h.hand (by simp [Actors.hand, hwriter])
  | list hmaint =>
      simp only [hmaint] at hflush
      exact ⟨h.memtable, h.hand, h.frozen, hlisting hflush.1⟩
  | listFails hmaint =>
      simp only [hmaint] at hflush
      exact ⟨h.memtable, h.hand, h.frozen, hlisting hflush.1⟩
  | dropFrozen hmaint =>
      exact ⟨h.memtable, h.hand, fun hf => h.frozen (List.mem_of_mem_tail hf), h.segments⟩
  | openFails _ => exact ⟨h.memtable, fun hmap => (by cases hmap), h.frozen, h.segments⟩
  | replyInserted _ _ => exact ⟨h.memtable, fun hmap => (by cases hmap), h.frozen, h.segments⟩
  | replyPushed _ => exact ⟨h.memtable, fun hmap => (by cases hmap), h.frozen, h.segments⟩
  | pick _ _ => exact ⟨h.memtable, h.hand, h.frozen, h.segments⟩
  | alloc _ => exact ⟨h.memtable, h.hand, h.frozen, h.segments⟩
  | writeSegment _ => exact ⟨h.memtable, h.hand, h.frozen, h.segments⟩
  | writeFails _ => exact ⟨h.memtable, h.hand, h.frozen, h.segments⟩
  | removeWal _ => exact ⟨h.memtable, h.hand, h.frozen, h.segments⟩
  | removeFails _ => exact ⟨h.memtable, h.hand, h.frozen, h.segments⟩

end Steps

end Actors

/-! ## The delta label -/

/-- The reserved delta label is there only to mark an increment. -/
def Record.LabelReserved (r : Record ν) : Prop :=
  r.labels[deltaLabel]? ≠ none → r.isDelta = true

/-- A client leaves the reserved label alone. -/
def Request.LabelFree : Request ν → Prop
  | .putBatch records => ∀ r ∈ records, r.labels[deltaLabel]? = none
  | _ => True

theorem Record.labelReserved_of_none {r : Record ν} (h : r.labels[deltaLabel]? = none) :
    r.LabelReserved :=
  fun hne => absurd h hne

theorem Record.clearDelta_label (r : Record ν) : r.clearDelta.labels[deltaLabel]? = none := by
  simp [clearDelta]

theorem Request.labelReserved {req : Request ν} (h : req.LabelFree) :
    ∀ w ∈ req.writes, w.record.LabelReserved := by
  intro w hw
  cases req with
  | putBatch records =>
      obtain ⟨r, hr, rfl⟩ := List.mem_map.1 hw
      exact Record.labelReserved_of_none (h r hr)
  | delete key timestamp =>
      rw [List.mem_singleton.1 hw]
      refine Record.labelReserved_of_none ?_
      simp [Write.record, Record.tombstone, Record.deltaLabel_ne_tombstoneLabel.symm]
  | incr key timestamp deltas =>
      rw [List.mem_singleton.1 hw]
      intro _
      simp [Write.record, Record.isDelta, Record.delta]

section Labels

variable [Unicode] [Numeral ν]

omit [Unicode] in
theorem mergeDelta_labelReserved {base : Option (Record ν)} {d : Record ν}
    (hbase : ∀ b, base = some b → b.LabelReserved) (hd : d.LabelReserved) :
    (mergeDelta base d).LabelReserved := by
  cases base with
  | none => exact hd
  | some b =>
      cases ht : b.isTombstone with
      | true =>
          rw [mergeDelta_tombstone ht]
          exact Record.labelReserved_of_none (Record.clearDelta_label d)
      | false =>
          cases hb : b.isDelta with
          | false =>
              rw [mergeDelta_full ht hb]
              exact Record.labelReserved_of_none (Record.clearDelta_label _)
          | true =>
              rw [mergeDelta_delta ht hb]
              exact hbase b rfl

theorem applyWrite_labelReserved {m : MemTable ν} (hm : m.Consistent) {w : Write ν}
    (hall : ∀ r ∈ m.values, r.LabelReserved) (hw : w.record.LabelReserved) :
    ∀ r ∈ (m.applyWrite w).values, r.LabelReserved := by
  intro r hr
  have hget := (MemTable.mem_values (MemTable.applyWrite_consistent hm w)).1 hr
  by_cases hkey : w.key = r.key
  · cases w with
    | put p =>
        have hp : p.key = r.key := hkey
        rw [MemTable.applyWrite, MemTable.get_insert, if_pos hp] at hget
        exact Option.some.inj hget ▸ hw
    | incr d =>
        have hd : d.key = r.key := hkey
        rw [MemTable.applyWrite, MemTable.get_insertDelta m d hm, if_pos hd] at hget
        rw [← Option.some.inj hget]
        exact mergeDelta_labelReserved (fun b hb => hall b (mem_values_of_get hm hb)) hw
  · rw [get_applyWrite_of_ne hm hkey] at hget
    exact hall r ((MemTable.mem_values hm).2 hget)

theorem foldl_labelReserved {ws : List (Write ν)} (hws : ∀ w ∈ ws, w.record.LabelReserved) :
    ∀ {m : MemTable ν}, m.Consistent → (∀ r ∈ m.values, r.LabelReserved) →
      ∀ r ∈ (ws.foldl MemTable.applyWrite m).values, r.LabelReserved := by
  induction ws with
  | nil => exact fun _ hall => hall
  | cons w ws ih =>
      intro m hm hall
      refine ih (fun v hv => hws v (by simp [hv])) (MemTable.applyWrite_consistent hm w) ?_
      exact applyWrite_labelReserved hm hall (hws w (by simp))

end Labels

/-! ## A scan, lock by lock -/

/-- Where a scan stands; `fold` is what `deltas_possible` answered. -/
inductive ScanPhase (ν : Type)
  | start
  /-- The check has found no delta in the memtable. -/
  | memtableClear
  | frozenClear
  | decided (fold : Bool)
  | metMemtable (fold : Bool) (memtable : MemTable ν)
  | metFrozen (fold : Bool) (memtable : MemTable ν) (frozen : List (Nat × MemTable ν))
  | done (fold : Bool) (view : Engine ν)

/-- A scan and the actors it runs beside. -/
structure Scanning (ν : Type) where
  now : Actors ν
  phase : ScanPhase ν := .start

/-- A move of the actors, the next step of the check, or the next read of the path. -/
inductive ScanEvent (ν : Type)
  | move (a : Move ν)
  | check
  | read

namespace Engine

section Paths

variable [Unicode] [Numeral ν]

/-- What the path that `scan` takes once the check has answered returns, if it does not panic
reserving its heap. -/
def scanPath (e : Engine ν) (fold : Bool) (spec : QuerySpec ν) : List (Record ν) :=
  if fold then
    e.scanFold spec
  else
    match decide (0 < spec.limit), spec.orderBy with
    | true, some order => e.topkRows spec order
    | _, _ => e.scanFull spec

end Paths

end Engine

namespace ScanPhase

/-- The versions of a key the path has read so far, newest source first. -/
def met : ScanPhase ν → String → List (Record ν)
  | .metMemtable _ m, key => (m.get key).toList
  | .metFrozen _ m frozen, key =>
      (m.get key).toList ++ frozen.reverse.filterMap (fun f => f.2.get key)
  | .done _ view, key =>
      (view.memtable.get key).toList ++ view.frozen.reverse.filterMap (fun f => f.2.get key) ++
        Engine.segVersions view.manifest.segments key
  | _, _ => []

/-- The check answered that no delta is possible. -/
def unfolded : ScanPhase ν → Bool
  | .decided fold => !fold
  | .metMemtable fold _ => !fold
  | .metFrozen fold _ _ => !fold
  | .done fold _ => !fold
  | _ => false

end ScanPhase

namespace Scanning

/-- The versions of a key in the container the path reads next. -/
def next (s : Scanning ν) (key : String) : List (Record ν) :=
  match s.phase with
  | .decided _ => (s.now.engine.memtable.get key).toList
  | .metMemtable _ _ => s.now.engine.frozen.reverse.filterMap (fun f => f.2.get key)
  | .metFrozen _ _ _ => Engine.segVersions s.now.engine.manifest.segments key
  | _ => []

section Step

variable [Unicode] [Numeral ν] [SegmentFile ν]

/-- One step of the check; it ends at the first container that may hold a delta. -/
def check (spec : QuerySpec ν) (s : Scanning ν) : Option (Scanning ν) :=
  match s.phase with
  | .start =>
      some { s with
        phase := if s.now.engine.memtable.hasDeltas then .decided true else .memtableClear }
  | .memtableClear =>
      some { s with
        phase :=
          if s.now.engine.frozen.any (fun f => f.2.hasDeltas) then .decided true
          else .frozenClear }
  | .frozenClear =>
      some { s with
        phase := .decided (s.now.engine.manifest.segments.any (fun m =>
          m.zone.mayMatch spec.prefixOnly && m.zone.mayHave deltaLabel)) }
  | _ => none

/-- One read of the path. -/
def read (s : Scanning ν) : Option (Scanning ν) :=
  match s.phase with
  | .decided fold => some { s with phase := .metMemtable fold s.now.engine.memtable }
  | .metMemtable fold m => some { s with phase := .metFrozen fold m s.now.engine.frozen }
  | .metFrozen fold m frozen =>
      some { s with
        phase := .done fold { s.now.engine with memtable := m, frozen := frozen } }
  | _ => none

def step (spec : QuerySpec ν) (s : Scanning ν) : ScanEvent ν → Option (Scanning ν)
  | .move a => (s.now.step a).map (fun now => { s with now := now })
  | .check => s.check spec
  | .read => s.read

end Step

/-- The rows of the container the path reads next. -/
def nextRows (s : Scanning ν) : List (Record ν) :=
  match s.phase with
  | .decided _ => s.now.engine.memtable.values
  | .metMemtable _ _ => s.now.engine.frozen.flatMap (fun f => f.2.values)
  | .metFrozen _ _ _ => s.now.engine.manifest.segments.flatMap Segment.rows
  | _ => []

/-- Unless the scan folds, the container that is read gives no key under the prefix an increment as
its first version. -/
def meetsNoDelta (spec : QuerySpec ν) (s : Scanning ν) : ScanEvent ν → Bool
  | .read => !s.phase.unfolded || s.nextRows.all (fun r =>
      !spec.prefixOk r.key || !(s.phase.met r.key).isEmpty ||
        !(s.next r.key).head?.any Record.isDelta)
  | _ => true

/-- Versions about to be read are rows about to be read. -/
theorem mem_nextRows [Unicode] {s : Scanning ν} (hsound : s.now.Sound) {key : String} {r : Record ν}
    (hr : r ∈ s.next key) : r ∈ s.nextRows ∧ r.key = key := by
  unfold next at hr
  unfold nextRows
  cases hs : s.phase with
  | decided fold =>
      simp only [hs, Option.mem_toList] at hr
      have hmem := hsound.wf.memtable_consistent
      exact ⟨mem_values_of_get hmem hr, hmem.key_eq hr⟩
  | metMemtable fold m =>
      simp only [hs, List.mem_filterMap, List.mem_reverse] at hr
      obtain ⟨f, hf, hr⟩ := hr
      have hmem := hsound.wf.frozen_consistent hf
      exact ⟨List.mem_flatMap.2 ⟨f, hf, mem_values_of_get hmem hr⟩, hmem.key_eq hr⟩
  | metFrozen fold m frozen =>
      simp only [hs] at hr
      obtain ⟨m, hm, hrow⟩ := Engine.mem_segVersions.1 hr
      exact ⟨List.mem_flatMap.2 ⟨m, hm, (rowOf_eq_some hrow).1⟩, (rowOf_eq_some hrow).2⟩
  | start => simp [hs] at hr
  | memtableClear => simp [hs] at hr
  | frozenClear => simp [hs] at hr
  | done fold view => simp [hs] at hr

theorem isDelta_of_meetsNoDelta [Unicode] {spec : QuerySpec ν} {s : Scanning ν}
    (hsound : s.now.Sound) (h : s.meetsNoDelta spec .read = true)
    (hfold : s.phase.unfolded = true) {key : String} {r : Record ν}
    (hp : spec.prefixOk key = true) (hmet : s.phase.met key = [])
    (hr : (s.next key).head? = some r) : r.isDelta = false := by
  obtain ⟨hmem, rfl⟩ := mem_nextRows hsound (List.mem_of_head? hr)
  simp only [meetsNoDelta, hfold, Bool.not_true, Bool.false_or, List.all_eq_true] at h
  have hall := h r hmem
  simpa [hp, hmet, hr] using hall

end Scanning

/-- The message, if the event delivers one, leaves the reserved label alone. -/
def ScanEvent.LabelFree : ScanEvent ν → Prop
  | .move (.append req) => req.LabelFree
  | _ => True

/-- A memtable a scan has read. -/
structure MemTable.Readable [Unicode] (m : MemTable ν) : Prop where
  consistent : m.Consistent
  labels : ∀ r ∈ m.values, r.LabelReserved

/-- The containers a scan has read are well formed. -/
def ScanPhase.Ok [Unicode] : ScanPhase ν → Prop
  | .metMemtable _ m => m.Readable
  | .metFrozen _ m frozen => m.Readable ∧ ∀ f ∈ frozen, f.2.Readable
  | .done _ view => view.WF ∧ view.DeltaLabelReserved
  | _ => True

namespace Scanning

section Invariant

variable [Unicode] [Numeral ν]

/-- What a scan relies on. -/
structure Ok (spec : QuerySpec ν) (s : Scanning ν) : Prop where
  sound : s.now.Sound
  labels : s.now.All Record.LabelReserved
  writer {req : Request ν} : s.now.writer = .appended req → req.LabelFree
  phase : s.phase.Ok
  heads : s.phase.unfolded = true → ∀ key r, spec.prefixOk key = true →
    (s.phase.met key).head? = some r → r.isDelta = false

namespace Ok

variable {spec : QuerySpec ν} {s s' : Scanning ν}

omit [Numeral ν] in
theorem frozen_readable (h : s.now.Sound) (hlabels : s.now.All Record.LabelReserved) :
    ∀ f ∈ s.now.engine.frozen, f.2.Readable :=
  fun _ hf => ⟨h.wf.frozen_consistent hf, hlabels.frozen hf⟩

omit [Unicode] [Numeral ν] in
/-- The read container goes under what was read before. -/
theorem head_met {earlier next : List (Record ν)} {r : Record ν}
    (hearlier : earlier.head? = some r → r.isDelta = false)
    (hnext : earlier = [] → next.head? = some r → r.isDelta = false)
    (hr : (earlier ++ next).head? = some r) : r.isDelta = false := by
  cases hearlier' : earlier with
  | nil => exact hnext hearlier' (by simpa [hearlier'] using hr)
  | cons v vs => exact hearlier (by simpa [hearlier'] using hr)

omit [Numeral ν] in
theorem read (h : s.Ok spec) (hclean : s.meetsNoDelta spec .read = true)
    (hstep : s.read = some s') : s'.Ok spec := by
  -- An unfolded scan meets no delta first.
  have hfirst : s.phase.unfolded = true → ∀ key r, spec.prefixOk key = true →
      s.phase.met key = [] → (s.next key).head? = some r → r.isDelta = false :=
    fun hfold _ _ hp hmet hr => isDelta_of_meetsNoDelta h.sound hclean hfold hp hmet hr
  have hheads := h.heads
  have hphase := h.phase
  unfold Scanning.read at hstep
  cases hs : s.phase with
  | decided fold =>
      simp only [hs, Option.some.injEq] at hstep
      subst hstep
      refine ⟨h.sound, h.labels, h.writer,
        ⟨h.sound.wf.memtable_consistent, h.labels.memtable⟩, fun hfold key r hp hr => ?_⟩
      simp only [hs, next] at hfirst
      exact hfirst hfold key r hp rfl hr
  | metMemtable fold m =>
      simp only [hs, Option.some.injEq] at hstep
      subst hstep
      simp only [hs] at hheads hphase
      refine ⟨h.sound, h.labels, h.writer, ⟨hphase, frozen_readable h.sound h.labels⟩,
        fun hfold key r hp hr => ?_⟩
      simp only [hs, next] at hfirst
      exact head_met (hheads hfold key r hp) (hfirst hfold key r hp) hr
  | metFrozen fold m frozen =>
      simp only [hs, Option.some.injEq] at hstep
      subst hstep
      simp only [hs] at hheads hphase
      obtain ⟨hm, hfrozen⟩ := hphase
      refine ⟨h.sound, h.labels, h.writer, ⟨?_, ?_⟩, fun hfold key r hp hr => ?_⟩
      · exact ⟨hm.consistent, fun hf => (hfrozen _ hf).consistent, h.sound.wf.ids_nodup,
          h.sound.wf.sorted⟩
      · intro rows hrows r hr
        simp only [Engine.sources, Engine.memSources, List.mem_append, List.mem_cons, List.mem_map,
          List.mem_reverse] at hrows
        rcases hrows with (rfl | ⟨f, hf, rfl⟩) | ⟨m, hm, rfl⟩
        · exact hm.labels r hr
        · exact (hfrozen f hf).labels r hr
        · exact h.labels.segments ((mem_sortDesc Segment.id).1 hm) r hr
      · simp only [hs, next] at hfirst
        exact head_met (hheads hfold key r hp) (hfirst hfold key r hp) hr
  | start => simp [hs] at hstep
  | memtableClear => simp [hs] at hstep
  | frozenClear => simp [hs] at hstep
  | done fold view => simp [hs] at hstep

theorem check (h : s.Ok spec) (hstep : s.check spec = some s') : s'.Ok spec := by
  unfold Scanning.check at hstep
  cases hs : s.phase with
  | start =>
      simp only [hs, Option.some.injEq] at hstep
      subst hstep
      refine ⟨h.sound, h.labels, h.writer, ?_, ?_⟩
      · show ScanPhase.Ok (if _ then _ else _)
        split <;> trivial
      · intro _ key r _ hr
        split at hr <;> cases hr
  | memtableClear =>
      simp only [hs, Option.some.injEq] at hstep
      subst hstep
      refine ⟨h.sound, h.labels, h.writer, ?_, ?_⟩
      · show ScanPhase.Ok (if _ then _ else _)
        split <;> trivial
      · intro _ key r _ hr
        split at hr <;> cases hr
  | frozenClear =>
      simp only [hs, Option.some.injEq] at hstep
      subst hstep
      exact ⟨h.sound, h.labels, h.writer, trivial, fun _ key r _ hr => by cases hr⟩
  | decided fold => simp [hs] at hstep
  | metMemtable fold m => simp [hs] at hstep
  | metFrozen fold m frozen => simp [hs] at hstep
  | done fold view => simp [hs] at hstep

variable [SegmentFile ν]

theorem move (h : s.Ok spec) {a : Move ν} (ha : (ScanEvent.move a).LabelFree)
    (hstep : s.step spec (.move a) = some s') : s'.Ok spec := by
  obtain ⟨now, hnow, rfl⟩ := Option.map_eq_some_iff.1 hstep
  refine ⟨h.sound.step hnow, h.labels.step h.sound (fun req hreq _ => ?_) hnow, ?_, h.phase, h.heads⟩
  · exact foldl_labelReserved (Request.labelReserved (h.writer hreq)) h.sound.wf.memtable_consistent
      h.labels.memtable
  · intro req hreq
    rcases Actors.appended_of_step hnow hreq with hwriter | rfl
    · exact h.writer hwriter
    · exact ha

theorem step (h : s.Ok spec) {e : ScanEvent ν} (hclean : s.meetsNoDelta spec e = true)
    (hlabels : e.LabelFree) (hstep : s.step spec e = some s') : s'.Ok spec := by
  cases e with
  | move a => exact h.move hlabels hstep
  | check => exact h.check hstep
  | read => exact h.read hclean hstep

end Ok

end Invariant

section Main

variable [Unicode] [Numeral ν] [SegmentFile ν]

/-- A scan beside a store that has just been opened. -/
def opened (config : Config) (manifest : Manifest ν) (disk : Disk ν) (seq : Nat) : Scanning ν where
  now := (Traced.opened config manifest disk seq).now

omit [Numeral ν] [SegmentFile ν] in
theorem sound_opened {config : Config} {manifest : Manifest ν}
    (hwf : Engine.WF { config := config, manifest := manifest })
    (hnumbered : Engine.Numbered { config := config, manifest := manifest }) (disk : Disk ν)
    (seq : Nat) : (Traced.opened config manifest disk seq).now.Sound where
  wf := hwf
  numbered := hnumbered
  hand hmap := by cases hmap
  flush := trivial

omit [Numeral ν] [SegmentFile ν] in
theorem ok_opened {config : Config} {manifest : Manifest ν}
    (hwf : Engine.WF { config := config, manifest := manifest })
    (hnumbered : Engine.Numbered { config := config, manifest := manifest })
    (hlabels : ∀ m ∈ manifest.segments, ∀ r ∈ m.rows, r.LabelReserved) (disk : Disk ν) (seq : Nat)
    (spec : QuerySpec ν) : (opened config manifest disk seq).Ok spec where
  sound := sound_opened hwf hnumbered disk seq
  labels :=
    { memtable := fun r hr => by cases hr
      hand := fun hmap => by cases hmap
      frozen := fun hf => by cases hf
      segments := fun hm => hlabels _ hm }
  writer hreq := by cases hreq
  phase := trivial
  heads _ key r _ hr := by cases hr

omit [Numeral ν] [SegmentFile ν] in
/-- A view is read newest source first. -/
theorem Ok.headsFull {spec : QuerySpec ν} {s : Scanning ν} (h : s.Ok spec) {view : Engine ν}
    (hdone : s.phase = .done false view) : view.HeadsFull spec := by
  have hheads := h.heads
  have hphase := h.phase
  simp only [hdone] at hheads hphase
  intro key r hp hr
  rw [Engine.versions_eq, Engine.memVersions_eq hphase.1] at hr
  exact hheads rfl key r hp hr

omit [SegmentFile ν] in
/-- Under the invariant every path answers for its view as the oracle does. -/
theorem Ok.answers [LawfulNumeral ν] {spec : QuerySpec ν} {s : Scanning ν} (h : s.Ok spec)
    {fold : Bool} {view : Engine ν} (hdone : s.phase = .done fold view) :
    view.scanPath fold spec = view.scanOracle spec ∧
      (spec.after = none → view.countPath fold spec =
        (view.matchSet { spec with limit := 0, orderBy := none }).length) := by
  have hphase := h.phase
  simp only [hdone] at hphase
  obtain ⟨hwf, hlabels⟩ := hphase
  cases fold with
  | true =>
      refine ⟨Engine.scanFold_eq_oracle hwf, fun _ => ?_⟩
      rw [Engine.countPath, if_pos rfl, Engine.scanFold_eq_oracle hwf]
      simp [Engine.scanOracle, QuerySpec.truncate, (sortAsc_perm _ _).length_eq]
  | false =>
      have hfull := h.headsFull hdone
      refine ⟨?_, fun hafter => ?_⟩
      · rw [Engine.scanPath, if_neg (by simp)]
        split
        · rename_i order hlimit horder
          exact Engine.topkRows_eq_oracle hwf hlabels hfull (of_decide_eq_true hlimit) horder
        · exact Engine.scanFull_eq_oracle hwf hlabels hfull
      · rw [Engine.countPath, if_neg (by simp)]
        exact Engine.countFull_eq hwf hlabels hafter hfull

omit [SegmentFile ν] in
/-- What the oracle returns has been folded to the end. -/
theorem scanOracle_label (view : Engine ν) (spec : QuerySpec ν) :
    ∀ r ∈ view.scanOracle spec, r.labels[deltaLabel]? = none := by
  intro r hr
  obtain ⟨v, hv, rfl⟩ := List.mem_map.1 hr
  have hmem : v ∈ view.matchSet spec := by
    unfold QuerySpec.truncate at hv
    split at hv
    · exact (mem_sortAsc _).1 (List.mem_of_mem_take hv)
    · exact (mem_sortAsc _).1 hv
  obtain ⟨w, -, hsurf⟩ := Option.bind_eq_some_iff.1 (Engine.mem_matchSet.1 hmem).1
  rw [Record.surface_eq] at hsurf
  have hclear : w.clearDelta = v := by
    split at hsurf
    · cases hsurf
    · exact Option.some.inj hsurf
  have hlabels : (spec.stripText v).labels = v.labels := by
    rw [QuerySpec.stripText_eq]
    split <;> rfl
  rw [hlabels, ← hclear]
  exact Record.clearDelta_label w

/-- With the writer and the flush moving between any two steps of a scan or a count: when no read
after a negative check meets an increment as the first version of a key, every record returned is
the whole fold of the versions of its key that the scan read and carries no delta label, and a count
counts these folds. -/
theorem scan_never_leaks_delta [LawfulNumeral ν] {config : Config} {manifest : Manifest ν}
    (hwf : Engine.WF { config := config, manifest := manifest })
    (hnumbered : Engine.Numbered { config := config, manifest := manifest })
    (hlabels : ∀ m ∈ manifest.segments, ∀ r ∈ m.rows, r.LabelReserved) (disk : Disk ν) (seq : Nat)
    (spec : QuerySpec ν) {events : List (ScanEvent ν)} (hevents : ∀ e ∈ events, e.LabelFree)
    (hclean : EachStep (step spec) (fun s e => s.meetsNoDelta spec e = true)
      (opened config manifest disk seq) events)
    {s : Scanning ν} (hrun : runFrom (step spec) (opened config manifest disk seq) events = some s)
    {fold : Bool} {view : Engine ν} (hdone : s.phase = .done fold view) :
    view.scanPath fold spec = view.scanOracle spec ∧
      (∀ r ∈ view.scanPath fold spec, r.labels[deltaLabel]? = none) ∧
      (spec.after = none → view.countPath fold spec =
        (view.matchSet { spec with limit := 0, orderBy := none }).length) := by
  have hall : Throughout (step spec) (Ok spec) (opened config manifest disk seq) events :=
    throughout_of_step (fun h hC hstep => h.step hC.1 hC.2 hstep)
      (ok_opened hwf hnumbered hlabels disk seq spec) (hclean.and_mem hevents)
  obtain ⟨hscan, hcount⟩ := (hall.last hrun).answers hdone
  refine ⟨hscan, fun r hr => ?_, hcount⟩
  rw [hscan] at hr
  exact scanOracle_label view spec r hr

/-- With nothing moving beside it a scan reads the engine as it is. -/
theorem run_alone (now : Actors ν) (spec : QuerySpec ν) :
    ∃ n, runFrom (step spec) { now := now } (List.replicate n .check ++ List.replicate 3 .read) =
      some { now := now, phase := .done (now.engine.deltasPossible spec) now.engine } := by
  cases hmem : now.engine.memtable.hasDeltas with
  | true =>
      refine ⟨1, ?_⟩
      simp [runFrom, step, check, read, hmem, Engine.deltasPossible]
  | false =>
      cases hfrozen : now.engine.frozen.any (fun f => f.2.hasDeltas) with
      | true =>
          refine ⟨2, ?_⟩
          simp [runFrom, step, check, read, hmem, hfrozen, Engine.deltasPossible,
            List.replicate_succ]
      | false =>
          refine ⟨3, ?_⟩
          simp [runFrom, step, check, read, hmem, hfrozen, Engine.deltasPossible,
            List.replicate_succ]

end Main

end Scanning

section Sample

local instance instReadersUnicode : Unicode := asciiUnicode

local instance instReadersFile : SegmentFile Int := footprintFile Int

/-- A counter with five hits in a segment. -/
def counterManifest : Manifest Int where
  nextSegmentId := 1
  segments :=
    [Segment.ofRows 0
      [{ (Record.bare "n" 1 : Record Int) with
        numerics := (∅ : OrdMap String Int).insert "hits" 5 }]]

/-- One more hit. -/
def oneMore : Request Int := .incr "n" 2 ((∅ : OrdMap String Int).insert "hits" 1)

/-- The view a run of scan events ends with. -/
def viewAfter (events : List (ScanEvent Int)) : Option (Bool × Engine Int) :=
  (runFrom (Scanning.step {}) (Scanning.opened {} counterManifest {} 0) events).bind (fun s =>
    match s.phase with
    | .done fold view => some (fold, view)
    | _ => none)

theorem exists_view {events : List (ScanEvent Int)} (h : (viewAfter events).isSome = true) :
    ∃ s, runFrom (Scanning.step {}) (Scanning.opened {} counterManifest {} 0) events = some s ∧
      s.phase = .done ((viewAfter events).get h).1 ((viewAfter events).get h).2 := by
  obtain ⟨⟨fold, view⟩, hv⟩ := Option.isSome_iff_exists.1 h
  have hget : (viewAfter events).get h = (fold, view) := by simp [hv]
  obtain ⟨s, hs, hview⟩ := Option.bind_eq_some_iff.1 hv
  refine ⟨s, hs, ?_⟩
  cases hphase : s.phase with
  | done fold' view' =>
      simp only [hphase, Option.some.injEq, Prod.mk.injEq] at hview
      rw [hget, hview.1, hview.2]
  | _ => simp [hphase] at hview

/-- The increment comes between the check and the reads. -/
def lateIncr : List (ScanEvent Int) :=
  [.check, .check, .check, .move (.append oneMore), .move .insert, .read, .read, .read]

theorem lateIncr_views : (viewAfter lateIncr).isSome = true := by decide

/-- The scan returns the raw increment, delta label included, in place of a counter whose base is in
the segment it read. -/
theorem lateIncr_leaks :
    ∃ s fold view,
      runFrom (Scanning.step {}) (Scanning.opened {} counterManifest {} 0) lateIncr = some s ∧
        s.phase = .done fold view ∧
          ∃ r ∈ view.scanPath fold {}, r.labels[deltaLabel]? = some "1" ∧
            r.numerics["hits"]? = some 1 ∧
              (view.valueOf "n").bind (fun v => v.numerics["hits"]?) = some 6 := by
  obtain ⟨s, hrun, hphase⟩ := exists_view lateIncr_views
  refine ⟨s, _, _, hrun, hphase, Record.delta "n" 2 ((∅ : OrdMap String Int).insert "hits" 1), ?_⟩
  decide

/-- A put comes between the check and the reads, an increment after the memtable was read. -/
def latePut : List (ScanEvent Int) :=
  [.check, .check, .check, .move (.append (.putBatch [Record.bare "n" 3])), .move .insert,
    .move .reply, .read, .move (.append oneMore), .move .insert, .read, .read]

theorem latePut_views : (viewAfter latePut).isSome = true := by decide

theorem latePut_scans :
    ∃ s fold view,
      runFrom (Scanning.step {}) (Scanning.opened {} counterManifest {} 0) latePut = some s ∧
        s.phase = .done fold view ∧ view.scanPath fold {} = [Record.bare "n" 3] := by
  obtain ⟨s, hrun, hphase⟩ := exists_view latePut_views
  refine ⟨s, _, _, hrun, hphase, ?_⟩
  have hwf : Engine.WF { config := {}, manifest := counterManifest } :=
    Engine.wf_of_segments rfl rfl (by decide) (by decide)
  have hlabels : ∀ m ∈ counterManifest.segments, ∀ r ∈ m.rows, r.LabelReserved := by
    have hnone : ∀ m ∈ counterManifest.segments, ∀ r ∈ m.rows, r.labels[deltaLabel]? = none := by
      decide
    exact fun m hm r hr => Record.labelReserved_of_none (hnone m hm r hr)
  have hevents : ∀ e ∈ latePut, e.LabelFree := by
    have hbare : (Record.bare (ν := Int) "n" 3).labels[deltaLabel]? = none := by decide
    simp only [latePut, List.forall_mem_cons, ScanEvent.LabelFree, Request.LabelFree, oneMore,
      hbare, true_and]
    simp
  obtain ⟨hscan, -, -⟩ := Scanning.scan_never_leaks_delta hwf (by unfold Engine.Numbered; decide)
    hlabels {} 0 {} hevents (by decide) hrun hphase
  rw [hscan]
  decide

end Sample

end Girder
