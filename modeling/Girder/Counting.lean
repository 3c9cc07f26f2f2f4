import Girder.Compaction
import Girder.Serving
import Girder.Traces

/-!
# Counting — increments while a flush is running

Here the writer's messages are single steps and the flush takes its own steps between them
(`Turn`).  A flushed memtable stays in the frozen list until its segment is listed and its log
removed, so for a while the same version of a key sits in two sources.  A full record may; an
increment is then folded twice, for good when storing the manifest fails after the segment was
listed in memory.

`counted_once_while_flushing`: on a run that lists no increment that a read still reaches in its
memtable, and loses no acknowledged memtable to a failing freeze, every read folds every
acknowledged write exactly once.
-/

namespace Girder

open Lib

variable {ν : Type}

/-- A message of the writer from its delivery to its reply, or one step of the flush. -/
inductive Turn (ν : Type)
  /-- `failure` says how the log rotation ends if the message fills the memtable: `none` for a new
  log, `some created` for a failing `Wal::open`. -/
  | message (req : Request ν) (failure : Option Bool)
  | refused (req : Request ν) (n : Nat) (torn : Bool)
  | freeze (failure : Option Bool)
  | flush (move : Move ν)

/-- The labels the engine gives meaning to are not the client's to set. -/
def Turn.Unreserved : Turn ν → Prop
  | .message req _ => req.Unreserved
  | _ => True

/-- The moves of `flush_pending`. -/
def Move.isFlush : Move ν → Bool
  | .pick => true
  | .alloc => true
  | .writeSegment => true
  | .writeFails => true
  | .list _ => true
  | .listFails _ => true
  | .removeWal => true
  | .removeFails => true
  | .dropFrozen => true
  | _ => false

/-! ## Full records in memory -/

namespace Engine

/-- A memtable or one of some frozen memtables holds a full record of the key. -/
def hasFull (m : MemTable ν) (frozen : List (Nat × MemTable ν)) (key : String) : Bool :=
  (m.get key).any (fun v => !v.isDelta) ||
    frozen.any (fun f => (f.2.get key).any (fun v => !v.isDelta))

/-- A read of a key ends above the oldest frozen memtable whenever that one holds an increment. -/
def oldestHidden (e : Engine ν) : Bool :=
  match e.frozen with
  | [] => true
  | f :: rest => f.2.values.all (fun v => !v.isDelta || hasFull e.memtable rest v.key)

theorem hasFull_iff {m : MemTable ν} {frozen : List (Nat × MemTable ν)} {key : String} :
    hasFull m frozen key = true ↔
      (∃ v, m.get key = some v ∧ v.isDelta = false) ∨
        ∃ f ∈ frozen, ∃ v, f.2.get key = some v ∧ v.isDelta = false := by
  simp [hasFull, Option.any_eq_true]

theorem hasFull_append {m m' : MemTable ν} {frozen extra : List (Nat × MemTable ν)} {key : String}
    (h : hasFull m frozen key = true)
    (hm : ∀ v, m.get key = some v → v.isDelta = false → hasFull m' extra key = true) :
    hasFull m' (frozen ++ extra) key = true := by
  rcases hasFull_iff.1 h with ⟨v, hv, hfull⟩ | ⟨f, hf, hfull⟩
  · rcases hasFull_iff.1 (hm v hv hfull) with hm' | ⟨f, hf, hfull⟩
    · exact hasFull_iff.2 (.inl hm')
    · exact hasFull_iff.2 (.inr ⟨f, List.mem_append_right _ hf, hfull⟩)
  · exact hasFull_iff.2 (.inr ⟨f, List.mem_append_left _ hf, hfull⟩)

end Engine

namespace Traced

/-- The acknowledged writes, oldest first. -/
def acked (t : Traced ν) : List (Write ν) :=
  (t.calls.filter Call.acked).reverse.flatMap Call.writes

section Turns

variable [Unicode] [Numeral ν] [SegmentFile ν]

/-- `freeze` with a non-empty memtable, and the reply. -/
def rotate (t : Traced ν) : Option Bool → Option (Traced ν)
  | none => runFrom step t [.take, .openWal, .push, .reply]
  | some created => runFrom step t [.take, .openFails created]

def turn (t : Traced ν) : Turn ν → Option (Traced ν)
  | .message req failure =>
      (runFrom step t [.append req, .insert]).bind (fun t' =>
        if t'.now.freezes then t'.rotate failure else t'.step .reply)
  | .refused req n torn => t.step (.appendFails req n torn)
  | .freeze failure => if t.now.engine.memtable.isEmpty then some t else t.rotate failure
  | .flush move => if move.isFlush then t.step move else none

/-- The memtable with the writes of a message. -/
def filled (t : Traced ν) (req : Request ν) : MemTable ν :=
  req.writes.foldl MemTable.applyWrite t.now.engine.memtable

/-- The message fills the memtable. -/
def fills (t : Traced ν) (req : Request ν) : Bool :=
  decide (t.now.engine.config.memtableMaxRecords ≤ (t.filled req).len) && !(t.filled req).isEmpty

omit [Unicode] [Numeral ν] [SegmentFile ν] in
theorem acked_append {t t' : Traced ν} {c : Call ν} {ws : List (Write ν)}
    (hcalls : t'.calls = c :: t.calls) (hc : c.acked = true) (hws : c.writes = ws) :
    t'.acked = t.acked ++ ws := by
  simp [acked, hcalls, hc, hws]

/-- Where a message leaves the memtables and the acknowledged writes. -/
theorem message_cases {t t' : Traced ν} {req : Request ν} {failure : Option Bool}
    (hidle : t.now.writer = .idle) (h : t.turn (.message req failure) = some t') :
    t'.now.writer = .idle ∧ t'.now.maint = t.now.maint ∧
      t'.now.engine.manifest = t.now.engine.manifest ∧
      ((t'.now.engine.memtable = t.filled req ∧ t'.now.engine.frozen = t.now.engine.frozen ∧
          t'.acked = t.acked ++ req.writes) ∨
        (t'.now.engine.memtable = {} ∧
          t'.now.engine.frozen = t.now.engine.frozen ++ [(t.now.walSeq, t.filled req)] ∧
          t'.acked = t.acked ++ req.writes) ∨
        (failure.isSome = true ∧ t.fills req = true ∧ t'.now.engine.memtable = {} ∧
          t'.now.engine.frozen = t.now.engine.frozen ∧ t'.acked = t.acked)) := by
  simp only [turn, runFrom, step, Actors.step, hidle, Option.map_some, Option.bind_some] at h
  split at h
  · rename_i hfull
    cases failure with
    | none =>
        simp only [rotate, runFrom, step, Actors.step, hfull, Actors.take, note, amend,
          Option.map_some, Option.bind_some, if_true, Option.some.injEq] at h
        subst h
        exact ⟨rfl, rfl, rfl, .inr (.inl ⟨rfl, rfl, acked_append (t := t) rfl rfl rfl⟩)⟩
    | some created =>
        simp only [rotate, runFrom, step, Actors.step, hfull, Actors.take, note, amend,
          Option.map_some, Option.bind_some, if_true, Option.some.injEq] at h
        subst h
        exact ⟨rfl, rfl, rfl, .inr (.inr ⟨rfl, hfull, rfl, rfl, rfl⟩)⟩
  · simp only [Option.map_some, Option.some.injEq] at h
    subst h
    exact ⟨rfl, rfl, rfl, .inl ⟨rfl, rfl, acked_append (t := t) rfl rfl rfl⟩⟩

/-- Where a bare `Freeze` leaves them. -/
theorem freeze_cases {t t' : Traced ν} {failure : Option Bool}
    (hidle : t.now.writer = .idle) (h : t.turn (.freeze failure) = some t') :
    t' = t ∨ t'.now.writer = .idle ∧ t'.now.maint = t.now.maint ∧
      t'.now.engine.manifest = t.now.engine.manifest ∧ t'.now.engine.memtable = {} ∧
      t'.acked = t.acked ∧
      (t'.now.engine.frozen =
          t.now.engine.frozen ++ [(t.now.walSeq, t.now.engine.memtable)] ∨
        (failure.isSome = true ∧ t.now.engine.memtable.isEmpty = false ∧
          t'.now.engine.frozen = t.now.engine.frozen)) := by
  simp only [turn] at h
  split at h
  · exact .inl (Option.some.inj h).symm
  · rename_i hfull
    refine .inr ?_
    cases failure with
    | none =>
        simp only [rotate, runFrom, step, Actors.step, hidle, hfull, Actors.take, note,
          Option.map_some, Option.bind_some, Option.some.injEq, Bool.false_eq_true, if_false] at h
        subst h
        exact ⟨rfl, rfl, rfl, rfl, rfl, .inl rfl⟩
    | some created =>
        simp only [rotate, runFrom, step, Actors.step, hidle, hfull, Actors.take, note,
          Option.map_some, Option.bind_some, Option.some.injEq, Bool.false_eq_true, if_false] at h
        subst h
        exact ⟨rfl, rfl, rfl, rfl, rfl, .inr ⟨rfl, by simpa using hfull, rfl⟩⟩

theorem refused_cases {t t' : Traced ν} {req : Request ν} {n : Nat} {torn : Bool}
    (hidle : t.now.writer = .idle) (h : t.turn (.refused req n torn) = some t') :
    t'.now.writer = .idle ∧ t'.now.maint = t.now.maint ∧ t'.now.engine = t.now.engine ∧
      t'.acked = t.acked := by
  simp only [turn, step, Actors.step, hidle, Option.map_some, Option.some.injEq] at h
  subst h
  exact ⟨rfl, rfl, rfl, rfl⟩

/-- No acknowledged write goes down with a failing freeze, and a segment is listed only while no read
folds an increment of the memtable it was written from. -/
def cleanTurn (t : Traced ν) : Turn ν → Bool
  | .message req (some _) => !t.fills req || t.now.engine.memtable.isEmpty
  | .freeze (some _) => t.now.engine.memtable.isEmpty
  | .flush (.list _) => t.now.engine.oldestHidden
  | .flush (.listFails _) => t.now.engine.oldestHidden
  | _ => true

end Turns

end Traced

section Full

variable [Unicode] [Numeral ν]

/-- A full record stays full under further writes. -/
theorem full_foldl {key : String} {ws : List (Write ν)} (hws : ∀ w ∈ ws, w.Ok) :
    ∀ {m : MemTable ν}, m.Consistent → ∀ {v : Record ν}, m.get key = some v → v.isDelta = false →
      ∃ v', (ws.foldl MemTable.applyWrite m).get key = some v' ∧ v'.isDelta = false := by
  induction ws with
  | nil => exact fun _ v hv hfull => ⟨v, hv, hfull⟩
  | cons w ws ih =>
      intro m hm v hv hfull
      have hget := MemTable.get_applyWrite hm (fun (_ : w.key = key) => hws w (by simp))
      have hrest : ∀ u ∈ ws, u.Ok := fun u hu => hws u (by simp [hu])
      have hm' := MemTable.applyWrite_consistent hm w
      by_cases hkey : w.key = key
      · rw [if_pos hkey, hv, Layering.layerOpt_some] at hget
        exact ih hrest hm' hget
          (Layering.isPartial_layer_of_full mergeDelta_fullBase hfull w.record)
      · rw [if_neg hkey, hv] at hget
        exact ih hrest hm' hget hfull

end Full

/-! ## The invariant -/

namespace Traced

/-- The segment of a memtable is the newest one, and where it holds an increment a read ends above
the oldest frozen memtable. -/
def Listed (t : Traced ν) (entry : Nat × MemTable ν) : Prop :=
  ∀ key v, entry.2.get key = some v →
    (Engine.segVersions t.now.engine.manifest.segments key).head? = some v ∧
      (v.isDelta = true →
        Engine.hasFull t.now.engine.memtable t.now.engine.frozen.tail key = true)

/-- What the flush relies on: it works on the oldest frozen memtable, under a number newer than every
segment's. -/
def FlushOk (t : Traced ν) : Prop :=
  match t.now.maint with
  | .idle => True
  | .picked entry => t.now.engine.frozen.head? = some entry
  | .allotted entry seq => t.now.engine.frozen.head? = some entry ∧
      (∀ s ∈ t.now.engine.manifest.segments, s.id < seq) ∧
        seq < t.now.engine.manifest.nextSegmentId
  | .written entry seq => t.now.engine.frozen.head? = some entry ∧
      (∀ s ∈ t.now.engine.manifest.segments, s.id < seq) ∧
        seq < t.now.engine.manifest.nextSegmentId
  | .listed entry => t.now.engine.frozen.head? = some entry ∧ t.Listed entry
  | .unlogged entry => t.now.engine.frozen.head? = some entry ∧ t.Listed entry

/-- What the segments hold of a key reads as the base and the writes that left memory, unless a full
record in memory hides it. -/
def Folded [Numeral ν] (t : Traced ν) (base : String → List (Record ν)) (gone : List (Write ν))
    (key : String) : Prop :=
  ∃ vs, (recordLayers ν).Tiles vs ((base key).reverse ++ recordsOf key gone) ∧
    (Engine.hasFull t.now.engine.memtable t.now.engine.frozen key = true ∨
      (recordLayers ν).live (Engine.segVersions t.now.engine.manifest.segments key) =
        (recordLayers ν).live vs)

section Counted

variable [Unicode] [Numeral ν]

/-- Every acknowledged write is in a memtable, or reads from the segments, once. -/
structure Counted (base : String → List (Record ν)) (gone : List (Write ν))
    (logs : List (List (Write ν))) (cur : List (Write ν)) (t : Traced ν) : Prop where
  idle : t.now.writer = .idle
  ids_nodup : (t.now.engine.manifest.segments.map Segment.id).Nodup
  sorted {s : Segment ν} : s ∈ t.now.engine.manifest.segments → s.Sorted
  numbered : t.now.engine.Numbered
  acked : t.acked = gone ++ (logs.flatten ++ cur)
  ok : ∀ w ∈ gone ++ (logs.flatten ++ cur), w.Ok
  memtable : t.now.engine.memtable = memtableOf cur
  frozen : t.now.engine.frozen.map Prod.snd = logs.map memtableOf
  folded (key : String) : t.Folded base gone key
  flush : t.FlushOk

variable {base : String → List (Record ν)} {gone : List (Write ν)} {logs : List (List (Write ν))}
  {cur : List (Write ν)} {t t' : Traced ν}

namespace Counted

theorem consistent (h : t.Counted base gone logs cur) : t.now.engine.memtable.Consistent := by
  rw [h.memtable]
  exact memtableOf_consistent cur

theorem wf (h : t.Counted base gone logs cur) : t.now.engine.WF where
  memtable_consistent := h.consistent
  frozen_consistent {f} hf := by
    have hmem : f.2 ∈ logs.map memtableOf := by
      rw [← h.frozen]
      exact List.mem_map_of_mem hf
    obtain ⟨log, -, heq⟩ := List.mem_map.1 hmem
    rw [← heq]
    exact memtableOf_consistent log
  ids_nodup := h.ids_nodup
  sorted := h.sorted

/-- A step of the writer: writes go into the memtable, the memtable goes to the end of the frozen
list, and a full record in memory stays there. -/
theorem of_writer (h : t.Counted base gone logs cur) (extra : List (Nat × MemTable ν))
    {logs' : List (List (Write ν))} {cur' : List (Write ν)} (hidle : t'.now.writer = .idle)
    (hmaint : t'.now.maint = t.now.maint)
    (hmanifest : t'.now.engine.manifest = t.now.engine.manifest)
    (hacked : t'.acked = gone ++ (logs'.flatten ++ cur'))
    (hok : ∀ w ∈ gone ++ (logs'.flatten ++ cur'), w.Ok)
    (hmem : t'.now.engine.memtable = memtableOf cur')
    (hfrozen : t'.now.engine.frozen = t.now.engine.frozen ++ extra)
    (hlogs : t'.now.engine.frozen.map Prod.snd = logs'.map memtableOf)
    (hfull : ∀ key v, t.now.engine.memtable.get key = some v → v.isDelta = false →
      Engine.hasFull t'.now.engine.memtable extra key = true) :
    t'.Counted base gone logs' cur' where
  idle := hidle
  ids_nodup := by
    rw [hmanifest]
    exact h.ids_nodup
  sorted := by
    rw [hmanifest]
    exact h.sorted
  numbered := by
    unfold Engine.Numbered
    rw [hmanifest]
    exact h.numbered
  acked := hacked
  ok := hok
  memtable := hmem
  frozen := hlogs
  folded key := by
    obtain ⟨vs, htiles, hhidden⟩ := h.folded key
    refine ⟨vs, htiles, hhidden.imp (fun hf => ?_) (fun hlive => ?_)⟩
    · rw [hfrozen]
      exact Engine.hasFull_append hf (hfull key)
    · rw [hmanifest]
      exact hlive
  flush := by
    have hflush := h.flush
    -- The flush works on the oldest memtable, and only newer ones come.
    have hhead : ∀ {entry}, t.now.engine.frozen.head? = some entry →
        t'.now.engine.frozen.head? = some entry := by
      intro entry hentry
      obtain ⟨rest, hrest⟩ := List.head?_eq_some_iff.1 hentry
      simp [hfrozen, hrest]
    have hlisted : ∀ {entry}, t.now.engine.frozen.head? = some entry → t.Listed entry →
        t'.Listed entry := by
      intro entry hentry hl key v hv
      obtain ⟨rest, hrest⟩ := List.head?_eq_some_iff.1 hentry
      obtain ⟨hnewest, hhidden⟩ := hl key v hv
      refine ⟨by rw [hmanifest]; exact hnewest, fun hdelta => ?_⟩
      have htail := hhidden hdelta
      rw [hrest, List.tail_cons] at htail
      rw [hfrozen, hrest, List.cons_append, List.tail_cons]
      exact Engine.hasFull_append htail (hfull key)
    unfold FlushOk at hflush ⊢
    rw [hmaint, hmanifest]
    cases hphase : t.now.maint with
    | idle => trivial
    | picked entry =>
        simp only [hphase] at hflush
        exact hhead hflush
    | allotted entry seq =>
        simp only [hphase] at hflush
        exact ⟨hhead hflush.1, hflush.2⟩
    | written entry seq =>
        simp only [hphase] at hflush
        exact ⟨hhead hflush.1, hflush.2⟩
    | listed entry =>
        simp only [hphase] at hflush
        exact ⟨hhead hflush.1, hlisted hflush.1 hflush.2⟩
    | unlogged entry =>
        simp only [hphase] at hflush
        exact ⟨hhead hflush.1, hlisted hflush.1 hflush.2⟩

omit [Unicode] [Numeral ν] in
/-- A memtable moved to the frozen list keeps its full records in memory. -/
theorem hasFull_moved {m : MemTable ν} {seq : Nat} {key : String} {v : Record ν}
    (hv : m.get key = some v) (hfull : v.isDelta = false) :
    Engine.hasFull {} [(seq, m)] key = true :=
  Engine.hasFull_iff.2 (.inr ⟨(seq, m), by simp, v, hv, hfull⟩)

omit [Unicode] [Numeral ν] in
/-- An empty memtable has no full record to lose. -/
theorem hasFull_lost {m : MemTable ν} (h : m.isEmpty = true) {key : String} {v : Record ν}
    (hv : m.get key = some v) : Engine.hasFull (ν := ν) {} [] key = true := by
  rw [MemTable.get, Std.ExtTreeMap.isEmpty_iff.1 h] at hv
  simp at hv

variable [SegmentFile ν]

theorem message (h : t.Counted base gone logs cur) {req : Request ν} {failure : Option Bool}
    (hreq : req.Unreserved)
    (hclean : failure.isSome = true → t.fills req = true →
      t.now.engine.memtable.isEmpty = true)
    (hstep : t.turn (.message req failure) = some t') :
    ∃ logs' cur', t'.Counted base gone logs' cur' := by
  have hwrites := Request.writes_ok hreq
  have hok : ∀ w ∈ gone ++ (logs.flatten ++ cur) ++ req.writes, w.Ok := by
    intro w hw
    rcases List.mem_append.1 hw with hw | hw
    · exact h.ok w hw
    · exact hwrites w hw
  have hfilled : t.filled req = memtableOf (cur ++ req.writes) := by
    rw [filled, h.memtable, memtableOf, memtableOf, List.foldl_append]
  have hkept : ∀ key v, t.now.engine.memtable.get key = some v → v.isDelta = false →
      ∃ v', (t.filled req).get key = some v' ∧ v'.isDelta = false :=
    fun key v hv hfull => full_foldl hwrites h.consistent hv hfull
  obtain ⟨hidle, hmaint, hmanifest, hcases⟩ := message_cases h.idle hstep
  rcases hcases with ⟨hmem, hfrozen, hacked⟩ | ⟨hmem, hfrozen, hacked⟩ |
    ⟨hfails, hfills, hmem, hfrozen, hacked⟩
  · -- There is room: the message goes to the open log.
    refine ⟨logs, cur ++ req.writes,
      h.of_writer [] hidle hmaint hmanifest ?_ ?_ (hmem.trans hfilled) ?_ ?_ ?_⟩
    · rw [hacked, h.acked]
      simp
    · simpa using hok
    · simpa using hfrozen
    · rw [hfrozen]
      exact h.frozen
    · intro key v hv hfull
      obtain ⟨v', hv', hfull'⟩ := hkept key v hv hfull
      rw [hmem]
      exact Engine.hasFull_iff.2 (.inl ⟨v', hv', hfull'⟩)
  · -- It fills the memtable, which is frozen with its log.
    refine ⟨logs ++ [cur ++ req.writes], [],
      h.of_writer _ hidle hmaint hmanifest ?_ ?_ hmem hfrozen ?_ ?_⟩
    · rw [hacked, h.acked]
      simp
    · simpa using hok
    · rw [hfrozen, List.map_append, List.map_append, h.frozen, hfilled]
      rfl
    · intro key v hv hfull
      obtain ⟨v', hv', hfull'⟩ := hkept key v hv hfull
      rw [hmem]
      exact hasFull_moved hv' hfull'
  · -- The lost memtable was empty before the message, so nothing acknowledged went with it.
    have hempty := hclean hfails hfills
    have hcur : cur = [] := by
      rw [h.memtable] at hempty
      exact eq_nil_of_isEmpty hempty
    refine ⟨logs, cur,
      h.of_writer [] hidle hmaint hmanifest (hacked.trans h.acked) h.ok ?_ ?_ ?_ ?_⟩
    · rw [hmem, hcur]
      rfl
    · simpa using hfrozen
    · rw [hfrozen]
      exact h.frozen
    · intro key v hv _
      rw [hmem]
      exact hasFull_lost hempty hv

theorem freeze (h : t.Counted base gone logs cur) {failure : Option Bool}
    (hclean : failure.isSome = true → t.now.engine.memtable.isEmpty = true)
    (hstep : t.turn (.freeze failure) = some t') :
    ∃ logs' cur', t'.Counted base gone logs' cur' := by
  rcases freeze_cases h.idle hstep with rfl | ⟨hidle, hmaint, hmanifest, hmem, hacked, hcases⟩
  · exact ⟨logs, cur, h⟩
  · rcases hcases with hfrozen | ⟨hfails, hne, -⟩
    · refine ⟨logs ++ [cur], [], h.of_writer _ hidle hmaint hmanifest ?_ ?_ hmem hfrozen ?_ ?_⟩
      · rw [hacked, h.acked]
        simp
      · simpa using h.ok
      · rw [hfrozen, List.map_append, List.map_append, h.frozen, h.memtable]
        rfl
      · intro key v hv hfull
        rw [hmem]
        exact hasFull_moved hv hfull
    · rw [hclean hfails] at hne
      cases hne

theorem refused (h : t.Counted base gone logs cur) {req : Request ν} {n : Nat} {torn : Bool}
    (hstep : t.turn (.refused req n torn) = some t') : t'.Counted base gone logs cur := by
  obtain ⟨hidle, hmaint, hengine, hacked⟩ := refused_cases h.idle hstep
  refine h.of_writer [] hidle hmaint (by rw [hengine]) (hacked.trans h.acked) h.ok
    (by rw [hengine]; exact h.memtable) (by simp [hengine]) (by rw [hengine]; exact h.frozen) ?_
  intro key v hv hfull
  rw [hengine]
  exact Engine.hasFull_iff.2 (.inl ⟨v, hv, hfull⟩)

omit [SegmentFile ν] in
/-- A step of the flush that leaves memory and the segments alone. -/
theorem of_flush (h : t.Counted base gone logs cur) (hidle : t'.now.writer = .idle)
    (hacked : t'.acked = t.acked) (hmem : t'.now.engine.memtable = t.now.engine.memtable)
    (hfrozen : t'.now.engine.frozen = t.now.engine.frozen)
    (hsegs : t'.now.engine.manifest.segments = t.now.engine.manifest.segments)
    (hnext : t.now.engine.manifest.nextSegmentId ≤ t'.now.engine.manifest.nextSegmentId)
    (hflush : t'.FlushOk) : t'.Counted base gone logs cur where
  idle := hidle
  ids_nodup := by
    rw [hsegs]
    exact h.ids_nodup
  sorted := by
    rw [hsegs]
    exact h.sorted
  numbered s hs := by
    rw [hsegs] at hs
    exact (h.numbered s hs).trans_le hnext
  acked := hacked.trans h.acked
  ok := h.ok
  memtable := hmem.trans h.memtable
  frozen := by
    rw [hfrozen]
    exact h.frozen
  folded key := by
    unfold Folded
    rw [hmem, hfrozen, hsegs]
    exact h.folded key
  flush := hflush

omit [SegmentFile ν] in
/-- The oldest frozen memtable with its writes. -/
theorem oldest (h : t.Counted base gone logs cur) {entry : Nat × MemTable ν}
    (hhead : t.now.engine.frozen.head? = some entry) :
    ∃ log rest frozen, logs = log :: rest ∧ t.now.engine.frozen = entry :: frozen ∧
      entry.2 = memtableOf log := by
  obtain ⟨frozen, hfrozen⟩ := List.head?_eq_some_iff.1 hhead
  have hlogs := h.frozen
  rw [hfrozen] at hlogs
  cases hl : logs with
  | nil => simp [hl] at hlogs
  | cons log rest =>
      rw [hl, List.map_cons, List.map_cons, List.cons.injEq] at hlogs
      exact ⟨log, rest, frozen, rfl, hfrozen, hlogs.1⟩

/-- The segment of the oldest frozen memtable is listed, while no read folds an increment of that
memtable. -/
theorem listing (h : t.Counted base gone logs cur) {entry : Nat × MemTable ν} {seq : Nat}
    {now : Int64} (hmaint : t.now.maint = .written entry seq)
    (hclean : t.now.engine.oldestHidden = true) (hidle : t'.now.writer = .idle)
    (hacked : t'.acked = t.acked)
    (hengine : t'.now.engine =
      { t.now.engine with manifest := t.now.listing seq now entry.2.values })
    (hphase : t'.now.maint = .listed entry ∨ t'.now.maint = .idle) :
    t'.Counted base gone logs cur := by
  have hflush := h.flush
  simp only [FlushOk, hmaint] at hflush
  obtain ⟨hhead, hnewest, hnext⟩ := hflush
  obtain ⟨log, rest, frozen, hlogs, hfrozen, hentry⟩ := h.oldest hhead
  have hconsistent : entry.2.Consistent := by
    rw [hentry]
    exact memtableOf_consistent log
  have hsegs : t'.now.engine.manifest.segments =
      t.now.engine.manifest.segments ++ [Process.flushedSegment seq now entry.2.values] := by
    rw [hengine]
    rfl
  have hversions : ∀ key, Engine.segVersions t'.now.engine.manifest.segments key =
      (entry.2.get key).toList ++ Engine.segVersions t.now.engine.manifest.segments key := by
    intro key
    rw [hsegs, Engine.segVersions_concat h.ids_nodup hnewest, Engine.get_eq_rowOf hconsistent]
    rfl
  -- What the memtable shares with its segment is full, or out of reach.
  have hhidden : ∀ key v, entry.2.get key = some v → v.isDelta = true →
      Engine.hasFull t.now.engine.memtable frozen key = true := by
    intro key v hv hdelta
    have hkey : v.key = key := hconsistent.key_eq hv
    have hmem : v ∈ entry.2.values := by
      rw [Engine.get_eq_rowOf hconsistent] at hv
      exact (rowOf_eq_some hv).1
    simp only [Engine.oldestHidden, hfrozen, List.all_eq_true] at hclean
    have hv' := hclean v hmem
    rw [hdelta, Bool.not_true, Bool.false_or, hkey] at hv'
    exact hv'
  refine ⟨hidle, ?_, ?_, ?_, hacked.trans h.acked, h.ok, ?_, ?_, fun key => ?_, ?_⟩
  · rw [hsegs]
    exact Engine.ids_nodup_concat h.ids_nodup hnewest
  · intro s hs
    rw [hsegs] at hs
    rcases List.mem_append.1 hs with hs | hs
    · exact h.sorted hs
    · rw [List.mem_singleton.1 hs]
      exact MemTable.values_sorted hconsistent
  · intro s hs
    have hnext' : t'.now.engine.manifest.nextSegmentId =
        t.now.engine.manifest.nextSegmentId := by
      rw [hengine]
      rfl
    rw [hsegs] at hs
    rw [hnext']
    rcases List.mem_append.1 hs with hs | hs
    · exact h.numbered s hs
    · rw [List.mem_singleton.1 hs]
      exact hnext
  · rw [hengine]
    exact h.memtable
  · rw [hengine]
    exact h.frozen
  · obtain ⟨vs, htiles, halt⟩ := h.folded key
    refine ⟨vs, htiles, ?_⟩
    rw [hversions]
    cases hv : entry.2.get key with
    | none =>
        rw [hengine]
        exact halt
    | some v =>
        -- The version is still in memory: it is full itself, or a full one lies above it.
        refine .inl ?_
        rw [hengine]
        show Engine.hasFull t.now.engine.memtable t.now.engine.frozen key = true
        rw [hfrozen]
        cases hdelta : v.isDelta with
        | false => exact Engine.hasFull_iff.2 (.inr ⟨entry, by simp, v, hv, hdelta⟩)
        | true =>
            rcases Engine.hasFull_iff.1 (hhidden key v hv hdelta) with hm | ⟨f, hf, hfull⟩
            · exact Engine.hasFull_iff.2 (.inl hm)
            · exact Engine.hasFull_iff.2 (.inr ⟨f, by simp [hf], hfull⟩)
  · rcases hphase with hphase | hphase
    · simp only [FlushOk, hphase]
      refine ⟨by rw [hengine]; exact hhead, fun key v hv => ⟨?_, fun hdelta => ?_⟩⟩
      · rw [hversions, hv]
        rfl
      · rw [hengine]
        show Engine.hasFull t.now.engine.memtable t.now.engine.frozen.tail key = true
        rw [hfrozen]
        exact hhidden key v hv hdelta
    · simp only [FlushOk, hphase]

omit [SegmentFile ν] in
/-- The oldest frozen memtable is dropped; its segment takes over. -/
theorem dropFrozen (h : t.Counted base gone logs cur) (t' : Traced ν) {entry : Nat × MemTable ν}
    (hmaint : t.now.maint = .unlogged entry) (hidle : t'.now.writer = .idle)
    (hacked : t'.acked = t.acked)
    (hengine : t'.now.engine = { t.now.engine with frozen := t.now.engine.frozen.tail })
    (hphase : t'.now.maint = .idle) :
    ∃ log rest, logs = log :: rest ∧ t'.Counted base (gone ++ log) rest cur := by
  have hflush := h.flush
  simp only [FlushOk, hmaint] at hflush
  obtain ⟨hhead, hlisted⟩ := hflush
  obtain ⟨log, rest, frozen, hlogs, hfrozen, hentry⟩ := h.oldest hhead
  refine ⟨log, rest, hlogs, ?_⟩
  have hok : ∀ w ∈ gone ++ log ++ (rest.flatten ++ cur), w.Ok := by
    intro w hw
    refine h.ok w ?_
    rw [hlogs]
    simpa using hw
  refine ⟨hidle, ?_, ?_, ?_, ?_, hok, ?_, ?_, fun key => ?_, ?_⟩
  · rw [hengine]
    exact h.ids_nodup
  · rw [hengine]
    exact h.sorted
  · rw [hengine]
    exact h.numbered
  · rw [hacked, h.acked, hlogs]
    simp
  · rw [hengine]
    exact h.memtable
  · rw [hengine]
    show t.now.engine.frozen.tail.map Prod.snd = rest.map memtableOf
    rw [List.map_tail, h.frozen, hlogs]
    rfl
  · obtain ⟨vs, htiles, halt⟩ := h.folded key
    have hget : entry.2.get key = (recordLayers ν).replay (recordsOf key log) := by
      rw [hentry]
      exact get_memtableOf (fun w hw _ => hok w (by simp [hw]))
    refine ⟨(entry.2.get key).toList ++ vs, ?_, ?_⟩
    · rw [hget, recordsOf_append, ← List.append_assoc]
      exact htiles.push _
    · rw [hengine]
      show Engine.hasFull t.now.engine.memtable t.now.engine.frozen.tail key = true ∨
        (recordLayers ν).live (Engine.segVersions t.now.engine.manifest.segments key) = _
      cases hv : entry.2.get key with
      | none =>
          -- The memtable says nothing about the key, so it hid nothing either.
          refine halt.imp (fun hfull => ?_) id
          rw [hfrozen] at hfull ⊢
          rcases Engine.hasFull_iff.1 hfull with hm | ⟨f, hf, v, hfv, hfull⟩
          · exact Engine.hasFull_iff.2 (.inl hm)
          · rcases List.mem_cons.1 hf with rfl | hf
            · rw [hv] at hfv
              cases hfv
            · exact Engine.hasFull_iff.2 (.inr ⟨f, hf, v, hfv, hfull⟩)
      | some v =>
          obtain ⟨hnewest, hhidden⟩ := hlisted key v hv
          cases hdelta : v.isDelta with
          | true => exact .inl (hhidden hdelta)
          | false =>
              obtain ⟨older, holder⟩ := List.head?_eq_some_iff.1 hnewest
              right
              rw [holder, Layering.live_of_full hdelta]
              exact (Layering.live_of_full hdelta vs).symm
  · simp only [FlushOk, hphase]

/-- A clean step of the flush. -/
theorem flushStep (h : t.Counted base gone logs cur) {move : Move ν}
    (hclean : t.cleanTurn (.flush move) = true) (hstep : t.turn (.flush move) = some t') :
    ∃ gone' logs', t'.Counted base gone' logs' cur := by
  simp only [turn, Option.ite_none_right_eq_some] at hstep
  obtain ⟨hmove, hstep⟩ := hstep
  obtain ⟨s, hs, rfl⟩ := step_cases hstep
  have hflush := h.flush
  unfold FlushOk at hflush
  cases hs with
  | pick hphase hfrozen =>
      refine ⟨gone, logs, h.of_flush h.idle rfl rfl rfl rfl (Nat.le_refl _) ?_⟩
      show t.now.engine.frozen.head? = _
      simp [hfrozen]
  | alloc hphase =>
      simp only [hphase] at hflush
      exact ⟨gone, logs, h.of_flush h.idle rfl rfl rfl rfl (Nat.le_succ _)
        ⟨hflush, h.numbered, Nat.lt_succ_self _⟩⟩
  | writeSegment hphase =>
      simp only [hphase] at hflush
      exact ⟨gone, logs, h.of_flush h.idle rfl rfl rfl rfl (Nat.le_refl _) hflush⟩
  | writeFails hphase =>
      exact ⟨gone, logs, h.of_flush h.idle rfl rfl rfl rfl (Nat.le_refl _) trivial⟩
  | list hphase => exact ⟨gone, logs, h.listing hphase hclean h.idle rfl rfl (.inl rfl)⟩
  | listFails hphase => exact ⟨gone, logs, h.listing hphase hclean h.idle rfl rfl (.inr rfl)⟩
  | removeWal hphase =>
      simp only [hphase] at hflush
      exact ⟨gone, logs, h.of_flush h.idle rfl rfl rfl rfl (Nat.le_refl _) hflush⟩
  | removeFails hphase =>
      simp only [hphase] at hflush
      exact ⟨gone, logs, h.of_flush h.idle rfl rfl rfl rfl (Nat.le_refl _) hflush⟩
  | dropFrozen hphase =>
      -- The log of the dropped memtable joins the gone ones.
      obtain ⟨log, rest, -, hrest⟩ := h.dropFrozen { t.note .dropFrozen with
        now := { t.now with
          engine := { t.now.engine with frozen := t.now.engine.frozen.tail }
          maint := .idle } } hphase h.idle rfl rfl rfl
      exact ⟨gone ++ log, rest, hrest⟩
  | _ => cases hmove

/-- A clean turn keeps the count. -/
theorem step (h : t.Counted base gone logs cur) {a : Turn ν} (hclean : t.cleanTurn a = true)
    (hreq : a.Unreserved) (hstep : t.turn a = some t') :
    ∃ gone' logs' cur', t'.Counted base gone' logs' cur' := by
  cases a with
  | message req failure =>
      refine ⟨gone, h.message hreq (fun hfails hfills => ?_) hstep⟩
      obtain ⟨created, rfl⟩ := Option.isSome_iff_exists.1 hfails
      simpa [cleanTurn, hfills] using hclean
  | refused req n torn => exact ⟨gone, logs, cur, h.refused hstep⟩
  | freeze failure =>
      refine ⟨gone, h.freeze (fun hfails => ?_) hstep⟩
      obtain ⟨created, rfl⟩ := Option.isSome_iff_exists.1 hfails
      exact hclean
  | flush move =>
      obtain ⟨gone', logs', h'⟩ := h.flushStep hclean hstep
      exact ⟨gone', logs', cur, h'⟩

omit [SegmentFile ν] in
theorem versions_eq (h : t.Counted base gone logs cur) (key : String) :
    t.now.engine.versions key =
      ((recordLayers ν).replay (recordsOf key cur)).toList ++
        (logs.reverse.filterMap (fun log => (recordLayers ν).replay (recordsOf key log)) ++
          Engine.segVersions t.now.engine.manifest.segments key) := by
  have hmem : t.now.engine.memtable.get key = (recordLayers ν).replay (recordsOf key cur) := by
    rw [h.memtable]
    exact get_memtableOf (fun w hw _ => h.ok w (by simp [hw]))
  have hfrozen : t.now.engine.frozen.reverse.filterMap (fun f => f.2.get key) =
      logs.reverse.filterMap (fun log => (recordLayers ν).replay (recordsOf key log)) := by
    have hsnd : t.now.engine.frozen.reverse.filterMap (fun f => f.2.get key) =
        (t.now.engine.frozen.map Prod.snd).reverse.filterMap (fun m => m.get key) := by
      rw [← List.map_reverse, List.filterMap_map]
      rfl
    rw [hsnd, h.frozen, ← List.map_reverse, List.filterMap_map]
    refine List.filterMap_congr (fun log hlog => ?_)
    refine get_memtableOf (fun w hw _ => h.ok w ?_)
    have hw' : w ∈ logs.flatten := List.mem_flatten.2 ⟨log, List.mem_reverse.1 hlog, hw⟩
    simp [hw']
  rw [Engine.versions_eq, Engine.memVersions_eq h.wf, hmem, hfrozen, List.append_assoc]

omit [SegmentFile ν] in
/-- The versions of a key tile the base and the acknowledged writes. -/
theorem tiles (h : t.Counted base gone logs cur) (key : String) :
    (recordLayers ν).Tiles (t.now.engine.versions key)
      ((base key).reverse ++ recordsOf key t.acked) := by
  obtain ⟨vs, htiles, halt⟩ := h.folded key
  have hlogs : recordsOf key logs.flatten = (logs.map (recordsOf key)).flatten := by
    simp only [recordsOf, List.map_flatten, List.filter_flatten, List.map_map]
    rfl
  have hversions : logs.reverse.filterMap (fun log => (recordLayers ν).replay (recordsOf key log)) =
      (logs.map (recordsOf key)).reverse.filterMap (recordLayers ν).replay := by
    rw [← List.map_reverse, List.filterMap_map]
    rfl
  have hall : (recordLayers ν).Tiles (t.now.engine.memVersions key ++ vs)
      ((base key).reverse ++ recordsOf key t.acked) := by
    have hmem := h.versions_eq key
    rw [Engine.versions_eq, ← List.append_assoc] at hmem
    have hpush := (htiles.pushAll (logs.map (recordsOf key))).push (recordsOf key cur)
    rw [List.append_cancel_right hmem, hversions, h.acked, recordsOf_append, recordsOf_append,
      hlogs]
    simpa only [List.append_assoc] using hpush
  rw [Engine.versions_eq]
  refine hall.congr ?_
  rcases halt with hfull | hlive
  · have hmem : ∃ v ∈ t.now.engine.memVersions key, v.isDelta = false := by
      rw [Engine.memVersions_eq h.wf]
      rcases Engine.hasFull_iff.1 hfull with ⟨v, hv, hfull⟩ | ⟨f, hf, v, hv, hfull⟩
      · exact ⟨v, by simp [hv], hfull⟩
      · exact ⟨v, List.mem_append_right _
          (List.mem_filterMap.2 ⟨f, List.mem_reverse.2 hf, hv⟩), hfull⟩
    obtain ⟨v, hv, hfull⟩ := hmem
    exact Layering.live_append_of_mem hv hfull _ _
  · exact Layering.live_append_congr hlive _

end Counted

end Counted

/-- A read of any key folds what was there at the start and every acknowledged write exactly once, in
consecutive groups; in exact arithmetic that is one replay of them all. -/
def CountedOnce [Numeral ν] (base : String → List (Record ν)) (t : Traced ν) : Prop :=
  ∀ key,
    (∃ pieces : List (List (Record ν)),
      pieces.flatten = (base key).reverse ++ recordsOf key t.acked ∧
        t.now.engine.getOnce key =
          Engine.readVersions (pieces.reverse.filterMap (recordLayers ν).replay)) ∧
    (ExactNumeral ν → (∀ r ∈ base key, r.PlainDelta) →
      t.now.engine.getOnce key =
        ((recordLayers ν).replay ((base key).reverse ++ recordsOf key t.acked)).bind
          Record.surface)

section Main

variable [Unicode] [Numeral ν] [SegmentFile ν]

omit [SegmentFile ν] in
theorem Counted.countedOnce [LawfulNumeral ν] {base : String → List (Record ν)}
    {gone : List (Write ν)} {logs : List (List (Write ν))} {cur : List (Write ν)} {t : Traced ν}
    (h : t.Counted base gone logs cur) : t.CountedOnce base := by
  intro key
  have htiles := h.tiles key
  have hread : t.now.engine.getOnce key =
      ((recordLayers ν).readNewest (t.now.engine.versions key)).bind Record.surface :=
    Engine.getOnce_eq h.wf key
  refine ⟨?_, fun hexact hbase => ?_⟩
  · obtain ⟨pieces, hflat, hpieces⟩ := htiles.readNewest_eq mergeDelta_fullBase
    exact ⟨pieces, hflat, by rw [hread, hpieces]; rfl⟩
  · have hplain : ∀ r ∈ (base key).reverse ++ recordsOf key t.acked, r.PlainDelta := by
      intro r hr
      rcases List.mem_append.1 hr with hr | hr
      · exact hbase r (List.mem_reverse.1 hr)
      · rw [h.acked] at hr
        exact plainDelta_of_ok h.ok r (List.mem_filter.1 hr).1
    rw [hread, htiles.readNewest_eq_replay mergeDelta_lawful mergeDelta_fullBase hplain]

omit [SegmentFile ν] in
theorem counted_opened {config : Config} {manifest : Manifest ν}
    (hwf : Engine.WF { config := config, manifest := manifest })
    (hnumbered : Engine.Numbered { config := config, manifest := manifest }) (disk : Disk ν)
    (seq : Nat) :
    (opened config manifest disk seq).Counted (Engine.segVersions manifest.segments) [] [] [] where
  idle := rfl
  ids_nodup := hwf.ids_nodup
  sorted hs := hwf.sorted hs
  numbered := hnumbered
  acked := rfl
  ok w hw := by cases hw
  memtable := rfl
  frozen := rfl
  folded key := by
    refine ⟨Engine.segVersions manifest.segments key, ?_, .inr rfl⟩
    simpa using Layering.Tiles.self (L := recordLayers ν) (Engine.segVersions manifest.segments key)
  flush := trivial

/-- With the flush stepping between the writer's messages, and retrying after whatever failed, every
read in every state folds each acknowledged write exactly once, on the runs whose turns are all
clean. -/
theorem counted_once_while_flushing [LawfulNumeral ν] {config : Config} {manifest : Manifest ν}
    (hwf : Engine.WF { config := config, manifest := manifest })
    (hnumbered : Engine.Numbered { config := config, manifest := manifest }) (disk : Disk ν)
    (seq : Nat) {turns : List (Turn ν)} (hcalls : ∀ a ∈ turns, a.Unreserved)
    (hclean : EachStep turn (fun t a => t.cleanTurn a = true)
      (opened config manifest disk seq) turns) :
    Throughout turn (CountedOnce (Engine.segVersions manifest.segments))
      (opened config manifest disk seq) turns := by
  have hinv : Throughout turn
      (fun t => ∃ gone logs cur, t.Counted (Engine.segVersions manifest.segments) gone logs cur)
      (opened config manifest disk seq) turns := by
    refine throughout_of_step ?_ ⟨[], [], [], counted_opened hwf hnumbered disk seq⟩
      (hclean.and_mem hcalls)
    rintro t a t' ⟨gone, logs, cur, h⟩ ⟨hturn, hreq⟩ hstep
    exact h.step hturn hreq hstep
  refine hinv.mono ?_
  rintro t ⟨gone, logs, cur, h⟩
  exact h.countedOnce

end Main

end Traced

section Sample

local instance instCountingUnicode : Unicode := asciiUnicode

local instance instCountingFile : SegmentFile Int := footprintFile Int

/-- One increment of the counter. -/
def countOne : Request Int := .incr "n" 1 ((∅ : OrdMap String Int).insert "hits" 1)

/-- An increment is frozen and flushed; storing the manifest fails. -/
def storeFails : List (Turn Int) :=
  [.message countOne none, .freeze none, .flush .pick, .flush .alloc, .flush .writeSegment,
    .flush (.listFails 0)]

theorem storeFails_runs :
    (runFrom Traced.turn (Traced.opened (ν := Int) {} {} {} 0) storeFails).isSome = true := by
  decide

/-- After the failed store the one acknowledged increment reads as two. -/
theorem storeFails_counts_twice :
    ¬ Throughout Traced.turn (Traced.CountedOnce (Engine.segVersions []))
      (Traced.opened (ν := Int) {} {} {} 0) storeFails := by
  intro h
  have hlast := ((h.last (Option.some_get storeFails_runs).symm "n").2 inferInstance
    (fun r hr => by cases hr))
  exact absurd hlast (by decide)

/-- A counter with a full record is flushed while it is incremented again; the first attempt to store
the manifest fails and the flush is retried. -/
def storeRetried : List (Turn Int) :=
  [.message (.putBatch [Record.bare "n" 1]) none, .message countOne none, .freeze none,
    .flush .pick, .flush .alloc, .flush .writeSegment, .flush (.listFails 0),
    .message countOne none, .flush .pick, .flush .alloc, .flush .writeSegment, .flush (.list 0),
    .flush .removeWal, .flush .dropFrozen]

theorem storeRetried_runs :
    (runFrom Traced.turn (Traced.opened (ν := Int) {} {} {} 0) storeRetried).isSome = true := by
  decide

theorem storeRetried_counts_once :
    (((runFrom Traced.turn (Traced.opened (ν := Int) {} {} {} 0) storeRetried).get
      storeRetried_runs).now.engine.getOnce "n").bind (fun r => r.numerics["hits"]?) = some 2 := by
  have hwf : Engine.WF (ν := Int) { config := {}, manifest := {} } :=
    Engine.wf_of_segments rfl rfl (by simp) (fun s hs => by cases hs)
  have hcalls : ∀ a ∈ storeRetried, a.Unreserved := by
    have hbare : (Record.bare (ν := Int) "n" 1).isDelta = false := by decide
    simp [storeRetried, Turn.Unreserved, Request.Unreserved, countOne, hbare]
  have h := Traced.counted_once_while_flushing hwf (fun s hs => by cases hs) {} 0 hcalls (by decide)
  rw [((h.last (Option.some_get storeRetried_runs).symm "n").2 inferInstance
    (fun r hr => by cases hr))]
  decide

end Sample

end Girder
