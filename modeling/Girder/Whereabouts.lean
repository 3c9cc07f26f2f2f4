import Girder.Readers

/-!
# Whereabouts — a key's versions while a scan passes them

The versions of a key move one way, from the memtable through the writer's hand and the frozen list
into the segments, and a scan reads the containers in that order.  So nothing gets past it, with one
exception: what is in the writer's hand is in no container.

`head_met_of_unbroken`: beside a writer that puts one batch, the first version a scan meets of each of
the batch's keys is the one the store had first when the scan started, or the batch's record, as long
as the hand holds none of the batch's keys when the frozen list is read and when the next log fails to
open (`Unbroken`).
-/

namespace Girder

open Lib

variable {ν : Type}

/-! ## The batch -/

/-- The record a batch leaves for a key: its last one. -/
def lastOf (batch : List (Record ν)) (key : String) : Option (Record ν) :=
  batch.reverse.find? (fun r => decide (r.key = key))

theorem lastOf_mem {batch : List (Record ν)} {key : String} {r : Record ν}
    (h : lastOf batch key = some r) : r ∈ batch ∧ r.key = key := by
  have hkey := List.find?_some h
  exact ⟨List.mem_reverse.1 (List.mem_of_find?_eq_some h), of_decide_eq_true hkey⟩

/-- The message writes none of the batch's keys. -/
def Request.Avoids (req : Request ν) (batch : List (Record ν)) : Prop :=
  ∀ w ∈ req.writes, ∀ r ∈ batch, w.key ≠ r.key

/-- The message, if the event delivers one, writes none of the batch's keys. -/
def ScanEvent.Avoids (batch : List (Record ν)) : ScanEvent ν → Prop
  | .move (.append req) => req.Avoids batch
  | _ => True

section Insert

variable [Unicode] [Numeral ν] {batch : List (Record ν)} {key : String} {r : Record ν}
  {m : MemTable ν}

/-- A message that avoids the batch leaves its keys as they are. -/
theorem get_of_avoids (hm : m.Consistent) (hr : lastOf batch key = some r) {req : Request ν}
    (hreq : req.Avoids batch) : (req.writes.foldl MemTable.applyWrite m).get key = m.get key := by
  refine get_foldl_of_none hm (fun w hw => ?_)
  obtain ⟨hin, hkey⟩ := lastOf_mem hr
  rw [← hkey]
  exact hreq w hw r hin

/-- The batch leaves the last of its records. -/
theorem get_putBatch (hm : m.Consistent) (hr : lastOf batch key = some r) :
    ((Request.putBatch batch).writes.foldl MemTable.applyWrite m).get key = some r := by
  have hwrites : (Request.putBatch batch).writes = batch.map Write.put := rfl
  refine get_foldl_of_put hm ?_
  rw [hwrites, ← List.map_reverse, List.find?_map]
  exact congrArg (Option.map Write.put) hr

end Insert

/-- The versions of a key in some memtables, newest first. -/
def columnOf (tables : List (MemTable ν)) (key : String) : List (Record ν) :=
  tables.filterMap (fun m => m.get key)

theorem columnOf_append (xs ys : List (MemTable ν)) :
    columnOf (xs ++ ys) = fun key => columnOf xs key ++ columnOf ys key := by
  funext key
  exact List.filterMap_append

theorem columnOf_singleton (m : MemTable ν) (key : String) :
    columnOf [m] key = (m.get key).toList := by
  cases hget : m.get key <;> simp [columnOf, hget]

/-! ## What a move does to a key -/

/-- The versions of a key, newest first: in the memtable, in the writer's hand and the frozen list,
in the segments. -/
structure Whereabouts (ν : Type) where
  memtable : List (Record ν)
  frozen : List (Record ν)
  segments : List (Record ν)

namespace Whereabouts

/-- What can become of them, if `r` is all that is written of the key. -/
inductive Moves (r : Record ν) (w : Whereabouts ν) : Whereabouts ν → Prop
  | stay : Moves r w w
  | write : Moves r w { w with memtable := [r] }
  | take : Moves r w { w with memtable := [], frozen := w.memtable ++ w.frozen }
  /-- The oldest frozen memtable is in a segment as well. -/
  | list (newer oldest : List (Record ν)) (hsplit : w.frozen = newer ++ oldest) :
      Moves r w { w with segments := oldest ++ w.segments }
  | drop (newer oldest : List (Record ν)) (hsplit : w.frozen = newer ++ oldest)
      (hlisted : ∀ v, oldest.head? = some v → w.segments.head? = some v) :
      Moves r w { w with frozen := newer }

theorem head?_append_twice (xs ys zs : List (Record ν)) :
    ((xs ++ ys) ++ (ys ++ zs)).head? = ((xs ++ ys) ++ zs).head? := by
  cases xs with
  | cons v xs => rfl
  | nil =>
      cases ys with
      | cons v ys => rfl
      | nil => rfl

theorem head?_append_listed {xs ys zs : List (Record ν)}
    (h : ∀ v, ys.head? = some v → zs.head? = some v) :
    (xs ++ zs).head? = ((xs ++ ys) ++ zs).head? := by
  cases xs with
  | cons v xs => rfl
  | nil =>
      cases ys with
      | cons v ys => exact h v rfl
      | nil => rfl

theorem head?_of_forall_eq {r : Record ν} {xs ys : List (Record ν)} (h : ∀ v ∈ xs, v = r) :
    (xs ++ ys).head? = ys.head? ∨ (xs ++ ys).head? = some r := by
  cases xs with
  | nil => exact .inl rfl
  | cons v xs => exact .inr (congrArg some (h v (List.mem_cons_self ..)))

variable {r : Record ν} {w w' : Whereabouts ν}

/-- The first version of all. -/
theorem Moves.head_all (h : w.Moves r w') :
    (w'.memtable ++ (w'.frozen ++ w'.segments)).head? =
        (w.memtable ++ (w.frozen ++ w.segments)).head? ∨
      (w'.memtable ++ (w'.frozen ++ w'.segments)).head? = some r := by
  cases h with
  | stay => exact .inl rfl
  | write => exact .inr rfl
  | take => exact .inl (by simp only [List.nil_append, List.append_assoc])
  | list newer oldest hsplit =>
      refine .inl ?_
      simp only [hsplit, ← List.append_assoc w.memtable]
      rw [head?_append_twice]
  | drop newer oldest hsplit hlisted =>
      refine .inl ?_
      simp only [hsplit, ← List.append_assoc w.memtable]
      exact head?_append_listed hlisted

/-- The first version below the memtable, which holds `r` if anything. -/
theorem Moves.head_below (h : w.Moves r w') (hw : ∀ v ∈ w.memtable, v = r) :
    (w'.frozen ++ w'.segments).head? = (w.frozen ++ w.segments).head? ∨
      (w'.frozen ++ w'.segments).head? = some r := by
  cases h with
  | stay => exact .inl rfl
  | write => exact .inl rfl
  | take =>
      -- What comes down from the memtable is `r`.
      simp only [List.append_assoc]
      exact head?_of_forall_eq hw
  | list newer oldest hsplit =>
      refine .inl ?_
      simp only [hsplit]
      exact head?_append_twice newer oldest w.segments
  | drop newer oldest hsplit hlisted =>
      refine .inl ?_
      simp only [hsplit]
      exact head?_append_listed hlisted

/-- The first version in the segments, above which there is `r` if anything. -/
theorem Moves.head_segments (h : w.Moves r w') (hw : ∀ v ∈ w.memtable ++ w.frozen, v = r) :
    w'.segments.head? = w.segments.head? ∨ w'.segments.head? = some r := by
  cases h with
  | list newer oldest hsplit =>
      -- What is listed was in the frozen list.
      refine head?_of_forall_eq (fun v hv => hw v ?_)
      rw [hsplit]
      exact List.mem_append_right _ (List.mem_append_right _ hv)
  | stay => exact .inl rfl
  | write => exact .inl rfl
  | take => exact .inl rfl
  | drop _ _ _ _ => exact .inl rfl

theorem Moves.memtable (h : w.Moves r w') (hw : ∀ v ∈ w.memtable, v = r) :
    ∀ v ∈ w'.memtable, v = r := by
  cases h with
  | write => exact fun v hv => List.mem_singleton.1 hv
  | take => exact fun v hv => absurd hv List.not_mem_nil
  | stay => exact hw
  | list _ _ _ => exact hw
  | drop _ _ _ _ => exact hw

theorem Moves.memory (h : w.Moves r w') (hw : ∀ v ∈ w.memtable ++ w.frozen, v = r) :
    ∀ v ∈ w'.memtable ++ w'.frozen, v = r := by
  cases h with
  | stay => exact hw
  | write =>
      intro v hv
      rcases List.mem_append.1 hv with hv | hv
      · exact List.mem_singleton.1 hv
      · exact hw v (List.mem_append_right _ hv)
  | take => exact hw
  | list _ _ _ => exact hw
  | drop newer oldest hsplit hlisted =>
      intro v hv
      refine hw v ?_
      rw [hsplit, ← List.append_assoc]
      exact List.mem_append_left _ hv

end Whereabouts

/-! ## What a scan has passed -/

namespace ScanPhase

/-- Where the path has been. -/
def passed (w : Whereabouts ν) : ScanPhase ν → List (Record ν)
  | .metMemtable _ _ => w.memtable
  | .metFrozen _ _ _ => w.memtable ++ w.frozen
  | _ => []

/-- Where it has yet to go. -/
def unread (w : Whereabouts ν) : ScanPhase ν → List (Record ν)
  | .metMemtable _ _ => w.frozen ++ w.segments
  | .metFrozen _ _ _ => w.segments
  | .done _ _ => []
  | _ => w.memtable ++ (w.frozen ++ w.segments)

/-- What the path has met of a key and what it has yet to meet start with the version that was first
or with `r`; where it has been without meeting a version there is `r` if anything. -/
structure Leads (first : Option (Record ν)) (r : Record ν) (key : String) (w : Whereabouts ν)
    (phase : ScanPhase ν) : Prop where
  head : (phase.met key ++ phase.unread w).head? = first ∨
    (phase.met key ++ phase.unread w).head? = some r
  passed : phase.met key = [] → ∀ v ∈ phase.passed w, v = r

variable {first : Option (Record ν)} {r : Record ν} {key : String} {w w' : Whereabouts ν}
  {phase : ScanPhase ν}

/-- A move moves nothing past the path. -/
theorem unread_of_moves (hmove : w.Moves r w') (hpassed : ∀ v ∈ phase.passed w, v = r) :
    ((phase.unread w').head? = (phase.unread w).head? ∨ (phase.unread w').head? = some r) ∧
      ∀ v ∈ phase.passed w', v = r := by
  -- The phase says which containers are still to come.
  cases phase with
  | metMemtable fold m => exact ⟨hmove.head_below hpassed, hmove.memtable hpassed⟩
  | metFrozen fold m frozen => exact ⟨hmove.head_segments hpassed, hmove.memory hpassed⟩
  | done fold view => exact ⟨.inl rfl, hpassed⟩
  | start => exact ⟨hmove.head_all, hpassed⟩
  | memtableClear => exact ⟨hmove.head_all, hpassed⟩
  | frozenClear => exact ⟨hmove.head_all, hpassed⟩
  | decided fold => exact ⟨hmove.head_all, hpassed⟩

theorem Leads.move (h : Leads first r key w phase) (hmove : w.Moves r w') :
    Leads first r key w' phase := by
  cases hmet : phase.met key with
  | cons v vs =>
      -- What has been met stays first.
      refine ⟨?_, fun hnil => by rw [hmet] at hnil; cases hnil⟩
      have hhead := h.head
      rw [hmet] at hhead ⊢
      exact hhead
  | nil =>
      obtain ⟨hunread, hpassed⟩ := unread_of_moves hmove (h.passed hmet)
      refine ⟨?_, fun _ => hpassed⟩
      have hhead := h.head
      rw [hmet] at hhead ⊢
      simp only [List.nil_append] at hhead ⊢
      rcases hunread with hsame | hnew
      · rw [hsame]
        exact hhead
      · exact .inr hnew

end ScanPhase

/-! ## The actors -/

namespace Actors

/-- Every memtable, newest first, the one in the writer's hand included. -/
def tables (s : Actors ν) : List (MemTable ν) :=
  s.engine.memtable :: (s.hand.toList ++ s.engine.frozen.reverse.map Prod.snd)

/-- Every version of a key, newest first, wherever it is. -/
def versions (s : Actors ν) (key : String) : List (Record ν) :=
  columnOf s.tables key ++ Engine.segVersions s.engine.manifest.segments key

/-- The oldest frozen memtable comes last. -/
theorem tables_eq_of_head {s : Actors ν} {entry : Nat × MemTable ν}
    (h : s.engine.frozen.head? = some entry) :
    s.tables = s.engine.memtable ::
      (s.hand.toList ++ s.engine.frozen.tail.reverse.map Prod.snd) ++ [entry.2] := by
  obtain ⟨rest, hrest⟩ := List.head?_eq_some_iff.1 h
  simp [tables, hrest]

def whereabouts (s : Actors ν) (key : String) : Whereabouts ν where
  memtable := columnOf [s.engine.memtable] key
  frozen := columnOf (s.hand.toList ++ s.engine.frozen.reverse.map Prod.snd) key
  segments := Engine.segVersions s.engine.manifest.segments key

theorem versions_eq_whereabouts (s : Actors ν) (key : String) :
    s.versions key = (s.whereabouts key).memtable ++
      ((s.whereabouts key).frozen ++ (s.whereabouts key).segments) := by
  have htables : s.tables =
      [s.engine.memtable] ++ (s.hand.toList ++ s.engine.frozen.reverse.map Prod.snd) := rfl
  rw [versions, htables, columnOf_append, List.append_assoc]
  rfl

/-- The writer's hand holds none of the batch's keys. -/
def HandFree (batch : List (Record ν)) (s : Actors ν) : Prop :=
  ∀ map, s.hand = some map → ∀ r ∈ batch, map.get r.key = none

/-- Once the flush has listed a memtable, its versions are the first in the segments. -/
def Backed (s : Actors ν) : Prop :=
  ∀ entry, s.maint = .listed entry ∨ s.maint = .unlogged entry → ∀ key v,
    entry.2.get key = some v → (Engine.segVersions s.engine.manifest.segments key).head? = some v

theorem whereabouts_congr {s s' : Actors ν} (htables : s'.tables = s.tables)
    (hsegs : s'.engine.manifest.segments = s.engine.manifest.segments) (key : String) :
    s'.whereabouts key = s.whereabouts key := by
  obtain ⟨hmem, hrest⟩ := List.cons.inj htables
  simp only [whereabouts, hmem, hrest, hsegs]

/-- The versions of the oldest frozen memtable are the last in memory. -/
theorem whereabouts_frozen {s : Actors ν} {entry : Nat × MemTable ν}
    (h : s.engine.frozen.head? = some entry) (key : String) :
    (s.whereabouts key).frozen =
      columnOf (s.hand.toList ++ s.engine.frozen.tail.reverse.map Prod.snd) key ++
        columnOf [entry.2] key := by
  obtain ⟨rest, hrest⟩ := List.head?_eq_some_iff.1 h
  have hsplit : s.hand.toList ++ s.engine.frozen.reverse.map Prod.snd =
      (s.hand.toList ++ s.engine.frozen.tail.reverse.map Prod.snd) ++ [entry.2] := by
    simp [hrest]
  rw [whereabouts, hsplit, columnOf_append]

theorem backed_opened (config : Config) (manifest : Manifest ν) (disk : Disk ν) (seq : Nat) :
    (Traced.opened config manifest disk seq).now.Backed := by
  rintro entry (hmaint | hmaint)
  · cases hmaint
  · cases hmaint

section Moves

variable [Unicode] [SegmentFile ν]

/-- Listing a segment puts the versions of its memtable in front. -/
theorem segVersions_listing {s : Actors ν} (hsound : s.Sound) {entry : Nat × MemTable ν} {seq : Nat}
    (hmaint : s.maint = .written entry seq) (now : Int64) (key : String) :
    Engine.segVersions (s.listing seq now entry.2.values).segments key =
      columnOf [entry.2] key ++ Engine.segVersions s.engine.manifest.segments key := by
  have hflush := hsound.flush
  simp only [FlushHead, hmaint] at hflush
  obtain ⟨hhead, hnewest, -⟩ := hflush
  have hentry := hsound.wf.frozen_consistent (List.mem_of_head? hhead)
  have hconcat := Engine.segVersions_concat (s := Process.flushedSegment seq now entry.2.values)
    hsound.wf.ids_nodup hnewest key
  refine hconcat.trans ?_
  congr 1
  show (rowOf entry.2.values key).toList = columnOf [entry.2] key
  rw [← Engine.get_eq_rowOf hentry, columnOf_singleton]

variable [Numeral ν]

theorem Backed.step {s s' : Actors ν} {a : Move ν} (h : s.Backed) (hsound : s.Sound)
    (hstep : s.step a = some s') : s'.Backed := by
  cases step_cases hstep with
  | @list entry seq now hmaint =>
      rintro entry' (hentry | hentry) key v hget
      · cases hentry
        show (Engine.segVersions (s.listing seq now entry.2.values).segments key).head? = some v
        rw [segVersions_listing hsound hmaint, columnOf_singleton, hget]
        rfl
      · cases hentry
  | removeWal hmaint =>
      rintro entry (hentry | hentry)
      · cases hentry
      · cases hentry
        exact h _ (.inl hmaint)
  | removeFails hmaint =>
      rintro entry (hentry | hentry)
      · cases hentry
      · cases hentry
        exact h _ (.inl hmaint)
  | listFails _ => rintro entry (hentry | hentry) <;> cases hentry
  | pick _ _ => rintro entry (hentry | hentry) <;> cases hentry
  | alloc _ => rintro entry (hentry | hentry) <;> cases hentry
  | writeSegment _ => rintro entry (hentry | hentry) <;> cases hentry
  | writeFails _ => rintro entry (hentry | hentry) <;> cases hentry
  | dropFrozen _ => rintro entry (hentry | hentry) <;> cases hentry
  | append _ => exact h
  | appendFails _ => exact h
  | insert _ => exact h
  | takeIdle _ _ => exact h
  | takeFull _ _ => exact h
  | openWal _ => exact h
  | openFails _ => exact h
  | push _ => exact h
  | replyInserted _ _ => exact h
  | replyPushed _ => exact h

/-- What a move of the actors does to one of the batch's keys, if nothing else writes it. -/
theorem moves_of_step {batch : List (Record ν)} {key : String} {r : Record ν} {s s' : Actors ν}
    {a : Move ν} (hsound : s.Sound) (hbacked : s.Backed) (hr : lastOf batch key = some r)
    (hwriter : ∀ {req}, s.writer = .appended req → req.Avoids batch ∨ req = .putBatch batch)
    (hfails : ∀ {created}, a = .openFails created → s.HandFree batch)
    (hstep : s.step a = some s') : (s.whereabouts key).Moves r (s'.whereabouts key) := by
  have hflush := hsound.flush
  unfold FlushHead at hflush
  -- Most moves leave every container alone, or hand a memtable on as it is.
  have hstay : ∀ {t : Actors ν}, t.tables = s.tables →
      t.engine.manifest.segments = s.engine.manifest.segments →
        (s.whereabouts key).Moves r (t.whereabouts key) := by
    intro t htables hsegs
    rw [whereabouts_congr htables hsegs]
    exact .stay
  have hlist : ∀ {t : Actors ν} {entry : Nat × MemTable ν} {seq : Nat} (now : Int64),
      s.maint = .written entry seq → t.tables = s.tables →
        t.engine.manifest = s.listing seq now entry.2.values →
          (s.whereabouts key).Moves r (t.whereabouts key) := by
    intro t entry seq now hmaint htables hmanifest
    simp only [hmaint] at hflush
    have hsame : t.whereabouts key = { s.whereabouts key with
        segments := columnOf [entry.2] key ++ (s.whereabouts key).segments } := by
      obtain ⟨hmem, hrest⟩ := List.cons.inj htables
      simp only [whereabouts, hmem, hrest, hmanifest, segVersions_listing hsound hmaint]
    rw [hsame]
    exact .list _ _ (whereabouts_frozen hflush.1 key)
  have htake : ∀ req, s.hand = none → (s.whereabouts key).Moves r ((s.take req).whereabouts key) := by
    intro req hhand
    refine (congrArg ((s.whereabouts key).Moves r) ?_).mp .take
    have hfrozen : columnOf (s.engine.memtable :: s.engine.frozen.reverse.map Prod.snd) key =
        columnOf [s.engine.memtable] key ++ columnOf (s.engine.frozen.reverse.map Prod.snd) key :=
      congrFun (columnOf_append [s.engine.memtable] _) key
    simp only [whereabouts, hhand, Option.toList_none, List.nil_append]
    rw [← hfrozen]
    rfl
  cases step_cases hstep with
  | append hwriter => exact hstay (by simp [tables, hand, hwriter]) rfl
  | appendFails hwriter => exact hstay (by simp [tables, hand]) rfl
  | @insert req happended =>
      have hmem := hsound.wf.memtable_consistent
      have hhand : s.hand = none := by simp [hand, happended]
      rcases hwriter happended with havoid | rfl
      · have hget := get_of_avoids hmem hr havoid
        refine (congrArg ((s.whereabouts key).Moves r) ?_).mp .stay
        simp only [whereabouts, columnOf_singleton, hget, hhand]
        rfl
      · -- The batch itself.
        have hget := get_putBatch hmem hr
        refine (congrArg ((s.whereabouts key).Moves r) ?_).mp .write
        simp only [whereabouts, columnOf_singleton, hget, hhand]
        rfl
  | takeIdle hwriter hfull => exact htake none (by simp [hand, hwriter])
  | @takeFull req hwriter hfull => exact htake (some req) (by simp [hand, hwriter])
  | openWal hwriter => exact hstay (by simp [tables, hand, hwriter]) rfl
  | @openFails req map seq created hwriter =>
      -- What is lost has nothing of the key.
      obtain ⟨hin, hkey⟩ := lastOf_mem hr
      have hget : map.get key = none := by
        rw [← hkey]
        exact hfails rfl map (by simp [hand, hwriter]) r hin
      refine (congrArg ((s.whereabouts key).Moves r) ?_).mp .stay
      have hhand : s.hand = some map := by simp [hand, hwriter]
      simp only [whereabouts, columnOf_append, hhand, Option.toList_some, columnOf_singleton, hget]
      rfl
  | push hwriter => exact hstay (by simp [tables, hand, hwriter]) rfl
  | replyInserted hwriter hroom => exact hstay (by simp [tables, hand, hwriter]) rfl
  | replyPushed hwriter => exact hstay (by simp [tables, hand, hwriter]) rfl
  | list hmaint => exact hlist _ hmaint rfl rfl
  | listFails hmaint => exact hlist _ hmaint rfl rfl
  | @dropFrozen entry hmaint =>
      simp only [hmaint] at hflush
      refine .drop _ _ (whereabouts_frozen hflush key) (fun v hv => ?_)
      rw [columnOf_singleton, Option.head?_toList] at hv
      exact hbacked entry (.inr hmaint) key v hv
  | pick _ _ => exact hstay rfl rfl
  | alloc _ => exact hstay rfl rfl
  | writeSegment _ => exact hstay rfl rfl
  | writeFails _ => exact hstay rfl rfl
  | removeWal _ => exact hstay rfl rfl
  | removeFails _ => exact hstay rfl rfl

end Moves

end Actors

/-! ## The scan -/

namespace Scanning

variable {batch : List (Record ν)} {key : String} {r : Record ν}

/-- When the frozen list is read, and when the log of the next memtable fails to open, the writer's
hand holds none of the batch's keys. -/
def Unbroken (batch : List (Record ν)) (s : Scanning ν) : ScanEvent ν → Prop
  | .read => ∀ fold m, s.phase = .metMemtable fold m → s.now.HandFree batch
  | .move (.openFails _) => s.now.HandFree batch
  | _ => True

/-- A read adds the versions of the next container. -/
theorem met_of_read {s s' : Scanning ν} (hread : s.read = some s') :
    s'.now = s.now ∧ s'.phase.met = fun key => s.phase.met key ++ s.next key := by
  unfold read at hread
  cases hphase : s.phase with
  | decided fold =>
      simp only [hphase, Option.some.injEq] at hread
      subst hread
      exact ⟨rfl, funext fun key => by simp [ScanPhase.met, next, hphase]⟩
  | metMemtable fold m =>
      simp only [hphase, Option.some.injEq] at hread
      subst hread
      exact ⟨rfl, funext fun key => by simp [ScanPhase.met, next, hphase]⟩
  | metFrozen fold m frozen =>
      simp only [hphase, Option.some.injEq] at hread
      subst hread
      exact ⟨rfl, funext fun key => by simp [ScanPhase.met, next, hphase]⟩
  | start => simp [hphase] at hread
  | memtableClear => simp [hphase] at hread
  | frozenClear => simp [hphase] at hread
  | done fold view => simp [hphase] at hread

/-- With nothing of the key in the writer's hand the frozen list is all there is of it. -/
theorem frozen_eq_of_handFree {s : Actors ν} (h : s.HandFree batch)
    (hr : lastOf batch key = some r) :
    (s.whereabouts key).frozen = s.engine.frozen.reverse.filterMap (fun f => f.2.get key) := by
  have hhand : columnOf s.hand.toList key = [] := by
    obtain ⟨hin, hkey⟩ := lastOf_mem hr
    refine List.filterMap_eq_nil_iff.2 (fun map hmap => ?_)
    rw [← hkey]
    exact h map (Option.mem_toList.1 hmap) r hin
  simp only [Actors.whereabouts, columnOf_append, hhand, List.nil_append]
  rw [columnOf, List.filterMap_map]
  rfl

/-- A read takes what it meets from the front of what there is to meet. -/
theorem leads_of_read {first : Option (Record ν)} {s s' : Scanning ν}
    (hfree : ∀ fold m, s.phase = .metMemtable fold m → s.now.HandFree batch)
    (hr : lastOf batch key = some r)
    (h : s.phase.Leads first r key (s.now.whereabouts key)) (hread : s.read = some s') :
    s'.phase.Leads first r key (s'.now.whereabouts key) := by
  obtain ⟨hhead, hpassed⟩ := h
  unfold read at hread
  cases hphase : s.phase with
  | decided fold =>
      simp only [hphase, Option.some.injEq] at hread hhead
      subst hread
      have hmem : (s.now.whereabouts key).memtable = (s.now.engine.memtable.get key).toList :=
        columnOf_singleton _ key
      refine ⟨?_, fun hnil v hv => ?_⟩
      · simp only [ScanPhase.met, ScanPhase.unread, List.nil_append, hmem] at hhead ⊢
        exact hhead
      · -- Had it been in the memtable, it would have been met.
        simp only [ScanPhase.passed, hmem] at hv
        simp only [ScanPhase.met] at hnil
        rw [hnil] at hv
        exact absurd hv List.not_mem_nil
  | metMemtable fold m =>
      have hfrozen := frozen_eq_of_handFree (hfree fold m hphase) hr
      simp only [hphase, Option.some.injEq] at hread hhead hpassed
      subst hread
      -- What was in the frozen list goes from the unread to the met.
      refine ⟨?_, fun hnil v hv => ?_⟩
      · simp only [ScanPhase.met, ScanPhase.unread, hfrozen, List.append_assoc] at hhead ⊢
        exact hhead
      · simp only [ScanPhase.met] at hnil
        obtain ⟨hnone, hempty⟩ := List.append_eq_nil_iff.1 hnil
        simp only [ScanPhase.passed, hfrozen, hempty, List.append_nil] at hv
        exact hpassed hnone v hv
  | metFrozen fold m frozen =>
      simp only [hphase, Option.some.injEq] at hread hhead
      subst hread
      refine ⟨?_, fun _ v hv => absurd hv List.not_mem_nil⟩
      simp only [ScanPhase.met, ScanPhase.unread, List.append_nil] at hhead ⊢
      exact hhead
  | start => simp [hphase] at hread
  | memtableClear => simp [hphase] at hread
  | frozenClear => simp [hphase] at hread
  | done fold view => simp [hphase] at hread

section Check

variable [Numeral ν]

/-- The check reads nothing. -/
theorem leads_of_check {first : Option (Record ν)} {spec : QuerySpec ν} {s s' : Scanning ν}
    (h : s.phase.Leads first r key (s.now.whereabouts key)) (hcheck : s.check spec = some s') :
    s'.now = s.now ∧ s'.phase.Leads first r key (s'.now.whereabouts key) := by
  obtain ⟨hhead, -⟩ := h
  unfold check at hcheck
  cases hphase : s.phase with
  | start =>
      simp only [hphase, Option.some.injEq] at hcheck hhead
      subst hcheck
      refine ⟨rfl, ?_⟩
      split <;> exact ⟨hhead, fun _ v hv => absurd hv List.not_mem_nil⟩
  | memtableClear =>
      simp only [hphase, Option.some.injEq] at hcheck hhead
      subst hcheck
      refine ⟨rfl, ?_⟩
      split <;> exact ⟨hhead, fun _ v hv => absurd hv List.not_mem_nil⟩
  | frozenClear =>
      simp only [hphase, Option.some.injEq] at hcheck hhead
      subst hcheck
      exact ⟨rfl, hhead, fun _ v hv => absurd hv List.not_mem_nil⟩
  | decided fold => simp [hphase] at hcheck
  | metMemtable fold m => simp [hphase] at hcheck
  | metFrozen fold m frozen => simp [hphase] at hcheck
  | done fold view => simp [hphase] at hcheck

end Check

section Runs

variable [Unicode]

/-- A scan beside a store in which nothing but the batch writes the batch's keys. -/
structure Follows (first : Option (Record ν)) (batch : List (Record ν)) (key : String)
    (r : Record ν) (s : Scanning ν) : Prop where
  sound : s.now.Sound
  backed : s.now.Backed
  writer {req : Request ν} : s.now.writer = .appended req → req.Avoids batch ∨ req = .putBatch batch
  leads : s.phase.Leads first r key (s.now.whereabouts key)

/-- At its start a scan has everything to meet. -/
theorem follows_start {now : Actors ν} (hsound : now.Sound) (hbacked : now.Backed)
    (hpending : ∀ {req}, now.writer = .appended req → req.Avoids batch) :
    Follows (now.versions key).head? batch key r { now := now } where
  sound := hsound
  backed := hbacked
  writer hreq := .inl (hpending hreq)
  leads := ⟨.inl (by rw [Actors.versions_eq_whereabouts]; rfl),
    fun _ v hv => absurd hv List.not_mem_nil⟩

variable [Numeral ν] [SegmentFile ν]

theorem Follows.step {first : Option (Record ν)} {spec : QuerySpec ν} {s s' : Scanning ν}
    {e : ScanEvent ν} (h : s.Follows first batch key r) (hr : lastOf batch key = some r)
    (hunbroken : s.Unbroken batch e)
    (hwrites : e.Avoids batch ∨ e = .move (.append (.putBatch batch)))
    (hstep : s.step spec e = some s') : s'.Follows first batch key r := by
  cases e with
  | move a =>
      obtain ⟨now, hnow, rfl⟩ := Option.map_eq_some_iff.1 hstep
      have hmoves : (s.now.whereabouts key).Moves r (now.whereabouts key) := by
        refine Actors.moves_of_step h.sound h.backed hr h.writer (fun hfails => ?_) hnow
        subst hfails
        exact hunbroken
      refine ⟨h.sound.step hnow, h.backed.step h.sound hnow, fun hreq => ?_, h.leads.move hmoves⟩
      rcases Actors.appended_of_step hnow hreq with hwriter | rfl
      · exact h.writer hwriter
      · rcases hwrites with havoid | hbatch
        · exact .inl havoid
        · cases hbatch
          exact .inr rfl
  | check =>
      obtain ⟨hnow, hleads⟩ := leads_of_check h.leads hstep
      exact ⟨hnow ▸ h.sound, hnow ▸ h.backed, hnow ▸ h.writer, hleads⟩
  | read =>
      have hnow : s'.now = s.now := (met_of_read hstep).1
      exact ⟨hnow ▸ h.sound, hnow ▸ h.backed, hnow ▸ h.writer,
        leads_of_read hunbroken hr h.leads hstep⟩

/-- The first version a scan meets is the one that was first when it started, or the batch's. -/
theorem head_met_of_unbroken {now : Actors ν} (hsound : now.Sound) (hbacked : now.Backed)
    (hpending : ∀ {req}, now.writer = .appended req → req.Avoids batch) {spec : QuerySpec ν}
    {events : List (ScanEvent ν)}
    (hwrites : ∀ e ∈ events, e.Avoids batch ∨ e = .move (.append (.putBatch batch)))
    (hunbroken : EachStep (step spec) (Unbroken batch) { now := now } events) {s : Scanning ν}
    (hrun : runFrom (step spec) { now := now } events = some s) {fold : Bool} {view : Engine ν}
    (hdone : s.phase = .done fold view) (hr : lastOf batch key = some r) :
    (s.phase.met key).head? = (now.versions key).head? ∨ (s.phase.met key).head? = some r := by
  have hfollows : s.Follows (now.versions key).head? batch key r := by
    refine Throughout.last (throughout_of_step (fun h hC hs => ?_)
      (follows_start hsound hbacked hpending) (hunbroken.and_mem hwrites)) hrun
    exact h.step hr hC.1 hC.2 hs
  have hhead := hfollows.leads.head
  rw [hdone] at hhead ⊢
  simpa only [ScanPhase.unread, List.append_nil] using hhead

end Runs

end Scanning

end Girder
