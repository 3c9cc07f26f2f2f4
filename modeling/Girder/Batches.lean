import Girder.Layout
import Girder.Lib.Journal
import Girder.Whereabouts

/-!
# Batches — is a batch visible all at once?

`put_batch` inserts under one lock, but a scan reads memtable, frozen memtables and manifest under
three.  A batch that moves from one container to the next while the scan is between two of its reads
is met below versions the scan has read before, and those hide it key by key.

`Spread` says where a batch can be: every container holds all of it or nothing of it, and within the
memory the memtables above it hold none of its keys.  `batch_shown_whole_or_not`: when a scan reads
the container in which it first meets the batch, and the containers it has read hold nothing of the
batch's keys or a full record of each, then it shows the whole batch or none of it, and in the second
case starts with what the store had first before the batch, unless that passed the scan in the
writer's hand.
-/

namespace Girder

open Lib

variable {ν : Type}

/-! ## Containers and a batch -/

section Columns

variable (pre : String → List (Record ν)) (batch : List (Record ν))

/-- Of the batch's keys a container holds nothing. -/
def Bare (column : String → List (Record ν)) : Prop :=
  ∀ key r, lastOf batch key = some r → column key = []

/-- Of the batch's keys a container holds earlier versions only. -/
def Older (column : String → List (Record ν)) : Prop :=
  ∀ key r, lastOf batch key = some r → ∀ v ∈ column key, v ∈ pre key

/-- Of every key of the batch a container holds the batch's record first. -/
def Fresh (column : String → List (Record ν)) : Prop :=
  ∀ key r, lastOf batch key = some r → (column key).head? = some r

variable {pre batch}

theorem Bare.older {column : String → List (Record ν)} (h : Bare batch column) :
    Older pre batch column := by
  intro key r hr v hv
  simp [h key r hr] at hv

theorem Older.append {xs ys : String → List (Record ν)} (hxs : Older pre batch xs)
    (hys : Older pre batch ys) : Older pre batch (fun key => xs key ++ ys key) := by
  intro key r hr v hv
  rcases List.mem_append.1 hv with hv | hv
  · exact hxs key r hr v hv
  · exact hys key r hr v hv

theorem Fresh.append {xs : String → List (Record ν)} (hxs : Fresh batch xs)
    (ys : String → List (Record ν)) : Fresh batch (fun key => xs key ++ ys key) := by
  intro key r hr
  rw [List.head?_append, hxs key r hr]
  rfl

theorem Bare.append_fresh {xs ys : String → List (Record ν)} (hxs : Bare batch xs)
    (hys : Fresh batch ys) : Fresh batch (fun key => xs key ++ ys key) := by
  intro key r hr
  show (xs key ++ ys key).head? = some r
  rw [hxs key r hr]
  exact hys key r hr

theorem bare_columnOf {tables : List (MemTable ν)}
    (h : ∀ m ∈ tables, Bare batch (columnOf [m])) : Bare batch (columnOf tables) := by
  intro key r hr
  refine List.filterMap_eq_nil_iff.2 (fun m hm => ?_)
  have hnil := h m hm key r hr
  cases hget : m.get key with
  | none => rfl
  | some v => simp [columnOf, hget] at hnil

theorem older_columnOf {tables : List (MemTable ν)}
    (h : ∀ m ∈ tables, Older pre batch (columnOf [m])) : Older pre batch (columnOf tables) := by
  intro key r hr v hv
  obtain ⟨m, hm, hget⟩ := List.mem_filterMap.1 hv
  exact h m hm key r hr v (by simp [columnOf, hget])

end Columns

/-- Where a batch is: `tables` are the memtables, newest first, `segs` the versions in the segments.
Above the memtable that carries the batch nothing is known of its keys, below it only earlier
versions are. -/
inductive Spread (pre : String → List (Record ν)) (batch : List (Record ν))
    (tables : List (MemTable ν)) (segs : String → List (Record ν)) : Prop
  | absent (htables : ∀ m ∈ tables, Older pre batch (columnOf [m])) (hsegs : Older pre batch segs)
  | buffered (above : List (MemTable ν)) (m : MemTable ν) (below : List (MemTable ν))
      (hsplit : tables = above ++ m :: below) (habove : ∀ m ∈ above, Bare batch (columnOf [m]))
      (hm : Fresh batch (columnOf [m])) (hbelow : ∀ m ∈ below, Older pre batch (columnOf [m]))
      (hsegs : Older pre batch segs)
  /-- Its memtable is the oldest and is in the segments as well. -/
  | listed (above : List (MemTable ν)) (m : MemTable ν) (hsplit : tables = above ++ [m])
      (habove : ∀ m ∈ above, Bare batch (columnOf [m])) (hm : Fresh batch (columnOf [m]))
      (hsegs : Fresh batch segs)
  | flushed (htables : ∀ m ∈ tables, Bare batch (columnOf [m])) (hsegs : Fresh batch segs)

namespace Spread

variable {pre : String → List (Record ν)} {batch : List (Record ν)} {tables : List (MemTable ν)}
  {segs : String → List (Record ν)}

/-- A new memtable that knows nothing of the batch's keys. -/
theorem cons (h : Spread pre batch tables segs) {m : MemTable ν}
    (hm : Bare batch (columnOf [m])) : Spread pre batch (m :: tables) segs := by
  cases h with
  | absent htables hsegs => exact .absent (List.forall_mem_cons.2 ⟨hm.older, htables⟩) hsegs
  | buffered above c below hsplit habove hc hbelow hsegs =>
      exact .buffered (m :: above) c below (by rw [hsplit]; rfl)
        (List.forall_mem_cons.2 ⟨hm, habove⟩) hc hbelow hsegs
  | listed above c hsplit habove hc hsegs =>
      exact .listed (m :: above) c (by rw [hsplit]; rfl) (List.forall_mem_cons.2 ⟨hm, habove⟩) hc
        hsegs
  | flushed htables hsegs => exact .flushed (List.forall_mem_cons.2 ⟨hm, htables⟩) hsegs

/-- The newest memtable may change on other keys. -/
theorem congr_head {m m' : MemTable ν} {rest : List (MemTable ν)}
    (h : Spread pre batch (m :: rest) segs)
    (hget : ∀ key r, lastOf batch key = some r → m'.get key = m.get key) :
    Spread pre batch (m' :: rest) segs := by
  have hcol : ∀ key r, lastOf batch key = some r → columnOf [m'] key = columnOf [m] key := by
    intro key r hr
    rw [columnOf, columnOf, List.filterMap_cons, List.filterMap_cons, hget key r hr]
  -- For the keys of the batch the two tables are the same column.
  have hbare : Bare batch (columnOf [m]) → Bare batch (columnOf [m']) :=
    fun hm key r hr => (hcol key r hr).trans (hm key r hr)
  have hfresh : Fresh batch (columnOf [m]) → Fresh batch (columnOf [m']) :=
    fun hm key r hr => (congrArg List.head? (hcol key r hr)).trans (hm key r hr)
  cases h with
  | absent htables hsegs =>
      obtain ⟨hm, hrest⟩ := List.forall_mem_cons.1 htables
      refine .absent (List.forall_mem_cons.2 ⟨fun key r hr => ?_, hrest⟩) hsegs
      rw [hcol key r hr]
      exact hm key r hr
  | buffered above c below hsplit habove hc hbelow hsegs =>
      cases above with
      | nil =>
          obtain ⟨rfl, rfl⟩ := List.cons.inj hsplit
          exact .buffered [] m' rest rfl (by simp) (hfresh hc) hbelow hsegs
      | cons a above =>
          obtain ⟨rfl, rfl⟩ := List.cons.inj hsplit
          obtain ⟨hm, habove⟩ := List.forall_mem_cons.1 habove
          exact .buffered (m' :: above) c below rfl
            (List.forall_mem_cons.2 ⟨hbare hm, habove⟩) hc hbelow hsegs
  | listed above c hsplit habove hc hsegs =>
      cases above with
      | nil =>
          obtain ⟨rfl, rfl⟩ := List.cons.inj hsplit
          exact .listed [] m' rfl (by simp) (hfresh hc) hsegs
      | cons a above =>
          obtain ⟨rfl, rfl⟩ := List.cons.inj hsplit
          obtain ⟨hm, habove⟩ := List.forall_mem_cons.1 habove
          exact .listed (m' :: above) c rfl (List.forall_mem_cons.2 ⟨hbare hm, habove⟩) hc hsegs
  | flushed htables hsegs =>
      obtain ⟨hm, hrest⟩ := List.forall_mem_cons.1 htables
      exact .flushed (List.forall_mem_cons.2 ⟨hbare hm, hrest⟩) hsegs

/-- The memtable in the writer's hand is lost. -/
theorem lose {m hand : MemTable ν} {rest : List (MemTable ν)}
    (h : Spread pre batch (m :: hand :: rest) segs) : Spread pre batch (m :: rest) segs := by
  cases h with
  | absent htables hsegs =>
      obtain ⟨hm, -, hrest⟩ := by simpa only [List.forall_mem_cons] using htables
      exact .absent (List.forall_mem_cons.2 ⟨hm, hrest⟩) hsegs
  | buffered above c below hsplit habove hc hbelow hsegs =>
      match above with
      | [] =>
          obtain ⟨rfl, rfl⟩ := List.cons.inj hsplit
          exact .buffered [] m rest rfl (by simp) hc (List.forall_mem_cons.1 hbelow).2 hsegs
      | [a] =>
          -- It was the one that carried the batch.
          obtain ⟨rfl, hrest⟩ := List.cons.inj hsplit
          obtain ⟨rfl, rfl⟩ := List.cons.inj hrest
          exact .absent (List.forall_mem_cons.2 ⟨(habove m (by simp)).older, hbelow⟩) hsegs
      | a :: b :: above =>
          obtain ⟨rfl, hrest⟩ := List.cons.inj hsplit
          obtain ⟨rfl, rfl⟩ := List.cons.inj hrest
          obtain ⟨hm, -, habove⟩ := by simpa only [List.forall_mem_cons] using habove
          exact .buffered (m :: above) c below rfl (List.forall_mem_cons.2 ⟨hm, habove⟩) hc hbelow
            hsegs
  | listed above c hsplit habove hc hsegs =>
      match above with
      | [] => cases (List.cons.inj hsplit).2
      | [a] =>
          obtain ⟨rfl, hrest⟩ := List.cons.inj hsplit
          obtain ⟨rfl, rfl⟩ := List.cons.inj hrest
          exact .flushed habove hsegs
      | a :: b :: above =>
          obtain ⟨rfl, hrest⟩ := List.cons.inj hsplit
          obtain ⟨rfl, rfl⟩ := List.cons.inj hrest
          obtain ⟨hm, -, habove⟩ := by simpa only [List.forall_mem_cons] using habove
          exact .listed (m :: above) c rfl (List.forall_mem_cons.2 ⟨hm, habove⟩) hc hsegs
  | flushed htables hsegs =>
      obtain ⟨hm, -, hrest⟩ := by simpa only [List.forall_mem_cons] using htables
      exact .flushed (List.forall_mem_cons.2 ⟨hm, hrest⟩) hsegs

/-- The oldest memtable is dropped. -/
theorem dropLast {m : MemTable ν} (h : Spread pre batch (tables ++ [m]) segs) :
    Spread pre batch tables segs := by
  cases h with
  | absent htables hsegs =>
      exact .absent (fun t ht => htables t (List.mem_append_left _ ht)) hsegs
  | buffered above c below hsplit habove hc hbelow hsegs =>
      rcases List.eq_nil_or_concat below with rfl | ⟨below, last, rfl⟩
      · obtain ⟨rfl, -⟩ := List.append_inj' hsplit rfl
        exact .absent (fun t ht => (habove t ht).older) hsegs
      · rw [List.concat_eq_append] at hsplit hbelow
        have hsplit' : tables ++ [m] = (above ++ c :: below) ++ [last] := by simpa using hsplit
        obtain ⟨rfl, -⟩ := List.append_inj' hsplit' rfl
        exact .buffered above c below rfl habove hc
          (fun t ht => hbelow t (List.mem_append_left _ ht)) hsegs
  | listed above c hsplit habove hc hsegs =>
      obtain ⟨rfl, -⟩ := List.append_inj' hsplit rfl
      exact .flushed habove hsegs
  | flushed htables hsegs =>
      exact .flushed (fun t ht => htables t (List.mem_append_left _ ht)) hsegs

/-- The oldest memtable is listed as the newest segment. -/
theorem list {m : MemTable ν} (h : Spread pre batch (tables ++ [m]) segs) :
    Spread pre batch (tables ++ [m]) (fun key => columnOf [m] key ++ segs key) := by
  cases h with
  | absent htables hsegs => exact .absent htables ((htables m (by simp)).append hsegs)
  | buffered above c below hsplit habove hc hbelow hsegs =>
      rcases List.eq_nil_or_concat below with rfl | ⟨below, last, rfl⟩
      · obtain ⟨rfl, hlast⟩ := List.append_inj' hsplit rfl
        obtain rfl : m = c := by simpa using hlast
        exact .listed tables m rfl habove hc (hc.append segs)
      · rw [List.concat_eq_append] at hsplit hbelow
        have hsplit' : tables ++ [m] = (above ++ c :: below) ++ [last] := by simpa using hsplit
        obtain ⟨rfl, hlast⟩ := List.append_inj' hsplit' rfl
        obtain rfl : m = last := by simpa using hlast
        exact .buffered above c (below ++ [m]) (by simp) habove hc hbelow
          ((hbelow m (by simp)).append hsegs)
  | listed above c hsplit habove hc hsegs =>
      obtain ⟨rfl, hlast⟩ := List.append_inj' hsplit rfl
      obtain rfl : m = c := by simpa using hlast
      exact .listed tables m rfl habove hc (hc.append segs)
  | flushed htables hsegs => exact .flushed htables ((htables m (by simp)).append_fresh hsegs)

/-- The older memtables hold all of the batch or nothing of it. -/
theorem older_or_fresh {front back : List (MemTable ν)}
    (h : Spread pre batch (front ++ back) segs) :
    Older pre batch (columnOf back) ∨ Fresh batch (columnOf back) := by
  cases h with
  | absent htables hsegs =>
      exact .inl (older_columnOf (fun t ht => htables t (List.mem_append_right _ ht)))
  | buffered above c below hsplit habove hc hbelow hsegs =>
      have hfresh : ∀ above', (∀ m ∈ above', Bare batch (columnOf [m])) →
          Fresh batch (columnOf (above' ++ c :: below)) := by
        intro above' habove'
        have hc' : Fresh batch (columnOf (c :: below)) := by
          have happ := columnOf_append [c] below
          rw [List.singleton_append] at happ
          rw [happ]
          exact hc.append _
        rw [columnOf_append]
        exact (bare_columnOf habove').append_fresh hc'
      -- The cut lies above the table of the batch, or below it.
      rcases List.append_eq_append_iff.1 hsplit with ⟨as, rfl, hback⟩ | ⟨bs, rfl, hback⟩
      · rw [hback]
        exact .inr (hfresh as (fun t ht => habove t (List.mem_append_right _ ht)))
      · cases bs with
        | nil =>
            rw [List.nil_append] at hback
            rw [← hback]
            exact .inr (hfresh [] (by simp))
        | cons b bs =>
            obtain ⟨-, rfl⟩ := List.cons.inj hback
            exact .inl (older_columnOf (fun t ht => hbelow t (List.mem_append_right _ ht)))
  | listed above c hsplit habove hc hsegs =>
      rcases List.append_eq_append_iff.1 hsplit with ⟨as, rfl, hback⟩ | ⟨bs, rfl, hback⟩
      · rw [hback, columnOf_append]
        exact .inr ((bare_columnOf
          (fun t ht => habove t (List.mem_append_right _ ht))).append_fresh hc)
      · cases bs with
        | nil =>
            rw [List.nil_append] at hback
            rw [← hback]
            exact .inr hc
        | cons b bs =>
            obtain ⟨-, hnil⟩ := List.cons.inj hback
            obtain ⟨-, rfl⟩ := List.append_eq_nil_iff.1 hnil.symm
            exact .inl (fun key r _ v hv => by cases hv)
  | flushed htables hsegs =>
      exact .inl (bare_columnOf (fun t ht => htables t (List.mem_append_right _ ht))).older

/-- So does the newest memtable. -/
theorem older_or_fresh_head {m : MemTable ν} {rest : List (MemTable ν)}
    (h : Spread pre batch (m :: rest) segs) :
    Older pre batch (columnOf [m]) ∨ Fresh batch (columnOf [m]) := by
  cases h with
  | absent htables hsegs => exact .inl (htables m (by simp))
  | buffered above c below hsplit habove hc hbelow hsegs =>
      cases above with
      | nil =>
          obtain ⟨rfl, -⟩ := List.cons.inj hsplit
          exact .inr hc
      | cons a above =>
          obtain ⟨rfl, -⟩ := List.cons.inj hsplit
          exact .inl (habove m (by simp)).older
  | listed above c hsplit habove hc hsegs =>
      cases above with
      | nil =>
          obtain ⟨rfl, -⟩ := List.cons.inj hsplit
          exact .inr hc
      | cons a above =>
          obtain ⟨rfl, -⟩ := List.cons.inj hsplit
          exact .inl (habove m (by simp)).older
  | flushed htables hsegs => exact .inl (htables m (by simp)).older

/-- And so do the segments. -/
theorem older_or_fresh_segs (h : Spread pre batch tables segs) :
    Older pre batch segs ∨ Fresh batch segs := by
  cases h with
  | absent htables hsegs => exact .inl hsegs
  | buffered above c below hsplit habove hc hbelow hsegs => exact .inl hsegs
  | listed above c hsplit habove hc hsegs => exact .inr hsegs
  | flushed htables hsegs => exact .inr hsegs

end Spread

/-! ## The actors and a batch -/

/-- An earlier version, or one of a key that is not in the batch. -/
def Record.Earlier (pre : String → List (Record ν)) (batch : List (Record ν)) (r : Record ν) :
    Prop :=
  ∀ last, lastOf batch r.key = some last → r ∈ pre r.key

namespace Actors

/-- Every container holds all of the batch or nothing of it. -/
def Located (pre : String → List (Record ν)) (batch : List (Record ν)) (s : Actors ν) : Prop :=
  Spread pre batch s.tables (Engine.segVersions s.engine.manifest.segments)

variable {pre : String → List (Record ν)} {batch : List (Record ν)}

theorem Located.congr {s s' : Actors ν} (h : s.Located pre batch) (htables : s'.tables = s.tables)
    (hsegs : s'.engine.manifest.segments = s.engine.manifest.segments) : s'.Located pre batch := by
  unfold Located
  rw [htables, hsegs]
  exact h

section Moves

variable [Unicode]

/-- The memtables of a sound state are consistent. -/
theorem Sound.tables {s : Actors ν} (h : s.Sound) : ∀ m ∈ s.tables, m.Consistent := by
  intro m hm
  rcases List.mem_cons.1 hm with rfl | hm
  · exact h.wf.memtable_consistent
  · rcases List.mem_append.1 hm with hm | hm
    · exact h.hand (Option.mem_toList.1 hm)
    · obtain ⟨f, hf, rfl⟩ := List.mem_map.1 hm
      exact h.wf.frozen_consistent (List.mem_reverse.1 hf)

/-- Before the batch is inserted there are earlier versions only. -/
theorem All.older {s : Actors ν} (h : s.All (Record.Earlier pre batch)) (hsound : s.Sound) :
    (∀ m ∈ s.tables, Older pre batch (columnOf [m])) ∧
      Older pre batch (Engine.segVersions s.engine.manifest.segments) := by
  have htable : ∀ m : MemTable ν, m.Consistent → (∀ r ∈ m.values, r.Earlier pre batch) →
      Older pre batch (columnOf [m]) := by
    intro m hm hall key r hr v hv
    have hget : m.get key = some v := by
      obtain ⟨m', hm', hget⟩ := List.mem_filterMap.1 hv
      rw [List.mem_singleton.1 hm'] at hget
      exact hget
    have hkey : v.key = key := hm.key_eq hget
    exact hkey ▸ hall v (mem_values_of_get hm hget) r (hkey.symm ▸ hr)
  constructor
  · intro m hm
    refine htable m (hsound.tables m hm) ?_
    rcases List.mem_cons.1 hm with rfl | hm
    · exact h.memtable
    · rcases List.mem_append.1 hm with hm | hm
      · exact h.hand (Option.mem_toList.1 hm)
      · obtain ⟨f, hf, rfl⟩ := List.mem_map.1 hm
        exact h.frozen (List.mem_reverse.1 hf)
  · intro key r hr v hv
    obtain ⟨m, hm, hrow⟩ := Engine.mem_segVersions.1 hv
    obtain ⟨hmem, hkey⟩ := rowOf_eq_some hrow
    exact hkey ▸ h.segments hm v hmem r (hkey.symm ▸ hr)

theorem All.located {s : Actors ν} (h : s.All (Record.Earlier pre batch)) (hsound : s.Sound) :
    s.Located pre batch :=
  .absent (h.older hsound).1 (h.older hsound).2

variable [Numeral ν]

/-- A message that avoids the batch's keys inserts nothing of them. -/
theorem earlier_insert {s : Actors ν} (h : s.All (Record.Earlier pre batch)) (hsound : s.Sound)
    {req : Request ν} (hreq : req.Avoids batch) :
    ∀ r ∈ (req.writes.foldl MemTable.applyWrite s.engine.memtable).values,
      r.Earlier pre batch := by
  intro r hr last hlast
  have hmem := hsound.wf.memtable_consistent
  have hget := (MemTable.mem_values (foldl_applyWrite_consistent hmem req.writes)).1 hr
  rw [get_of_avoids hmem hlast hreq] at hget
  exact h.memtable r ((MemTable.mem_values hmem).2 hget) last hlast

/-- The batch is inserted under one lock. -/
theorem located_insert {s : Actors ν} (h : s.All (Record.Earlier pre batch)) (hsound : s.Sound)
    (hwriter : s.writer = .appended (.putBatch batch)) :
    Located pre batch
      { s with
        engine :=
          { s.engine with
            memtable :=
              (Request.putBatch batch).writes.foldl MemTable.applyWrite s.engine.memtable }
        writer := .inserted (.putBatch batch) } := by
  obtain ⟨htables, hsegs⟩ := h.older hsound
  refine .buffered [] _ (s.engine.frozen.reverse.map Prod.snd) rfl (by simp) ?_ ?_ hsegs
  · intro key r hr
    rw [columnOf_singleton, get_putBatch hsound.wf.memtable_consistent hr]
    rfl
  · intro m hm
    refine htables m (List.mem_cons_of_mem _ ?_)
    simp only [hand, hwriter, Option.toList_none, List.nil_append]
    exact hm

variable [SegmentFile ν]

/-- Once the batch is inserted every move keeps it in one piece, as long as its keys are left
alone. -/
theorem Located.step {s s' : Actors ν} {a : Move ν} (h : s.Located pre batch) (hsound : s.Sound)
    (havoid : ∀ req, s.writer = .appended req → a = .insert → req.Avoids batch)
    (hstep : s.step a = some s') : s'.Located pre batch := by
  have hflush := hsound.flush
  unfold FlushHead at hflush
  -- Listing a segment adds its rows in front of the older ones, and they are those of the table.
  have hlisting : ∀ {entry : Nat × MemTable ν} {seq : Nat} (now : Int64),
      s.maint = .written entry seq →
        Spread pre batch s.tables
          (Engine.segVersions (s.listing seq now entry.2.values).segments) := by
    intro entry seq now hmaint
    have hsegs := funext (segVersions_listing hsound hmaint now)
    simp only [hmaint] at hflush
    have hhead := hflush.1
    rw [hsegs, tables_eq_of_head hhead]
    refine Spread.list ?_
    rw [← tables_eq_of_head hhead]
    exact h
  cases step_cases hstep with
  | append hwriter => exact h.congr (by simp [tables, hand, hwriter]) rfl
  | appendFails hwriter => exact h.congr (by simp [tables, hand]) rfl
  | @insert req hwriter =>
      have htables : s.tables =
          s.engine.memtable :: s.engine.frozen.reverse.map Prod.snd := by
        simp [tables, hand, hwriter]
      unfold Located at h
      rw [htables] at h
      -- What is inserted has none of the keys of the batch.
      exact h.congr_head (fun key r hr =>
        get_of_avoids hsound.wf.memtable_consistent hr (havoid req hwriter rfl))
  | takeIdle hwriter hfull =>
      have htables : (s.take none).tables = {} :: s.tables := by
        simp [tables, hand, hwriter, take]
      unfold Located
      rw [htables]
      exact Spread.cons h (fun key r _ => rfl)
  | @takeFull req hwriter hfull =>
      have htables : (s.take (some req)).tables = {} :: s.tables := by
        simp [tables, hand, hwriter, take]
      unfold Located
      rw [htables]
      exact Spread.cons h (fun key r _ => rfl)
  | openWal hwriter => exact h.congr (by simp [tables, hand, hwriter]) rfl
  | @openFails req map seq created hwriter =>
      have htables : s.tables =
          s.engine.memtable :: map :: s.engine.frozen.reverse.map Prod.snd := by
        simp [tables, hand, hwriter]
      unfold Located at h
      rw [htables] at h
      exact h.lose
  | push hwriter => exact h.congr (by simp [tables, hand, hwriter]) rfl
  | replyInserted hwriter hroom => exact h.congr (by simp [tables, hand, hwriter]) rfl
  | replyPushed hwriter => exact h.congr (by simp [tables, hand, hwriter]) rfl
  | list hmaint => exact hlisting _ hmaint
  | listFails hmaint => exact hlisting _ hmaint
  | dropFrozen hmaint =>
      simp only [hmaint] at hflush
      unfold Located at h
      rw [tables_eq_of_head hflush] at h
      exact h.dropLast
  | pick _ _ => exact h.congr rfl rfl
  | alloc _ => exact h.congr rfl rfl
  | writeSegment _ => exact h.congr rfl rfl
  | writeFails _ => exact h.congr rfl rfl
  | removeWal _ => exact h.congr rfl rfl
  | removeFails _ => exact h.congr rfl rfl

end Moves

end Actors

/-! ## What a scan meets -/

/-- What a scan has read of the batch's keys: earlier versions only, the batch's records first, or a
full earlier record of each, which hides whatever it reads later. -/
inductive Met (pre : String → List (Record ν)) (batch : List (Record ν))
    (met : String → List (Record ν)) : Prop
  | older (h : Older pre batch met)
  | fresh (h : Fresh batch met)
  | hidden (h : ∀ key r, lastOf batch key = some r → ∃ xs v ys, met key = xs ++ v :: ys ∧
      v.isDelta = false ∧ ∀ u ∈ xs ++ [v], u ∈ pre key)

/-- When a container is read that has the batch's record first for some key, what was read before
holds nothing of the batch's keys, or a full record of each. -/
def Scanning.ReadsWhole (batch : List (Record ν)) (s : Scanning ν) : ScanEvent ν → Prop
  | .read =>
      (∃ r ∈ batch, lastOf batch r.key = some r ∧ (s.next r.key).head? = some r) →
        (∀ r ∈ batch, s.phase.met r.key = []) ∨
          ∀ r ∈ batch, ∃ v ∈ s.phase.met r.key, v.isDelta = false
  | _ => True

instance instDecidableReadsWhole [DecidableEq ν] (batch : List (Record ν)) (s : Scanning ν)
    (e : ScanEvent ν) : Decidable (s.ReadsWhole batch e) := by
  cases e with
  | read => exact inferInstanceAs (Decidable (_ → _))
  | move a => exact isTrue trivial
  | check => exact isTrue trivial

namespace Met

variable {pre : String → List (Record ν)} {batch : List (Record ν)}
  {met next : String → List (Record ν)}

/-- One more container. -/
theorem read (h : Met pre batch met) (hnext : Older pre batch next ∨ Fresh batch next)
    (hwhole : (∃ r ∈ batch, lastOf batch r.key = some r ∧ (next r.key).head? = some r) →
      (∀ r ∈ batch, met r.key = []) ∨ ∀ r ∈ batch, ∃ v ∈ met r.key, v.isDelta = false) :
    Met pre batch (fun key => met key ++ next key) := by
  cases h with
  | fresh hmet => exact .fresh (hmet.append next)
  | hidden hmet =>
      refine .hidden (fun key r hr => ?_)
      obtain ⟨xs, v, ys, hsplit, hfull, hpre⟩ := hmet key r hr
      exact ⟨xs, v, ys ++ next key, by simp [hsplit], hfull, hpre⟩
  | older hmet =>
      rcases hnext with hnext | hnext
      · exact .older (hmet.append hnext)
      · by_cases hempty : ∃ key r, lastOf batch key = some r
        · -- The scan meets the batch here.
          obtain ⟨key, r, hr⟩ := hempty
          obtain ⟨hin, rfl⟩ := lastOf_mem hr
          rcases hwhole ⟨r, hin, hr, hnext _ r hr⟩ with hnone | hfull
          · refine .fresh (Bare.append_fresh (fun key r hr => ?_) hnext)
            obtain ⟨hin, rfl⟩ := lastOf_mem hr
            exact hnone r hin
          · refine .hidden (fun key r hr => ?_)
            obtain ⟨hin, rfl⟩ := lastOf_mem hr
            obtain ⟨v, hv, hv'⟩ := hfull r hin
            obtain ⟨xs, ys, hsplit⟩ := List.append_of_mem hv
            refine ⟨xs, v, ys ++ next r.key, by simp [hsplit], hv', fun u hu => ?_⟩
            refine hmet r.key r hr u ?_
            rw [hsplit]
            rcases List.mem_append.1 hu with hu | hu
            · exact List.mem_append_left _ hu
            · rw [List.mem_singleton.1 hu]
              simp
        · exact .older (fun key r hr => absurd ⟨key, r, hr⟩ hempty)

variable [Numeral ν]

/-- What a walk reaches of the batch's keys. -/
theorem live (h : Met pre batch met) (hbatch : ∀ r ∈ batch, r.isDelta = false) :
    (∀ key r, lastOf batch key = some r → (recordLayers ν).live (met key) = [r]) ∨
      ∀ key r, lastOf batch key = some r → ∀ v ∈ (recordLayers ν).live (met key), v ∈ pre key := by
  cases h with
  | older hmet =>
      exact .inr (fun key r hr v hv => hmet key r hr v (Layering.mem_of_mem_live hv))
  | fresh hmet =>
      refine .inl (fun key r hr => ?_)
      obtain ⟨rest, hrest⟩ := List.head?_eq_some_iff.1 (hmet key r hr)
      rw [hrest]
      exact Layering.live_of_full (hbatch r (lastOf_mem hr).1) rest
  | hidden hmet =>
      refine .inr (fun key r hr v hv => ?_)
      obtain ⟨xs, u, ys, hsplit, hfull, hpre⟩ := hmet key r hr
      have hcut : (recordLayers ν).live (met key) = (recordLayers ν).live (xs ++ [u]) := by
        have happ : (recordLayers ν).live ((xs ++ [u]) ++ ys) =
            (recordLayers ν).live ((xs ++ [u]) ++ []) :=
          Layering.live_append_of_mem (List.mem_append_right _ (List.mem_singleton_self u)) hfull
            ys []
        rw [hsplit]
        simpa using happ
      rw [hcut] at hv
      exact hpre v (Layering.mem_of_mem_live hv)

end Met

namespace Engine

variable [Numeral ν]

/-- What a path shows for a key whose versions it has read, before the spec is applied. -/
def shownOf (fold : Bool) (vs : List (Record ν)) : Option (Record ν) :=
  if fold then readVersions vs
  else vs.head?.bind (fun r => if r.isTombstone then none else some r)

/-- A path shows what the versions down to the first full one give. -/
theorem shownOf_live (fold : Bool) (vs : List (Record ν)) :
    shownOf fold ((recordLayers ν).live vs) = shownOf fold vs := by
  cases fold with
  | true =>
      show readVersions _ = readVersions _
      rw [readVersions, readVersions, Layering.readNewest_live mergeDelta_fullBase]
  | false =>
      have hhead : ((recordLayers ν).live vs).head? = vs.head? := by
        cases vs with
        | nil => rfl
        | cons v vs =>
            rw [Layering.live]
            split <;> rfl
      simp only [shownOf, Bool.false_eq_true, if_false, hhead]

variable [Unicode] [LawfulNumeral ν]

/-- A path sorts, cuts and projects the rows it shows. -/
theorem exists_shownRows {e : Engine ν} (h : e.WF) (fold : Bool) (spec : QuerySpec ν) :
    ∃ rows : List (Record ν),
      e.scanPath fold spec =
        (spec.truncate (sortAsc (recordRank spec.orderBy) rows)).map spec.stripText ∧
      ∀ r, r ∈ rows ↔ shownOf fold (e.versions r.key) = some r ∧
        spec.«matches» r = true ∧ spec.afterBoundOk r = true := by
  cases fold with
  | true => exact ⟨e.matchSet spec, scanFold_eq_oracle h, fun r => mem_matchSet⟩
  | false =>
      refine ⟨e.walkRows spec spec.afterBoundOk, ?_, fun r => ?_⟩
      · rw [scanPath, if_neg (by simp)]
        split
        · rename_i order hlimit horder
          exact topkRows_eq_walk h (of_decide_eq_true hlimit) horder
        · exact scanFull_eq_walk h spec
      · rw [mem_walkRows h, shownOf, if_neg (by simp)]
        constructor
        · rintro ⟨hhead, htomb, hm⟩
          exact ⟨by simp [hhead, htomb], hm⟩
        · rintro ⟨hshown, hm⟩
          obtain ⟨v, hhead, hv⟩ := Option.bind_eq_some_iff.1 hshown
          cases htomb : v.isTombstone with
          | true => simp [htomb] at hv
          | false =>
              obtain rfl : v = r := by simpa [htomb] using hv
              exact ⟨hhead, htomb, hm⟩

/-- Every row of a scan is what its path shows for the row's key. -/
theorem shown_of_mem_scanPath {e : Engine ν} (h : e.WF) {fold : Bool} {spec : QuerySpec ν}
    {x : Record ν} (hx : x ∈ e.scanPath fold spec) :
    ∃ r, shownOf fold (e.versions r.key) = some r ∧ spec.«matches» r = true ∧
      spec.afterBoundOk r = true ∧ spec.stripText r = x := by
  obtain ⟨rows, hscan, hrows⟩ := exists_shownRows h fold spec
  rw [hscan] at hx
  obtain ⟨r, hr, rfl⟩ := List.mem_map.1 hx
  have hmem : r ∈ rows := by
    unfold QuerySpec.truncate at hr
    split at hr
    · exact (mem_sortAsc _).1 (List.mem_of_mem_take hr)
    · exact (mem_sortAsc _).1 hr
  obtain ⟨hshown, hm, hafter⟩ := (hrows r).1 hmem
  exact ⟨r, hshown, hm, hafter, rfl⟩

/-- Without a limit nothing its path shows and the spec admits is missing. -/
theorem mem_scanPath_of_shown {e : Engine ν} (h : e.WF) {fold : Bool} {spec : QuerySpec ν}
    (hlimit : spec.limit = 0) {r : Record ν} (hshown : shownOf fold (e.versions r.key) = some r)
    (hm : spec.«matches» r = true) (hafter : spec.afterBoundOk r = true) :
    spec.stripText r ∈ e.scanPath fold spec := by
  obtain ⟨rows, hscan, hrows⟩ := exists_shownRows h fold spec
  rw [hscan, QuerySpec.truncate, if_neg (by omega)]
  exact List.mem_map_of_mem ((mem_sortAsc _).2 ((hrows r).2 ⟨hshown, hm, hafter⟩))

omit [Unicode] [LawfulNumeral ν] in
/-- A path that reaches the batch's record alone shows it. -/
theorem shownOf_singleton {r : Record ν} (hr : r.labels[deltaLabel]? = none) (fold : Bool) :
    shownOf fold [r] = if r.isTombstone then none else some r := by
  cases fold with
  | false => rfl
  | true =>
      have hfull : r.isDelta = false := by simp [Record.isDelta, hr]
      have hread : shownOf true [r] = r.surface := by
        rw [shownOf, if_pos rfl, readVersions, Layering.readNewest_cons_of_full hfull]
        rfl
      rw [hread, Record.surface_eq, Record.clearDelta_eq_self hr]

end Engine

/-! ## A whole run -/

/-- The containers a scan has read are consistent. -/
def ScanPhase.Consistent [Unicode] : ScanPhase ν → Prop
  | .metMemtable _ m => m.Consistent
  | .metFrozen _ m frozen => m.Consistent ∧ ∀ f ∈ frozen, f.2.Consistent
  | .done _ view => view.WF
  | _ => True

namespace Actors

/-- Before the batch is appended. -/
structure Before [Unicode] (pre : String → List (Record ν)) (batch : List (Record ν))
    (s : Actors ν) : Prop where
  sound : s.Sound
  all : s.All (Record.Earlier pre batch)
  writer {req : Request ν} : s.writer = .appended req → req.Avoids batch

/-- From then on: until it is inserted there are earlier versions only. -/
structure After [Unicode] (pre : String → List (Record ν)) (batch : List (Record ν))
    (s : Actors ν) : Prop where
  sound : s.Sound
  located : s.Located pre batch
  writer {req : Request ν} : s.writer = .appended req →
    req.Avoids batch ∨ req = .putBatch batch ∧ s.All (Record.Earlier pre batch)

section Runs

variable [Unicode] {pre : String → List (Record ν)} {batch : List (Record ν)} {s s' : Actors ν}

/-- Every version there is at the start is an earlier one. -/
theorem all_earlier (hsound : s.Sound) : s.All (Record.Earlier s.versions batch) := by
  have htable : ∀ m ∈ s.tables, ∀ r ∈ m.values, r.Earlier s.versions batch := by
    intro m hm r hr _ _
    refine List.mem_append_left _ (List.mem_filterMap.2 ⟨m, hm, ?_⟩)
    exact (MemTable.mem_values (hsound.tables m hm)).1 hr
  refine ⟨htable _ (List.mem_cons_self ..), fun hmap => htable _ ?_, fun hf => htable _ ?_, ?_⟩
  · exact List.mem_cons_of_mem _ (List.mem_append_left _ (Option.mem_toList.2 hmap))
  · exact List.mem_cons_of_mem _ (List.mem_append_right _
      (List.mem_map_of_mem (List.mem_reverse.2 hf)))
  · intro m hm r hr _ _
    refine List.mem_append_right _ (Engine.mem_segVersions.2 ⟨m, hm, ?_⟩)
    exact rowOf_of_mem (hsound.wf.sorted hm) hr

variable [Numeral ν] [SegmentFile ν]

theorem Before.step (h : s.Before pre batch) {a : Move ν}
    (ha : (ScanEvent.move a).Avoids batch) (hstep : s.step a = some s') :
    s'.Before pre batch where
  sound := h.sound.step hstep
  all := h.all.step h.sound (fun _ hreq _ => earlier_insert h.all h.sound (h.writer hreq)) hstep
  writer hreq := by
    rcases appended_of_step hstep hreq with hwriter | rfl
    · exact h.writer hwriter
    · exact ha

/-- The batch is appended. -/
theorem Before.append (h : s.Before pre batch)
    (hstep : s.step (.append (.putBatch batch)) = some s') : s'.After pre batch := by
  have hall : s'.All (Record.Earlier pre batch) :=
    h.all.step h.sound (fun _ hreq _ => earlier_insert h.all h.sound (h.writer hreq)) hstep
  have hsound := h.sound.step hstep
  refine ⟨hsound, hall.located hsound, fun hreq => ?_⟩
  rcases appended_of_step hstep hreq with hwriter | hwriter
  · exact .inl (h.writer hwriter)
  · cases hwriter
    exact .inr ⟨rfl, hall⟩

theorem After.step (h : s.After pre batch) {a : Move ν} (ha : (ScanEvent.move a).Avoids batch)
    (hstep : s.step a = some s') : s'.After pre batch := by
  have hsound := h.sound.step hstep
  by_cases hinsert : a = .insert ∧ s.writer = .appended (.putBatch batch)
  · -- The batch itself is inserted, unless it has no records.
    obtain ⟨rfl, hwriter⟩ := hinsert
    have hstep' := hstep
    simp only [Actors.step, hwriter, Option.some.injEq] at hstep'
    subst hstep'
    refine ⟨hsound, ?_, fun hreq => by cases hreq⟩
    rcases h.writer hwriter with havoid | ⟨-, hall⟩
    · refine h.located.step h.sound (fun req hreq _ => ?_) hstep
      cases hwriter.symm.trans hreq
      exact havoid
    · exact located_insert hall h.sound hwriter
  · refine ⟨hsound, h.located.step h.sound (fun req hreq hins => ?_) hstep, fun hreq => ?_⟩
    · rcases h.writer hreq with havoid | ⟨rfl, -⟩
      · exact havoid
      · exact absurd ⟨hins, hreq⟩ hinsert
    · rcases appended_of_step hstep hreq with hwriter | rfl
      · rcases h.writer hwriter with havoid | ⟨rfl, hall⟩
        · exact .inl havoid
        · refine .inr ⟨rfl, hall.step h.sound (fun _ _ hins => ?_) hstep⟩
          exact absurd ⟨hins, hwriter⟩ hinsert
      · exact .inl ha

end Runs

end Actors

namespace Scanning

section Runs

variable [Unicode] {pre : String → List (Record ν)} {batch : List (Record ν)}

omit [Unicode] in
/-- The next container holds all of the batch or nothing of it. -/
theorem next_older_or_fresh {s s' : Scanning ν} (h : s.now.Located pre batch)
    (hread : s.read = some s') : Older pre batch s.next ∨ Fresh batch s.next := by
  cases hphase : s.phase with
  | decided fold =>
      have hnext : s.next = columnOf [s.now.engine.memtable] := by
        funext key
        simp only [next, hphase, columnOf]
        cases hget : s.now.engine.memtable.get key <;> simp [hget]
      rw [hnext]
      exact Spread.older_or_fresh_head h
  | metMemtable fold m =>
      have hnext : s.next = columnOf (s.now.engine.frozen.reverse.map Prod.snd) := by
        funext key
        rw [columnOf, List.filterMap_map]
        simp only [next, hphase]
        rfl
      have hspread : Spread pre batch
          ((s.now.engine.memtable :: s.now.hand.toList) ++
            s.now.engine.frozen.reverse.map Prod.snd)
          (Engine.segVersions s.now.engine.manifest.segments) := h
      rw [hnext]
      exact hspread.older_or_fresh
  | metFrozen fold m frozen =>
      have hnext : s.next = Engine.segVersions s.now.engine.manifest.segments := by
        funext key
        simp only [next, hphase]
      rw [hnext]
      exact Spread.older_or_fresh_segs h
  | start => simp [read, hphase] at hread
  | memtableClear => simp [read, hphase] at hread
  | frozenClear => simp [read, hphase] at hread
  | done fold view => simp [read, hphase] at hread

theorem consistent_of_read {s s' : Scanning ν} (hsound : s.now.Sound)
    (hcons : s.phase.Consistent) (hread : s.read = some s') : s'.phase.Consistent := by
  unfold read at hread
  cases hphase : s.phase with
  | decided fold =>
      simp only [hphase, Option.some.injEq] at hread
      subst hread
      exact hsound.wf.memtable_consistent
  | metMemtable fold m =>
      simp only [hphase, Option.some.injEq] at hread hcons
      subst hread
      exact ⟨hcons, fun _ hf => hsound.wf.frozen_consistent hf⟩
  | metFrozen fold m frozen =>
      simp only [hphase, Option.some.injEq] at hread hcons
      subst hread
      exact ⟨hcons.1, fun hf => hcons.2 _ hf, hsound.wf.ids_nodup, hsound.wf.sorted⟩
  | start => simp [hphase] at hread
  | memtableClear => simp [hphase] at hread
  | frozenClear => simp [hphase] at hread
  | done fold view => simp [hphase] at hread

variable [Numeral ν]

/-- The check reads no versions. -/
theorem met_of_check {spec : QuerySpec ν} {s s' : Scanning ν}
    (hcheck : s.check spec = some s') :
    s'.now = s.now ∧ (∀ key, s'.phase.met key = []) ∧ s'.phase.Consistent := by
  unfold check at hcheck
  cases hphase : s.phase with
  | start =>
      simp only [hphase, Option.some.injEq] at hcheck
      subst hcheck
      refine ⟨rfl, fun key => ?_, ?_⟩ <;> split <;> trivial
  | memtableClear =>
      simp only [hphase, Option.some.injEq] at hcheck
      subst hcheck
      refine ⟨rfl, fun key => ?_, ?_⟩ <;> split <;> trivial
  | frozenClear =>
      simp only [hphase, Option.some.injEq] at hcheck
      subst hcheck
      exact ⟨rfl, fun key => rfl, trivial⟩
  | decided fold => simp [hphase] at hcheck
  | metMemtable fold m => simp [hphase] at hcheck
  | metFrozen fold m frozen => simp [hphase] at hcheck
  | done fold view => simp [hphase] at hcheck

variable [SegmentFile ν]

/-- A scan that reads the batch whole. -/
structure Tracks (Inv : Actors ν → Prop) (pre : String → List (Record ν))
    (batch : List (Record ν)) (s : Scanning ν) : Prop where
  now : Inv s.now
  phase : s.phase.Consistent
  met : Met pre batch s.phase.met

/-- What the moves keep, the scan beside them keeps. -/
theorem Tracks.step {Inv : Actors ν → Prop} {spec : QuerySpec ν} {s s' : Scanning ν}
    {e : ScanEvent ν} (hsound : ∀ {a}, Inv a → a.Sound)
    (hlocated : ∀ {a}, Inv a → a.Located pre batch)
    (hmove : ∀ {a b m}, Inv a → (ScanEvent.move m).Avoids batch → a.step m = some b → Inv b)
    (h : s.Tracks Inv pre batch) (hwhole : s.ReadsWhole batch e) (havoid : e.Avoids batch)
    (hstep : s.step spec e = some s') : s'.Tracks Inv pre batch := by
  cases e with
  | move a =>
      obtain ⟨now, hnow, rfl⟩ := Option.map_eq_some_iff.1 hstep
      exact ⟨hmove h.now havoid hnow, h.phase, h.met⟩
  | check =>
      obtain ⟨hnow, hmet, hcons⟩ := met_of_check hstep
      refine ⟨hnow ▸ h.now, hcons, .older (fun key _ _ v hv => ?_)⟩
      rw [hmet key] at hv
      cases hv
  | read =>
      obtain ⟨hnow, hmet⟩ := met_of_read hstep
      refine ⟨hnow ▸ h.now, consistent_of_read (hsound h.now) h.phase hstep, ?_⟩
      rw [hmet]
      exact h.met.read (next_older_or_fresh (hlocated h.now) hstep) hwhole

omit [Numeral ν] [SegmentFile ν] in
/-- A scan beside a store, at the moment it starts. -/
theorem tracks_start {now : Actors ν} (hsound : now.Sound)
    (hpending : ∀ {req}, now.writer = .appended req → req.Avoids batch) :
    Tracks (Actors.Before now.versions batch) now.versions batch { now := now } where
  now := ⟨hsound, Actors.all_earlier hsound, hpending⟩
  phase := trivial
  met := .older (fun _ _ _ v hv => by cases hv)

/-- The scan ends with all of the batch or nothing of it. -/
theorem tracks_run {now : Actors ν} (hsound : now.Sound)
    (hpending : ∀ {req}, now.writer = .appended req → req.Avoids batch) {spec : QuerySpec ν}
    {before after : List (ScanEvent ν)} (hbefore : ∀ e ∈ before, e.Avoids batch)
    (hafter : ∀ e ∈ after, e.Avoids batch)
    (hwhole : EachStep (step spec) (ReadsWhole batch) { now := now }
      (before ++ .move (.append (.putBatch batch)) :: after))
    {s : Scanning ν}
    (hrun : runFrom (step spec) { now := now }
      (before ++ .move (.append (.putBatch batch)) :: after) = some s) :
    s.Tracks (Actors.After now.versions batch) now.versions batch := by
  rw [runFrom_append] at hrun
  obtain ⟨s₁, hrun₁, hrest⟩ := Option.bind_eq_some_iff.1 hrun
  obtain ⟨s₂, hstep, hrun₂⟩ := Option.bind_eq_some_iff.1 hrest
  obtain ⟨hwhole₁, hwhole₂⟩ := hwhole.append
  obtain ⟨-, hwhole₂⟩ := hwhole₂ s₁ hrun₁ s₂ hstep
  -- Until the batch is appended.
  have htracks₁ : s₁.Tracks (Actors.Before now.versions batch) now.versions batch := by
    refine Throughout.last (throughout_of_step (fun h hC hs => ?_) (tracks_start hsound hpending)
      (hwhole₁.and_mem hbefore)) hrun₁
    exact Tracks.step (fun ha => ha.sound) (fun ha => ha.all.located ha.sound)
      (fun ha hm hs => ha.step hm hs) h hC.1 hC.2 hs
  -- The append itself.
  obtain ⟨now₂, hnow₂, rfl⟩ := Option.map_eq_some_iff.1 hstep
  have htracks₂ : Tracks (Actors.After now.versions batch) now.versions batch
      { s₁ with now := now₂ } :=
    ⟨htracks₁.now.append hnow₂, htracks₁.phase, htracks₁.met⟩
  -- From then on.
  refine Throughout.last (throughout_of_step (fun h hC hs => ?_) htracks₂
    (hwhole₂.and_mem hafter)) hrun₂
  exact Tracks.step (fun ha => ha.sound) (fun ha => ha.located) (fun ha hm hs => ha.step hm hs)
    h hC.1 hC.2 hs

/-- Beside a store in any state it can reach, a scan, a batch and whatever else moves without
writing the batch's keys: when the scan reads the container in which it first meets the batch, and
the containers it has read hold nothing of the batch's keys or a full record of each, it shows every
record of the batch, or only what was there before the batch.  What it then shows of a key starts
with the key's first version before the batch, unless a version passes it in the writer's hand. -/
theorem batch_shown_whole_or_not [LawfulNumeral ν] {config : Config} {manifest : Manifest ν}
    (hwf : Engine.WF { config := config, manifest := manifest })
    (hnumbered : Engine.Numbered { config := config, manifest := manifest }) (disk : Disk ν)
    (seq : Nat) {moves : List (Move ν)} {now : Actors ν}
    (hmoves : runFrom Actors.step (Traced.opened config manifest disk seq).now moves = some now)
    (spec : QuerySpec ν) {batch : List (Record ν)}
    (hlabels : ∀ r ∈ batch, r.labels[deltaLabel]? = none)
    (hpending : ∀ req, now.writer = .appended req → req.Avoids batch)
    {before after : List (ScanEvent ν)} (hbefore : ∀ e ∈ before, e.Avoids batch)
    (hafter : ∀ e ∈ after, e.Avoids batch)
    (hwhole : EachStep (step spec) (ReadsWhole batch) { now := now }
      (before ++ .move (.append (.putBatch batch)) :: after))
    {s : Scanning ν}
    (hrun : runFrom (step spec) { now := now }
      (before ++ .move (.append (.putBatch batch)) :: after) = some s)
    {fold : Bool} {view : Engine ν} (hdone : s.phase = .done fold view) :
    (∀ x ∈ view.scanPath fold spec, ∃ r, Engine.shownOf fold (view.versions r.key) = some r ∧
      spec.«matches» r = true ∧ spec.afterBoundOk r = true ∧ spec.stripText r = x) ∧
    (spec.limit = 0 → ∀ r, Engine.shownOf fold (view.versions r.key) = some r →
      spec.«matches» r = true → spec.afterBoundOk r = true →
        spec.stripText r ∈ view.scanPath fold spec) ∧
    ((∀ key r, lastOf batch key = some r → Engine.shownOf fold (view.versions key) =
        if r.isTombstone then none else some r) ∨
      ∀ key r, lastOf batch key = some r → ∃ vs, (∀ v ∈ vs, v ∈ now.versions key) ∧
        Engine.shownOf fold (view.versions key) = Engine.shownOf fold vs ∧
        (EachStep (step spec) (Unbroken batch) { now := now }
            (before ++ .move (.append (.putBatch batch)) :: after) →
          r ∉ now.versions key → vs.head? = (now.versions key).head?)) := by
  have hkeep : ∀ {s : Actors ν} {a : Move ν} {s' : Actors ν}, s.Sound ∧ s.Backed →
      s.step a = some s' → s'.Sound ∧ s'.Backed :=
    fun h hs => ⟨h.1.step hs, h.2.step h.1 hs⟩
  obtain ⟨hsound, hbacked⟩ := invariant_runFrom hkeep
    ⟨sound_opened hwf hnumbered disk seq, Actors.backed_opened config manifest disk seq⟩ hmoves
  have htracks := tracks_run hsound (hpending _) hbefore hafter hwhole hrun
  have hview : view.WF := by
    have hphase := htracks.phase
    rw [hdone] at hphase
    exact hphase
  have hmet : s.phase.met = view.versions := by
    funext key
    rw [Engine.versions_eq, Engine.memVersions_eq hview, hdone]
    rfl
  have hfull : ∀ r ∈ batch, r.isDelta = false := by
    intro r hr
    simp [Record.isDelta, hlabels r hr]
  refine ⟨fun x hx => Engine.shown_of_mem_scanPath hview hx,
    fun hlimit r hr hm hafter => Engine.mem_scanPath_of_shown hview hlimit hr hm hafter, ?_⟩
  -- The batch has been met whole, or not at all.
  rcases htracks.met.live hfull with hnew | hold
  · refine .inl (fun key r hr => ?_)
    rw [← hmet, ← Engine.shownOf_live, hnew key r hr]
    exact Engine.shownOf_singleton (hlabels r (lastOf_mem hr).1) fold
  · refine .inr (fun key r hr => ⟨_, hold key r hr, ?_, fun hunbroken hnew => ?_⟩)
    · rw [← hmet, Engine.shownOf_live]
    · -- The batch's record is not what the scan meets first.
      rw [Layering.head?_live]
      have hwrites : ∀ e ∈ before ++ .move (.append (.putBatch batch)) :: after,
          e.Avoids batch ∨ e = .move (.append (.putBatch batch)) := by
        intro e he
        rcases List.mem_append.1 he with he | he
        · exact .inl (hbefore e he)
        · rcases List.mem_cons.1 he with rfl | he
          · exact .inr rfl
          · exact .inl (hafter e he)
      rcases head_met_of_unbroken hsound hbacked (hpending _) hwrites hunbroken hrun hdone hr with
        hfirst | hbatch
      · exact hfirst
      · have hlive := (Layering.head?_live (L := recordLayers ν) (s.phase.met key)).trans hbatch
        exact absurd (hold key r hr r (List.mem_of_head? hlive)) hnew

end Runs

end Scanning

section Sample

local instance instBatchesUnicode : Unicode := asciiUnicode

local instance instBatchesFile : SegmentFile Int := footprintFile Int

/-- Two records, put together. -/
def pair : List (Record Int) := [Record.bare "a" 2, Record.bare "b" 2]

/-- One record is put before the scan starts. -/
def putBefore (key : String) : List (Move Int) :=
  [.append (.putBatch [Record.bare key 1]), .insert, .reply]

/-- The store the scan starts beside. -/
def pairStore (key : String) : Actors Int :=
  (runFrom Actors.step (Traced.opened {} {} {} 0).now (putBefore key)).getD
    (Traced.opened {} {} {} 0).now

/-- The scan reads the memtable, then the pair is put and its memtable is frozen. -/
def tornBefore : List (ScanEvent Int) := [.check, .check, .check, .read]

def tornAfter : List (ScanEvent Int) :=
  [.move .insert, .move .reply, .move .take, .move .openWal, .move .push, .read, .read]

/-- The view the scan ends with. -/
def pairView (key : String) : Option (Bool × Engine Int) :=
  (runFrom (Scanning.step {}) { now := pairStore key }
    (tornBefore ++ .move (.append (.putBatch pair)) :: tornAfter)).bind (fun s =>
      match s.phase with
      | .done fold view => some (fold, view)
      | _ => none)

theorem exists_pairView {key : String} (h : (pairView key).isSome = true) :
    ∃ s, runFrom (Scanning.step {}) { now := pairStore key }
        (tornBefore ++ .move (.append (.putBatch pair)) :: tornAfter) = some s ∧
      s.phase = .done ((pairView key).get h).1 ((pairView key).get h).2 := by
  obtain ⟨⟨fold, view⟩, hv⟩ := Option.isSome_iff_exists.1 h
  have hget : (pairView key).get h = (fold, view) := by simp [hv]
  obtain ⟨s, hs, hview⟩ := Option.bind_eq_some_iff.1 hv
  refine ⟨s, hs, ?_⟩
  cases hphase : s.phase with
  | done fold' view' =>
      simp only [hphase, Option.some.injEq, Prod.mk.injEq] at hview
      rw [hget, hview.1, hview.2]
  | _ => simp [hphase] at hview

theorem pairView_a : (pairView "a").isSome = true := by decide

theorem pairView_c : (pairView "c").isSome = true := by decide

/-- With an earlier version of the first key in the memtable the scan returns it beside the second
key of the pair. -/
theorem pair_torn :
    ∃ s fold view,
      runFrom Actors.step (Traced.opened {} {} {} 0).now (putBefore "a") =
          some (pairStore "a") ∧
        runFrom (Scanning.step {}) { now := pairStore "a" }
            (tornBefore ++ .move (.append (.putBatch pair)) :: tornAfter) = some s ∧
        s.phase = .done fold view ∧
        view.scanPath fold {} = [Record.bare "b" 2, Record.bare "a" 1] ∧
        Engine.shownOf fold (view.versions "b") = lastOf pair "b" ∧
        Engine.shownOf fold (view.versions "a") ≠ lastOf pair "a" ∧
        (pairStore "a").versions "b" = [] := by
  obtain ⟨s, hrun, hphase⟩ := exists_pairView pairView_a
  refine ⟨s, _, _, rfl, hrun, hphase, ?_⟩
  decide

/-- With only another key in the memtable it returns the pair. -/
theorem pair_whole :
    ∃ s fold view,
      runFrom (Scanning.step {}) { now := pairStore "c" }
          (tornBefore ++ .move (.append (.putBatch pair)) :: tornAfter) = some s ∧
        s.phase = .done fold view ∧
        view.scanPath fold {} = [Record.bare "a" 2, Record.bare "b" 2, Record.bare "c" 1] ∧
        ((∀ key r, lastOf pair key = some r → Engine.shownOf fold (view.versions key) =
            if r.isTombstone then none else some r) ∨
          ∀ key r, lastOf pair key = some r → ∃ vs, (∀ v ∈ vs, v ∈ (pairStore "c").versions key) ∧
            Engine.shownOf fold (view.versions key) = Engine.shownOf fold vs ∧
            (EachStep (Scanning.step {}) (Scanning.Unbroken pair) { now := pairStore "c" }
                (tornBefore ++ .move (.append (.putBatch pair)) :: tornAfter) →
              r ∉ (pairStore "c").versions key →
                vs.head? = ((pairStore "c").versions key).head?)) := by
  obtain ⟨s, hrun, hphase⟩ := exists_pairView pairView_c
  refine ⟨s, _, _, hrun, hphase, by decide, ?_⟩
  have hbefore : ∀ e ∈ tornBefore, e.Avoids pair := by
    simp [tornBefore, ScanEvent.Avoids]
  have hafter : ∀ e ∈ tornAfter, e.Avoids pair := by
    simp [tornAfter, ScanEvent.Avoids]
  have hwf : Engine.WF ({ config := {}, manifest := {} } : Engine Int) :=
    Engine.wf_of_segments rfl rfl (by decide) (by decide)
  have hmoves : runFrom Actors.step (Traced.opened {} {} {} 0).now (putBefore "c") =
      some (pairStore "c") := rfl
  exact (Scanning.batch_shown_whole_or_not hwf (by unfold Engine.Numbered; decide) {} 0
    hmoves {} (by decide) (fun req hreq => by cases hreq) hbefore hafter
    (by decide) hrun hphase).2.2

end Sample

end Girder
