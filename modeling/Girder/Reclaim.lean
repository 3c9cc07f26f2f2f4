import Girder.Compaction
import Girder.Lib.Rotation
import Girder.Lib.Runs

/-!
# Reclaim — dropping dead rows of one sealed segment

`reclaimSealed` audits one sealed hot segment per call.  A row is dead when a newer segment holds a
full record of its key and none holds an increment of it, or when it is a tombstone over nothing:
no newer increment, and no older segment that may hold its key.  When at least half of the rows are
dead the segment is rewritten in its slot without them, or dropped.

Newer segments in the old format give no evidence, older ones count as holding every key of their
range.  `reclaimSealed_invisible` shows that, whatever is audited, point reads do not change and a
rewrite keeps at most half of the rows.

The candidate is the next sealed segment after the cursor, in id order and around, that metadata does
not rule out.  `reclaimPick_rotates` shows that over an unchanged manifest these picks take turns.
-/

namespace Girder

open Lib

variable {ν : Type}

/-- The format version in a segment file's header; a remote segment can be opened only while it is
in the pull cache. -/
def Segment.readHeader (s : Segment ν) : Except GirderError Nat :=
  if s.tier = .remote ∧ s.pulled = false then
    .error (.io "NotFound")
  else
    .ok s.version

/-! ## The audit -/

/-- What the audit knows about one row of the candidate. -/
structure AuditRow where
  key : String
  /-- Is the row a tombstone? -/
  tomb : Bool := false
  /-- Does a newer segment hold a full record of the key? -/
  shadowed : Bool := false
  /-- Does a newer segment hold an increment of the key? -/
  deltaOver : Bool := false
  /-- May an older segment hold the key? -/
  below : Bool := false

/-- Dead by a newer full record, or a tombstone over nothing. -/
def AuditRow.dead (row : AuditRow) : Bool :=
  (row.shadowed && !row.deltaOver) || (row.tomb && !row.deltaOver && !row.below)

section Audit

variable [Numeral ν]

/-- Do two key ranges meet? -/
def ZoneMap.rangesMeet (a b : ZoneMap ν) : Bool :=
  decide (a.minKey ≤ b.maxKey) && decide (b.minKey ≤ a.maxKey)

/-- Is row `j` of a newer segment an increment?  Its delta column is read only where the zone says
increments are possible. -/
def rowIsDelta (m : Segment ν) (j : Nat) : Bool :=
  m.zone.mayHave deltaLabel && m.rows[j]?.any Record.isDelta

/-- What one newer segment says about one row. -/
def auditNewerRow (m : Segment ν) (row : AuditRow) : AuditRow :=
  if row.shadowed && row.deltaOver then
    row
  else
    match m.findKey row.key with
    | none => row
    | some j =>
        if rowIsDelta m j then { row with deltaOver := true } else { row with shadowed := true }

/-- Evidence of the newer segments; those in the old format are skipped. -/
def auditNewer : List (Segment ν) → List AuditRow → Except GirderError (List AuditRow)
  | [], rows => .ok rows
  | m :: newer, rows => do
      let version ← m.readHeader
      if version ≠ 2 then auditNewer newer rows else auditNewer newer (rows.map (auditNewerRow m))

/-- Is the row a tombstone still in doubt whose key lies in the segment's range? -/
def needsBelow (m : Segment ν) (row : AuditRow) : Bool :=
  row.tomb && !row.below && m.zone.containsKey row.key

/-- What one older segment says about one row; in the old format its range counts. -/
def auditOlderRow (m : Segment ν) (version : Nat) (row : AuditRow) : AuditRow :=
  if needsBelow m row && (decide (version ≠ 2) || (m.findKey row.key).isSome) then
    { row with below := true }
  else
    row

/-- Evidence of the older segments, opened only when a row needs it. -/
def auditOlder : List (Segment ν) → List AuditRow → Except GirderError (List AuditRow)
  | [], rows => .ok rows
  | m :: older, rows =>
      if rows.any (needsBelow m) then do
        let version ← m.readHeader
        auditOlder older (rows.map (auditOlderRow m version))
      else
        auditOlder older rows

/-- The rows of the candidate before any evidence. -/
def auditStart (cand : Segment ν) : List AuditRow :=
  cand.rows.map (fun r =>
    { key := r.key, tomb := cand.zone.mayHave tombstoneLabel && r.isTombstone })

/-- The whole audit of a candidate. -/
def audit (cand : Segment ν) (newer older : List (Segment ν)) :
    Except GirderError (List AuditRow) := do
  let rows ← auditNewer newer (auditStart cand)
  if rows.any AuditRow.tomb then auditOlder older rows else pure rows

end Audit

/-! ## The pass -/

namespace Engine

variable [Numeral ν]

/-- Hot and at either output cap. -/
def isSealed (config : Config) (m : Segment ν) : Bool :=
  decide (m.tier = .hot) &&
    (decide (config.cap ≤ m.zone.count) || decide (config.byteSeal ≤ m.bytes))

/-- Newer segments whose key range meets the candidate's. -/
def newerEvidence (e : Engine ν) (pick : Segment ν) : List (Segment ν) :=
  (e.manifest.segments.filter (fun m => decide (pick.id < m.id))).filter
    (fun m => m.zone.rangesMeet pick.zone)

/-- Older segments whose key range meets the candidate's; none when its zone rules tombstones
out. -/
def olderEvidence (e : Engine ν) (pick : Segment ν) : List (Segment ν) :=
  if pick.zone.mayHave tombstoneLabel then
    (e.manifest.segments.filter (fun m => decide (m.id < pick.id))).filter
      (fun m => m.zone.rangesMeet pick.zone)
  else
    []

/-- The sealed segments in rotation order: ids above the cursor first, then wrap. -/
def rotation (e : Engine ν) : List (Segment ν) :=
  let sealed := sortAsc Segment.id (e.manifest.segments.filter (isSealed e.config))
  sealed.filter (fun m => decide (e.reclaimCursor < m.id)) ++
    sealed.filter (fun m => !decide (e.reclaimCursor < m.id))

/-- The first candidate that metadata alone does not rule out. -/
def reclaimPick (e : Engine ν) : Option (Segment ν) :=
  e.rotation.find? (fun pick =>
    !((e.newerEvidence pick).isEmpty && !pick.zone.mayHave tombstoneLabel))

variable [SegmentFile ν]

/-- Audit a candidate and rewrite it when at least half of its rows are dead. -/
def reclaimCandidate (e : Engine ν) (cand : Segment ν) (newer older : List (Segment ν)) :
    Except GirderError (Engine ν × Bool) := do
  let version ← cand.readHeader
  if version ≠ 2 then
    pure (e, false)
  else if cand.rows.length = 0 then
    pure (e, false)
  else
    let rows ← audit cand newer older
    if rows.countP AuditRow.dead * 2 < rows.length then
      pure (e, false)
    else
      let deadKeys := (rows.filter AuditRow.dead).map AuditRow.key
      let records ← cand.readAllRecords
      let survivors := records.filter (fun r => !deadKeys.contains r.key)
      if survivors.isEmpty then
        pure (e.dropSegment cand.id, true)
      else
        pure (e.replaceSegment cand survivors, true)

/-- One reclamation pass; the cursor moves on whatever the audit finds. -/
def reclaimSealed (e : Engine ν) : Engine ν × Except GirderError Bool :=
  match e.reclaimPick with
  | none => (e, .ok false)
  | some cand =>
      let e' := { e with reclaimCursor := cand.id }
      match e'.reclaimCandidate cand (e.newerEvidence cand) (e.olderEvidence cand) with
      | .ok (e'', done) => (e'', .ok done)
      | .error err => (e', .error err)

/-! ## What a pass can do -/

/-- The rows that an audit leaves. -/
def survivors (rows : List AuditRow) (records : List (Record ν)) : List (Record ν) :=
  records.filter (fun r => !((rows.filter AuditRow.dead).map AuditRow.key).contains r.key)

/-- A candidate stays as it is, or, when at least half of its rows are dead, its slot loses them. -/
theorem reclaimCandidate_cases {e e' : Engine ν} {cand : Segment ν} {newer older : List (Segment ν)}
    {done : Bool} (h : e.reclaimCandidate cand newer older = .ok (e', done)) :
    e' = e ∨ ∃ rows records, audit cand newer older = .ok rows ∧
      cand.readAllRecords = .ok records ∧ rows.length ≤ rows.countP AuditRow.dead * 2 ∧
        (survivors rows records = [] ∧ e' = e.dropSegment cand.id ∨
          e' = e.replaceSegment cand (survivors rows records)) := by
  obtain ⟨version, -, h⟩ := exists_of_bind_eq_ok h
  split at h
  · exact Or.inl (Prod.mk.inj (Except.ok.inj h)).1.symm
  split at h
  · exact Or.inl (Prod.mk.inj (Except.ok.inj h)).1.symm
  obtain ⟨rows, hrows, h⟩ := exists_of_bind_eq_ok h
  split at h
  · exact Or.inl (Prod.mk.inj (Except.ok.inj h)).1.symm
  rename_i hratio
  obtain ⟨records, hrecords, h⟩ := exists_of_bind_eq_ok h
  refine Or.inr ⟨rows, records, hrows, hrecords, not_lt.1 hratio, ?_⟩
  simp only at h
  split at h
  · rename_i hempty
    exact Or.inl ⟨List.isEmpty_iff.1 hempty, (Prod.mk.inj (Except.ok.inj h)).1.symm⟩
  · exact Or.inr (Prod.mk.inj (Except.ok.inj h)).1.symm

omit [SegmentFile ν] in
theorem mem_rotation {e : Engine ν} {m : Segment ν} :
    m ∈ e.rotation ↔ m ∈ e.manifest.segments ∧ isSealed e.config m = true := by
  have hperm := rotateAbove_perm Segment.id e.reclaimCursor
    (sortAsc Segment.id (e.manifest.segments.filter (isSealed e.config)))
  exact hperm.mem_iff.trans ((mem_sortAsc Segment.id).trans List.mem_filter)

omit [SegmentFile ν] in
theorem sealed_of_reclaimPick {e : Engine ν} {cand : Segment ν} (h : e.reclaimPick = some cand) :
    cand ∈ e.manifest.segments ∧ isSealed e.config cand = true :=
  mem_rotation.1 (List.mem_of_find?_eq_some h)

end Engine

/-! ## What the audit of one row means -/

section AuditSpec

variable [Numeral ν]

omit [Numeral ν] in
theorem readHeader_eq_ok {s : Segment ν} {version : Nat} (h : s.readHeader = .ok version) :
    version = s.version := by
  unfold Segment.readHeader at h
  split at h
  · cases h
  · exact (Except.ok.inj h).symm

/-- One row through all newer segments. -/
def newerRow (newer : List (Segment ν)) (row : AuditRow) : AuditRow :=
  newer.foldl (fun row m => if m.version ≠ 2 then row else auditNewerRow m row) row

/-- One row through all older segments. -/
def olderRow (older : List (Segment ν)) (row : AuditRow) : AuditRow :=
  older.foldl (fun row m => auditOlderRow m m.version row) row

theorem auditNewer_eq_ok :
    ∀ {newer : List (Segment ν)} {rows rows' : List AuditRow},
      auditNewer newer rows = .ok rows' → rows' = rows.map (newerRow newer) := by
  intro newer
  induction newer with
  | nil =>
      intro rows rows' h
      rw [← Except.ok.inj h]
      exact (List.map_id rows).symm
  | cons m newer ih =>
      intro rows rows' h
      obtain ⟨version, hversion, h⟩ := exists_of_bind_eq_ok h
      rw [readHeader_eq_ok hversion] at h
      split at h
      · rename_i hv
        rw [ih h]
        refine List.map_congr_left (fun row _ => ?_)
        simp only [newerRow, List.foldl_cons, if_pos hv]
      · rename_i hv
        rw [ih h, List.map_map]
        refine List.map_congr_left (fun row _ => ?_)
        simp only [newerRow, List.foldl_cons, if_neg hv, Function.comp_apply]

theorem auditOlderRow_of_not_needs {m : Segment ν} {row : AuditRow}
    (h : needsBelow m row = false) (version : Nat) : auditOlderRow m version row = row := by
  simp [auditOlderRow, h]

theorem auditOlder_eq_ok :
    ∀ {older : List (Segment ν)} {rows rows' : List AuditRow},
      auditOlder older rows = .ok rows' → rows' = rows.map (olderRow older) := by
  intro older
  induction older with
  | nil =>
      intro rows rows' h
      rw [← Except.ok.inj h]
      exact (List.map_id rows).symm
  | cons m older ih =>
      intro rows rows' h
      unfold auditOlder at h
      split at h
      · obtain ⟨version, hversion, h⟩ := exists_of_bind_eq_ok h
        rw [readHeader_eq_ok hversion] at h
        rw [ih h, List.map_map]
        rfl
      · -- No row needs this segment, so it changes none.
        rename_i hnone
        rw [ih h]
        refine List.map_congr_left (fun row hrow => ?_)
        have hneeds : needsBelow m row = false := by
          by_contra hneeds
          exact hnone (List.any_eq_true.2 ⟨row, hrow, by simpa using hneeds⟩)
        simp only [olderRow, List.foldl_cons, auditOlderRow_of_not_needs hneeds]

/-- What the newer evidence does not touch. -/
def AuditRow.fixedByNewer (row : AuditRow) : String × Bool × Bool := (row.key, row.tomb, row.below)

/-- What the older evidence does not touch. -/
def AuditRow.fixedByOlder (row : AuditRow) : String × Bool × Bool × Bool :=
  (row.key, row.tomb, row.shadowed, row.deltaOver)

theorem auditNewerRow_fixed (m : Segment ν) (row : AuditRow) :
    (auditNewerRow m row).fixedByNewer = row.fixedByNewer := by
  unfold auditNewerRow
  split
  · rfl
  · split
    · rfl
    · split <;> rfl

theorem newerRow_fixed (newer : List (Segment ν)) (row : AuditRow) :
    (newerRow newer row).fixedByNewer = row.fixedByNewer := by
  refine foldl_keeps AuditRow.fixedByNewer (fun row m => ?_) newer row
  split
  · rfl
  · exact auditNewerRow_fixed m row

theorem auditOlderRow_fixed (m : Segment ν) (version : Nat) (row : AuditRow) :
    (auditOlderRow m version row).fixedByOlder = row.fixedByOlder := by
  unfold auditOlderRow
  split <;> rfl

theorem olderRow_fixed (older : List (Segment ν)) (row : AuditRow) :
    (olderRow older row).fixedByOlder = row.fixedByOlder :=
  foldl_keeps AuditRow.fixedByOlder (fun row m => auditOlderRow_fixed m m.version row) older row

/-- The candidate's rows, audited one by one. -/
def auditRow (cand : Segment ν) (newer older : List (Segment ν)) (r : Record ν) : AuditRow :=
  olderRow older (newerRow newer
    { key := r.key, tomb := cand.zone.mayHave tombstoneLabel && r.isTombstone })

theorem olderRow_of_not_tomb {row : AuditRow} (h : row.tomb = false) (older : List (Segment ν)) :
    olderRow older row = row := by
  induction older with
  | nil => rfl
  | cons m older ih =>
      have hneeds : needsBelow m row = false := by simp [needsBelow, h]
      simpa only [olderRow, List.foldl_cons, auditOlderRow_of_not_needs hneeds] using ih

theorem audit_eq_ok {cand : Segment ν} {newer older : List (Segment ν)} {rows : List AuditRow}
    (h : audit cand newer older = .ok rows) : rows = cand.rows.map (auditRow cand newer older) := by
  obtain ⟨seen, hseen, h⟩ := exists_of_bind_eq_ok h
  have hrows := auditNewer_eq_ok hseen
  split at h
  · rw [auditOlder_eq_ok h, hrows, auditStart, List.map_map, List.map_map]
    rfl
  · -- Without a tombstone the older segments are not consulted.
    rename_i hnone
    obtain rfl : seen = rows := Except.ok.inj h
    have hsame : seen = seen.map (olderRow older) := by
      refine (List.map_id seen).symm.trans (List.map_congr_left (fun row hrow => ?_))
      refine (olderRow_of_not_tomb ?_ older).symm
      by_contra htomb
      exact hnone (List.any_eq_true.2 ⟨row, hrow, by simpa using htomb⟩)
    rw [hsame, hrows, auditStart, List.map_map, List.map_map]
    rfl

theorem auditRow_key (cand : Segment ν) (newer older : List (Segment ν)) (r : Record ν) :
    (auditRow cand newer older r).key = r.key := by
  have holder := congrArg Prod.fst (olderRow_fixed older (newerRow newer
    { key := r.key, tomb := cand.zone.mayHave tombstoneLabel && r.isTombstone }))
  have hnewer := congrArg Prod.fst (newerRow_fixed newer
    { key := r.key, tomb := cand.zone.mayHave tombstoneLabel && r.isTombstone })
  exact holder.trans hnewer

variable [LawfulNumeral ν]

/-- One newer segment marks a row shadowed only when it holds a full record of the key. -/
theorem full_of_shadowed_step {m : Segment ν} (hm : m.Sorted) {row : AuditRow}
    (h : (auditNewerRow m row).shadowed = true) :
    row.shadowed = true ∨ ∃ v, rowOf m.rows row.key = some v ∧ v.isDelta = false := by
  unfold auditNewerRow at h
  split at h
  · exact Or.inl h
  · cases hfind : m.findKey row.key with
    | none =>
        rw [hfind] at h
        exact Or.inl h
    | some j =>
        rw [hfind] at h
        have hsome := Segment.findKey_isSome hm row.key
        rw [hfind] at hsome
        obtain ⟨v, hv⟩ := Option.isSome_iff_exists.1 hsome.symm
        have hrow : m.rows[j]? = some v := by
          have hlookup := Segment.lookup_eq_rowOf hm row.key
          simpa [Segment.lookup, hfind, hv] using hlookup
        by_cases hdelta : rowIsDelta m j = true
        · exact Or.inl (by simpa [hdelta] using h)
        · refine Or.inr ⟨v, hv, ?_⟩
          by_contra hvd
          have hvd' : v.isDelta = true := by simpa using hvd
          have hzone : m.zone.mayHave deltaLabel = true :=
            (Segment.zone_covers (rowOf_eq_some hv).1).mayHave
              (by simpa [Record.isDelta] using hvd')
          exact hdelta (by simp [rowIsDelta, hzone, hrow, hvd'])

/-- A row shadowed by the evidence has a full record of its key above it. -/
theorem exists_full_of_shadowed {key : String} :
    ∀ {newer : List (Segment ν)} {row : AuditRow}, (∀ m ∈ newer, m.Sorted) → row.key = key →
      (newerRow newer row).shadowed = true → row.shadowed = true ∨
        ∃ m ∈ newer, ∃ v, rowOf m.rows key = some v ∧ v.isDelta = false := by
  intro newer
  induction newer with
  | nil => exact fun _ _ h => Or.inl h
  | cons m newer ih =>
      intro row hsorted hkey h
      have hrest : ∀ m' ∈ newer, m'.Sorted := fun m' hm' => hsorted m' (by simp [hm'])
      by_cases hv : m.version ≠ 2
      · simp only [newerRow, List.foldl_cons, if_pos hv] at h
        rcases ih hrest hkey h with hstart | ⟨m', hm', hfull⟩
        · exact Or.inl hstart
        · exact Or.inr ⟨m', by simp [hm'], hfull⟩
      · simp only [newerRow, List.foldl_cons, if_neg hv] at h
        have hkey' : (auditNewerRow m row).key = key :=
          (congrArg Prod.fst (auditNewerRow_fixed m row)).trans hkey
        rcases ih hrest hkey' h with hstep | ⟨m', hm', hfull⟩
        · rcases full_of_shadowed_step (hsorted m (by simp)) hstep with hstart | hfull
          · exact Or.inl hstart
          · exact Or.inr ⟨m, by simp, hkey ▸ hfull⟩
        · exact Or.inr ⟨m', by simp [hm'], hfull⟩

/-- One older segment leaves a tombstone uncovered only when it does not hold the key. -/
theorem none_of_not_below_step {m : Segment ν} (hm : m.Sorted) {version : Nat} {row : AuditRow}
    (htomb : row.tomb = true) (h : (auditOlderRow m version row).below = false) :
    row.below = false ∧ rowOf m.rows row.key = none := by
  have hbelow : row.below = false := by
    by_contra hbelow
    have hneeds : needsBelow m row = false := by simp [needsBelow, hbelow]
    rw [auditOlderRow_of_not_needs hneeds] at h
    exact hbelow h
  refine ⟨hbelow, ?_⟩
  by_contra hrow
  obtain ⟨r, hr⟩ := Option.ne_none_iff_exists'.1 hrow
  have hneeds : needsBelow m row = true := by
    simp [needsBelow, htomb, hbelow, Segment.zone_containsKey hr]
  have hfind : (m.findKey row.key).isSome = true := by
    rw [Segment.findKey_isSome hm, hr]
    rfl
  simp [auditOlderRow, hneeds, hfind] at h

/-- A tombstone the older evidence leaves uncovered has nothing below it. -/
theorem rowOf_eq_none_of_not_below {key : String} :
    ∀ {older : List (Segment ν)} {row : AuditRow}, (∀ m ∈ older, m.Sorted) → row.key = key →
      row.tomb = true → (olderRow older row).below = false →
      row.below = false ∧ ∀ m ∈ older, rowOf m.rows key = none := by
  intro older
  induction older with
  | nil => exact fun _ _ _ h => ⟨h, by simp⟩
  | cons m older ih =>
      intro row hsorted hkey htomb h
      have hfixed := auditOlderRow_fixed m m.version row
      have hkey' : (auditOlderRow m m.version row).key = key :=
        (congrArg Prod.fst hfixed).trans hkey
      have htomb' : (auditOlderRow m m.version row).tomb = true :=
        (congrArg (fun x => x.2.1) hfixed).trans htomb
      obtain ⟨hstep, hrest⟩ := ih (fun m' hm' => hsorted m' (by simp [hm'])) hkey' htomb' h
      obtain ⟨hbelow, hnone⟩ := none_of_not_below_step (hsorted m (by simp)) htomb hstep
      refine ⟨hbelow, fun m' hm' => ?_⟩
      rcases List.mem_cons.1 hm' with rfl | hm'
      · exact hkey ▸ hnone
      · exact hrest m' hm'

end AuditSpec

/-! ## Dead rows do not show -/

namespace Engine

section Dead

variable [Numeral ν]

/-- A row beneath a full version is never read. -/
theorem readVersions_drop_of_full {above : List (Record ν)} {v : Record ν} (hv : v ∈ above)
    (hfull : v.isDelta = false) (r : Record ν) (below : List (Record ν)) :
    readVersions (above ++ below) = readVersions (above ++ r :: below) := by
  have hcut := Layering.foldNewest_cut_below_full (L := recordLayers ν) mergeDelta_fullBase hv hfull
    below (r :: below)
  rw [readVersions, readVersions, Layering.readNewest, Layering.readNewest, hcut]

/-- A tombstone over nothing only says what its absence says: it reads as absent, and increments
above it start from zero either way. -/
theorem readVersions_drop_tombstone {r : Record ν} (hr : r.isTombstone = true)
    (above : List (Record ν)) : readVersions (above ++ [r]) = readVersions above := by
  have hsurface : r.surface = none := by simp [Record.surface_eq, hr]
  unfold readVersions Layering.readNewest
  rw [Layering.foldNewest_append]
  rcases (recordLayers ν).foldNewest above with _ | ⟨p⟩ | ⟨v⟩
  · simp [Layering.feed, Layering.settle_value, hsurface]
  · have hmerge : (recordLayers ν).merge r p = p.clearDelta := mergeDelta_tombstone hr p
    have hsame : p.clearDelta.surface = p.surface := by simp [Record.surface_eq]
    simp only [List.foldl_cons, List.foldl_nil, Layering.feed, hmerge, Option.map_some,
      Layering.settle_value, Option.bind_some, hsame]
    rfl
  · rfl

variable [Unicode] [LawfulNumeral ν]

omit [Unicode] in
theorem rangesMeet_of_common_key {a b : Segment ν} {key : String} {r v : Record ν}
    (ha : rowOf a.rows key = some r) (hb : rowOf b.rows key = some v) :
    a.zone.rangesMeet b.zone = true := by
  obtain ⟨hr, rfl⟩ := rowOf_eq_some ha
  obtain ⟨hv, hkey⟩ := rowOf_eq_some hb
  have hca := Segment.zone_covers hr
  have hcb := Segment.zone_covers hv
  rw [ZoneMap.rangesMeet, Bool.and_eq_true, decide_eq_true_eq, decide_eq_true_eq]
  constructor
  · exact hca.minKey_le.trans (hkey ▸ hcb.le_maxKey)
  · exact (hkey ▸ hcb.minKey_le).trans hca.le_maxKey

/-- What it takes for a row of the candidate to be judged dead. -/
theorem cases_of_dead {e : Engine ν} (hwf : e.WF) {cand : Segment ν} {key : String} {r : Record ν}
    (hr : rowOf cand.rows key = some r)
    (hdead : (auditRow cand (e.newerEvidence cand) (e.olderEvidence cand) r).dead = true) :
    (∃ v ∈ e.aboveSlot cand.id key, v.isDelta = false) ∨
      (r.isTombstone = true ∧ e.belowSlot cand.id key = []) := by
  have hkey : r.key = key := (rowOf_eq_some hr).2
  have hfixed := olderRow_fixed (e.olderEvidence cand) (newerRow (e.newerEvidence cand)
    { key := r.key, tomb := cand.zone.mayHave tombstoneLabel && r.isTombstone })
  have hnewer := newerRow_fixed (e.newerEvidence cand)
    { key := r.key, tomb := cand.zone.mayHave tombstoneLabel && r.isTombstone }
  unfold AuditRow.dead at hdead
  rw [Bool.or_eq_true, Bool.and_eq_true, Bool.and_eq_true, Bool.and_eq_true] at hdead
  rcases hdead with ⟨hshadowed, -⟩ | ⟨⟨htomb, -⟩, hbelow⟩
  · -- Shadowed: the evidence is a newer segment with a full record.
    left
    have hshadowed' := (congrArg (fun x => x.2.2.1) hfixed).symm.trans hshadowed
    have hsorted : ∀ m ∈ e.newerEvidence cand, m.Sorted := fun m hm =>
      hwf.sorted (List.mem_of_mem_filter (List.mem_of_mem_filter hm))
    rcases exists_full_of_shadowed hsorted hkey hshadowed' with hstart | ⟨m, hm, v, hv, hfull⟩
    · cases hstart
    · obtain ⟨hm, hlt⟩ := List.mem_filter.1 (List.mem_of_mem_filter hm)
      have hlt' : cand.id < m.id := of_decide_eq_true hlt
      refine ⟨v, List.mem_append_right _ (mem_segVersions.2 ⟨m, ?_, hv⟩), hfull⟩
      exact List.mem_filter.2 ⟨mem_others.2 ⟨hm, by omega⟩, hlt⟩
  · -- A tombstone that nothing below may need.
    right
    have htomb' := (congrArg (fun x => x.2.1) hfixed).symm.trans htomb
    have hstart : (cand.zone.mayHave tombstoneLabel && r.isTombstone) = true :=
      (congrArg (fun x => x.2.1) hnewer).symm.trans htomb'
    have hmay : cand.zone.mayHave tombstoneLabel = true ∧ r.isTombstone = true := by
      simpa using hstart
    have hsorted : ∀ m ∈ e.olderEvidence cand, m.Sorted := by
      intro m hm
      rw [olderEvidence, if_pos hmay.1] at hm
      exact hwf.sorted (List.mem_of_mem_filter (List.mem_of_mem_filter hm))
    have hkey' := (congrArg Prod.fst hnewer).trans hkey
    have hbelow' :
        (auditRow cand (e.newerEvidence cand) (e.olderEvidence cand) r).below = false := by
      simpa using hbelow
    obtain ⟨-, hnone⟩ := rowOf_eq_none_of_not_below hsorted hkey' htomb' hbelow'
    refine ⟨hmay.2, List.eq_nil_iff_forall_not_mem.2 (fun v hv => ?_)⟩
    obtain ⟨m, hm, hrow⟩ := mem_segVersions.1 hv
    obtain ⟨hm, hlt⟩ := List.mem_filter.1 hm
    have hevidence : m ∈ e.olderEvidence cand := by
      rw [olderEvidence, if_pos hmay.1]
      exact List.mem_filter.2 ⟨List.mem_filter.2 ⟨(mem_others.1 hm).1, hlt⟩,
        rangesMeet_of_common_key hrow hr⟩
    simp [hnone m hevidence] at hrow

/-- Taking a dead row out of its slot leaves the read of its key alone. -/
theorem readVersions_of_dead {e : Engine ν} (hwf : e.WF) {cand : Segment ν} {key : String}
    {r : Record ν} (hr : rowOf cand.rows key = some r)
    (hdead : (auditRow cand (e.newerEvidence cand) (e.olderEvidence cand) r).dead = true) :
    readVersions (e.aboveSlot cand.id key ++ e.belowSlot cand.id key) =
      readVersions (e.aboveSlot cand.id key ++ r :: e.belowSlot cand.id key) := by
  rcases cases_of_dead hwf hr hdead with ⟨v, hv, hfull⟩ | ⟨htomb, hbelow⟩
  · exact readVersions_drop_of_full hv hfull r _
  · rw [hbelow, List.append_nil, readVersions_drop_tombstone htomb]

end Dead

/-! ## The pass is invisible -/

section Pass

variable [Unicode] [Numeral ν] [LawfulNumeral ν] [SegmentFile ν]

/-- Is the key of a row among the keys of the dead rows? -/
def reclaimable (e : Engine ν) (cand : Segment ν) (r : Record ν) : Bool :=
  (auditRow cand (e.newerEvidence cand) (e.olderEvidence cand) r).dead

omit [Unicode] [LawfulNumeral ν] [SegmentFile ν] in
/-- The dead set is keyed; with distinct keys that is the same as row by row. -/
theorem deadKeys_contains {e : Engine ν} {cand : Segment ν} (hs : cand.Sorted) {r : Record ν}
    (hr : r ∈ cand.rows) :
    (((cand.rows.map (auditRow cand (e.newerEvidence cand) (e.olderEvidence cand))).filter
      AuditRow.dead).map AuditRow.key).contains r.key = e.reclaimable cand r := by
  rw [Bool.eq_iff_iff, List.contains_iff_mem]
  constructor
  · intro hmem
    obtain ⟨row, hrow, hkey⟩ := List.mem_map.1 hmem
    obtain ⟨hrow, hdead⟩ := List.mem_filter.1 hrow
    obtain ⟨r', hr', rfl⟩ := List.mem_map.1 hrow
    rw [auditRow_key] at hkey
    rw [← key_inj_of_sorted hs hr' hr hkey]
    exact hdead
  · intro hdead
    refine List.mem_map.2 ⟨_, List.mem_filter.2 ⟨List.mem_map_of_mem hr, hdead⟩, ?_⟩
    exact auditRow_key _ _ _ r

/-- What a pass leaves: the store itself, or the candidate's slot without its dead rows. -/
inductive Reclaimed (e : Engine ν) : Engine ν → Prop
  | skipped (cursor : Nat) : Reclaimed e { e with reclaimCursor := cursor }
  | dropped (cursor : Nat) {cand : Segment ν} (hcand : cand ∈ e.manifest.segments)
      (hall : cand.rows.filter (fun r => !e.reclaimable cand r) = []) :
      Reclaimed e (dropSegment { e with reclaimCursor := cursor } cand.id)
  | rewritten (cursor : Nat) {cand : Segment ν} (hcand : cand ∈ e.manifest.segments)
      (hhalf : cand.rows.length ≤ cand.rows.countP (e.reclaimable cand) * 2) :
      Reclaimed e (replaceSegment { e with reclaimCursor := cursor } cand
        (cand.rows.filter (fun r => !e.reclaimable cand r)))

omit [LawfulNumeral ν] in
theorem reclaimed_of_candidate {e e' : Engine ν} (hwf : e.WF) {cand : Segment ν}
    (hcand : cand ∈ e.manifest.segments) {done : Bool}
    (h : reclaimCandidate { e with reclaimCursor := cand.id } cand (e.newerEvidence cand)
      (e.olderEvidence cand) = .ok (e', done)) : Reclaimed e e' := by
  rcases reclaimCandidate_cases h with rfl | ⟨rows, records, hrows, hrecords, hhalf, hrest⟩
  · exact .skipped cand.id
  have hrows := audit_eq_ok hrows
  have hsurvivors : survivors rows records =
      cand.rows.filter (fun r => !e.reclaimable cand r) := by
    rw [survivors, Segment.readAllRecords_eq_ok hrecords, hrows]
    refine List.filter_congr (fun r hr => ?_)
    rw [deadKeys_contains (hwf.sorted hcand) hr]
  rw [hsurvivors] at hrest
  rcases hrest with ⟨hall, rfl⟩ | rfl
  · exact .dropped cand.id hcand hall
  · refine .rewritten cand.id hcand ?_
    have hcount : rows.countP AuditRow.dead = cand.rows.countP (e.reclaimable cand) := by
      rw [hrows, List.countP_map]
      rfl
    have hlen : rows.length = cand.rows.length := by rw [hrows, List.length_map]
    omega

omit [LawfulNumeral ν] in
/-- Every outcome of a pass is one of the three. -/
theorem reclaimSealed_cases {e : Engine ν} (hwf : e.WF) : Reclaimed e e.reclaimSealed.1 := by
  unfold reclaimSealed
  cases hpick : e.reclaimPick with
  | none => exact .skipped e.reclaimCursor
  | some cand =>
      simp only
      cases hcand : reclaimCandidate { e with reclaimCursor := cand.id } cand
          (e.newerEvidence cand) (e.olderEvidence cand) with
      | error err => exact .skipped cand.id
      | ok outcome => exact reclaimed_of_candidate hwf (sealed_of_reclaimPick hpick).1 hcand

omit [SegmentFile ν] in
/-- The versions of a key without the candidate's dead row read as before. -/
theorem readVersions_survivors {e : Engine ν} (hwf : e.WF) {cand : Segment ν}
    (hcand : cand ∈ e.manifest.segments) (key : String) :
    readVersions (e.aboveSlot cand.id key ++
        ((rowOf (cand.rows.filter (fun r => !e.reclaimable cand r)) key).toList ++
          e.belowSlot cand.id key)) =
      e.valueOf key := by
  rw [valueOf, versions_eq_slot hwf.ids_nodup hcand, rowOf_filter (hwf.sorted hcand)]
  cases hr : rowOf cand.rows key with
  | none => rfl
  | some r =>
      cases hdead : e.reclaimable cand r with
      | false => simp [Option.filter, hdead]
      | true => simpa [Option.filter, hdead] using readVersions_of_dead hwf hr hdead

theorem valueOf_reclaimed {e e' : Engine ν} (hwf : e.WF) (h : Reclaimed e e') :
    e'.WF ∧ ∀ key, e'.valueOf key = e.valueOf key := by
  cases h with
  | skipped cursor =>
      exact ⟨⟨hwf.memtable_consistent, hwf.frozen_consistent, hwf.ids_nodup, hwf.sorted⟩,
        fun _ => rfl⟩
  | @dropped cursor cand hcand hall =>
      have hwf' : ({ e with reclaimCursor := cursor } : Engine ν).WF :=
        ⟨hwf.memtable_consistent, hwf.frozen_consistent, hwf.ids_nodup, hwf.sorted⟩
      refine ⟨dropSegment_wf hwf' cand.id, fun key => ?_⟩
      have hread := readVersions_survivors hwf hcand key
      rw [hall] at hread
      rw [valueOf, versions_dropSegment hwf'.ids_nodup]
      exact hread
  | @rewritten cursor cand hcand hhalf =>
      have hwf' : ({ e with reclaimCursor := cursor } : Engine ν).WF :=
        ⟨hwf.memtable_consistent, hwf.frozen_consistent, hwf.ids_nodup, hwf.sorted⟩
      refine ⟨replaceSegment_wf hwf' cand ((hwf.sorted hcand).filter _), fun key => ?_⟩
      rw [valueOf, versions_replaceSegment hwf'.ids_nodup]
      exact readVersions_survivors hwf hcand key

/-- Reclamation is invisible to point reads, and a rewrite keeps at most half of the rows. -/
theorem reclaimSealed_invisible {e : Engine ν} (hwf : e.WF) :
    (∀ key, e.reclaimSealed.1.getOnce key = e.getOnce key) ∧
      ∀ s ∈ e.reclaimSealed.1.manifest.segments, s ∉ e.manifest.segments →
        ∃ cand ∈ e.manifest.segments, s.id = cand.id ∧ s.rows.length * 2 ≤ cand.rows.length := by
  have hcases := reclaimSealed_cases hwf
  obtain ⟨hwf', hvalue⟩ := valueOf_reclaimed hwf hcases
  refine ⟨fun key => ?_, ?_⟩
  · rw [getOnce_eq hwf', getOnce_eq hwf, hvalue]
  · generalize e.reclaimSealed.1 = e' at hcases
    intro s hs hnew
    cases hcases with
    | skipped cursor => exact absurd hs hnew
    | dropped cursor hcand hall => exact absurd (mem_others.1 hs).1 hnew
    | @rewritten cursor cand hcand hhalf =>
        rcases List.mem_append.1 hs with hs | hs
        · exact absurd (mem_others.1 hs).1 hnew
        · rw [List.mem_singleton.1 hs]
          refine ⟨cand, hcand, rfl, ?_⟩
          have hsplit := List.length_eq_countP_add_countP (e.reclaimable cand) (l := cand.rows)
          have hlen : (cand.rows.filter (fun r => !e.reclaimable cand r)).length =
              cand.rows.countP (fun r => !e.reclaimable cand r) :=
            List.countP_eq_length_filter.symm
          show (cand.rows.filter (fun r => !e.reclaimable cand r)).length * 2 ≤ cand.rows.length
          simp only [Bool.not_eq_true, Bool.decide_eq_false] at hsplit
          omega

end Pass

/-! ## The rotation is fair

A pass leaves its cursor at the segment it picked, whatever the audit finds, so over a manifest that
does not change the picks take turns. -/

section Turns

variable [Numeral ν]

/-- Is there anything to audit: a newer segment over its range, or tombstones it may hold? -/
def hasEvidence (e : Engine ν) (m : Segment ν) : Bool :=
  e.manifest.segments.any (fun newer => decide (m.id < newer.id) && newer.zone.rangesMeet m.zone) ||
    m.zone.mayHave tombstoneLabel

/-- The sealed segments worth an audit. -/
def auditable (e : Engine ν) : List (Segment ν) :=
  e.manifest.segments.filter (fun m => isSealed e.config m && e.hasEvidence m)

/-- What metadata alone does not rule out is what has evidence. -/
theorem not_ruledOut_eq (e : Engine ν) (pick : Segment ν) :
    (!((e.newerEvidence pick).isEmpty && !pick.zone.mayHave tombstoneLabel)) =
      e.hasEvidence pick := by
  have hnewer : (e.newerEvidence pick).isEmpty = !e.manifest.segments.any
      (fun newer => decide (pick.id < newer.id) && newer.zone.rangesMeet pick.zone) := by
    rw [newerEvidence, List.filter_filter, Bool.eq_iff_iff]
    simp [List.filter_eq_nil_iff, and_comm]
  rw [hnewer, hasEvidence, Bool.not_and, Bool.not_not, Bool.not_not]

theorem mem_auditable_of_reclaimPick {e : Engine ν} {s : Segment ν} (h : e.reclaimPick = some s) :
    s ∈ e.auditable := by
  have hevidence := List.find?_some h
  rw [not_ruledOut_eq] at hevidence
  obtain ⟨hs, hsealed⟩ := sealed_of_reclaimPick h
  exact List.mem_filter.2 ⟨hs, by rw [hsealed, hevidence]; rfl⟩

/-- The auditable segments by id. -/
def turnOrder (e : Engine ν) : List (Segment ν) := sortAsc Segment.id e.auditable

theorem turnOrder_perm (e : Engine ν) : e.turnOrder.Perm e.auditable :=
  sortAsc_perm Segment.id e.auditable

theorem turnOrder_strict {e : Engine ν} (hids : (e.manifest.segments.map Segment.id).Nodup) :
    e.turnOrder.Pairwise (fun a b => a.id < b.id) :=
  sortAsc_pairwise_lt (nodup_map_filter hids _)

/-- The pick is the next turn among the auditable segments: those that are not cost nothing. -/
theorem reclaimPick_eq_head? {e : Engine ν} (hids : (e.manifest.segments.map Segment.id).Nodup) :
    e.reclaimPick = (rotateAbove Segment.id e.reclaimCursor e.turnOrder).head? := by
  have hsealed : (sortAsc Segment.id (e.manifest.segments.filter (isSealed e.config))).filter
      e.hasEvidence = e.turnOrder := by
    rw [← sortAsc_filter (nodup_map_filter hids _), List.filter_filter]
    simp only [turnOrder, auditable, Bool.and_comm]
  rw [← hsealed, ← find?_rotateAbove]
  exact congrArg e.rotation.find? (funext e.not_ruledOut_eq)

variable [SegmentFile ν]

/-- The next pass finds the manifest as it was and the cursor where the pass before left it. -/
structure NextPass (e e' : Engine ν) : Prop where
  config_eq : e'.config = e.config
  manifest_eq : e'.manifest = e.manifest
  cursor_eq : e'.reclaimCursor = e.reclaimSealed.1.reclaimCursor

/-- Audit and rewrite leave the configuration and the cursor alone. -/
theorem reclaimCandidate_keeps {e e' : Engine ν} {cand : Segment ν} {newer older : List (Segment ν)}
    {done : Bool} (h : e.reclaimCandidate cand newer older = .ok (e', done)) :
    e'.config = e.config ∧ e'.reclaimCursor = e.reclaimCursor := by
  rcases reclaimCandidate_cases h with rfl | ⟨rows, records, -, -, -, ⟨-, rfl⟩ | rfl⟩
  · exact ⟨rfl, rfl⟩
  · exact ⟨rfl, rfl⟩
  · exact ⟨rfl, rfl⟩

/-- A pass moves the cursor to its pick, and changes nothing else of what picks depend on but the
manifest. -/
theorem reclaimSealed_keeps (e : Engine ν) :
    e.reclaimSealed.1.config = e.config ∧
      e.reclaimSealed.1.reclaimCursor = (e.reclaimPick.map Segment.id).getD e.reclaimCursor := by
  unfold reclaimSealed
  cases hpick : e.reclaimPick with
  | none => exact ⟨rfl, rfl⟩
  | some cand =>
      simp only
      cases hcand : reclaimCandidate { e with reclaimCursor := cand.id } cand
          (e.newerEvidence cand) (e.olderEvidence cand) with
      | error err => exact ⟨rfl, rfl⟩
      | ok outcome => exact reclaimCandidate_keeps hcand

/-- A pass that rewrites nothing is followed by the next one over the same manifest. -/
theorem nextPass_reclaimSealed {e : Engine ν} (h : e.reclaimSealed.1.manifest = e.manifest) :
    NextPass e e.reclaimSealed.1 where
  config_eq := (reclaimSealed_keeps e).1
  manifest_eq := h
  cursor_eq := rfl

theorem NextPass.auditable_eq {e e' : Engine ν} (h : NextPass e e') :
    e'.auditable = e.auditable := by
  simp only [auditable, hasEvidence, h.config_eq, h.manifest_eq]

/-- A pass serves the next turn. -/
theorem NextPass.cursor_turns {e e' : Engine ν} (h : NextPass e e')
    (hids : (e.manifest.segments.map Segment.id).Nodup) :
    e'.reclaimCursor = nextCursor Segment.id e.turnOrder e.reclaimCursor := by
  rw [h.cursor_eq, (reclaimSealed_keeps e).2, reclaimPick_eq_head? hids, nextCursor]

/-- What is auditable does not change from pass to pass. -/
theorem passes_keep {run : Nat → Engine ν} {n : Nat}
    (hnext : ∀ i < n, NextPass (run i) (run (i + 1))) :
    ∀ i ≤ n, (run i).manifest = (run 0).manifest ∧ (run i).auditable = (run 0).auditable := by
  intro i
  induction i with
  | zero => exact fun _ => ⟨rfl, rfl⟩
  | succ i ih =>
      intro hi
      obtain ⟨hmanifest, hauditable⟩ := ih (by omega)
      exact ⟨(hnext i hi).manifest_eq.trans hmanifest, (hnext i hi).auditable_eq.trans hauditable⟩

/-- Whatever the cursor, as many passes in a row as there are auditable segments pick each of them
once, and no pass picks another. -/
theorem reclaimPick_rotates {run : Nat → Engine ν} {n : Nat}
    (hids : ((run 0).manifest.segments.map Segment.id).Nodup)
    (hnext : ∀ i < n, NextPass (run i) (run (i + 1))) :
    (∀ i ≤ n, ∀ s, (run i).reclaimPick = some s → s ∈ (run 0).auditable) ∧
      ∀ k, k + (run 0).auditable.length ≤ n + 1 →
        ((List.range' k (run 0).auditable.length).map (fun i => (run i).reclaimPick)).Perm
          ((run 0).auditable.map some) := by
  have hkeep := passes_keep hnext
  have hids' : ∀ i ≤ n, ((run i).manifest.segments.map Segment.id).Nodup := by
    intro i hi
    rw [(hkeep i hi).1]
    exact hids
  have horder : ∀ i ≤ n, (run i).turnOrder = (run 0).turnOrder := by
    intro i hi
    rw [turnOrder, (hkeep i hi).2, turnOrder]
  constructor
  · intro i hi s hs
    rw [← (hkeep i hi).2]
    exact mem_auditable_of_reclaimPick hs
  · -- The cursors of the window take turns over the one order of the auditable segments.
    intro k hk
    have hlen := (turnOrder_perm (run 0)).length_eq
    have hturn : ∀ i, i + 1 < (run 0).turnOrder.length → (run (k + (i + 1))).reclaimCursor =
        nextCursor Segment.id (run 0).turnOrder (run (k + i)).reclaimCursor := by
      intro i hi
      have hlt : k + i < n := by omega
      rw [← horder (k + i) hlt.le]
      exact (hnext (k + i) hlt).cursor_turns (hids' (k + i) hlt.le)
    have hpicks : (List.range' k (run 0).auditable.length).map (fun i => (run i).reclaimPick) =
        (List.range (run 0).turnOrder.length).map (fun i =>
          (rotateAbove Segment.id (run (k + i)).reclaimCursor (run 0).turnOrder).head?) := by
      rw [hlen, List.range'_eq_map_range, List.map_map]
      refine List.map_congr_left (fun i hi => ?_)
      have hle : k + i ≤ n := by
        have := List.mem_range.1 hi
        omega
      rw [Function.comp_apply, reclaimPick_eq_head? (hids' (k + i) hle), horder (k + i) hle]
    rw [hpicks]
    exact (turns_perm (turnOrder_strict hids) hturn).trans ((turnOrder_perm (run 0)).map some)

end Turns

end Engine

section Sample

local instance instReclaimUnicode : Unicode := asciiUnicode

local instance instReclaimFile : SegmentFile Int := footprintFile Int

/-- A sealed segment with one overwritten row. -/
def sealedStore : Engine Int where
  config := { maxSegmentRecords := 2 }
  manifest :=
    { nextSegmentId := 2
      segments :=
        [Segment.ofRows 0 [Record.bare "a" 1, Record.bare "b" 1],
          Segment.ofRows 1 [Record.bare "a" 2]] }

theorem reclaimSealed_sealedStore :
    (sealedStore.reclaimSealed.1.manifest.segments.map (fun s => s.rows.length) = [1, 1]) ∧
      ∀ key, sealedStore.reclaimSealed.1.getOnce key = sealedStore.getOnce key :=
  ⟨by decide, (Engine.reclaimSealed_invisible
    (Engine.wf_of_segments rfl rfl (by decide) (by decide) : sealedStore.WF)).1⟩

/-- Two sealed segments beneath newer rows of other keys, and a third with nothing over it. -/
def interleavedStore : Engine Int where
  config := { maxSegmentRecords := 2 }
  reclaimCursor := 1
  manifest :=
    { nextSegmentId := 4
      segments :=
        [Segment.ofRows 0 [Record.bare "a" 1, Record.bare "c" 1],
          Segment.ofRows 1 [Record.bare "p" 1, Record.bare "q" 1],
          Segment.ofRows 2 [Record.bare "b" 1, Record.bare "e" 1],
          Segment.ofRows 3 [Record.bare "d" 1]] }

/-- The passes over it, one after the other. -/
def interleavedPasses : Nat → Engine Int :=
  process (fun _ e => e.reclaimSealed.1) interleavedStore

theorem interleavedPasses_next : ∀ i < 2, Engine.NextPass (interleavedPasses i)
    (interleavedPasses (i + 1)) := by
  intro i hi
  refine Engine.nextPass_reclaimSealed ?_
  obtain rfl | rfl : i = 0 ∨ i = 1 := by omega
  · rfl
  · rfl

theorem reclaimPick_rotates_interleaved :
    (interleavedStore.auditable.map Segment.id = [0, 2]) ∧
      ((List.range' 1 interleavedStore.auditable.length).map
        (fun i => (interleavedPasses i).reclaimPick)).Perm (interleavedStore.auditable.map some) :=
  ⟨by decide, (Engine.reclaimPick_rotates (by decide) interleavedPasses_next).2 1 (by decide)⟩

end Sample

end Girder
