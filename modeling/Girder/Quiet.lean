import Girder.Compact
import Girder.Moves
import Girder.Readers

/-!
# Quiet — maintenance that no read can see

Compaction, reclamation, migration and tiering replace files and manifest entries while clients read
and write.  None of their operations changes what a get, a scan or a count answers
(`maintenance_unseen`): what the entries hold for a key, folded newest first with the memtables, is
the same before and after, whatever the writer has put into the memtables since the pass began.

The exception is the pair of operations by which a flush lists a segment and drops the memtable it
came from.
-/

namespace Girder

open Lib

variable {ν : Type}

/-! ## Records that clients write -/

section Records

variable [Numeral ν]

/-- The reserved label marks increments only, and no increment is a tombstone. -/
structure Record.Tame (r : Record ν) : Prop where
  label : r.LabelReserved
  plain : r.PlainDelta

/-- Merging makes tame records of tame records. -/
theorem Record.Tame.merge {o n : Record ν} (ho : o.Tame) (hn : n.Tame) :
    ((recordLayers ν).merge o n).Tame := by
  refine ⟨?_, mergeDelta_keepsPartial.ok_merge ho.plain hn.plain⟩
  show (mergeDelta (some o) n).labels[deltaLabel]? ≠ none → (mergeDelta (some o) n).isDelta = true
  intro hlabel
  cases ht : o.isTombstone with
  | true =>
      rw [mergeDelta_tombstone ht, Record.clearDelta_label] at hlabel
      exact absurd rfl hlabel
  | false =>
      cases hd : o.isDelta with
      | true => simpa [mergeDelta_delta ht hd] using hd
      | false =>
          rw [mergeDelta_full ht hd, Record.clearDelta_label] at hlabel
          exact absurd rfl hlabel

end Records

/-! ## Stores that differ only in what no read sees -/

/-- Segments that a manifest may list. -/
structure SegmentsSane [Unicode] [Numeral ν] (segments : List (Segment ν)) : Prop where
  ids_nodup : (segments.map Segment.id).Nodup
  sorted {s : Segment ν} : s ∈ segments → s.Sorted
  tame : ∀ s ∈ segments, ∀ r ∈ s.rows, r.Tame

namespace Engine

/-- The memtables are consistent, and hold what clients write. -/
structure MemSane [Unicode] [Numeral ν] (e : Engine ν) : Prop where
  memtable_consistent : e.memtable.Consistent
  frozen_consistent {f : Nat × MemTable ν} : f ∈ e.frozen → f.2.Consistent
  tame : ∀ rows ∈ e.memSources, ∀ r ∈ rows, r.Tame

variable [Unicode] [Numeral ν]

/-- A store just opened. -/
theorem memSane_of_empty {e : Engine ν} (hmemtable : e.memtable = {}) (hfrozen : e.frozen = []) :
    e.MemSane := by
  have hwf : ({} : Engine ν).WF :=
    wf_of_segments rfl rfl List.nodup_nil (fun s hs => absurd hs List.not_mem_nil)
  refine ⟨?_, fun hf => ?_, fun rows hrows r hr => ?_⟩
  · rw [hmemtable]
    exact hwf.memtable_consistent
  · rw [hfrozen] at hf
    exact absurd hf List.not_mem_nil
  · rw [memSources, hmemtable, hfrozen] at hrows
    rw [List.mem_singleton.1 hrows] at hr
    exact absurd hr List.not_mem_nil

structure Sane (e : Engine ν) : Prop where
  mem : e.MemSane
  segments : SegmentsSane e.manifest.segments

variable {e e' : Engine ν}

theorem Sane.wf (h : e.Sane) : e.WF :=
  ⟨h.mem.memtable_consistent, h.mem.frozen_consistent, h.segments.ids_nodup, h.segments.sorted⟩

theorem Sane.tame (h : e.Sane) : ∀ rows ∈ e.sources, ∀ r ∈ rows, r.Tame := by
  intro rows hrows
  rcases List.mem_append.1 hrows with hmem | hseg
  · exact h.mem.tame rows hmem
  · obtain ⟨s, hs, rfl⟩ := List.mem_map.1 hseg
    exact h.segments.tame s ((mem_sortDesc Segment.id).1 hs)

theorem Sane.reserved (h : e.Sane) : e.DeltaLabelReserved :=
  fun rows hrows r hr => (h.tame rows hrows r hr).label

theorem Sane.plain (h : e.Sane) {key : String} : ∀ v ∈ e.versions key, v.PlainDelta := by
  intro v hv
  obtain ⟨rows, hrows, hrow⟩ := mem_versions.1 hv
  exact (h.tame rows hrows v (rowOf_eq_some hrow).1).plain

variable [LawfulNumeral ν]

/-- Sane stores that hold the same value for every key answer every read alike, a scan whose heap does
not fit apart. -/
theorem reads_eq [HeapLayout] (h : e.Sane) (h' : e'.Sane)
    (hvalue : ∀ key, e'.valueOf key = e.valueOf key) :
    (∀ key, e'.getOnce key = e.getOnce key) ∧
      ∀ spec, (spec.limit = 0 ∨ spec.orderBy = none ∨ HeapFits spec.limit →
        e'.scan spec = e.scan spec) ∧ e'.count spec = e.count spec := by
  have hset : ∀ spec, (e'.matchSet spec).Perm (e.matchSet spec) := by
    intro spec
    refine (List.perm_ext_iff_of_nodup (List.Nodup.of_map _ (matchSet_nodup e' spec))
      (List.Nodup.of_map _ (matchSet_nodup e spec))).2 (fun r => ?_)
    rw [mem_matchSet, mem_matchSet, hvalue]
  have horacle : ∀ spec, e'.scanOracle spec = e.scanOracle spec :=
    fun spec => page_congr ((hset spec).map _) (matchSet_nodup e' spec)
  refine ⟨fun key => ?_, fun spec => ⟨fun hroom => ?_, ?_⟩⟩
  · rw [getOnce_eq h'.wf, getOnce_eq h.wf, hvalue]
  · rw [scan_eq_oracle h'.wf h'.reserved (Or.inr hroom),
      scan_eq_oracle h.wf h.reserved (Or.inr hroom), horacle]
  · cases hafter : spec.after with
    | none =>
        rw [count_eq_oracle h'.wf h'.reserved hafter, count_eq_oracle h.wf h.reserved hafter, horacle]
    | some bound => simp [count, hafter]

/-! ## Manifests that hold the same rows in the same slots -/

omit [Unicode] [Numeral ν] [LawfulNumeral ν] in
theorem segVersions_congr {segments segments' : List (Segment ν)}
    (h : segments.map (fun s => (s.id, s.rows)) = segments'.map (fun s => (s.id, s.rows)))
    (key : String) : segVersions segments key = segVersions segments' key := by
  have hslots : ∀ l : List (Segment ν), segVersions l key =
      (sortDesc Prod.fst (l.map (fun s => (s.id, s.rows)))).filterMap (fun p => rowOf p.2 key) := by
    intro l
    have hsort : (recency l).map (fun s => (s.id, s.rows)) =
        sortDesc Prod.fst (l.map (fun s => (s.id, s.rows))) := sortAsc_map (fun _ _ => rfl)
    rw [← hsort, List.filterMap_map]
    rfl
  rw [hslots, hslots, h]

omit [Unicode] [LawfulNumeral ν] in
/-- The value of a key depends on the memtables and on what the segments hold for it. -/
theorem valueOf_congr {key : String} (hmemtable : e'.memtable = e.memtable)
    (hfrozen : e'.frozen = e.frozen)
    (hseg : segVersions e'.manifest.segments key = segVersions e.manifest.segments key) :
    e'.valueOf key = e.valueOf key := by
  rw [valueOf, valueOf, versions_eq, versions_eq, memVersions, memVersions, memSources, memSources,
    hmemtable, hfrozen, hseg]

end Engine

/-! ## Scripts -/

namespace Op

/-- What an operation makes of the listed segments. -/
def listed : Op ν → List (Segment ν) → List (Segment ν)
  | .swap ids outputs, segments => segments.filter (fun s => !ids.contains s.id) ++ outputs
  | .setTier id tier, segments =>
      segments.map (fun s => if s.id = id then { s with tier := tier } else s)
  | _, segments => segments

variable [Unicode] [Numeral ν]

/-- On a store that lists these segments, a swap lists segments that may be listed, and a rewrite
leaves every key its value, whatever the memtables hold. -/
def Keeps (config : Config) (segments : List (Segment ν)) : Op ν → Prop
  | .swap ids outputs =>
      SegmentsSane (segments.filter (fun s => !ids.contains s.id) ++ outputs) ∧
        (ids ≠ [] → ∀ e : Engine ν, e.config = config → e.manifest.segments = segments → e.Sane →
          ∀ key, ({ e with manifest := e.manifest.swap ids outputs } : Engine ν).valueOf key =
            e.valueOf key)
  | _ => True

end Op

/-- Every operation of a script keeps what reads see. -/
def Unseen [Unicode] [Numeral ν] (config : Config) : List (Segment ν) → List (Op ν) → Prop
  | _, [] => True
  | segments, op :: ops => op.Keeps config segments ∧ Unseen config (op.listed segments) ops

section Scripts

variable [Unicode] [Numeral ν] {config : Config} {segments : List (Segment ν)}

/-- Operations that swap nothing. -/
theorem unseen_of_no_swap {ops : List (Op ν)} (h : ∀ op ∈ ops, ∀ ids outputs,
    op ≠ .swap ids outputs) : ∀ {segments : List (Segment ν)}, Unseen config segments ops := by
  induction ops with
  | nil => exact trivial
  | cons op ops ih =>
      intro segments
      refine ⟨?_, ih (fun x hx => h x (List.mem_cons_of_mem op hx))⟩
      cases op with
      | swap ids outputs => exact absurd rfl (h _ List.mem_cons_self ids outputs)
      | _ => trivial

/-- Operations that leave the manifest's segments alone, before the rest of a script. -/
theorem unseen_append {xs ys : List (Op ν)} (hxs : ∀ op ∈ xs, op.stores = false)
    (h : Unseen config segments ys) : Unseen config segments (xs ++ ys) := by
  induction xs with
  | nil => exact h
  | cons op xs ih =>
      have hop := hxs op List.mem_cons_self
      have hrest := ih (fun x hx => hxs x (List.mem_cons_of_mem op hx))
      cases op with
      | swap ids outputs => cases hop
      | setTier id tier => cases hop
      | _ => exact ⟨trivial, hrest⟩

omit [Unicode] [Numeral ν] in
theorem stores_outputOps {n : Nat} {outputs : List (Segment ν)} :
    ∀ op ∈ outputOps n outputs, op.stores = false := by
  induction outputs generalizing n with
  | nil => exact fun op hop => absurd hop List.not_mem_nil
  | cons s outputs ih =>
      intro op hop
      rcases List.mem_append.1 hop with hop | hop
      · rw [List.eq_of_mem_replicate hop]
        rfl
      · rcases List.mem_cons.1 hop with rfl | hop
        · rfl
        · exact ih op hop

omit [Unicode] [Numeral ν] in
theorem stores_reads {ss : List (Segment ν)} : ∀ op ∈ ss.map Op.read, op.stores = false := by
  intro op hop
  obtain ⟨s, -, rfl⟩ := List.mem_map.1 hop
  rfl

/-- One swap, with operations around it that leave the manifest alone. -/
theorem unseen_swap {xs ys : List (Op ν)} {ids : List Nat} {outputs : List (Segment ν)}
    (hxs : ∀ op ∈ xs, op.stores = false) (hswap : (Op.swap ids outputs).Keeps config segments)
    (hys : ∀ op ∈ ys, op.stores = false) :
    Unseen config segments (xs ++ .swap ids outputs :: ys) := by
  refine unseen_append hxs ⟨hswap, unseen_of_no_swap (fun op hop ids' outputs' heq => ?_)⟩
  have hstores := hys op hop
  rw [heq] at hstores
  cases hstores

omit [Unicode] [Numeral ν] in
theorem stores_dropFile {t : Tiering} {s : Segment ν} : ∀ op ∈ dropFile t s, op.stores = false := by
  intro op hop
  obtain ⟨p, rfl⟩ := Bench.exists_of_mem_dropFile hop
  rfl

end Scripts

/-! ## The passes -/

namespace Engine

/-- The store with other memtables. -/
def beside (e : Engine ν) (memtable : MemTable ν) (frozen : List (Nat × MemTable ν)) : Engine ν :=
  { e with memtable := memtable, frozen := frozen }

theorem others_eq (e : Engine ν) (id : Nat) :
    e.manifest.segments.filter (fun s => !List.contains [id] s.id) = e.others id := by
  refine List.filter_congr (fun s _ => ?_)
  by_cases hid : s.id = id <;> simp [hid]

section Audit

variable [Numeral ν]

/-- The older rows an audit knows. -/
theorem olderReads_rows (older : List (Segment ν)) :
    ∀ rows : List AuditRow, (olderReads older rows).2 = rows.map (olderRow older) := by
  induction older with
  | nil => exact fun rows => (List.map_id rows).symm
  | cons m older ih =>
      intro rows
      unfold olderReads
      split
      · rw [ih, List.map_map]
        rfl
      · -- no row needs this segment, so it changes none
        rename_i hnone
        rw [ih]
        refine List.map_congr_left (fun row hrow => ?_)
        have hneeds : needsBelow m row = false := by
          by_contra hneeds
          exact hnone (List.any_eq_true.2 ⟨row, hrow, by simpa using hneeds⟩)
        simp only [olderRow, List.foldl_cons, auditOlderRow_of_not_needs hneeds]

/-- The script audits every row as the pass does. -/
theorem evidence_rows (e : Engine ν) (cand : Segment ν) :
    (e.evidence cand).2 =
      cand.rows.map (auditRow cand (e.newerEvidence cand) (e.olderEvidence cand)) := by
  have hstart : (auditStart cand).map (newerRow (e.newerEvidence cand)) =
      cand.rows.map (fun r => newerRow (e.newerEvidence cand)
        { key := r.key, tomb := cand.zone.mayHave tombstoneLabel && r.isTombstone }) := by
    rw [auditStart, List.map_map]
    rfl
  unfold evidence
  simp only [hstart]
  split
  · rw [olderReads_rows, List.map_map]
    rfl
  · -- without a tombstone the older segments are not consulted
    rename_i hnone
    refine List.map_congr_left (fun r hr => ?_)
    refine (olderRow_of_not_tomb ?_ _).symm
    by_contra htomb
    exact hnone (List.any_eq_true.2 ⟨_, List.mem_map_of_mem hr, by simpa using htomb⟩)

end Audit

variable [Unicode] [Numeral ν]

/-- It is enough to look at the store the script was computed on, with other memtables. -/
theorem keeps_of_beside {e : Engine ν} {ids : List Nat} {outputs : List (Segment ν)}
    (hsane : SegmentsSane (e.manifest.swap ids outputs).segments)
    (hvalue : ∀ memtable frozen, (e.beside memtable frozen).Sane → ∀ key,
      ({ e.beside memtable frozen with manifest := e.manifest.swap ids outputs } :
        Engine ν).valueOf key = (e.beside memtable frozen).valueOf key) :
    (Op.swap ids outputs).Keeps e.config e.manifest.segments := by
  refine ⟨hsane, fun _ e₁ _ hsegments hsane₁ key => ?_⟩
  have hbeside : (e.beside e₁.memtable e₁.frozen).Sane :=
    ⟨⟨hsane₁.mem.memtable_consistent, hsane₁.mem.frozen_consistent, hsane₁.mem.tame⟩,
      hsegments ▸ hsane₁.segments⟩
  calc ({ e₁ with manifest := e₁.manifest.swap ids outputs } : Engine ν).valueOf key
      = ({ e.beside e₁.memtable e₁.frozen with
            manifest := e.manifest.swap ids outputs } : Engine ν).valueOf key := by
        refine valueOf_congr rfl rfl ?_
        show segVersions (e₁.manifest.segments.filter _ ++ outputs) key = _
        rw [hsegments]
        rfl
    _ = (e.beside e₁.memtable e₁.frozen).valueOf key := hvalue _ _ hbeside key
    _ = e₁.valueOf key :=
        valueOf_congr rfl rfl (congrArg (segVersions · key) hsegments.symm)

variable [SegmentFile ν]

/-- What a rewrite writes is tame. -/
theorem tame_outputs {e : Engine ν} (h : e.Sane) {run : List (Segment ν)}
    (hrun : RunOf e.manifest.segments run) (purge : Option String) (now : Int64) :
    ∀ o ∈ e.outputs run purge now, ∀ r ∈ o.rows, r.Tame := by
  intro o ho r hr
  have hmem : r ∈ keptRows e.config now purge (runRows run) := by
    rw [← flatMap_rows_outputs]
    exact List.mem_flatMap.2 ⟨o, ho, hr⟩
  have hrow : rowOf (keptRows e.config now purge (runRows run)) r.key = some r :=
    rowOf_of_mem (keptRows_sorted _ _ _ _) hmem
  rw [rowOf_keptRows_run e.config now purge hrun.nodup
    (fun s hs => h.segments.sorted (hrun.subset hs)), Option.filter_eq_some_iff] at hrow
  refine (recordLayers ν).stack_induction (fun v hv => ?_) (fun _ _ => Record.Tame.merge) hrow.1
  obtain ⟨s, hs, hv⟩ := mem_segVersions.1 hv
  exact h.segments.tame s (hrun.subset hs) v (rowOf_eq_some hv).1

/-- Compaction, when its chunks fit and its increments may be merged. -/
theorem keeps_compact {e : Engine ν} (h : e.Sane) {run : List (Segment ν)}
    (hchoose : chooseRun e.config e.manifest.segments = some run)
    (hret : e.config.retentionPolicy.isEmpty = true) {now : Int64} (hfits : e.Fits run none now)
    (hexact : ∀ key, Regroups run key = false ∨ ExactNumeral ν) :
    (Op.swap (run.map Segment.id) (e.outputs run none now)).Keeps e.config e.manifest.segments := by
  obtain ⟨hrun, -⟩ := chooseRun_contiguous h.segments.ids_nodup hchoose
  have hwf := rewritten_wf h.wf hrun.toRunOf (Or.inr hfits)
  refine keeps_of_beside ⟨hwf.ids_nodup, hwf.sorted, fun s hs => ?_⟩ ?_
  · rcases List.mem_append.1 hs with hs | hs
    · exact h.segments.tame s (List.mem_of_mem_filter hs)
    · exact tame_outputs h hrun.toRunOf none now s hs
  · intro memtable frozen hsane key
    refine valueOf_rewritten (e := e.beside memtable frozen) hsane.wf hrun.toRunOf
      (Or.inr hfits) ?_ ?_ ?_
    · exact fun m _ => keepsRow_of_isEmpty hret now m
    · exact fun slot hslot => not_overtakes_of_fits (e := e.beside memtable frozen) hrun hfits hslot
    · intro above below hvs
      rcases hexact key with hkey | hexact
      · exact readVersions_collapse hkey above below
      · exact readVersions_collapse_exact (hvs ▸ hsane.plain)

variable [LawfulNumeral ν]

/-- Fewer rows in the slot of a segment: nothing read is among those that go. -/
theorem keeps_rewrite {e : Engine ν} (h : e.Sane) {cand : Segment ν}
    (hcand : cand ∈ e.manifest.segments) {outputs : List (Segment ν)}
    (houtputs : ∀ o ∈ outputs, o.rows = cand.rows.filter (fun r => !e.reclaimable cand r))
    (hreclaimed : ∀ memtable frozen, ∃ e', Reclaimed (e.beside memtable frozen) e' ∧
      e'.memtable = memtable ∧ e'.frozen = frozen ∧
      e'.manifest.segments = (e.manifest.swap [cand.id] outputs).segments) :
    (Op.swap [cand.id] outputs).Keeps e.config e.manifest.segments := by
  refine keeps_of_beside ?_ ?_
  · obtain ⟨e', he', -, -, hsegments⟩ := hreclaimed e.memtable e.frozen
    have hwf := (valueOf_reclaimed h.wf he').1
    rw [← hsegments]
    refine ⟨hwf.ids_nodup, hwf.sorted, fun s hs r hr => ?_⟩
    rw [hsegments] at hs
    rcases List.mem_append.1 hs with hs | hs
    · exact h.segments.tame s (List.mem_of_mem_filter hs) r hr
    · rw [houtputs s hs] at hr
      exact h.segments.tame cand hcand r (List.mem_of_mem_filter hr)
  · intro memtable frozen hsane key
    obtain ⟨e', he', hmemtable, hfrozen, hsegments⟩ := hreclaimed memtable frozen
    rw [← (valueOf_reclaimed hsane.wf he').2 key]
    exact valueOf_congr hmemtable.symm hfrozen.symm (congrArg (segVersions · key) hsegments.symm)

/-- Reclamation. -/
theorem unseen_reclaim {e : Engine ν} (h : e.Sane) (t : Tiering) :
    Unseen e.config e.manifest.segments (e.reclaimOps t) := by
  unfold reclaimOps
  cases hpick : e.reclaimPick with
  | none => trivial
  | some cand =>
      have hcand := (sealed_of_reclaimPick hpick).1
      have hstart : ∀ op ∈ [Op.setCursor cand.id, Op.read cand], op.stores = false := by simp [Op.stores]
      refine unseen_append hstart ?_
      split
      · trivial
      · refine unseen_append stores_reads ?_
        split
        · trivial
        · rename_i hhalf
          refine ⟨trivial, ?_⟩
          show Unseen e.config e.manifest.segments (e.rewriteOps cand _ _)
          -- The audit's dead rows are the reclaimable ones.
          have hsurvivors : cand.rows.filter (fun r =>
              !(((e.evidence cand).2.filter AuditRow.dead).map AuditRow.key).contains r.key) =
              cand.rows.filter (fun r => !e.reclaimable cand r) := by
            refine List.filter_congr (fun r hr => ?_)
            rw [evidence_rows, deadKeys_contains (h.segments.sorted hcand) hr]
          rw [hsurvivors]
          unfold rewriteOps
          split
          · rename_i hnone
            refine unseen_swap (fun op hop => absurd hop List.not_mem_nil)
              (keeps_rewrite h hcand (fun o ho => absurd ho List.not_mem_nil) ?_) stores_dropFile
            refine fun memtable frozen => ⟨_, .dropped (e.beside memtable frozen).reclaimCursor hcand
              (List.isEmpty_iff.1 hnone), rfl, rfl, ?_⟩
            show e.others cand.id = e.manifest.segments.filter _ ++ []
            rw [others_eq, List.append_nil]
          · refine unseen_swap stores_outputOps (keeps_rewrite h hcand ?_ ?_) (by simp [Op.stores])
            · intro o ho
              rw [List.mem_singleton.1 ho]
              rfl
            · refine fun memtable frozen => ⟨_, .rewritten (e.beside memtable frozen).reclaimCursor
                hcand ?_, rfl, rfl, ?_⟩
              · rw [evidence_rows, List.countP_map, List.length_map] at hhalf
                exact Nat.not_lt.1 hhalf
              · show e.others cand.id ++ [_] = e.manifest.segments.filter _ ++ [_]
                rw [others_eq]
                rfl

omit [LawfulNumeral ν] in
/-- Migration: the same rows in the same slot. -/
theorem keeps_migrate {e : Engine ν} (h : e.Sane) {s : Segment ν} (hs : s ∈ e.manifest.segments)
    (next : Nat) :
    (Op.swap [s.id] [migratedSegment next s]).Keeps e.config e.manifest.segments := by
  -- Ids and rows are those of a slot replaced by its own rows.
  have hslots : ∀ e' : Engine ν, e'.manifest.segments = e.manifest.segments →
      (e.manifest.swap [s.id] [migratedSegment next s]).segments.map (fun x => (x.id, x.rows)) =
        (e'.replaceSegment s s.rows).manifest.segments.map (fun x => (x.id, x.rows)) := by
    intro e' hsegments
    show (e.manifest.segments.filter _ ++ [_]).map _ = (e'.others s.id ++ [_]).map _
    rw [others_eq, others, others, hsegments, List.map_append, List.map_append]
    rfl
  refine keeps_of_beside ?_ ?_
  · have hwf := replaceSegment_wf h.wf s (h.segments.sorted hs)
    have hids : (e.manifest.swap [s.id] [migratedSegment next s]).segments.map Segment.id =
        (e.replaceSegment s s.rows).manifest.segments.map Segment.id := by
      have hfst := congrArg (List.map Prod.fst) (hslots e rfl)
      rw [List.map_map, List.map_map] at hfst
      exact hfst
    have hold : ∀ x ∈ (e.manifest.swap [s.id] [migratedSegment next s]).segments,
        ∃ y ∈ e.manifest.segments, x.rows = y.rows := by
      intro x hx
      rcases List.mem_append.1 hx with hx | hx
      · exact ⟨x, List.mem_of_mem_filter hx, rfl⟩
      · rw [List.mem_singleton.1 hx]
        exact ⟨s, hs, rfl⟩
    refine ⟨?_, fun hx => ?_, fun x hx => ?_⟩
    · rw [hids]
      exact hwf.ids_nodup
    · obtain ⟨y, hy, hrows⟩ := hold _ hx
      have hsorted := h.segments.sorted hy
      unfold Segment.Sorted at hsorted ⊢
      rw [hrows]
      exact hsorted
    · obtain ⟨y, hy, hrows⟩ := hold x hx
      rw [hrows]
      exact h.segments.tame y hy
  · intro memtable frozen hsane key
    calc ({ e.beside memtable frozen with
            manifest := e.manifest.swap [s.id] [migratedSegment next s] } : Engine ν).valueOf key
        = ((e.beside memtable frozen).replaceSegment s s.rows).valueOf key :=
          valueOf_congr rfl rfl (segVersions_congr (hslots (e.beside memtable frozen) rfl) key)
      _ = (e.beside memtable frozen).valueOf key := by
          rw [valueOf, valueOf, versions_replaceSegment hsane.segments.ids_nodup,
            versions_eq_slot hsane.segments.ids_nodup hs]

omit [LawfulNumeral ν] in
theorem unseen_migrate {e : Engine ν} (h : e.Sane) (files : Files ν) {ss : List (Segment ν)} :
    ∀ {next : Nat}, (∀ s ∈ ss, s ∈ e.manifest.segments) →
      Unseen e.config e.manifest.segments (migrateOps files next ss) := by
  induction ss with
  | nil => exact fun _ => trivial
  | cons s ss ih =>
      intro next hss
      have hrest := fun x hx => hss x (List.mem_cons_of_mem s hx)
      unfold migrateOps
      split
      · exact ih hrest
      · split
        · exact ih hrest
        · split
          · exact ⟨trivial, trivial, ih hrest⟩
          · refine ⟨trivial, unseen_swap stores_outputOps
              (keeps_migrate h (hss s List.mem_cons_self) next) (by simp [Op.stores])⟩

omit [LawfulNumeral ν] in
/-- A flush lists segments that may be listed. -/
theorem unseen_flush {config : Config} (clock : Nat → Int64) {frozen : List (Nat × MemTable ν)} :
    ∀ {segments : List (Segment ν)} {next : Nat}, SegmentsSane segments →
      (∀ s ∈ segments, s.id < next) →
      (∀ f ∈ frozen, f.2.Consistent ∧ ∀ r ∈ f.2.values, r.Tame) →
      Unseen config segments (flushOps clock next frozen) := by
  induction frozen with
  | nil => exact fun _ _ _ => trivial
  | cons f frozen ih =>
      intro segments next hsane hids hfrozen
      obtain ⟨hconsistent, htame⟩ := hfrozen f List.mem_cons_self
      have hlisted : (Op.swap [] [Process.flushedSegment next (clock next) f.2.values]).listed
          segments = segments ++ [Process.flushedSegment next (clock next) f.2.values] := by
        simp [Op.listed]
      have hsane' : SegmentsSane
          (segments ++ [Process.flushedSegment next (clock next) f.2.values]) := by
        refine ⟨?_, fun {s} hs => ?_, fun s hs => ?_⟩
        · rw [List.map_append]
          refine List.nodup_append.2 ⟨hsane.ids_nodup, List.nodup_singleton _, ?_⟩
          rintro _ ha _ hb rfl
          obtain ⟨s, hs, hid⟩ := List.mem_map.1 ha
          have hlt := hids s hs
          rw [hid, List.mem_singleton.1 hb] at hlt
          exact absurd hlt (Nat.lt_irrefl _)
        · rcases List.mem_append.1 hs with hs | hs
          · exact hsane.sorted hs
          · rw [List.mem_singleton.1 hs]
            exact MemTable.values_sorted hconsistent
        · rcases List.mem_append.1 hs with hs | hs
          · exact hsane.tame s hs
          · rw [List.mem_singleton.1 hs]
            exact htame
      -- One memtable is flushed, and the next one meets the manifest with its segment.
      rw [flushOps, List.append_assoc]
      refine unseen_append stores_outputOps ⟨⟨?_, fun hne => absurd rfl hne⟩, trivial, ?_⟩
      · rw [← hlisted] at hsane'
        exact hsane'
      · rw [hlisted]
        refine ih hsane' (fun s hs => ?_) (fun x hx => hfrozen x (List.mem_cons_of_mem f hx))
        rcases List.mem_append.1 hs with hs | hs
        · exact Nat.lt_succ_of_lt (hids s hs)
        · rw [List.mem_singleton.1 hs]
          exact Nat.lt_succ_self next

end Engine

/-! ## Runs -/

namespace Bench

/-- What an operation does to the store. -/
theorem exec_listed {b b' : Bench ν} {op : Op ν} (hexec : b.exec op = .ok b') :
    b'.engine.config = b.engine.config ∧ b'.segments = op.listed b.segments ∧
      b'.engine.memtable = b.engine.memtable ∧
      (b'.engine.frozen = b.engine.frozen ∨
        op = .popFrozen ∧ b'.engine.frozen = b.engine.frozen.tail) := by
  cases op with
  | read s => rw [eq_of_exec_read hexec]; exact ⟨rfl, rfl, rfl, .inl rfl⟩
  | alloc => cases hexec; exact ⟨rfl, rfl, rfl, .inl rfl⟩
  | write place file data => cases hexec; exact ⟨rfl, rfl, rfl, .inl rfl⟩
  | swap ids outputs => cases hexec; exact ⟨rfl, rfl, rfl, .inl rfl⟩
  | setTier id tier => cases hexec; exact ⟨rfl, rfl, rfl, .inl rfl⟩
  | remove place file => cases hexec; exact ⟨rfl, rfl, rfl, .inl rfl⟩
  | rename s => obtain ⟨_, _, rfl⟩ := map_open?_eq_ok hexec; exact ⟨rfl, rfl, rfl, .inl rfl⟩
  | copy s => obtain ⟨_, _, rfl⟩ := map_open?_eq_ok hexec; exact ⟨rfl, rfl, rfl, .inl rfl⟩
  | removeSource s =>
      obtain ⟨_, _, rfl⟩ := map_open?_eq_ok hexec
      exact ⟨rfl, rfl, rfl, .inl rfl⟩
  | put s => obtain ⟨_, _, rfl⟩ := map_open?_eq_ok hexec; exact ⟨rfl, rfl, rfl, .inl rfl⟩
  | popFrozen => cases hexec; exact ⟨rfl, rfl, rfl, .inr ⟨rfl, rfl⟩⟩
  | setCursor id => cases hexec; exact ⟨rfl, rfl, rfl, .inl rfl⟩
  | fail e => cases hexec

theorem map_setTier_slots (segments : List (Segment ν)) (id : Nat) (tier : Tier) :
    (segments.map (fun s => if s.id = id then { s with tier := tier } else s)).map
      (fun s => (s.id, s.rows)) = segments.map (fun s => (s.id, s.rows)) := by
  rw [List.map_map]
  refine List.map_congr_left (fun s _ => ?_)
  by_cases hid : s.id = id <;> simp [hid]

variable [Unicode] [Numeral ν] {b b' : Bench ν} {op : Op ν}

/-- An operation that keeps what reads see leaves a sane store. -/
theorem sane_of_exec (h : b.engine.Sane) (hkeeps : op.Keeps b.engine.config b.segments)
    (hexec : b.exec op = .ok b') : b'.engine.Sane := by
  obtain ⟨-, hlisted, hmemtable, hfrozen⟩ := exec_listed hexec
  have hsub : ∀ f ∈ b'.engine.frozen, f ∈ b.engine.frozen := by
    rcases hfrozen with heq | ⟨-, heq⟩
    · exact fun f hf => heq ▸ hf
    · exact fun f hf => List.mem_of_mem_tail (heq ▸ hf)
  refine ⟨⟨hmemtable ▸ h.mem.memtable_consistent, fun hf => h.mem.frozen_consistent (hsub _ hf),
    fun rows hrows => ?_⟩, ?_⟩
  · refine h.mem.tame rows ?_
    rcases List.mem_cons.1 hrows with heq | hrows
    · exact List.mem_cons.2 (.inl (heq.trans (congrArg MemTable.values hmemtable)))
    · obtain ⟨f, hf, heq⟩ := List.mem_map.1 hrows
      refine List.mem_cons_of_mem _ (List.mem_map.2 ⟨f, ?_, heq⟩)
      exact List.mem_reverse.2 (hsub f (List.mem_reverse.1 hf))
  · show SegmentsSane b'.segments
    rw [hlisted]
    cases op with
    | swap ids outputs => exact hkeeps.1
    | setTier id tier =>
        -- The rows stay where they are.
        have hold : ∀ s ∈ (Op.setTier id tier).listed b.segments, ∃ x ∈ b.segments,
            s.rows = x.rows := by
          intro s hs
          obtain ⟨x, hx, rfl⟩ := List.mem_map.1 hs
          exact ⟨x, hx, by split <;> rfl⟩
        refine ⟨?_, fun hs => ?_, fun s hs => ?_⟩
        · have hids := Manifest.map_id_setTier (m := b.engine.manifest) id tier
          exact (congrArg List.Nodup hids).mpr h.segments.ids_nodup
        · obtain ⟨x, hx, hrows⟩ := hold _ hs
          have hsorted := h.segments.sorted hx
          unfold Segment.Sorted at hsorted ⊢
          rw [hrows]
          exact hsorted
        · obtain ⟨x, hx, hrows⟩ := hold s hs
          rw [hrows]
          exact h.segments.tame x hx
    | _ => exact h.segments

/-- No operation but a flush's changes the value of a key. -/
theorem valueOf_exec (h : b.engine.Sane) (hkeeps : op.Keeps b.engine.config b.segments)
    (hexec : b.exec op = .ok b') (hpop : op ≠ .popFrozen)
    (hlist : ∀ outputs, op ≠ .swap [] outputs) (key : String) :
    b'.engine.valueOf key = b.engine.valueOf key := by
  obtain ⟨-, hlisted, hmemtable, hfrozen⟩ := exec_listed hexec
  have hsame : b'.engine.frozen = b.engine.frozen := by
    rcases hfrozen with heq | ⟨heq, -⟩
    · exact heq
    · exact absurd heq hpop
  cases op with
  | swap ids outputs =>
      cases hexec
      refine hkeeps.2 ?_ b.engine rfl rfl h key
      rintro rfl
      exact hlist outputs rfl
  | setTier id tier =>
      refine Engine.valueOf_congr hmemtable hsame ?_
      refine (congrArg (Engine.segVersions · key) hlisted).trans ?_
      exact Engine.segVersions_congr (map_setTier_slots b.segments id tier) key
  | _ =>
      exact Engine.valueOf_congr hmemtable hsame (congrArg (Engine.segVersions · key) hlisted)

end Bench

/-- What is asked of a pass when it begins: no retention policy and no purge, and a compaction whose
chunks fit the ids of its run and whose increments may be merged. -/
def Pass.Sober [Numeral ν] [SegmentFile ν] (e : Engine ν) : Pass → Prop
  | .compact now => e.config.retentionPolicy.isEmpty = true ∧
      ∀ run, chooseRun e.config e.manifest.segments = some run →
        e.Fits run none now ∧ ∀ key, Engine.Regroups run key = false ∨ ExactNumeral ν
  | .groom _ => e.config.retentionPolicy.isEmpty = true
  | .purge _ _ => False
  | _ => True

namespace System

variable [Unicode] [Numeral ν] [LawfulNumeral ν] [SegmentFile ν]

/-- One step in which the writer leaves consistent memtables of tame records, and the passes are
sober. -/
structure SoberStep (t : Tiering) (sys sys' : System ν) : Prop where
  step : ∃ ev, Step t sys ev sys' ∧ (∀ pass, ev = .began pass → pass.Sober sys.bench.engine)
  memtables : sys'.bench.engine.MemSane

/-- The store is sane, and what is left of the script is not seen. -/
structure Hushed (sys : System ν) : Prop where
  sane : sys.bench.engine.Sane
  unseen : Unseen sys.bench.engine.config sys.bench.segments sys.todo

theorem unseen_pass {sys : System ν} (h : sys.Hushed) (hin : sys.InOrder) (t : Tiering)
    {pass : Pass} (hsober : pass.Sober sys.bench.engine) :
    Unseen sys.bench.engine.config sys.bench.segments (pass.ops t sys.bench) := by
  cases pass with
  | flush clock =>
      refine Engine.unseen_flush clock h.sane.segments
        (fun s hs => hin.sound.identity.id_lt hs) (fun f hf => ?_)
      refine ⟨h.sane.mem.frozen_consistent hf, h.sane.mem.tame f.2.values ?_⟩
      exact List.mem_cons_of_mem _ (List.mem_map_of_mem (List.mem_reverse.2 hf))
  | compact now =>
      obtain ⟨hret, hruns⟩ := hsober
      unfold Pass.ops Engine.compactOps
      cases hchoose : chooseRun sys.bench.engine.config sys.bench.engine.manifest.segments with
      | none => trivial
      | some run =>
          obtain ⟨hfits, hexact⟩ := hruns run hchoose
          show Unseen _ _ (sys.bench.engine.compactRunOps t run none now)
          unfold Engine.compactRunOps
          rw [List.append_assoc (_ ++ _), List.singleton_append]
          refine unseen_swap (fun op hop => ?_)
            (Engine.keeps_compact h.sane hchoose hret hfits hexact) (fun op hop => ?_)
          · rcases List.mem_append.1 hop with hop | hop
            · exact stores_reads op hop
            · exact stores_outputOps op hop
          · obtain ⟨s, -, hop⟩ := List.mem_flatMap.1 hop
            exact stores_dropFile op hop
  | purge key now => exact hsober.elim
  | reclaim => exact Engine.unseen_reclaim h.sane t
  | tier now =>
      -- A move lists nothing anew.
      refine unseen_of_no_swap (fun op hop ids outputs heq => ?_)
      subst heq
      rcases Engine.cases_of_mem_tierOps hop with ⟨s, -, hop⟩ | ⟨-, s, -, hop⟩
      · rcases Engine.cases_of_mem_coldMove hop with heq | heq | heq | heq <;> cases heq
      · rcases Engine.cases_of_mem_remoteMove hop with heq | heq | heq <;> cases heq
  | groom now =>
      have hnone : sys.bench.engine.groomOps now = [] := if_pos hsober
      show Unseen _ _ (sys.bench.engine.groomOps now)
      rw [hnone]
      trivial
  | migrate =>
      exact Engine.unseen_migrate h.sane sys.bench.files
        (fun s hs => (mem_sortAsc Segment.id).1 hs)

theorem Hushed.step {t : Tiering} {sys sys' : System ν} (h : sys.Hushed) (hin : sys.InOrder)
    (hstep : SoberStep t sys sys') : sys'.Hushed := by
  obtain ⟨⟨ev, hstep, hsober⟩, hmem⟩ := hstep
  cases hstep with
  | begin pass htodo => exact ⟨h.sane, unseen_pass h hin t (hsober pass rfl)⟩
  | @perform op rest b htodo hperform =>
      have hexec := Bench.exec_of_perform hperform
      have hunseen := h.unseen
      rw [htodo] at hunseen
      obtain ⟨hconfig, hlisted, -, -⟩ := Bench.exec_listed hexec
      refine ⟨Bench.sane_of_exec h.sane hunseen.1 hexec, ?_⟩
      show Unseen b.engine.config b.segments rest
      rw [hconfig, hlisted]
      exact hunseen.2
  | abort htodo hperform => exact ⟨h.sane, trivial⟩
  | writer memtable frozen => exact ⟨⟨hmem, h.sane.segments⟩, h.unseen⟩
  | blob => exact ⟨h.sane, h.unseen⟩
  | fetch hs htier => exact ⟨h.sane, h.unseen⟩
  | evict file => exact ⟨h.sane, h.unseen⟩
  | crash config objects hobjects =>
      refine ⟨⟨hmem, ?_⟩, unseen_of_no_swap (fun op hop ids outputs heq => ?_)⟩
      · show SegmentsSane sys.disk.segments
        rw [hin.segments_eq]
        exact h.sane.segments
      · obtain ⟨place, file, hremove⟩ := Bench.exists_remove_of_mem_reconcileOps hop
        rw [heq] at hremove
        cases hremove

/-- The maintenance actor flushes, compacts, reclaims, tiers and migrates while the writer fills and
freezes memtables, reads use the pull cache, passes fail and the process crashes and reopens: apart
from a flush that lists a segment or drops a memtable, no operation of a pass changes what any get,
count or scan answers, but for a scan whose heap is past the room there is. -/
theorem maintenance_unseen [HeapLayout] {t : Tiering} {start sys sys' : System ν} {op : Op ν}
    (hstart : start.Opened) (hsane : start.bench.engine.Sane)
    (hrun : Relation.ReflTransGen (SoberStep t) start sys) (hstep : Step t sys (.did op) sys')
    (hpop : op ≠ .popFrozen) (hlist : ∀ outputs, op ≠ .swap [] outputs) :
    (∀ key, sys'.bench.engine.getOnce key = sys.bench.engine.getOnce key) ∧
      ∀ spec, (spec.limit = 0 ∨ spec.orderBy = none ∨ HeapFits spec.limit →
          sys'.bench.engine.scan spec = sys.bench.engine.scan spec) ∧
        sys'.bench.engine.count spec = sys.bench.engine.count spec := by
  have hinv : sys.InOrder ∧ sys.Hushed := by
    clear hstep
    induction hrun with
    | refl => exact ⟨hstart.inOrder, hsane, by rw [hstart.todo_eq]; trivial⟩
    | tail _ hlast ih =>
        obtain ⟨ev, hev, -⟩ := hlast.step
        exact ⟨ih.1.step hev, ih.2.step ih.1 hlast⟩
  obtain ⟨-, hhushed⟩ := hinv
  cases hstep with
  | @perform _ rest b htodo hperform =>
      have hexec := Bench.exec_of_perform hperform
      have hunseen := hhushed.unseen
      rw [htodo] at hunseen
      exact Engine.reads_eq hhushed.sane (Bench.sane_of_exec hhushed.sane hunseen.1 hexec)
        (Bench.valueOf_exec hhushed.sane hunseen.1 hexec hpop hlist)

end System

section Sample

local instance instQuietUnicode : Unicode := asciiUnicode

local instance instQuietFile : SegmentFile Int := footprintFile Int

local instance instQuietHeapLayout : HeapLayout := sampleHeap

/-- The store of `reclaimingStore` after some operations of the pass. -/
def reclaimedTo (k : Nat) : System Int where
  bench := (Bench.runOps (reclaimingStore.todo.take k) reclaimingStore.bench).1
  disk := reclaimingStore.disk
  todo := reclaimingStore.todo.drop k

theorem sealedStore_sane : sealedStore.Sane := by
  have hwf : sealedStore.WF := Engine.wf_of_segments rfl rfl (by decide) (by decide)
  refine ⟨Engine.memSane_of_empty rfl rfl, hwf.ids_nodup, hwf.sorted, fun s hs r hr => ?_⟩
  have hplain : ∀ s ∈ sealedStore.manifest.segments, ∀ r ∈ s.rows,
      r.labels[deltaLabel]? = none ∧ r.isDelta = false := by decide
  obtain ⟨hlabel, hdelta⟩ := hplain s hs r hr
  exact ⟨Record.labelReserved_of_none hlabel, fun h => by rw [hdelta] at h; cases h⟩

/-- The step of an operation, its outcome given apart. -/
theorem step_of_perform {sys sys' : System Int} {op : Op Int} {rest : List (Op Int)}
    {b : Bench Int} (htodo : sys.todo = op :: rest) (hperform : sys.bench.perform op = .ok b)
    (hsys : sys' = { bench := b, disk := if op.stores then b.engine.manifest else sys.disk,
                     todo := rest }) : System.Step sampleTiering sys (.did op) sys' := by
  rw [hsys]
  exact .perform htodo hperform

theorem reclaimedTo_step (k : Nat) (hk : k < 6) :
    System.SoberStep sampleTiering (reclaimedTo k) (reclaimedTo (k + 1)) := by
  have hstep : ∃ op, System.Step sampleTiering (reclaimedTo k) (.did op) (reclaimedTo (k + 1)) ∧
      (reclaimedTo (k + 1)).bench.engine.MemSane := by
    obtain rfl | rfl | rfl | rfl | rfl | rfl :
        k = 0 ∨ k = 1 ∨ k = 2 ∨ k = 3 ∨ k = 4 ∨ k = 5 := by omega
    all_goals exact ⟨_, step_of_perform rfl rfl rfl, Engine.memSane_of_empty rfl rfl⟩
  obtain ⟨op, hstep, hmem⟩ := hstep
  exact ⟨⟨_, hstep, fun pass h => by cases h⟩, hmem⟩

/-- A reader sees nothing of the swap that takes an overwritten row away. -/
theorem maintenance_unseen_reclaim :
    ((reclaimedTo 7).bench.segments.map (fun s => s.rows.length) = [1, 1]) ∧
      ∀ key, (reclaimedTo 7).bench.engine.getOnce key =
        (reclaimedTo 6).bench.engine.getOnce key := by
  have hbegin : System.SoberStep sampleTiering openedStore (reclaimedTo 0) :=
    ⟨⟨_, .begin .reclaim rfl, fun pass h => by cases h; trivial⟩,
      Engine.memSane_of_empty rfl rfl⟩
  have hrun : ∀ k ≤ 6, Relation.ReflTransGen (System.SoberStep sampleTiering) openedStore
      (reclaimedTo k) := by
    intro k
    induction k with
    | zero => exact fun _ => .single hbegin
    | succ k ih => exact fun hk => (ih (Nat.le_of_succ_le hk)).tail (reclaimedTo_step k hk)
  have hswap : System.Step sampleTiering (reclaimedTo 6) (.did _)
      { reclaimedTo 7 with disk := (reclaimedTo 7).bench.engine.manifest } :=
    step_of_perform rfl rfl rfl
  exact ⟨by decide, (System.maintenance_unseen openedStore_opened sealedStore_sane
    (hrun 6 (Nat.le_refl 6)) hswap (by simp) (by simp)).1⟩

end Sample

end Girder
