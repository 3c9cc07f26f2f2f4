import Mathlib.Logic.Relation
import Girder.Expiry
import Girder.Groom

/-!
# Ticks — retention over whole runs of maintenance

A maintenance tick compacts and then grooms, each at its own clock reading.  Both judge a run or a
segment on its own and drop the expired versions in it, so an older version elsewhere can come back.

`Clean` says that a pass has no such key to expose.  `clean_runs_never_resurrect`: in a store
without increments whose writes are dated in order, along every run of clean passes a read changes
only to absent, only when the winning version was expired, and an absent key stays absent.
-/

namespace Girder

open Lib

variable {ν : Type}

/-- The two maintenance passes that apply retention, with their clock readings. -/
inductive MaintenancePass
  | compact (now : Int64)
  | groom (now : Int64)
  deriving DecidableEq, Repr

def MaintenancePass.now : MaintenancePass → Int64
  | compact now => now
  | groom now => now

namespace Engine

section Passes

variable [Numeral ν] [SegmentFile ν]

/-- The store after a pass. -/
def runPass (e : Engine ν) : MaintenancePass → Engine ν
  | .compact now =>
      match e.compact now with
      | .ok (e', _) => e'
      | .error _ => e
  | .groom now => (e.groom now).1

/-- One tick: a compaction, then a groom pass. -/
def tick (e : Engine ν) (now now' : Int64) : Engine ν :=
  (e.runPass (.compact now)).runPass (.groom now')

/-- The segments a pass rewrites or drops. -/
def touched (e : Engine ν) : MaintenancePass → List (Segment ν)
  | .compact _ => (chooseRun e.config e.manifest.segments).getD []
  | .groom now => e.groomCandidates now

/-- Segment `id` holds the newest version `r` of a key. -/
def NewestAt (segments : List (Segment ν)) (key : String) (id : Nat) (r : Record ν) : Prop :=
  Holds segments key id r ∧ ∀ j v, Holds segments key j v → j ≤ id

/-- Memory holds no version of the key, the newest one in the segments is expired and in a segment
the pass touches, and the newest one in the segments the pass does not touch is no tombstone. -/
def Exposes (e : Engine ν) (pass : MaintenancePass) (key : String) : Prop :=
  e.memVersions key = [] ∧
    ∃ id h, NewestAt e.manifest.segments key id h ∧ id ∈ (e.touched pass).map Segment.id ∧
      e.config.retentionPolicy.keeps pass.now h = false ∧
      ∃ id' v, NewestAt (e.outside (e.touched pass)) key id' v ∧ v.isTombstone = false

/-- Memory holds no version of the key, the run keeps one, the rows kept up to it need more slices
than the run has segments, and a segment newer than the run holds the key as well. -/
def Overflows (e : Engine ν) : MaintenancePass → String → Prop
  | .compact now, key => e.memVersions key = [] ∧
      ∃ run, chooseRun e.config e.manifest.segments = some run ∧
        (∃ id h, NewestAt run key id h ∧ e.config.retentionPolicy.keeps now h = true) ∧
        ¬ Cuttable recordBytes e.config.cap e.config.maxSegmentBytes run.length
          (e.keptUpTo run none now key) ∧
        ∃ s ∈ e.outside run, (∀ t ∈ run, t.id < s.id) ∧ (rowOf s.rows key).isSome
  | .groom _, _ => False

/-- A pass that neither exposes an older version nor puts one past a newer segment. -/
def Clean (e : Engine ν) (pass : MaintenancePass) : Prop :=
  ∀ key, ¬ e.Exposes pass key ∧ ¬ e.Overflows pass key

end Passes

section Dated

variable [Numeral ν]

/-- No increments, and every write of a key dated no earlier than the ones before it. -/
structure Dated (e : Engine ν) : Prop where
  full {key : String} {v : Record ν} : v ∈ e.versions key → v.isDelta = false
  ordered (key : String) :
    (e.versions key).Pairwise (fun newer older => older.timestamp ≤ newer.timestamp)

/-- What passes keep of that: versions in memory hide what the segments hold. -/
structure Settled (e : Engine ν) : Prop where
  full {key : String} {v : Record ν} : v ∈ e.versions key → v.isDelta = false
  ordered {key : String} : e.memVersions key = [] →
    (e.versions key).Pairwise (fun newer older => older.timestamp ≤ newer.timestamp)

omit [Numeral ν] in
theorem Dated.settled {e : Engine ν} (h : e.Dated) : e.Settled :=
  ⟨fun hv => h.full hv, fun {key} _ => h.ordered key⟩

omit [Numeral ν] in
/-- It is enough to look at the rows of the sources. -/
theorem Dated.of_sources {e : Engine ν}
    (hfull : ∀ rows ∈ e.sources, ∀ r ∈ rows, r.isDelta = false)
    (hord : e.sources.Pairwise (fun newer older =>
      ∀ r ∈ newer, ∀ r' ∈ older, r.key = r'.key → r'.timestamp ≤ r.timestamp)) : e.Dated where
  full hv := by
    obtain ⟨rows, hrows, hrow⟩ := mem_versions.1 hv
    exact hfull rows hrows _ (rowOf_eq_some hrow).1
  ordered key := by
    refine List.Pairwise.filterMap _ ?_ hord
    intro newer older hle r hr r' hr'
    obtain ⟨hmem, hkey⟩ := rowOf_eq_some hr
    obtain ⟨hmem', hkey'⟩ := rowOf_eq_some hr'
    exact hle r hmem r' hmem' (hkey.trans hkey'.symm)

/-- Full versions: a read is the newest one. -/
theorem readVersions_of_full {vs : List (Record ν)} (h : ∀ v ∈ vs, v.isDelta = false) :
    readVersions vs = vs.head?.bind Record.surface := by
  cases vs with
  | nil => rfl
  | cons v vs =>
      have hv : (recordLayers ν).isPartial v = false := h v (by simp)
      rw [readVersions, Layering.readNewest_cons_of_full hv]
      rfl

/-- What a pass may do to a key: nothing, or take it away when its winning version is expired. -/
def Unresurrected (e e' : Engine ν) (now : Int64) (key : String) : Prop :=
  e'.getOnce key = e.getOnce key ∨
    (e'.getOnce key = none ∧ ∃ h, (e.versions key).head? = some h ∧
      e.config.retentionPolicy.keeps now h = false)

omit [Numeral ν] in
/-- An earlier date is expired when a later one is. -/
theorem keeps_mono {policy : RetentionPolicy} {now : Int64} {a b : Record ν} (hkey : a.key = b.key)
    (hle : a.timestamp ≤ b.timestamp) (hb : policy.keeps now b = false) :
    policy.keeps now a = false := by
  unfold RetentionPolicy.keeps at hb ⊢
  rw [hkey]
  cases hcut : policy.cutoffForKey b.key now with
  | none => simp [hcut] at hb
  | some cutoff =>
      rw [hcut] at hb
      simp only [decide_eq_false_iff_not, not_le] at hb ⊢
      exact hle.trans_lt hb

end Dated

/-! ## One pass -/

section Step

variable [Unicode] [Numeral ν] [LawfulNumeral ν] [SegmentFile ν]

omit [Unicode] [LawfulNumeral ν] [SegmentFile ν] in
theorem Settled.valueOf_eq {e : Engine ν} (h : e.Settled) (key : String) :
    e.valueOf key = (e.versions key).head?.bind Record.surface :=
  readVersions_of_full (fun _ hv => h.full hv)

/-- What `runPass` does to reads and to the invariants. -/
structure PassSpec (e e' : Engine ν) (now : Int64) : Prop where
  wf : e'.WF
  numbered : e'.Numbered
  settled : e'.Settled
  reads (key : String) : e.Unresurrected e' now key

omit [Unicode] [LawfulNumeral ν] [SegmentFile ν] in
/-- The merge of full versions is the newest of them. -/
theorem Settled.stack_run {e : Engine ν} (h : e.Settled) {run : List (Segment ν)}
    (hrun : RunOf e.manifest.segments run) (key : String) :
    (recordLayers ν).stack (segVersions run key) = (segVersions run key).head? := by
  cases hvs : segVersions run key with
  | nil => rfl
  | cons m rest =>
      have hm : m ∈ e.versions key := by
        have hnewest : m ∈ segVersions run key := hvs ▸ List.mem_cons_self
        obtain ⟨s, hs, hrow⟩ := mem_segVersions.1 hnewest
        exact mem_versions_of_segment (hrun.subset hs) hrow
      rw [Layering.stack_cons, layerOpt_of_full (h.full hm)]
      rfl

omit [Unicode] [LawfulNumeral ν] [SegmentFile ν] in
/-- The row a compaction writes for a key: the newest version in the run, unless it has expired. -/
theorem Settled.rowOf_kept {e : Engine ν} (h : e.Settled) {run : List (Segment ν)}
    (hrun : RunOf e.manifest.segments run) (hs : ∀ s ∈ run, s.Sorted) (now : Int64)
    (key : String) :
    rowOf (keptRows e.config now none (runRows run)) key =
      (segVersions run key).head?.filter (e.config.retentionPolicy.keeps now) := by
  rw [rowOf_keptRows_run e.config now none hrun.nodup hs, h.stack_run hrun]
  congr 1
  funext r
  simp [Config.keepsRow]

omit [LawfulNumeral ν] in
/-- Where nothing overflows, a key that memory does not hold keeps its place. -/
theorem not_overtakes_of_not_overflows {e : Engine ν} (hwf : e.WF) (hnum : e.Numbered)
    (hsettled : e.Settled) {run : List (Segment ν)}
    (hchoose : chooseRun e.config e.manifest.segments = some run)
    (hrun : Contiguous e.manifest.segments run) {now : Int64} {key : String}
    (hmem : e.memVersions key = []) (hnot : ¬ e.Overflows (.compact now) key) {id : Nat}
    (hid : slotOf (e.outputs run none now) key = some id) : ¬ e.Overtakes run id key := by
  obtain ⟨slot, hslot, hlies⟩ := assignedSlot_of_slotOf hnum hid
  rw [hlies.overtakes_iff]
  rcases hslot.cases with hin | ⟨rfl, hlong⟩
  · exact not_overtakes_of_contiguous hrun hin key
  · -- A fresh id: the segment overtaken is newer than the run.
    rintro ⟨s, hs, hheld, t, ht, -, hbetween⟩
    have hlt := hnum s (mem_outside.1 hs).1
    have hts : t.id < s.id := by omega
    refine hnot ⟨hmem, run, hchoose, ?_, hlong, s, hs, fun u hu => ?_, hheld⟩
    · obtain ⟨o, hfind, -⟩ := Option.map_eq_some_iff.1 hid
      have ho := List.mem_of_find?_eq_some hfind
      obtain ⟨r, hr⟩ := Option.isSome_iff_exists.1
        (List.find?_some (p := fun o : Segment ν => (rowOf o.rows key).isSome) hfind)
      have hrow : rowOf (keptRows e.config now none (runRows run)) key = some r := by
        rw [← flatMap_rows_outputs, rowOf_eq_some_iff (e.outputs_sorted run none now)]
        exact ⟨List.mem_flatMap.2 ⟨o, ho, (rowOf_eq_some hr).1⟩, (rowOf_eq_some hr).2⟩
      rw [hsettled.rowOf_kept hrun.toRunOf (fun s hs => hwf.sorted (hrun.subset hs)),
        Option.filter_eq_some_iff] at hrow
      obtain ⟨i, hnewest⟩ := (head?_segVersions_iff_holds hrun.nodup).1 hrow.1
      exact ⟨i, r, hnewest, hrow.2⟩
    · have hall := (liesBeyond_of_contiguous hrun ht hs).1
      rw [decide_eq_true hts, List.all_eq_true] at hall
      exact of_decide_eq_true (hall u hu)

omit [LawfulNumeral ν] in
/-- A key the run does not hold. -/
theorem versions_compacted_of_none {e : Engine ν} (hwf : e.WF) (hnum : e.Numbered)
    (hsettled : e.Settled) {run : List (Segment ν)} (hrun : RunOf e.manifest.segments run)
    {now : Int64} {key : String} (hempty : segVersions run key = []) :
    (e.rewritten run none now).versions key = e.versions key := by
  have hd : ((e.outside run ++ e.outputs run none now).map Segment.id).Nodup :=
    rewritten_ids_nodup hwf.ids_nodup hrun (Or.inl hnum)
  have hrow := hsettled.rowOf_kept hrun (fun s hs => hwf.sorted (hrun.subset hs)) now key
  rw [hempty] at hrow
  rcases segVersions_rewritten hd key with ⟨-, hvs⟩ | ⟨m, o, -, hm, -, -⟩
  · rw [versions_eq, hvs, segVersions_outside_of_none hwf.ids_nodup hrun hempty, versions_eq]
    rfl
  · rw [hrow] at hm
    cases hm

omit [LawfulNumeral ν] in
/-- A compaction that moves nothing: the versions of a key in the run give way to the newest of
them, or to none when that one is expired. -/
theorem versions_compacted {e : Engine ν} (hwf : e.WF) (hnum : e.Numbered) (hsettled : e.Settled)
    {run : List (Segment ν)} (hrun : Contiguous e.manifest.segments run) {now : Int64}
    {key : String} (hne : segVersions run key ≠ [])
    (hnot : ∀ slot, slotOf (e.outputs run none now) key = some slot → ¬ e.Overtakes run slot key) :
    (e.rewritten run none now).versions key =
      e.versionsAbove run key ++ (((segVersions run key).head?.filter
        (e.config.retentionPolicy.keeps now)).toList ++ e.versionsBelow run key) := by
  have hd : ((e.outside run ++ e.outputs run none now).map Segment.id).Nodup :=
    rewritten_ids_nodup hwf.ids_nodup hrun.toRunOf (Or.inl hnum)
  have hrow := hsettled.rowOf_kept hrun.toRunOf (fun s hs => hwf.sorted (hrun.subset hs)) now key
  rw [← hrow]
  rcases segVersions_rewritten hd key with ⟨hnone, hvs⟩ | ⟨m, o, ho, hm, hslot, hvs⟩
  · -- The newest version in the run has expired: nothing is written.
    rw [hnone, versions_eq, hvs]
    exact (versions_split hwf.ids_nodup hrun hne).2
  · have hfree : ∀ s ∈ e.outside run, s.id ≠ o.id := by
      intro s hsout heq
      rw [List.map_append] at hd
      exact (List.nodup_append.1 hd).2.2 s.id (List.mem_map_of_mem hsout) o.id
        (List.mem_map_of_mem ho) heq
    obtain ⟨habove, hbelow⟩ :=
      laid_eq_of_not_overtakes hwf.ids_nodup hrun hfree (hnot o.id hslot) hne
    rw [hm, ← habove, ← hbelow, versions_eq, hvs, laidAbove, laidBelow, List.append_assoc]
    rfl

omit [LawfulNumeral ν] in
/-- Of full versions a compaction brings no new ones. -/
theorem versions_compacted_subset {e : Engine ν} (hwf : e.WF) (hnum : e.Numbered)
    (hsettled : e.Settled) {run : List (Segment ν)} (hrun : RunOf e.manifest.segments run)
    {now : Int64} {key : String} :
    (e.rewritten run none now).versions key ⊆ e.versions key := by
  have hd : ((e.outside run ++ e.outputs run none now).map Segment.id).Nodup :=
    rewritten_ids_nodup hwf.ids_nodup hrun (Or.inl hnum)
  have hrow := hsettled.rowOf_kept hrun (fun s hs => hwf.sorted (hrun.subset hs)) now key
  have hsegment : ∀ {segments : List (Segment ν)}, (∀ s ∈ segments, s ∈ e.manifest.segments) →
      ∀ v ∈ segVersions segments key, v ∈ e.versions key := by
    intro segments hsub v hv
    obtain ⟨s, hs, hrow⟩ := mem_segVersions.1 hv
    exact mem_versions_of_segment (hsub s hs) hrow
  have houtside : ∀ s ∈ e.outside run, s ∈ e.manifest.segments := fun s hs => (mem_outside.1 hs).1
  intro v hv
  rw [versions_eq, List.mem_append] at hv
  rcases hv with hv | hv
  · rw [versions_eq, List.mem_append]
    exact Or.inl hv
  · rcases segVersions_rewritten hd key with ⟨-, hvs⟩ | ⟨m, o, -, hm, -, hvs⟩
    · rw [hvs] at hv
      exact hsegment houtside v hv
    · rw [hvs, List.mem_append, List.mem_cons] at hv
      rcases hv with hv | rfl | hv
      · exact hsegment (fun s hs => houtside s (List.mem_of_mem_filter hs)) v hv
      · rw [hrow, Option.filter_eq_some_iff] at hm
        exact hsegment (fun s hs => hrun.subset hs) v (List.mem_of_mem_head? hm.1)
      · exact hsegment (fun s hs => houtside s (List.mem_of_mem_filter hs)) v hv

omit [LawfulNumeral ν] in
theorem versions_compacted_sublist {e : Engine ν} (hwf : e.WF) (hnum : e.Numbered)
    (hsettled : e.Settled) {run : List (Segment ν)} (hrun : Contiguous e.manifest.segments run)
    {now : Int64} {key : String}
    (hnot : ∀ slot, slotOf (e.outputs run none now) key = some slot → ¬ e.Overtakes run slot key) :
    ((e.rewritten run none now).versions key).Sublist (e.versions key) := by
  by_cases hempty : segVersions run key = []
  · rw [versions_compacted_of_none hwf hnum hsettled hrun.toRunOf hempty]
  · rw [versions_compacted hwf hnum hsettled hrun hempty hnot,
      (versions_split hwf.ids_nodup hrun hempty).1]
    refine List.Sublist.append (List.Sublist.refl _)
      (List.Sublist.append ?_ (List.Sublist.refl _))
    -- Of the versions in the run the newest is left, unless it has expired.
    cases segVersions run key with
    | nil => exact List.Sublist.refl _
    | cons m rest =>
        rw [List.head?_cons, Option.filter_some]
        split
        · exact List.singleton_sublist.2 List.mem_cons_self
        · exact List.nil_sublist _

omit [Unicode] [LawfulNumeral ν] in
theorem runPass_compact_none {e : Engine ν} {now : Int64}
    (h : chooseRun e.config e.manifest.segments = none) : e.runPass (.compact now) = e := by
  simp [runPass, compact, h]

omit [Unicode] [LawfulNumeral ν] in
theorem runPass_compact_some {e : Engine ν} {run : List (Segment ν)} {now : Int64}
    (h : chooseRun e.config e.manifest.segments = some run)
    (hall : ∀ m ∈ run, mergeable e.config m = true) :
    e.runPass (.compact now) = e.rewritten run none now := by
  simp [runPass, compact, h, compactRun_chosen hall now, Except.map]

omit [Unicode] [LawfulNumeral ν] [SegmentFile ν] in
/-- Memory hides what the segments hold. -/
theorem Settled.valueOf_of_mem {e e' : Engine ν} (h : e.Settled) (h' : e'.Settled) {key : String}
    (hsame : e'.memVersions key = e.memVersions key) (hmem : e.memVersions key ≠ []) :
    e'.valueOf key = e.valueOf key := by
  obtain ⟨v, rest, hvs⟩ := List.exists_cons_of_ne_nil hmem
  rw [h.valueOf_eq, h'.valueOf_eq, versions_eq, versions_eq, hsame, hvs]
  rfl

omit [Unicode] [Numeral ν] [LawfulNumeral ν] [SegmentFile ν] in
/-- With nothing above the run, its newest version of a key is the newest in the segments. -/
theorem newestAt_of_above_nil {e : Engine ν} {run : List (Segment ν)}
    (hrun : Contiguous e.manifest.segments run) {key : String} {id : Nat} {m : Record ν}
    (h : NewestAt run key id m) (habove : e.versionsAbove run key = []) :
    NewestAt e.manifest.segments key id m := by
  obtain ⟨⟨t, ht, rfl, hrow⟩, hnewest⟩ := h
  refine ⟨⟨t, hrun.subset ht, rfl, hrow⟩, ?_⟩
  rintro j v ⟨s, hs, rfl, hheld⟩
  by_contra hlt
  by_cases hin : s.id ∈ run.map Segment.id
  · obtain ⟨u, hu, hid⟩ := List.mem_map.1 hin
    have hle := hrun.interval hs ht hu (not_le.1 hlt).le hid.ge
    exact hlt (hnewest s.id v ⟨s, hle, rfl, hheld⟩)
  · have hout : s ∈ e.outside run := mem_outside.2 ⟨hs, hin⟩
    have hmem : v ∈ e.versionsAbove run key := by
      rw [versionsAbove, List.mem_append, mem_segVersions]
      refine Or.inr ⟨s, List.mem_filter.2 ⟨hout, ?_⟩, hheld⟩
      rw [(liesBeyond_of_contiguous hrun ht hout).1]
      exact decide_eq_true (not_le.1 hlt)
    rw [habove] at hmem
    cases hmem

omit [LawfulNumeral ν] in
/-- What is left of a key whose winning version a compaction drops. -/
theorem compact_drops_winner {e : Engine ν} (hwf : e.WF) (hnum : e.Numbered) (hsettled : e.Settled)
    {run : List (Segment ν)} (hrun : Contiguous e.manifest.segments run) {now : Int64}
    (htouched : e.touched (.compact now) = run) {key : String}
    (hexposes : ¬ e.Exposes (.compact now) key) (habove : e.versionsAbove run key = [])
    {m : Record ν} (hnewest : (segVersions run key).head? = some m)
    (hexp : e.config.retentionPolicy.keeps now m = false) :
    (e.rewritten run none now).valueOf key = none := by
  have hmem : e.memVersions key = [] := (List.append_eq_nil_iff.1 habove).1
  have hfold : e.ExpiredFold run now key :=
    ⟨m, (hsettled.stack_run hrun.toRunOf key).trans hnewest, hexp⟩
  have hfull : ∀ v ∈ segVersions (e.outside run) key, v.isDelta = false := by
    intro v hv
    obtain ⟨t, ht, hrow⟩ := mem_segVersions.1 hv
    exact hsettled.full (mem_versions_of_segment (mem_outside.1 ht).1 hrow)
  rw [valueOf_rewritten_dropped hwf hnum hrun.toRunOf hfold, versionsOutside, hmem, List.nil_append,
    readVersions_of_full hfull]
  cases hleft : (segVersions (e.outside run) key).head? with
  | none => rfl
  | some v =>
      -- The winner sits in the run, so what is left must be a tombstone.
      have hd : ((e.outside run).map Segment.id).Nodup := nodup_map_filter hwf.ids_nodup _
      obtain ⟨id, hid⟩ := (head?_segVersions_iff_holds hrun.nodup).1 hnewest
      obtain ⟨id', hid'⟩ := (head?_segVersions_iff_holds hd).1 hleft
      have htomb : v.isTombstone = true := by
        by_contra hlive
        refine hexposes ⟨hmem, id, m, newestAt_of_above_nil hrun hid habove, ?_, hexp, id', v, ?_, ?_⟩
        · obtain ⟨t, ht, rfl, -⟩ := hid.1
          exact htouched ▸ List.mem_map_of_mem ht
        · exact htouched ▸ hid'
        · simpa using hlive
      simp [Record.surface_eq, htomb]

/-- A clean compaction. -/
theorem compact_spec {e : Engine ν} (hwf : e.WF) (hnum : e.Numbered) (hsettled : e.Settled)
    {now : Int64} (hclean : e.Clean (.compact now)) :
    PassSpec e (e.runPass (.compact now)) now := by
  cases hchoose : chooseRun e.config e.manifest.segments with
  | none =>
      rw [runPass_compact_none hchoose]
      exact ⟨hwf, hnum, hsettled, fun key => Or.inl rfl⟩
  | some run =>
      obtain ⟨hrun, hall⟩ := chooseRun_contiguous hwf.ids_nodup hchoose
      rw [runPass_compact_some hchoose hall]
      have hwf' : (e.rewritten run none now).WF := rewritten_wf hwf hrun.toRunOf (Or.inl hnum)
      have hnot : ∀ key, e.memVersions key = [] →
          ∀ slot, slotOf (e.outputs run none now) key = some slot → ¬ e.Overtakes run slot key :=
        fun key hmem slot hslot =>
          not_overtakes_of_not_overflows hwf hnum hsettled hchoose hrun hmem (hclean key).2 hslot
      have hsettled' : (e.rewritten run none now).Settled :=
        ⟨fun hv => hsettled.full (versions_compacted_subset hwf hnum hsettled hrun.toRunOf hv),
          fun {key} hmem => (hsettled.ordered hmem).sublist
            (versions_compacted_sublist hwf hnum hsettled hrun (hnot key hmem))⟩
      refine ⟨hwf', rewritten_numbered hnum hrun.toRunOf none now, hsettled', fun key => ?_⟩
      rw [Unresurrected, getOnce_eq hwf', getOnce_eq hwf]
      by_cases hmem : e.memVersions key = []
      · by_cases hempty : segVersions run key = []
        · left
          rw [hsettled'.valueOf_eq, hsettled.valueOf_eq,
            versions_compacted_of_none hwf hnum hsettled hrun.toRunOf hempty]
        · have hbefore := (versions_split hwf.ids_nodup hrun hempty).1
          have hafter := versions_compacted hwf hnum hsettled hrun hempty (hnot key hmem)
          obtain ⟨m, rest, hvs⟩ := List.exists_cons_of_ne_nil hempty
          rw [hsettled'.valueOf_eq, hsettled.valueOf_eq, hbefore, hafter]
          cases habove : e.versionsAbove run key with
          | cons v above => exact Or.inl rfl
          | nil =>
              rw [hvs]
              cases hkeep : e.config.retentionPolicy.keeps now m with
              | true => simp [Option.filter, hkeep]
              | false =>
                  -- The winning version is dropped: what is left must read as absent.
                  have htouched : e.touched (.compact now) = run := by simp [touched, hchoose]
                  have hnone := compact_drops_winner hwf hnum hsettled hrun htouched (hclean key).1
                    habove (by rw [hvs]; rfl) hkeep
                  rw [hsettled'.valueOf_eq, hafter, habove, hvs] at hnone
                  exact Or.inr ⟨hnone, m, rfl, hkeep⟩
      · exact Or.inl (hsettled.valueOf_of_mem hsettled' rfl hmem)

omit [Unicode] [Numeral ν] [LawfulNumeral ν] [SegmentFile ν] in
/-- Every version of a key is dated no later than its newest one. -/
theorem Settled.timestamp_le {e : Engine ν} (hsettled : e.Settled) {key : String}
    (hmem : e.memVersions key = []) {h v : Record ν}
    (hhead : (e.versions key).head? = some h) (hv : v ∈ e.versions key) :
    v.timestamp ≤ h.timestamp := by
  have hordered := hsettled.ordered hmem
  obtain ⟨rest, hvs⟩ := List.head?_eq_some_iff.1 hhead
  rw [hvs] at hordered hv
  rcases List.mem_cons.1 hv with rfl | hv
  · exact le_refl _
  · exact (List.pairwise_cons.1 hordered).1 v hv

/-- A groom pass that drops the winning version drops every older one in its candidates too. -/
theorem head?_groomed_of_dropped {e : Engine ν} (hwf : e.WF) (hsettled : e.Settled)
    {now : Int64} {key : String} (hnone : e.memVersions key = []) {h : Record ν} (hhead : (e.versions key).head? = some h)
    (hexp : e.config.retentionPolicy.keeps now h = false) :
    (segVersions (e.groom now).1.manifest.segments key).head? =
      (segVersions (e.outside (e.groomCandidates now)) key).head? := by
  have hgroomed := groom_groomed hwf now
  have hd : ((e.outside (e.groomCandidates now)).map Segment.id).Nodup :=
    nodup_map_filter hwf.ids_nodup _
  refine head?_segVersions_congr hgroomed.wf.ids_nodup hd (fun i r => ?_)
  rw [hgroomed.holds, holds_outside]
  refine and_congr_right (fun hr => ⟨fun hkeep hcand => ?_, fun hnot hcand => absurd hcand hnot⟩)
  obtain ⟨s, hs, -, hrow⟩ := hr
  have hmem : r ∈ e.versions key := mem_versions_of_segment hs hrow
  have hkey : r.key = h.key :=
    (key_of_mem_versions hmem).trans
      (key_of_mem_versions (List.mem_of_mem_head? (Option.mem_def.2 hhead))).symm
  rw [keeps_mono hkey (hsettled.timestamp_le hnone hhead hmem) hexp] at hkeep
  exact absurd (hkeep hcand) (by simp)

/-- A clean groom pass. -/
theorem groom_spec {e : Engine ν} (hwf : e.WF) (hnum : e.Numbered) (hsettled : e.Settled)
    {now : Int64} (hclean : e.Clean (.groom now)) : PassSpec e (e.runPass (.groom now)) now := by
  have hgroomed := groom_groomed hwf now
  have hsettled' : (e.groom now).1.Settled :=
    ⟨fun hv => hsettled.full ((hgroomed.sublist _).subset hv), fun {key} hmem =>
      (hsettled.ordered ((hgroomed.memVersions_eq key).symm.trans hmem)).sublist
        (hgroomed.sublist key)⟩
  refine ⟨hgroomed.wf, hgroomed.numbered hnum, hsettled', fun key => ?_⟩
  show e.Unresurrected (e.groom now).1 now key
  unfold Unresurrected
  rw [getOnce_eq hgroomed.wf, getOnce_eq hwf]
  by_cases hmem : e.memVersions key = []
  case neg => exact Or.inl (hsettled.valueOf_of_mem hsettled' (hgroomed.memVersions_eq key) hmem)
  rw [hsettled'.valueOf_eq, hsettled.valueOf_eq, versions_eq, versions_eq,
    hgroomed.memVersions_eq, hmem, List.nil_append, List.nil_append]
  cases hhead : (segVersions e.manifest.segments key).head? with
  | none =>
      have hsub := hgroomed.sublist key
      rw [versions_eq, versions_eq e, hgroomed.memVersions_eq, hmem, List.nil_append,
        List.nil_append, List.head?_eq_none_iff.1 hhead, List.sublist_nil] at hsub
      simp [hsub]
  | some h =>
      obtain ⟨id, hid⟩ := (head?_segVersions_iff_holds hwf.ids_nodup).1 hhead
      by_cases hdrop : id ∈ (e.groomCandidates now).map Segment.id ∧
          e.config.retentionPolicy.keeps now h = false
      · -- The winning version is dropped, and with it every older one the pass touches.
        refine Or.inr ⟨?_, h, rfl, hdrop.2⟩
        have hhead₀ : (e.versions key).head? = some h := by
          rw [versions_eq, hmem]
          exact hhead
        rw [head?_groomed_of_dropped hwf hsettled hmem hhead₀ hdrop.2]
        cases hleft : (segVersions (e.outside (e.groomCandidates now)) key).head? with
        | none => rfl
        | some v =>
            have hd : ((e.outside (e.groomCandidates now)).map Segment.id).Nodup :=
              nodup_map_filter hwf.ids_nodup _
            obtain ⟨id', hid'⟩ := (head?_segVersions_iff_holds hd).1 hleft
            have htomb : v.isTombstone = true := by
              by_contra hlive
              exact (hclean key).1
                ⟨hmem, id, h, hid, hdrop.1, hdrop.2, id', v, hid', by simpa using hlive⟩
            simp [Record.surface_eq, htomb]
      · left
        have hkept : Holds (e.groom now).1.manifest.segments key id h := by
          refine hgroomed.holds.2 ⟨hid.1, fun hmemid => ?_⟩
          by_contra hexp
          exact hdrop ⟨hmemid, by simpa using hexp⟩
        have hhead' : (segVersions (e.groom now).1.manifest.segments key).head? = some h :=
          (head?_segVersions_iff_holds hgroomed.wf.ids_nodup).2
            ⟨id, hkept, fun j v hj => hid.2 j v (hgroomed.holds.1 hj).1⟩
        rw [hhead']

/-- Every clean pass keeps the invariants and resurrects nothing. -/
theorem runPass_spec {e : Engine ν} (hwf : e.WF) (hnum : e.Numbered) (hsettled : e.Settled)
    {pass : MaintenancePass} (hclean : e.Clean pass) : PassSpec e (e.runPass pass) pass.now := by
  cases pass with
  | compact now => exact compact_spec hwf hnum hsettled hclean
  | groom now => exact groom_spec hwf hnum hsettled hclean

end Step

/-! ## Whole runs -/

section Runs

variable [Unicode] [Numeral ν] [LawfulNumeral ν] [SegmentFile ν]

/-- One clean pass. -/
def CleanStep (e e' : Engine ν) : Prop :=
  ∃ pass, e.Clean pass ∧ e' = e.runPass pass

/-- Any number of clean passes. -/
def CleanRun : Engine ν → Engine ν → Prop := Relation.ReflTransGen CleanStep

theorem invariants_of_cleanRun {e e' : Engine ν} (hrun : CleanRun e e')
    (hinv : e.WF ∧ e.Numbered ∧ e.Settled) : e'.WF ∧ e'.Numbered ∧ e'.Settled := by
  induction hrun with
  | refl => exact hinv
  | tail _ hstep ih =>
      obtain ⟨pass, hclean, rfl⟩ := hstep
      have hspec := runPass_spec ih.1 ih.2.1 ih.2.2 hclean
      exact ⟨hspec.wf, hspec.numbered, hspec.settled⟩

/-- Along every run of clean passes a read only ever changes to absent, and only when the winning
version is expired; a key that reads as absent stays absent. -/
theorem clean_runs_never_resurrect {e₀ : Engine ν} (hwf : e₀.WF) (hnum : e₀.Numbered)
    (hdated : e₀.Dated) {e : Engine ν} (hrun : CleanRun e₀ e) :
    (∀ pass, e.Clean pass → ∀ key, e.Unresurrected (e.runPass pass) pass.now key) ∧
      ∀ e', CleanRun e e' → ∀ key, e.getOnce key = none → e'.getOnce key = none := by
  have hinv := invariants_of_cleanRun hrun ⟨hwf, hnum, hdated.settled⟩
  refine ⟨fun pass hclean => (runPass_spec hinv.1 hinv.2.1 hinv.2.2 hclean).reads, ?_⟩
  intro e' hrun' key habsent
  -- Induction on the run, with the invariants at hand in every state.
  induction hrun' with
  | refl => exact habsent
  | tail hpre hstep ih =>
      obtain ⟨pass, hclean, rfl⟩ := hstep
      have hinv' := invariants_of_cleanRun hpre hinv
      rcases (runPass_spec hinv'.1 hinv'.2.1 hinv'.2.2 hclean).reads key with hsame | ⟨hnone, -⟩
      · rw [hsame, ih]
      · exact hnone

end Runs

end Engine

section Sample

local instance instTicksUnicode : Unicode := asciiUnicode

local instance instTicksFile : SegmentFile Int := footprintFile Int

/-- A deleted key: its tombstone can be compacted, its old version sits in a cold segment that is
only partly expired. -/
def deletedStore : Engine Int where
  config := { compactMinSegments := 2, retentionNanos := some 10 }
  manifest :=
    { nextSegmentId := 3
      segments :=
        [{ Segment.ofRows 0 [Record.bare "k" 1, Record.bare "y" 99] with tier := .cold },
          Segment.ofRows 1 [Record.tombstone "k" 2], Segment.ofRows 2 [Record.bare "x" 99]] }

/-- At time 100 a tick drops the tombstone and the deleted key is back. -/
theorem tick_resurrects :
    ¬ ∀ (e : Engine Int) (now now' : Int64) (key : String), e.WF → e.Numbered → e.Dated →
      now ≤ now' →
      (e.tick now now').getOnce key = e.getOnce key ∨ (e.tick now now').getOnce key = none := by
  intro h
  have hreads := h deletedStore 100 100 "k"
    (Engine.wf_of_segments rfl rfl (by decide) (by decide)) (by unfold Engine.Numbered; decide)
    (Engine.Dated.of_sources (by decide) (by decide)) (by decide)
  revert hreads
  decide

/-- A deleted key whose old version and tombstone are compacted together, under a cold segment. -/
def tidyStore : Engine Int where
  config := { compactMinSegments := 2, retentionNanos := some 10 }
  manifest :=
    { nextSegmentId := 3
      segments :=
        [Segment.ofRows 0 [Record.bare "k" 1], Segment.ofRows 1 [Record.tombstone "k" 2],
          { Segment.ofRows 2 [Record.bare "x" 99] with tier := .cold }] }

/-- The tick drops both versions, and the key stays away. -/
theorem tidyStore_never_resurrects :
    tidyStore.getOnce "k" = none ∧ (tidyStore.tick 100 101).manifest.segments.map Segment.id = [2] ∧
      (tidyStore.tick 100 101).getOnce "k" = none := by
  have hcompact : tidyStore.Clean (.compact 100) := by
    have hrun : tidyStore.touched (.compact 100) = tidyStore.manifest.segments.take 2 := by rfl
    -- The run holds one key, and what lies outside holds another.
    have hin : ∀ s ∈ tidyStore.manifest.segments,
        s.id ∈ (tidyStore.manifest.segments.take 2).map Segment.id → ∀ r ∈ s.rows, r.key = "k" := by
      decide
    have hout : ∀ s ∈ tidyStore.outside (tidyStore.manifest.segments.take 2), ∀ r ∈ s.rows,
        r.key = "x" := by decide
    have hapart : ∀ {s t : Segment Int} {key : String} {r v : Record Int},
        s ∈ tidyStore.manifest.segments →
        s.id ∈ (tidyStore.manifest.segments.take 2).map Segment.id → rowOf s.rows key = some r →
        t ∈ tidyStore.outside (tidyStore.manifest.segments.take 2) → rowOf t.rows key ≠ some v := by
      intro s t key r v hs hid hrow ht htrow
      have hk := hin s hs hid r (rowOf_eq_some hrow).1
      have hx := hout t ht v (rowOf_eq_some htrow).1
      rw [(rowOf_eq_some hrow).2] at hk
      rw [(rowOf_eq_some htrow).2, hk] at hx
      revert hx
      decide
    intro key
    constructor
    · rintro ⟨-, id, h, ⟨⟨s, hs, rfl, hrow⟩, -⟩, hid, -, id', v, ⟨⟨t, ht, rfl, htrow⟩, -⟩, -⟩
      rw [hrun] at hid ht
      exact hapart hs hid hrow ht htrow
    · rintro ⟨-, run, hrun', ⟨id, h, ⟨⟨t, ht, rfl, htrow⟩, -⟩, -⟩, -, s, hs, -, hheld⟩
      obtain rfl : tidyStore.manifest.segments.take 2 = run := Option.some.inj hrun'
      obtain ⟨r, hr⟩ := Option.isSome_iff_exists.1 hheld
      exact hapart (List.mem_of_mem_take ht) (List.mem_map_of_mem ht) htrow hs hr
  have hgroom : (tidyStore.runPass (.compact 100)).Clean (.groom 101) := by
    have htouched : (tidyStore.runPass (.compact 100)).touched (.groom 101) = [] := by rfl
    refine fun key => ⟨?_, id⟩
    rintro ⟨-, id, h, -, hin, -⟩
    rw [htouched] at hin
    cases hin
  exact ⟨by decide, by decide, (Engine.clean_runs_never_resurrect (e := tidyStore)
    (Engine.wf_of_segments rfl rfl (by decide) (by decide)) (by unfold Engine.Numbered; decide)
    (Engine.Dated.of_sources (by decide) (by decide)) .refl).2 _
    ((Relation.ReflTransGen.single ⟨_, hcompact, rfl⟩).tail ⟨_, hgroom, rfl⟩) "k" (by decide)⟩

end Sample

end Girder
