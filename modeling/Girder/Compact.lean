import Girder.Placement

/-!
# Compact — what a compaction pass does to reads

A pass rewrites the run `chooseRun` picks.  The run is an interval of the id order, so as long as
its chunks fit its ids nothing is overtaken, and a key can change only because its versions in the
run are merged ahead of time.

* `getOnce_compactRun`: without retention the pass is invisible to point reads of a key whose run
  versions do not regroup, and of any other key exactly when its numbers add up to the same with
  those of the run added first (`SumsAgree`), as they do in exact arithmetic.
* `chunks_fit_iff_cuttable`: the chunks fit the run's ids exactly when the merged rows can be cut
  into that many slices within both caps.
-/

namespace Girder

open Lib

variable {ν : Type}

namespace Engine

/-! ## Without retention -/

section Invisible

variable [Unicode] [Numeral ν] [LawfulNumeral ν] [SegmentFile ν]

omit [Unicode] [Numeral ν] [LawfulNumeral ν] [SegmentFile ν] in
theorem keepsRow_of_isEmpty {config : Config} (h : config.retentionPolicy.isEmpty = true)
    (now : Int64) (m : Record ν) : config.keepsRow now none m = true := by
  simp [Config.keepsRow, RetentionPolicy.keeps_of_isEmpty h]

omit [Unicode] [LawfulNumeral ν] in
/-- A chosen run whose chunks fit its ids overtakes nothing. -/
theorem not_overtakes_of_fits {e : Engine ν} {run : List (Segment ν)} {purge : Option String}
    {now : Int64} (hrun : Contiguous e.manifest.segments run) (hfits : e.Fits run purge now)
    {key : String} {slot : Nat} (hslot : slotOf (e.outputs run purge now) key = some slot) :
    ¬ e.Overtakes run slot key := by
  obtain ⟨o, ho, rfl⟩ := Option.map_eq_some_iff.1 hslot
  exact not_overtakes_of_contiguous hrun
    (output_id_of_fits hfits (List.mem_of_find?_eq_some ho)) key

omit [Unicode] [LawfulNumeral ν] in
theorem compactRun_chosen {e : Engine ν} {run : List (Segment ν)}
    (hall : ∀ m ∈ run, mergeable e.config m = true) (now : Int64) :
    e.compactRun run none now = .ok (e.rewritten run none now) := by
  refine compactRun_of_hot none now (fun s hs => ?_)
  have hm := hall s hs
  simp only [mergeable, Bool.and_eq_true, decide_eq_true_eq] at hm
  exact hm.1.1

omit [Unicode] [LawfulNumeral ν] [SegmentFile ν] in
/-- Exact sums agree, whatever the grouping. -/
theorem sumsAgree_of_exact [ExactNumeral ν] {above run below : List (Record ν)}
    (hplain : ∀ v ∈ above ++ (run ++ below), v.PlainDelta) : SumsAgree above run below := by
  refine (readVersions_merged_iff (fun _ v hv => hplain v ?_) above below).1
    (readVersions_collapse_exact hplain)
  simp [hv]

omit [LawfulNumeral ν] in
/-- One key, one pass that overtakes nothing: unchanged exactly when the sums agree. -/
theorem valueOf_compacted_iff {e : Engine ν} (hwf : e.WF) {run : List (Segment ν)}
    (hrun : Contiguous e.manifest.segments run) (hret : e.config.retentionPolicy.isEmpty = true)
    {now : Int64} (hfits : e.Fits run none now) (key : String)
    (hplain : Regroups run key = true → ∀ v ∈ segVersions run key, v.PlainDelta) :
    (e.rewritten run none now).valueOf key = e.valueOf key ↔
      SumsAgree (e.versionsAbove run key) (segVersions run key) (e.versionsBelow run key) := by
  have hkeep : ∀ m, (recordLayers ν).stack (segVersions run key) = some m →
      e.config.keepsRow now none m = true := fun m _ => keepsRow_of_isEmpty hret now m
  have hnot : ∀ slot, slotOf (e.outputs run none now) key = some slot →
      ¬ e.Overtakes run slot key := fun slot hslot => not_overtakes_of_fits hrun hfits hslot
  cases hgroup : Regroups run key with
  | false =>
      refine iff_of_true ?_ (fun name => (groupedSum_of_not_regroups hgroup name _ _).symm)
      exact valueOf_rewritten hwf hrun.toRunOf (Or.inr hfits) hkeep hnot
        (fun above below _ => readVersions_collapse hgroup above below)
  | true =>
      have hplain := hplain hgroup
      have hne := ne_nil_of_regroups hgroup
      obtain ⟨hbefore, -⟩ := versions_split hwf.ids_nodup hrun hne
      have hd := rewritten_ids_nodup hwf.ids_nodup hrun.toRunOf (Or.inr hfits)
      obtain ⟨m, hm⟩ : ∃ m, (recordLayers ν).stack (segVersions run key) = some m :=
        Option.ne_none_iff_exists'.1 (mt (recordLayers ν).stack_eq_none_iff.1 hne)
      have hkept : rowOf (keptRows e.config now none (runRows run)) key = some m := by
        rw [rowOf_keptRows_run e.config now none hrun.nodup
          (fun s hs => hwf.sorted (hrun.subset hs)) key, hm]
        simp [Option.filter, hkeep m hm]
      -- The row stands at an id of the run, so above and below it is above and below the run.
      obtain ⟨id, hid, hafter⟩ := versions_rewritten hd hkept
      obtain ⟨o, ho, rfl⟩ := Option.map_eq_some_iff.1 hid
      have hin : o.id ∈ run.map Segment.id :=
        output_id_of_fits hfits (List.mem_of_find?_eq_some ho)
      rw [← versionsAbove_eq hrun hin, ← versionsBelow_eq hrun hin] at hafter
      rw [← readVersions_merged_iff (fun _ => hplain), hm, valueOf, valueOf, hafter, hbefore]
      rfl

/-- Compacting a chosen run whose chunks fit its ids leaves a point read alone, in any arithmetic for
a key whose run versions do not regroup, and otherwise exactly when adding the numbers of the run
first makes no difference, as it never does in exact arithmetic. -/
theorem getOnce_compactRun {e : Engine ν} (hwf : e.WF) {run : List (Segment ν)}
    (hchoose : chooseRun e.config e.manifest.segments = some run)
    (hret : e.config.retentionPolicy.isEmpty = true) (now : Int64)
    (hfits : e.Fits run none now) :
    ∃ e', e.compactRun run none now = .ok e' ∧
      ∀ key, (Regroups run key = false → e'.getOnce key = e.getOnce key) ∧
        ((∀ v ∈ segVersions run key, v.PlainDelta) →
          (e'.getOnce key = e.getOnce key ↔
            SumsAgree (e.versionsAbove run key) (segVersions run key)
              (e.versionsBelow run key))) ∧
        (ExactNumeral ν → (∀ v ∈ e.versions key, v.PlainDelta) →
          e'.getOnce key = e.getOnce key) := by
  obtain ⟨hrun, hall⟩ := chooseRun_contiguous hwf.ids_nodup hchoose
  have hwf' := rewritten_wf hwf hrun.toRunOf (Or.inr hfits)
  refine ⟨e.rewritten run none now, compactRun_chosen hall now, fun key => ?_⟩
  rw [getOnce_eq hwf', getOnce_eq hwf]
  have hiff := valueOf_compacted_iff hwf hrun hret hfits key
  have halone : Regroups run key = false →
      (e.rewritten run none now).valueOf key = e.valueOf key := by
    intro hgroup
    refine (hiff (fun h => ?_)).2 (fun name => (groupedSum_of_not_regroups hgroup name _ _).symm)
    rw [hgroup] at h
    cases h
  refine ⟨halone, fun hplain => hiff (fun _ => hplain), fun hexact hplain => ?_⟩
  cases hgroup : Regroups run key with
  | false => exact halone hgroup
  | true =>
      -- Exact addition does not depend on the grouping.
      obtain ⟨hbefore, -⟩ := versions_split hwf.ids_nodup hrun (ne_nil_of_regroups hgroup)
      rw [hbefore] at hplain
      exact (hiff (fun _ v hv => hplain v (by simp [hv]))).2 (sumsAgree_of_exact hplain)

end Invisible

end Engine

/-! ## Do the chunks fit the run's ids? -/

namespace Engine

section Fit

variable [Numeral ν] [SegmentFile ν]

omit [SegmentFile ν] in
/-- Kept rows need no more slices than all merged rows. -/
theorem fits_of_cuttable {e : Engine ν} {run : List (Segment ν)}
    (h : Cuttable recordBytes (max e.config.maxSegmentRecords 1) e.config.maxSegmentBytes run.length
      (rowsOf (mergeRows (runRows run)))) (purge : Option String) (now : Int64) :
    e.Fits run purge now := by
  unfold Fits outputChunks splitChunks
  rw [keptRows_eq]
  exact length_greedyChunks_le_iff.2 (h.filter _)

/-- The chunks of a run's merged rows fit its ids, and with them every output reuses one of them,
exactly when the rows can be cut into as many consecutive slices within both caps.  For a run
`chooseRun` returns, no row then moves past a segment outside it. -/
theorem chunks_fit_iff_cuttable (e : Engine ν) (run : List (Segment ν)) :
    (((splitChunks (rowsOf (mergeRows (runRows run))) e.config.maxSegmentRecords
            e.config.maxSegmentBytes).length ≤ run.length ∧
          ∀ now, ∀ o ∈ e.outputs run none now, o.id ∈ run.map Segment.id) ↔
        Cuttable recordBytes (max e.config.maxSegmentRecords 1) e.config.maxSegmentBytes run.length
          (rowsOf (mergeRows (runRows run)))) ∧
      (Cuttable recordBytes (max e.config.maxSegmentRecords 1) e.config.maxSegmentBytes run.length
          (rowsOf (mergeRows (runRows run))) → (e.manifest.segments.map Segment.id).Nodup →
        chooseRun e.config e.manifest.segments = some run →
          ∀ now key slot, slotOf (e.outputs run none now) key = some slot →
            ¬ e.Overtakes run slot key) := by
  refine ⟨⟨?_, fun hcut => ⟨length_greedyChunks_le_iff.2 hcut, fun now o ho => ?_⟩⟩, ?_⟩
  · rintro ⟨hlen, -⟩
    exact length_greedyChunks_le_iff.1 hlen
  · exact output_id_of_fits (fits_of_cuttable hcut none now) ho
  · intro hcut hd hchoose now key slot hslot
    exact not_overtakes_of_fits (chooseRun_contiguous hd hchoose).1
      (fits_of_cuttable hcut none now) hslot

end Fit

end Engine

section Sample

local instance instCompactUnicode : Unicode := asciiUnicode

local instance instCompactFile (ν : Type) : SegmentFile ν := footprintFile ν

/-- A counter whose base and first increment can be compacted, with an increment above them. -/
def counterStore {ν : Type} (base one : ν) : Engine ν where
  config := { compactMinSegments := 2 }
  manifest :=
    { nextSegmentId := 3
      segments :=
        [Segment.ofRows 0
            [{ (Record.bare "n" 1 : Record ν) with
                numerics := (∅ : OrdMap String ν).insert "hits" base }],
          Segment.ofRows 1 [Record.delta "n" 2 ((∅ : OrdMap String ν).insert "hits" one)],
          { Segment.ofRows 2 [Record.delta "n" 3 ((∅ : OrdMap String ν).insert "hits" one)]
            with tier := .cold }] }

/-- The base and both increments are one. -/
def onesStore : Engine Binary64 := counterStore ⟨0x3ff0000000000000⟩ ⟨0x3ff0000000000000⟩

/-- In doubles too one and one and one are three, whichever two are added first. -/
theorem getOnce_compactRun_counter :
    ∃ e', onesStore.compactRun (onesStore.manifest.segments.take 2) none 0 = .ok e' ∧
      e'.getOnce "n" = onesStore.getOnce "n" := by
  obtain ⟨e', hok, hread⟩ := Engine.getOnce_compactRun (e := onesStore)
    (Engine.wf_of_segments rfl rfl (by decide) (by decide)) (by rfl) (by decide) 0
    (by unfold Engine.Fits; decide)
  refine ⟨e', hok, ((hread "n").2.1 (by unfold Record.PlainDelta; decide)).2 (fun name => ?_)⟩
  by_cases hname : name = "hits"
  · subst hname
    decide +kernel
  · -- No version has another number.
    obtain ⟨term, hterm⟩ : ∃ term, term =
      ((∅ : OrdMap String Binary64).insert "hits" ⟨0x3ff0000000000000⟩)[name]? := ⟨_, rfl⟩
    have hnone : term = none := by simp [hterm, Ne.symm hname]
    suffices sumNewestFirst [term, term, term] = sumNewestFirst [term, sumOldestFirst [term, term]] by
      rw [hterm] at this
      exact this
    rw [hnone]
    rfl

/-- In doubles the pass can be seen: `2 ^ 53 + 1` is rounded before the last increment is added. -/
theorem compactRun_rounds :
    ¬ ∀ (e e' : Engine Binary64) (run : List (Segment Binary64)) (now : Int64), e.WF →
      chooseRun e.config e.manifest.segments = some run →
      e.config.retentionPolicy.isEmpty = true → e.Fits run none now →
      e.compactRun run none now = .ok e' → ∀ key, e'.getOnce key = e.getOnce key := by
  intro h
  have hread := h (counterStore ⟨0x4340000000000000⟩ ⟨0x3ff0000000000000⟩) _ _ 0
    (Engine.wf_of_segments rfl rfl (by decide) (by decide)) (by rfl) (by decide)
    (by unfold Engine.Fits; decide) (Engine.compactRun_of_hot none 0 (by decide)) "n"
  revert hread
  decide +kernel

/-- A record with a payload of 4000 bytes. -/
def fatRecord (key : String) : Record Int :=
  { (Record.bare key 0 : Record Int) with payload := List.replicate 4000 0 }

/-- Three segments of one fat record and four bare ones, the fat keys first. -/
def mixedStore : Engine Int where
  config :=
    { memtableMaxRecords := 5, compactMinSegments := 3, maxSegmentRecords := 6,
      maxSegmentBytes := 11000 }
  manifest :=
    { nextSegmentId := 3
      segments :=
        [{ Segment.ofRows 0 [fatRecord "a0", Record.bare "p0" 0, Record.bare "q0" 0,
              Record.bare "r0" 0, Record.bare "s0" 0] with bytes := 4170 },
          { Segment.ofRows 1 [fatRecord "a1", Record.bare "p1" 0, Record.bare "q1" 0,
              Record.bare "r1" 0, Record.bare "s1" 0] with bytes := 4170 },
          { Segment.ofRows 2 [fatRecord "a2", Record.bare "p2" 0, Record.bare "q2" 0,
              Record.bare "r2" 0, Record.bare "s2" 0] with bytes := 4170 }] }

/-- Fat records close chunks by bytes, bare ones by count: three unsealed segments make four
chunks. -/
theorem chosen_run_overflows :
    ¬ ∀ (e : Engine Int) (run : List (Segment Int)), e.WF → e.Numbered →
      e.config.memtableMaxRecords ≤ e.config.maxSegmentRecords →
      (∀ s ∈ e.manifest.segments, s.bytes = SegmentFile.fileBytes s.rows) →
      chooseRun e.config e.manifest.segments = some run →
      (splitChunks (rowsOf (mergeRows (Engine.runRows run))) e.config.maxSegmentRecords
        e.config.maxSegmentBytes).length ≤ run.length := by
  intro h
  have hlen := h mixedStore mixedStore.manifest.segments
    (Engine.wf_of_segments rfl rfl (by decide) (by decide)) (by unfold Engine.Numbered; decide)
    (by decide) (by decide +kernel) (by rfl)
  revert hlen
  decide +kernel

end Sample

end Girder
