import Girder.Compact

/-!
# Expiry — retention inside a compaction pass

A pass folds the versions of a key within its run and drops the fold when it is expired.  Versions
outside the run are not looked at, so a fold can be dropped although the key as a whole is active.

`active_keys_unchanged_iff` states when a pass leaves every active key alone: an expired fold goes
only under a newer full version, or when nothing lies above it and the versions outside the run
amount to the same, and a fold that stays keeps the sum of what lies around it.
-/

namespace Girder

open Lib

variable {ν : Type}

namespace Engine

variable [Numeral ν]

/-- Is the fold of a key over all sources unexpired? -/
def Active (e : Engine ν) (now : Int64) (key : String) : Prop :=
  ∃ r, (recordLayers ν).readNewest (e.versions key) = some r ∧
    e.config.retentionPolicy.keeps now r = true

/-- Is the fold of a key within the run expired? -/
def ExpiredFold (e : Engine ν) (run : List (Segment ν)) (now : Int64) (key : String) : Prop :=
  ∃ m, (recordLayers ν).stack (segVersions run key) = some m ∧
    e.config.retentionPolicy.keeps now m = false

/-- Increments, and nothing else, lie above the versions of a key in the run. -/
def Awaited (e : Engine ν) (run : List (Segment ν)) (key : String) : Prop :=
  segVersions run key ≠ [] ∧ e.versionsAbove run key ≠ [] ∧
    ∀ v ∈ e.versionsAbove run key, v.isDelta = true

/-- A segment that was not there before holds the key. -/
def WrittenTo (e e' : Engine ν) (run : List (Segment ν)) (key : String) : Prop :=
  ∃ s ∈ e'.manifest.segments, s ∉ e.outside run ∧ (rowOf s.rows key).isSome

/-- What keeps a pass from changing a key.  A fold it drops lies under a newer full version, or lies
under nothing and adds nothing to the versions outside the run; a fold it keeps can move and be
merged ahead of time. -/
structure FoldSafe (e : Engine ν) (run : List (Segment ν)) (now : Int64) (key : String) : Prop where
  dropped : e.ExpiredFold run now key →
    (∃ v ∈ e.versionsAbove run key, v.isDelta = false) ∨
      (e.versionsAbove run key = [] ∧ SameTally (e.versions key) (e.versionsOutside run key) [] [])
  kept : ¬ e.ExpiredFold run now key → e.SlotTallies run none now key

/-- A fold hidden by a newer full version may be dropped. -/
theorem readVersions_outside_of_hidden {e : Engine ν}
    (hd : (e.manifest.segments.map Segment.id).Nodup) {run : List (Segment ν)}
    (hrun : Contiguous e.manifest.segments run) {key : String} (hne : segVersions run key ≠ [])
    {v : Record ν} (hv : v ∈ e.versionsAbove run key) (hfull : v.isDelta = false) :
    readVersions (e.versionsOutside run key) = e.valueOf key := by
  obtain ⟨hbefore, hafter⟩ := versions_split hd hrun hne
  have hcut := Layering.foldNewest_cut_below_full (L := recordLayers ν) mergeDelta_fullBase hv hfull
    (e.versionsBelow run key) (segVersions run key ++ e.versionsBelow run key)
  rw [valueOf, hbefore, hafter, readVersions, readVersions, Layering.readNewest,
    Layering.readNewest, hcut]

section Pass

variable [Unicode] [SegmentFile ν]

omit [Unicode] [SegmentFile ν] in
theorem keepsRow_of_not_expiredFold {e : Engine ν} {run : List (Segment ν)} {now : Int64}
    {key : String} (hkeep : ¬ e.ExpiredFold run now key) {m : Record ν}
    (hm : (recordLayers ν).stack (segVersions run key) = some m) :
    e.config.keepsRow now none m = true := by
  by_contra hexp
  exact hkeep ⟨m, hm, by simpa [Config.keepsRow] using hexp⟩

omit [SegmentFile ν] in
/-- An expired fold is not written. -/
theorem rowOf_dropped {e : Engine ν} (hwf : e.WF) {run : List (Segment ν)}
    (hrun : RunOf e.manifest.segments run) {now : Int64} {key : String}
    (hdrop : e.ExpiredFold run now key) :
    rowOf (keptRows e.config now none (runRows run)) key = none := by
  obtain ⟨m, hm, hexp⟩ := hdrop
  rw [rowOf_keptRows_run e.config now none hrun.nodup
    (fun s hs => hwf.sorted (hrun.subset hs)) key, hm]
  simp [Option.filter, Config.keepsRow, hexp]

/-- What a pass leaves of a key whose fold in the run it drops. -/
theorem valueOf_rewritten_dropped {e : Engine ν} (hwf : e.WF) (hnum : e.Numbered)
    {run : List (Segment ν)} (hrun : RunOf e.manifest.segments run) {now : Int64} {key : String}
    (hdrop : e.ExpiredFold run now key) :
    (e.rewritten run none now).valueOf key = readVersions (e.versionsOutside run key) := by
  have hd : ((e.outside run ++ e.outputs run none now).map Segment.id).Nodup :=
    rewritten_ids_nodup hwf.ids_nodup hrun (Or.inl hnum)
  have hrow := rowOf_dropped hwf hrun hdrop
  rcases segVersions_rewritten hd key with ⟨-, hvs⟩ | ⟨m, o, -, hm, -⟩
  · rw [valueOf, versions_eq, hvs]
    rfl
  · simp [hrow] at hm

/-- The fold of an unexpired key is among the outputs. -/
theorem writtenTo_of_kept {e : Engine ν} (hwf : e.WF) (hnum : e.Numbered)
    {run : List (Segment ν)} (hrun : RunOf e.manifest.segments run) {now : Int64} {key : String}
    (hkeep : ¬ e.ExpiredFold run now key) (hne : segVersions run key ≠ []) :
    e.WrittenTo (e.rewritten run none now) run key := by
  have hd : ((e.outside run ++ e.outputs run none now).map Segment.id).Nodup :=
    rewritten_ids_nodup hwf.ids_nodup hrun (Or.inl hnum)
  obtain ⟨m, hm⟩ : ∃ m, (recordLayers ν).stack (segVersions run key) = some m :=
    Option.ne_none_iff_exists'.1 (mt (recordLayers ν).stack_eq_none_iff.1 hne)
  have hrow : rowOf (keptRows e.config now none (runRows run)) key = some m := by
    rw [rowOf_keptRows_run e.config now none hrun.nodup
      (fun s hs => hwf.sorted (hrun.subset hs)) key, hm]
    simp [Option.filter, keepsRow_of_not_expiredFold hkeep hm]
  obtain ⟨id, hid, -⟩ := versions_rewritten hd hrow
  obtain ⟨o, hfind, rfl⟩ := Option.map_eq_some_iff.1 hid
  have ho := List.mem_of_find?_eq_some hfind
  have hheld : (rowOf o.rows key).isSome = true :=
    List.find?_some (p := fun o : Segment ν => (rowOf o.rows key).isSome) hfind
  refine ⟨o, List.mem_append_right _ ho, fun hout => ?_, hheld⟩
  rw [List.map_append] at hd
  exact (List.nodup_append.1 hd).2.2 o.id (List.mem_map_of_mem hout) o.id
    (List.mem_map_of_mem ho) rfl

/-- A dropped fold is not. -/
theorem not_writtenTo_of_dropped {e : Engine ν} (hwf : e.WF) {run : List (Segment ν)}
    (hrun : RunOf e.manifest.segments run) {now : Int64} {key : String}
    (hdrop : e.ExpiredFold run now key) : ¬ e.WrittenTo (e.rewritten run none now) run key := by
  rintro ⟨s, hs, hnew, hheld⟩
  obtain ⟨r, hr⟩ := Option.isSome_iff_exists.1 hheld
  obtain ⟨hmem, hkey⟩ := rowOf_eq_some hr
  have ho : s ∈ e.outputs run none now := (List.mem_append.1 hs).resolve_left hnew
  have hnone := rowOf_dropped hwf hrun hdrop
  rw [← flatMap_rows_outputs, rowOf_eq_none] at hnone
  exact hnone r (List.mem_flatMap.2 ⟨s, ho, hmem⟩) hkey

/-- One key, one pass: unchanged, and its fold kept beneath newer increments, exactly when it is
safe. -/
theorem pass_iff_foldSafe {e : Engine ν} (hwf : e.WF) (hnum : e.Numbered)
    (hplain : ∀ s ∈ e.manifest.segments, ∀ r ∈ s.rows, r.PlainDelta)
    {run : List (Segment ν)} (hrun : Contiguous e.manifest.segments run) (now : Int64)
    (key : String) :
    ((e.rewritten run none now).valueOf key = e.valueOf key ∧
        (e.Awaited run key → e.WrittenTo (e.rewritten run none now) run key)) ↔
      e.FoldSafe run now key := by
  by_cases hdrop : e.ExpiredFold run now key
  · -- The fold is dropped: what is left of the key lies outside the run.
    have hne : segVersions run key ≠ [] := by
      obtain ⟨m, hm, -⟩ := hdrop
      intro hnil
      simp [hnil] at hm
    have hnone : (recordLayers ν).regroups [] = true → ∀ v ∈ ([] : List (Record ν)),
        v.PlainDelta := fun _ v hv => absurd hv List.not_mem_nil
    have hread : (e.rewritten run none now).valueOf key = e.valueOf key ↔
        SameTally (e.versions key) (e.versionsOutside run key) [] [] := by
      rw [valueOf_rewritten_dropped hwf hnum hrun.toRunOf hdrop, valueOf,
        ← readVersions_layout_iff hnone, Layering.stack_nil]
      simp
    constructor
    · rintro ⟨hsame, hwritten⟩
      refine ⟨fun _ => ?_, fun h => absurd hdrop h⟩
      by_cases hhidden : ∃ v ∈ e.versionsAbove run key, v.isDelta = false
      · exact Or.inl hhidden
      · -- Increments above the run would await the fold.
        refine Or.inr ⟨?_, hread.1 hsame⟩
        by_contra habove
        refine not_writtenTo_of_dropped hwf hrun.toRunOf hdrop (hwritten ⟨hne, habove, ?_⟩)
        intro v hv
        by_contra hfull
        exact hhidden ⟨v, hv, by simpa using hfull⟩
    · rintro ⟨hdropped, -⟩
      rcases hdropped hdrop with ⟨v, hv, hfull⟩ | ⟨habove, htally⟩
      · refine ⟨?_, fun hawait => ?_⟩
        · rw [valueOf_rewritten_dropped hwf hnum hrun.toRunOf hdrop]
          exact readVersions_outside_of_hidden hwf.ids_nodup hrun hne hv hfull
        · have hdelta := hawait.2.2 v hv
          rw [hfull] at hdelta
          cases hdelta
      · exact ⟨hread.2 htally, fun hawait => absurd habove hawait.2.1⟩
  · -- The fold is kept, and its row may move.
    have hiff : (e.rewritten run none now).valueOf key = e.valueOf key ↔
        e.SlotTallies run none now key := by
      refine valueOf_rewritten_iff hwf hnum hrun.toRunOf
        (fun m hm => keepsRow_of_not_expiredFold hdrop hm) (fun _ v hv => ?_)
      obtain ⟨s, hs, hrow⟩ := mem_segVersions.1 hv
      exact hplain s (hrun.subset hs) v (rowOf_eq_some hrow).1
    rw [hiff]
    constructor
    · exact fun h => ⟨fun hd => absurd hd hdrop, fun _ => h.1⟩
    · exact fun h => ⟨h.kept hdrop,
        fun hawait => writtenTo_of_kept hwf hnum hrun.toRunOf hdrop hawait.1⟩

variable [LawfulNumeral ν]

/-- A compaction pass leaves every active key alone, and no fold of one goes that newer increments
lie on, exactly when every active key is safe. -/
theorem active_keys_unchanged_iff {e : Engine ν} (hwf : e.WF) (hnum : e.Numbered)
    (hplain : ∀ s ∈ e.manifest.segments, ∀ r ∈ s.rows, r.PlainDelta)
    {run : List (Segment ν)} (hchoose : chooseRun e.config e.manifest.segments = some run)
    (now : Int64) :
    (∀ e', e.compactRun run none now = .ok e' →
        ∀ key, e.Active now key → e'.getOnce key = e.getOnce key ∧
          (e.Awaited run key → e.WrittenTo e' run key)) ↔
      ∀ key, e.Active now key → e.FoldSafe run now key := by
  obtain ⟨hrun, hall⟩ := chooseRun_contiguous hwf.ids_nodup hchoose
  have hok := compactRun_chosen hall now
  have hwf' : (e.rewritten run none now).WF := rewritten_wf hwf hrun.toRunOf (Or.inl hnum)
  have hpass : ∀ key, ((e.rewritten run none now).getOnce key = e.getOnce key ∧
      (e.Awaited run key → e.WrittenTo (e.rewritten run none now) run key)) ↔
        e.FoldSafe run now key := by
    intro key
    rw [getOnce_eq hwf', getOnce_eq hwf]
    exact pass_iff_foldSafe hwf hnum hplain hrun now key
  constructor
  · exact fun hsame key hactive => (hpass key).1 (hsame _ hok key hactive)
  · intro hsafe e' hok' key hactive
    obtain rfl : e.rewritten run none now = e' := Except.ok.inj (hok.symm.trans hok')
    exact (hpass key).2 (hsafe key hactive)

end Pass

end Engine

section Sample

local instance instExpiryUnicode : Unicode := asciiUnicode

local instance instExpiryFile : SegmentFile Int := footprintFile Int

/-- A counter with an expired base in the run and a recent increment above it. -/
def oldBaseStore : Engine Int where
  config := { compactMinSegments := 2, retentionNanos := some 10 }
  manifest :=
    { nextSegmentId := 3
      segments :=
        [Segment.ofRows 0
            [{ (Record.bare "n" 1 : Record Int) with
                numerics := (∅ : OrdMap String Int).insert "hits" 5 }],
          Segment.ofRows 1 [Record.bare "x" 99],
          { Segment.ofRows 2 [Record.delta "n" 99 ((∅ : OrdMap String Int).insert "hits" 1)]
            with tier := .cold }] }

/-- At time 100 the pass drops the base of the active counter. -/
theorem compactRun_drops_base :
    ¬ ∀ (e e' : Engine Int) (run : List (Segment Int)) (now : Int64) (key : String), e.WF →
      e.Numbered → chooseRun e.config e.manifest.segments = some run →
      e.compactRun run none now = .ok e' → e.Active now key →
      e'.getOnce key = e.getOnce key := by
  intro h
  have hsame := h oldBaseStore _ (oldBaseStore.manifest.segments.take 2) 100 "n"
    (Engine.wf_of_segments rfl rfl (by decide) (by decide)) (by unfold Engine.Numbered; decide)
    (by rfl) (Engine.compactRun_of_hot none 100 (by decide)) ⟨_, rfl, by decide⟩
  revert hsame
  decide

/-- A counter whose expired base is in the run with a recent increment, and another one above. -/
def busyCounterStore : Engine Int where
  config := { compactMinSegments := 2, retentionNanos := some 10 }
  manifest :=
    { nextSegmentId := 3
      segments :=
        [Segment.ofRows 0
            [{ (Record.bare "n" 1 : Record Int) with
                numerics := (∅ : OrdMap String Int).insert "hits" 5 }, Record.bare "x" 1],
          Segment.ofRows 1 [Record.delta "n" 99 ((∅ : OrdMap String Int).insert "hits" 1)],
          { Segment.ofRows 2 [Record.delta "n" 99 ((∅ : OrdMap String Int).insert "hits" 1)]
            with tier := .cold }] }

/-- The pass drops the expired record and keeps the counter. -/
theorem active_keys_unchanged_busy :
    busyCounterStore.Active 100 "n" ∧
      ∃ e', busyCounterStore.compactRun (busyCounterStore.manifest.segments.take 2) none 100 =
          .ok e' ∧
        e'.getOnce "x" = none ∧ e'.getOnce "n" = busyCounterStore.getOnce "n" := by
  have hactive : busyCounterStore.Active 100 "n" := ⟨_, rfl, by decide⟩
  refine ⟨hactive, _, rfl, by decide, ((Engine.active_keys_unchanged_iff (e := busyCounterStore)
    (Engine.wf_of_segments rfl rfl (by decide) (by decide)) (by unfold Engine.Numbered; decide)
    (by unfold Record.PlainDelta; decide) (by rfl) 100).2 ?_ _ rfl "n" hactive).1⟩
  rintro key ⟨r, hr, hfresh⟩
  have hkeys : ∀ rows ∈ busyCounterStore.sources, ∀ r ∈ rows, r.key = "n" ∨ r.key = "x" := by
    decide
  by_cases hn : key = "n"
  · subst hn
    refine ⟨?_, ?_⟩
    · -- The increment in the run is recent, and with it the fold.
      have hkeep : ∀ m ∈ (recordLayers Int).stack (Engine.segVersions
          (busyCounterStore.manifest.segments.take 2) "n"),
            busyCounterStore.config.retentionPolicy.keeps 100 m = true := by decide
      rintro ⟨m, hm, hexp⟩
      rw [hkeep m hm] at hexp
      cases hexp
    · -- Its row takes the id of the segment with the increment.
      rintro - slot ⟨total, upTo, htotal, hupTo, rfl⟩ -
      obtain rfl : total = 1 := htotal.unique (sliceCount_greedyChunks _)
      obtain rfl : upTo = 0 := Nat.succ.inj (hupTo.unique (sliceCount_greedyChunks _))
      refine ⟨rfl, fun _ => rfl, fun _ name => ?_⟩
      obtain ⟨one, hone⟩ : ∃ one, one = ((∅ : OrdMap String Int).insert "hits" 1)[name]? := ⟨_, rfl⟩
      obtain ⟨five, hfive⟩ : ∃ five, five = ((∅ : OrdMap String Int).insert "hits" 5)[name]? :=
        ⟨_, rfl⟩
      suffices sumNewestFirst [one, one, five] = sumNewestFirst [one, sumOldestFirst [one, five]] by
        rw [hone, hfive] at this
        exact this
      by_cases hname : name = "hits"
      · subst hname
        rw [hone, hfive]
        decide
      · have hnone : one = none ∧ five = none := by simp [hone, hfive, Ne.symm hname]
        rw [hnone.1, hnone.2]
        rfl
  · -- The other key has expired, and there is no third one.
    exfalso
    by_cases hx : key = "x"
    · subst hx
      obtain rfl : Record.bare "x" 1 = r := Option.some.inj hr
      revert hfresh
      decide
    · have hnone : busyCounterStore.versions key = [] := by
        refine List.eq_nil_iff_forall_not_mem.2 (fun v hv => ?_)
        obtain ⟨rows, hrows, hrow⟩ := Engine.mem_versions.1 hv
        obtain ⟨hmem, rfl⟩ := rowOf_eq_some hrow
        exact (hkeys rows hrows v hmem).elim hn hx
      rw [hnone] at hr
      cases hr

end Sample

end Girder
