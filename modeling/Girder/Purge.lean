import Girder.Placement

/-!
# Purge — dropping one key from every segment that could hold it

`purgeKey` rewrites all segments whose key range contains the key.  These need not be adjacent in
the id order, so the rewrite may move another key's row past a segment it leaves alone.

`purgeKey_only_iff` states when it does not matter: the purged key is gone, and the other keys read
as before exactly when, around the id of its row, the versions of every key amount to what they did.
-/

namespace Girder

open Lib

variable {ν : Type}

namespace Engine

variable [Numeral ν]

theorem purgeRun_runOf {e : Engine ν} (hd : (e.manifest.segments.map Segment.id).Nodup)
    (key : String) : RunOf e.manifest.segments (e.purgeRun key) :=
  ⟨fun ht => List.mem_of_mem_filter ht, nodup_map_filter hd _⟩

/-- What `purgeKey` returns: the store itself when no key range contains the key, and the rewrite
of all that do otherwise. -/
theorem purgeKey_eq_ok [SegmentFile ν] {e e' : Engine ν} {key : String} {now : Int64} {done : Bool}
    (h : e.purgeKey key now = .ok (e', done)) :
    (e.purgeRun key = [] ∧ e' = e) ∨ e' = e.rewritten (e.purgeRun key) (some key) now := by
  unfold purgeKey at h
  simp only at h
  split at h
  · rename_i hempty
    exact Or.inl ⟨by simpa using hempty, (Prod.mk.inj (Except.ok.inj h)).1.symm⟩
  · right
    cases hcheck : purgeCheck key (e.purgeRun key) with
    | error err =>
        rw [hcheck] at h
        cases h
    | ok _ =>
        cases hrun : e.compactRun (e.purgeRun key) (some key) now with
        | error err =>
            rw [hcheck, hrun] at h
            cases h
        | ok e'' =>
            rw [hcheck, hrun] at h
            rw [← (Prod.mk.inj (Except.ok.inj h)).1]
            exact compactRun_eq_ok hrun

omit [Numeral ν] in
/-- A store with nothing in memory reads its segments only. -/
theorem memVersions_of_isEmpty {e : Engine ν} (hm : e.memtable.isEmpty = true) (hf : e.frozen = [])
    (key : String) : e.memVersions key = [] := by
  have hrecords : e.memtable.records = ∅ := by
    simpa [MemTable.isEmpty] using hm
  have hvalues : e.memtable.values = [] := by
    simp [MemTable.values, rowsOf, hrecords]
  simp [memVersions, memSources, hvalues, hf, rowOf]

variable [LawfulNumeral ν]

/-- No segment outside the run holds the purged key. -/
theorem segVersions_outside_purged {e : Engine ν} (key : String) :
    segVersions (e.outside (e.purgeRun key)) key = [] := by
  rw [List.eq_nil_iff_forall_not_mem]
  intro r hr
  obtain ⟨s, hs, hrow⟩ := mem_segVersions.1 hr
  obtain ⟨hs, hnot⟩ := mem_outside.1 hs
  have hin : s ∈ e.purgeRun key :=
    List.mem_filter.2 ⟨hs, Segment.zone_containsKey hrow⟩
  exact hnot (List.mem_map_of_mem hin)

variable [Unicode] [SegmentFile ν]

/-- The purged key reads as absent after a rewrite. -/
theorem valueOf_rewritten_purged {e : Engine ν} (hwf : e.WF) (hnum : e.Numbered)
    (hm : e.memtable.isEmpty = true) (hf : e.frozen = []) (key : String) (now : Int64) :
    (e.rewritten (e.purgeRun key) (some key) now).valueOf key = none := by
  have hrun := purgeRun_runOf hwf.ids_nodup key
  have hd : ((e.outside (e.purgeRun key) ++ e.outputs (e.purgeRun key) (some key) now).map
      Segment.id).Nodup := rewritten_ids_nodup hwf.ids_nodup hrun (Or.inl hnum)
  have hnone : rowOf (keptRows e.config now (some key) (runRows (e.purgeRun key))) key = none := by
    refine rowOf_eq_none.2 (fun r hr hkey => ?_)
    rw [keptRows_eq] at hr
    have hkeep := (List.mem_filter.1 hr).2
    simp [Config.keepsRow, hkey] at hkeep
  have hmem : (e.rewritten (e.purgeRun key) (some key) now).memVersions key = [] :=
    memVersions_of_isEmpty hm hf key
  rcases segVersions_rewritten hd key with ⟨-, hvs⟩ | ⟨m, o, -, hm, -⟩
  · rw [valueOf, versions_eq, hmem, hvs, segVersions_outside_purged]
    rfl
  · simp [hnone] at hm

omit [LawfulNumeral ν] [SegmentFile ν] in
/-- Every merged row but the purged key's is kept. -/
theorem keepsRow_of_ne {e : Engine ν} (hwf : e.WF) (hret : e.config.retentionPolicy.isEmpty = true)
    {run : List (Segment ν)} (hrun : RunOf e.manifest.segments run) {p q : String} (hne : q ≠ p)
    (now : Int64) {m : Record ν} (hm : (recordLayers ν).stack (segVersions run q) = some m) :
    e.config.keepsRow now (some p) m = true := by
  rw [← getElem?_mergeRows_run hrun.nodup (fun s hs => hwf.sorted (hrun.subset hs))] at hm
  have hkey : m.key = q := keyed_mergeRows _ q m hm
  simp [Config.keepsRow, RetentionPolicy.keeps_of_isEmpty hret, hkey, hne.symm]

/-- Purging touches the purged key only, exactly when the versions of every other key amount to the
same wherever its row moves past another segment or its versions are merged ahead of time. -/
theorem purgeKey_only_iff {e e' : Engine ν} (hwf : e.WF) (hnum : e.Numbered)
    (hplain : ∀ s ∈ e.manifest.segments, ∀ r ∈ s.rows, r.PlainDelta)
    (hm : e.memtable.isEmpty = true) (hf : e.frozen = [])
    (hret : e.config.retentionPolicy.isEmpty = true) {p : String} {now : Int64} {done : Bool}
    (hok : e.purgeKey p now = .ok (e', done)) :
    (e'.getOnce p = none ∧ ∀ q, q ≠ p → e'.getOnce q = e.getOnce q) ↔
      ∀ q, q ≠ p → e.SlotTallies (e.purgeRun p) (some p) now q := by
  have hrun := purgeRun_runOf hwf.ids_nodup p
  rcases purgeKey_eq_ok hok with ⟨hempty, rfl⟩ | rfl
  · -- No key range contains `p`: nothing is rewritten, and nothing holds `p`.
    have htallies : ∀ q, e'.SlotTallies (e'.purgeRun p) (some p) now q := by
      refine fun q => slotTallies_of_none ?_
      simp [hempty, segVersions, recency, sortDesc, sortAsc]
    have houtside : e'.outside (e'.purgeRun p) = e'.manifest.segments := by
      simp [hempty, outside]
    have hgone : e'.getOnce p = none := by
      have hvs := segVersions_outside_purged (e := e') p
      rw [houtside] at hvs
      rw [getOnce_eq hwf, valueOf, versions_eq, memVersions_of_isEmpty hm hf, hvs]
      rfl
    exact ⟨fun _ q _ => htallies q, fun _ => ⟨hgone, fun _ _ => rfl⟩⟩
  · have hwf' : (e.rewritten (e.purgeRun p) (some p) now).WF :=
      rewritten_wf hwf hrun (Or.inl hnum)
    have hkey : ∀ q, q ≠ p →
        ((e.rewritten (e.purgeRun p) (some p) now).getOnce q = e.getOnce q ↔
          e.SlotTallies (e.purgeRun p) (some p) now q) := by
      intro q hne
      rw [getOnce_eq hwf', getOnce_eq hwf]
      refine valueOf_rewritten_iff hwf hnum hrun
        (fun m hst => keepsRow_of_ne hwf hret hrun hne now hst) (fun _ v hv => ?_)
      obtain ⟨s, hs, hrow⟩ := mem_segVersions.1 hv
      exact hplain s (hrun.subset hs) v (rowOf_eq_some hrow).1
    constructor
    · rintro ⟨-, hsame⟩ q hne
      exact (hkey q hne).1 (hsame q hne)
    · intro htallies
      refine ⟨?_, fun q hne => (hkey q hne).2 (htallies q hne)⟩
      rw [getOnce_eq hwf']
      exact valueOf_rewritten_purged hwf hnum hm hf p now

end Engine

section Sample

local instance instPurgeUnicode : Unicode := asciiUnicode

local instance instPurgeFile : SegmentFile Int := footprintFile Int

/-- A counter whose base and increment lie in the two segments that a purge of `m` rewrites. -/
def countingPurgeStore : Engine Int where
  manifest :=
    { nextSegmentId := 3
      segments :=
        [Segment.ofRows 0
            [Record.bare "m" 1, { (Record.bare "n" 1 : Record Int) with
              numerics := (∅ : OrdMap String Int).insert "hits" 5 }],
          Segment.ofRows 1 [Record.bare "a" 2],
          Segment.ofRows 2
            [Record.bare "m" 3, Record.delta "n" 3 ((∅ : OrdMap String Int).insert "hits" 1)]] }

/-- The counter is merged ahead of time, and reads the same. -/
theorem purgeKey_only_counting :
    ∃ e', countingPurgeStore.purgeKey "m" 0 = .ok (e', true) ∧ e'.getOnce "m" = none ∧
      ∀ q, q ≠ "m" → e'.getOnce q = countingPurgeStore.getOnce q := by
  refine ⟨_, rfl, (Engine.purgeKey_only_iff (e := countingPurgeStore) (p := "m")
    (Engine.wf_of_segments rfl rfl (by decide) (by decide)) (by unfold Engine.Numbered; decide)
    (by unfold Record.PlainDelta; decide) (by decide) rfl (by decide) rfl).2 ?_⟩
  intro q hne
  by_cases hq : q = "n"
  · subst hq
    intro slot _ _
    -- The segment left alone does not hold the counter.
    have houtside (side : Segment Int → Bool) : Engine.segVersions
        ((countingPurgeStore.outside (countingPurgeStore.purgeRun "m")).filter side) "n" = [] := by
      refine List.eq_nil_iff_forall_not_mem.2 (fun r hr => ?_)
      obtain ⟨s, hs, hrow⟩ := Engine.mem_segVersions.1 hr
      obtain rfl : s = Segment.ofRows 1 [Record.bare "a" 2] :=
        List.mem_singleton.1 (List.mem_of_mem_filter hs)
      cases hrow
    rw [Engine.laidAbove, Engine.laidBelow, houtside, houtside]
    exact ⟨rfl, fun _ => rfl, fun _ _ => rfl⟩
  · -- No other key is held by the rewritten segments.
    refine Engine.slotTallies_of_none (List.eq_nil_iff_forall_not_mem.2 (fun r hr => ?_))
    obtain ⟨s, hs, hrow⟩ := Engine.mem_segVersions.1 hr
    have hkeys : ∀ s ∈ countingPurgeStore.purgeRun "m", ∀ r ∈ s.rows, r.key = "m" ∨ r.key = "n" := by
      decide
    obtain ⟨hmem, rfl⟩ := rowOf_eq_some hrow
    exact (hkeys s hs r hmem).elim hne hq

/-- The key `a` has an old version in a segment that the purge of `m` rewrites, and its current one
between that segment and the other rewritten one. -/
def overtakingStore : Engine Int where
  manifest :=
    { nextSegmentId := 3
      segments :=
        [Segment.ofRows 0 [Record.bare "a" 1, Record.bare "m" 1, Record.bare "z" 1],
          Segment.ofRows 1 [Record.bare "a" 2],
          Segment.ofRows 2 [Record.bare "l" 3, Record.bare "m" 3, Record.bare "n" 3]] }

/-- Purging `m` brings the old version of `a` back. -/
theorem purgeKey_overtakes :
    ¬ ∀ (e e' : Engine Int) (p : String) (now : Int64) (done : Bool), e.WF → e.Numbered →
      e.memtable.isEmpty = true → e.frozen = [] → e.config.retentionPolicy.isEmpty = true →
      e.purgeKey p now = .ok (e', done) →
      e'.getOnce p = none ∧ ∀ q, q ≠ p → e'.getOnce q = e.getOnce q := by
  intro h
  have hsame := (h overtakingStore _ "m" 0 true
    (Engine.wf_of_segments rfl rfl (by decide) (by decide)) (by unfold Engine.Numbered; decide)
    (by decide) rfl (by decide) rfl).2 "a" (by decide)
  revert hsame
  decide

end Sample

end Girder
