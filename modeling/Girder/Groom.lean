import Girder.Merge
import Girder.Retention
import Girder.Slots

/-!
# Groom — expiring segments without writes

The groomer looks at one segment at a time.  A segment whose whole key range is covered by policy
rows is dropped when its newest record is past the longest time-to-live that could govern it, and
rewritten in its slot, when hot, as soon as its oldest record is.  Key ranges where increments may
exist are left alone.

`groom_groomed` states what a pass leaves: a row stays unless its segment is a candidate and the row
is expired.  `groom_agrees_with_keys` states that what the groomer reads off a zone is what the
policy says of the keys.
-/

namespace Girder

open Lib

variable {ν : Type}

namespace Engine

section Pass

variable [Numeral ν]

/-- Key ranges where increments may exist: by zone label, and the live memtables' ranges. -/
def deltaRanges (e : Engine ν) : List (String × String) :=
  (e.manifest.segments.filter (fun m => m.zone.mayHave deltaLabel)).map
      (fun m => (m.zone.minKey, m.zone.maxKey)) ++
    (e.memtable.deltaRange.toList ++ e.frozen.filterMap (fun f => f.2.deltaRange))

def overlapsDeltas (ranges : List (String × String)) (minKey maxKey : String) : Bool :=
  ranges.any (fun r => decide (r.1 ≤ maxKey) && decide (minKey ≤ r.2))

/-- Is the newest record of a segment past the longest time-to-live of its range? -/
def allExpired (policy : RetentionPolicy) (now : Int64) (m : Segment ν) : Bool :=
  match policy.maxTtlInRange m.zone.minKey m.zone.maxKey with
  | some ttl => decide (m.zone.maxTs < satSub now ttl)
  | none => false

/-- Fully expired, or hot and provably partially expired. -/
def groomable (policy : RetentionPolicy) (now : Int64) (m : Segment ν) : Bool :=
  match policy.maxTtlInRange m.zone.minKey m.zone.maxKey with
  | some ttl =>
      decide (m.zone.maxTs < satSub now ttl) ||
        (decide (m.tier = .hot) && decide (m.zone.minTs < satSub now ttl))
  | none => false

/-- The segments a groom pass works on. -/
def groomCandidates (e : Engine ν) (now : Int64) : List (Segment ν) :=
  ((e.manifest.segments.filter
      (fun m => !overlapsDeltas e.deltaRanges m.zone.minKey m.zone.maxKey)).filter
    (fun m => e.config.retentionPolicy.coversRange m.zone.minKey m.zone.maxKey)).filter
      (groomable e.config.retentionPolicy now)

variable [SegmentFile ν]

/-- Drop or rewrite one candidate; the flag says whether anything was groomed. -/
def groomOne (e : Engine ν) (now : Int64) (m : Segment ν) : Except GirderError (Engine ν × Bool) :=
  if allExpired e.config.retentionPolicy now m then
    .ok (e.dropSegment m.id, true)
  else do
    let rows ← m.readAllRecords
    let merged := (rowsOf (mergeRows rows)).filter (e.config.retentionPolicy.keeps now)
    if merged.length = m.zone.count then
      pure (e, false)
    else if merged.isEmpty then
      pure (e.dropSegment m.id, true)
    else
      pure (e.replaceSegment m merged, true)

/-- The candidates one after the other; an error ends the pass where it stands. -/
def groomLoop (now : Int64) :
    List (Segment ν) → Engine ν → Nat → Engine ν × Except GirderError Nat
  | [], e, groomed => (e, .ok groomed)
  | m :: rest, e, groomed =>
      match e.groomOne now m with
      | .error err => (e, .error err)
      | .ok (e', done) => groomLoop now rest e' (if done then groomed + 1 else groomed)

/-- One groom pass. -/
def groom (e : Engine ν) (now : Int64) : Engine ν × Except GirderError Nat :=
  if e.config.retentionPolicy.isEmpty then
    (e, .ok 0)
  else
    groomLoop now (e.groomCandidates now) e 0

end Pass

/-! ## Who holds what -/

/-- Segment `id` holds the row `r` of `key`. -/
def Holds (segments : List (Segment ν)) (key : String) (id : Nat) (r : Record ν) : Prop :=
  ∃ s ∈ segments, s.id = id ∧ rowOf s.rows key = some r

theorem holds_others {e : Engine ν} {key : String} {id i : Nat} {r : Record ν} :
    Holds (e.others id) key i r ↔ Holds e.manifest.segments key i r ∧ i ≠ id := by
  constructor
  · rintro ⟨s, hs, rfl, hrow⟩
    obtain ⟨hs, hne⟩ := mem_others.1 hs
    exact ⟨⟨s, hs, rfl, hrow⟩, hne⟩
  · rintro ⟨⟨s, hs, rfl, hrow⟩, hne⟩
    exact ⟨s, mem_others.2 ⟨hs, hne⟩, rfl, hrow⟩

theorem holds_outside {e : Engine ν} {run : List (Segment ν)} {key : String} {i : Nat}
    {r : Record ν} :
    Holds (e.outside run) key i r ↔
      Holds e.manifest.segments key i r ∧ i ∉ run.map Segment.id := by
  constructor
  · rintro ⟨s, hs, rfl, hrow⟩
    obtain ⟨hs, hnot⟩ := mem_outside.1 hs
    exact ⟨⟨s, hs, rfl, hrow⟩, hnot⟩
  · rintro ⟨⟨s, hs, rfl, hrow⟩, hnot⟩
    exact ⟨s, mem_outside.2 ⟨hs, hnot⟩, rfl, hrow⟩

/-- With distinct ids, a slot holds what its segment holds. -/
theorem holds_slot {segments : List (Segment ν)} (hd : (segments.map Segment.id).Nodup)
    {m : Segment ν} (hm : m ∈ segments) {key : String} {r : Record ν} :
    Holds segments key m.id r ↔ rowOf m.rows key = some r := by
  constructor
  · rintro ⟨s, hs, hid, hrow⟩
    rwa [List.inj_on_of_nodup_map hd hs hm hid] at hrow
  · exact fun hrow => ⟨m, hm, rfl, hrow⟩

theorem holds_replaceSegment [SegmentFile ν] {e : Engine ν} {m : Segment ν}
    {rows : List (Record ν)} {key : String} {i : Nat} {r : Record ν} :
    Holds (e.replaceSegment m rows).manifest.segments key i r ↔
      (Holds e.manifest.segments key i r ∧ i ≠ m.id) ∨ (i = m.id ∧ rowOf rows key = some r) := by
  rw [← holds_others]
  constructor
  · rintro ⟨s, hs, rfl, hrow⟩
    rcases List.mem_append.1 hs with hs | hs
    · exact Or.inl ⟨s, hs, rfl, hrow⟩
    · rw [List.mem_singleton.1 hs] at hrow ⊢
      exact Or.inr ⟨rfl, hrow⟩
  · rintro (⟨s, hs, rfl, hrow⟩ | ⟨rfl, hrow⟩)
    · exact ⟨s, List.mem_append_left _ hs, rfl, hrow⟩
    · exact ⟨e.rewrittenSegment m rows, List.mem_append_right _ (by simp), rfl, hrow⟩

/-- The newest version is the one held at the highest id. -/
theorem head?_segVersions_iff_holds {segments : List (Segment ν)}
    (hd : (segments.map Segment.id).Nodup) {key : String} {r : Record ν} :
    (segVersions segments key).head? = some r ↔
      ∃ id, Holds segments key id r ∧ ∀ j v, Holds segments key j v → j ≤ id := by
  rw [head?_segVersions hd]
  constructor
  · rintro ⟨s, hs, hrow, hnewest⟩
    refine ⟨s.id, ⟨s, hs, rfl, hrow⟩, ?_⟩
    rintro j v ⟨t, ht, rfl, htrow⟩
    by_contra hlt
    have hnone := hnewest t ht (not_le.1 hlt)
    rw [hnone] at htrow
    cases htrow
  · rintro ⟨_, ⟨s, hs, rfl, hrow⟩, hnewest⟩
    refine ⟨s, hs, hrow, fun t ht hlt => ?_⟩
    cases htrow : rowOf t.rows key with
    | none => rfl
    | some v => exact absurd (hnewest t.id v ⟨t, ht, rfl, htrow⟩) (not_le.2 hlt)

/-- Segments that hold the same have the same newest version. -/
theorem head?_segVersions_congr {segments segments' : List (Segment ν)}
    (hd : (segments.map Segment.id).Nodup) (hd' : (segments'.map Segment.id).Nodup) {key : String}
    (h : ∀ i r, Holds segments key i r ↔ Holds segments' key i r) :
    (segVersions segments key).head? = (segVersions segments' key).head? := by
  refine Option.ext (fun r => ?_)
  simp only [head?_segVersions_iff_holds hd, head?_segVersions_iff_holds hd', h]

/-! ## One candidate, and all of them -/

section Groomed

variable [Unicode]

/-- `e'` is `e` without the expired rows of the segments `ids`. -/
structure Groomed (e e' : Engine ν) (now : Int64) (ids : List Nat) : Prop where
  wf : e'.WF
  numbered : e.Numbered → e'.Numbered
  config_eq : e'.config = e.config
  memVersions_eq (key : String) : e'.memVersions key = e.memVersions key
  sublist (key : String) : (e'.versions key).Sublist (e.versions key)
  untouched {s : Segment ν} : s ∈ e.manifest.segments → s.id ∉ ids → s ∈ e'.manifest.segments
  holds {key : String} {i : Nat} {r : Record ν} :
    Holds e'.manifest.segments key i r ↔
      Holds e.manifest.segments key i r ∧
        (i ∈ ids → e.config.retentionPolicy.keeps now r = true)

theorem Groomed.refl {e : Engine ν} (hwf : e.WF) (now : Int64) : Groomed e e now [] where
  wf := hwf
  numbered h := h
  config_eq := rfl
  memVersions_eq _ := rfl
  sublist _ := List.Sublist.refl _
  untouched hs _ := hs
  holds := by simp

theorem Groomed.trans {e e₁ e₂ : Engine ν} {now : Int64} {ids ids' : List Nat}
    (h : Groomed e e₁ now ids) (h' : Groomed e₁ e₂ now ids') : Groomed e e₂ now (ids ++ ids') where
  wf := h'.wf
  numbered hn := h'.numbered (h.numbered hn)
  config_eq := h'.config_eq.trans h.config_eq
  memVersions_eq key := (h'.memVersions_eq key).trans (h.memVersions_eq key)
  sublist key := (h'.sublist key).trans (h.sublist key)
  untouched hs hid := by
    rw [List.mem_append, not_or] at hid
    exact h'.untouched (h.untouched hs hid.1) hid.2
  holds := by
    intro key i r
    rw [h'.holds, h.holds, h.config_eq, List.mem_append]
    tauto

/-- A slot with its expired rows taken out. -/
theorem groomed_of_rows {e e' : Engine ν} (hwf : e.WF) {now : Int64} {m : Segment ν}
    (hm : m ∈ e.manifest.segments) (hwf' : e'.WF)
    (hnum : e.Numbered → e'.Numbered)
    (hconfig : e'.config = e.config) (hmem : ∀ key, e'.memVersions key = e.memVersions key)
    (hversions : ∀ key, e'.versions key = e.aboveSlot m.id key ++
      ((rowOf (m.rows.filter (e.config.retentionPolicy.keeps now)) key).toList ++
        e.belowSlot m.id key))
    (hothers : ∀ s ∈ e.others m.id, s ∈ e'.manifest.segments)
    (hholds : ∀ key i r, Holds e'.manifest.segments key i r ↔
      (Holds e.manifest.segments key i r ∧ i ≠ m.id) ∨
        (i = m.id ∧ rowOf (m.rows.filter (e.config.retentionPolicy.keeps now)) key = some r)) :
    Groomed e e' now [m.id] where
  wf := hwf'
  numbered := hnum
  config_eq := hconfig
  memVersions_eq := hmem
  sublist key := by
    rw [hversions, versions_eq_slot hwf.ids_nodup hm, rowOf_filter (hwf.sorted hm)]
    refine List.Sublist.append (List.Sublist.refl _) (List.Sublist.append ?_ (List.Sublist.refl _))
    -- The version of the groomed segment is kept or goes.
    cases rowOf m.rows key with
    | none => exact List.Sublist.refl _
    | some r =>
        rw [Option.filter_some]
        split
        · exact List.Sublist.refl _
        · exact List.nil_sublist _
  untouched hs hid := hothers _ (mem_others.2 ⟨hs, by simpa using hid⟩)
  holds := by
    intro key i r
    rw [hholds, rowOf_filter (hwf.sorted hm), List.mem_singleton]
    by_cases hid : i = m.id
    · subst hid
      rw [holds_slot hwf.ids_nodup hm, Option.filter_eq_some_iff]
      simp
    · simp [hid]

/-- A candidate without unexpired rows is dropped. -/
theorem groomed_dropSegment {e : Engine ν} (hwf : e.WF) {now : Int64} {m : Segment ν}
    (hm : m ∈ e.manifest.segments)
    (hnone : m.rows.filter (e.config.retentionPolicy.keeps now) = []) :
    Groomed e (e.dropSegment m.id) now [m.id] := by
  refine groomed_of_rows hwf hm (dropSegment_wf hwf m.id) (fun h => dropSegment_numbered h m.id) rfl
    (fun _ => rfl) ?_ (fun s hs => hs) ?_
  · intro key
    rw [hnone, versions_dropSegment hwf.ids_nodup]
    rfl
  · intro key i r
    rw [hnone]
    refine holds_others.trans ⟨Or.inl, ?_⟩
    rintro (h | ⟨-, hrow⟩)
    · exact h
    · cases hrow

/-- A candidate is rewritten in its slot. -/
theorem groomed_replaceSegment [SegmentFile ν] {e : Engine ν} (hwf : e.WF) {now : Int64}
    {m : Segment ν} (hm : m ∈ e.manifest.segments) :
    Groomed e (e.replaceSegment m (m.rows.filter (e.config.retentionPolicy.keeps now))) now
      [m.id] :=
  groomed_of_rows hwf hm (replaceSegment_wf hwf m ((hwf.sorted hm).filter _))
    (fun h => replaceSegment_numbered h hm _) rfl (fun _ => rfl)
    (fun key => versions_replaceSegment hwf.ids_nodup m _ key)
    (fun _ hs => List.mem_append_left _ hs) (fun _ _ _ => holds_replaceSegment)

/-- A candidate none of whose rows is expired is left as it is. -/
theorem groomed_self {e : Engine ν} (hwf : e.WF) {now : Int64} {m : Segment ν}
    (hm : m ∈ e.manifest.segments)
    (hall : m.rows.filter (e.config.retentionPolicy.keeps now) = m.rows) :
    Groomed e e now [m.id] := by
  refine groomed_of_rows hwf hm hwf id rfl (fun _ => rfl) ?_ (fun s hs => (mem_others.1 hs).1) ?_
  · intro key
    rw [hall]
    exact versions_eq_slot hwf.ids_nodup hm key
  · intro key i r
    rw [hall]
    by_cases hid : i = m.id
    · subst hid
      simp [holds_slot hwf.ids_nodup hm]
    · simp [hid]

variable [Numeral ν] [SegmentFile ν] [LawfulNumeral ν]

omit [Unicode] [SegmentFile ν] [LawfulNumeral ν] in
/-- A candidate whose rows have not all expired is a hot one. -/
theorem hot_of_groomable {policy : RetentionPolicy} {now : Int64} {m : Segment ν}
    (hgroom : groomable policy now m = true) (hexp : allExpired policy now m = false) :
    m.tier = .hot := by
  unfold groomable at hgroom
  unfold allExpired at hexp
  cases hmax : policy.maxTtlInRange m.zone.minKey m.zone.maxKey with
  | none => simp [hmax] at hgroom
  | some ttl =>
      rw [hmax] at hgroom hexp
      simp only [hexp, Bool.false_or, Bool.and_eq_true, decide_eq_true_eq] at hgroom
      exact hgroom.1

omit [Unicode] [LawfulNumeral ν] in
/-- What grooming does to a hot candidate it does not drop wholesale. -/
theorem groomOne_of_hot {e : Engine ν} {now : Int64} {m : Segment ν} (hsorted : m.Sorted)
    (hexp : allExpired e.config.retentionPolicy now m = false) (hhot : m.tier = .hot) :
    e.groomOne now m =
      (let merged := m.rows.filter (e.config.retentionPolicy.keeps now)
      if merged.length = m.rows.length then .ok (e, false)
      else if merged.isEmpty then .ok (e.dropSegment m.id, true)
      else .ok (e.replaceSegment m merged, true)) := by
  have hmerged := rowsOf_mergeRows_of_sorted hsorted
  have hcount : m.zone.count = m.rows.length := ZoneMap.build_count m.rows
  rw [groomOne, if_neg (by simp [hexp]), Segment.readAllRecords_of_hot hhot]
  simp only [bind, Except.bind, hmerged, hcount]
  rfl

/-- Grooming one covered candidate takes its expired rows out, whichever way it goes. -/
theorem groomOne_groomed {e : Engine ν} (hwf : e.WF) {now : Int64} {m : Segment ν}
    (hm : m ∈ e.manifest.segments)
    (hcov : e.config.retentionPolicy.coversRange m.zone.minKey m.zone.maxKey = true)
    (hgroom : groomable e.config.retentionPolicy now m = true) :
    ∃ e' done, e.groomOne now m = .ok (e', done) ∧ Groomed e e' now [m.id] := by
  cases hexp : allExpired e.config.retentionPolicy now m with
  | true =>
      refine ⟨_, _, by rw [groomOne, if_pos hexp], groomed_dropSegment hwf hm ?_⟩
      refine List.filter_eq_nil_iff.2 (fun r hr => ?_)
      unfold allExpired at hexp
      cases hmax : e.config.retentionPolicy.maxTtlInRange m.zone.minKey m.zone.maxKey with
      | none => simp [hmax] at hexp
      | some ttl =>
          rw [hmax] at hexp
          simp [RetentionPolicy.expired_of_zone hcov hmax (of_decide_eq_true hexp) hr]
  | false =>
      -- Not all expired, so it was picked as a hot segment, which can be read.
      rw [groomOne_of_hot (hwf.sorted hm) hexp (hot_of_groomable hgroom hexp)]
      simp only
      split
      · rename_i hlen
        refine ⟨_, _, rfl, groomed_self hwf hm ?_⟩
        exact List.filter_sublist.eq_of_length hlen
      · split
        · rename_i hempty
          exact ⟨_, _, rfl, groomed_dropSegment hwf hm (by simpa using hempty)⟩
        · exact ⟨_, _, rfl, groomed_replaceSegment hwf hm⟩

/-- The loop over the candidates. -/
theorem groomLoop_groomed {policy : RetentionPolicy} {now : Int64} :
    ∀ (cands : List (Segment ν)) {e : Engine ν} (groomed : Nat), e.WF →
      e.config.retentionPolicy = policy → (cands.map Segment.id).Nodup →
      (∀ m ∈ cands, m ∈ e.manifest.segments ∧
        policy.coversRange m.zone.minKey m.zone.maxKey = true ∧ groomable policy now m = true) →
      Groomed e (groomLoop now cands e groomed).1 now (cands.map Segment.id) := by
  intro cands
  induction cands with
  | nil => exact fun groomed hwf _ _ _ => Groomed.refl hwf now
  | cons m cands ih =>
      intro e groomed hwf hpolicy hnodup hcands
      obtain ⟨hm, hcov, hgroom⟩ := hcands m (by simp)
      rw [← hpolicy] at hcov hgroom
      obtain ⟨e₁, done, hone, hstep⟩ := groomOne_groomed hwf hm hcov hgroom
      have hnot : m.id ∉ cands.map Segment.id := (List.nodup_cons.1 hnodup).1
      -- The other candidates are still there: their ids differ.
      have hrest : ∀ m' ∈ cands, m' ∈ e₁.manifest.segments ∧
          policy.coversRange m'.zone.minKey m'.zone.maxKey = true ∧
            groomable policy now m' = true := by
        intro m' hm'
        obtain ⟨hmem, hprops⟩ := hcands m' (by simp [hm'])
        refine ⟨hstep.untouched hmem ?_, hprops⟩
        rw [List.mem_singleton]
        exact fun hid => hnot (hid ▸ List.mem_map_of_mem hm')
      have hloop := ih (if done then groomed + 1 else groomed) hstep.wf
        (by rw [hstep.config_eq, hpolicy]) (List.nodup_cons.1 hnodup).2 hrest
      have hall := hstep.trans hloop
      simpa [groomLoop, hone] using hall

/-- What a groom pass leaves: a row stays unless its segment is a candidate and it is expired. -/
theorem groom_groomed {e : Engine ν} (hwf : e.WF) (now : Int64) :
    Groomed e (e.groom now).1 now ((e.groomCandidates now).map Segment.id) := by
  unfold groom
  split
  · -- Without a policy nothing expires.
    rename_i hempty
    refine { Groomed.refl hwf now with untouched := fun hs _ => hs, holds := ?_ }
    intro key i r
    simp [RetentionPolicy.keeps_of_isEmpty hempty]
  · refine groomLoop_groomed _ 0 hwf rfl ?_ ?_
    · exact nodup_map_filter (nodup_map_filter (nodup_map_filter hwf.ids_nodup _) _) _
    · intro m hm
      obtain ⟨hm, hgroom⟩ := List.mem_filter.1 hm
      obtain ⟨hm, hcov⟩ := List.mem_filter.1 hm
      exact ⟨List.mem_of_mem_filter hm, hcov, hgroom⟩

end Groomed

/-! ## The zone and the keys -/

section ZoneJudgement

variable [Numeral ν] [LawfulNumeral ν] [SegmentFile ν]

/-- A segment whose zone is past the longest time-to-live holds only expired records, and goes as a
whole; one whose oldest timestamp is past it holds an expired record, and grooming it, where it is
hot, takes a record out. -/
theorem groom_agrees_with_keys {e : Engine ν} {now : Int64} {m : Segment ν} (hsorted : m.Sorted)
    (hne : m.rows ≠ [])
    (hcov : e.config.retentionPolicy.coversRange m.zone.minKey m.zone.maxKey = true) :
    ∃ maxTtl, e.config.retentionPolicy.maxTtlInRange m.zone.minKey m.zone.maxKey = some maxTtl ∧
      (m.zone.maxTs < satSub now maxTtl →
        (∀ r ∈ m.rows, e.config.retentionPolicy.Expired now r) ∧
          e.groomOne now m = .ok (e.dropSegment m.id, true)) ∧
      (m.zone.minTs < satSub now maxTtl →
        (∃ r ∈ m.rows, e.config.retentionPolicy.Expired now r) ∧
          (m.tier = .hot → ∃ kept : List (Record ν), kept.Sublist m.rows ∧
            kept.length < m.rows.length ∧ e.groomOne now m =
              .ok (if kept.isEmpty then e.dropSegment m.id else e.replaceSegment m kept, true))) := by
  obtain ⟨maxTtl, hmax⟩ := RetentionPolicy.exists_maxTtlInRange hcov
  refine ⟨maxTtl, hmax, ?_, ?_⟩
  · intro hts
    have hexp : allExpired e.config.retentionPolicy now m = true := by
      rw [allExpired, hmax]
      exact decide_eq_true hts
    refine ⟨fun r hr => ?_, by rw [groomOne, if_pos hexp]⟩
    exact RetentionPolicy.keeps_eq_false_iff.1 (RetentionPolicy.expired_of_zone hcov hmax hts hr)
  · intro hts
    obtain ⟨r, hr, hgone⟩ := RetentionPolicy.exists_expired_of_zone hne hcov hmax hts
    refine ⟨⟨r, hr, RetentionPolicy.keeps_eq_false_iff.1 hgone⟩, fun hhot => ?_⟩
    have hfewer : (m.rows.filter (e.config.retentionPolicy.keeps now)).length < m.rows.length :=
      List.length_filter_lt_length_iff_exists.2 ⟨r, hr, by simp [hgone]⟩
    refine ⟨_, List.filter_sublist, hfewer, ?_⟩
    cases hexp : allExpired e.config.retentionPolicy now m with
    | true =>
        -- Dropped wholesale: nothing would have been kept.
        have hlt : m.zone.maxTs < satSub now maxTtl := by
          rw [allExpired, hmax] at hexp
          exact of_decide_eq_true hexp
        have hnil : m.rows.filter (e.config.retentionPolicy.keeps now) = [] :=
          List.filter_eq_nil_iff.2
            (fun r hr => by simp [RetentionPolicy.expired_of_zone hcov hmax hlt hr])
        rw [groomOne, if_pos hexp, hnil]
        rfl
    | false =>
        rw [groomOne_of_hot hsorted hexp hhot]
        simp only [if_neg hfewer.ne]
        split <;> rfl

end ZoneJudgement

end Engine

section Sample

/-- Sizes play no part in grooming. -/
local instance instGroomFile : SegmentFile Int where
  fileBytes rows := rows.length

/-- Spans live for 100, those of one tenant for 1000. -/
def tenantStore : Engine Int where
  config := { retention := [("s/", 100), ("s/t1/", 1000)] }
  manifest :=
    { nextSegmentId := 1
      segments := [Segment.ofRows 0 [Record.bare "s/a" 50, Record.bare "s/t1/b" 700]] }

/-- At 1060 the first record is past both times, and the second, though older than 100, is not. -/
theorem groom_agrees_with_keys_tenant :
    ∃ m ∈ tenantStore.manifest.segments, ∃ maxTtl,
      tenantStore.config.retentionPolicy.maxTtlInRange m.zone.minKey m.zone.maxKey = some maxTtl ∧
      (m.zone.maxTs < satSub 1060 maxTtl →
        (∀ r ∈ m.rows, tenantStore.config.retentionPolicy.Expired 1060 r) ∧
          tenantStore.groomOne 1060 m = .ok (tenantStore.dropSegment m.id, true)) ∧
      (m.zone.minTs < satSub 1060 maxTtl →
        (∃ r ∈ m.rows, tenantStore.config.retentionPolicy.Expired 1060 r) ∧
          (m.tier = .hot → ∃ kept : List (Record Int), kept.Sublist m.rows ∧
            kept.length < m.rows.length ∧ tenantStore.groomOne 1060 m =
              .ok (if kept.isEmpty then tenantStore.dropSegment m.id
                else tenantStore.replaceSegment m kept, true))) :=
  ⟨_, List.mem_cons_self, Engine.groom_agrees_with_keys (by decide) (by decide) (by decide)⟩

end Sample

end Girder
