import Girder.ScanWalk

/-!
# ScanSpec — every path computes the oracle

The three paths of `scan` and the counting walk are compared with `scanOracle`.  Off the fold path
no version in range is an increment, so the newest version of a key is its value and the shared walk
emits exactly the match set; on the fold path the per-key states are the newest-first folds.
-/

namespace Girder

open Lib

/-! ## Projections -/

section Project

variable {ν : Type}

/-- A record without its text. -/
def Record.dropText (r : Record ν) : Record ν := { r with text := none }

theorem QuerySpec.stripText_eq (spec : QuerySpec ν) (r : Record ν) :
    spec.stripText r = if spec.omitText then r.dropText else r := rfl

@[simp]
theorem QuerySpec.stripText_key (spec : QuerySpec ν) (r : Record ν) :
    (spec.stripText r).key = r.key := by
  rw [QuerySpec.stripText_eq]
  split <;> rfl

/-- Projecting a row that was read without its text gives the projected row. -/
theorem QuerySpec.stripText_materialize (spec : QuerySpec ν) (r : Record ν) :
    spec.stripText (Segment.materialize (!spec.omitText) r) = spec.stripText r := by
  unfold QuerySpec.stripText Segment.materialize
  cases spec.omitText <;> rfl

variable [Numeral ν]

@[simp]
theorem recordRank_stripText (spec : QuerySpec ν) (order : Option OrderBy) (r : Record ν) :
    recordRank order (spec.stripText r) = recordRank order r := by
  rw [QuerySpec.stripText_eq]
  split
  · exact recordRank_text order r none
  · rfl

omit [Numeral ν] in
@[simp]
theorem QuerySpec.truncate_map {α β : Type} (spec : QuerySpec ν) (f : α → β) (l : List α) :
    (spec.truncate l).map f = spec.truncate (l.map f) := by
  unfold QuerySpec.truncate
  split
  · rw [List.map_take]
  · rfl

/-- Two lists with the same projected records, one per key, make the same page. -/
theorem page_congr {spec : QuerySpec ν} {order : Option OrderBy} {out set : List (Record ν)}
    (hp : (out.map spec.stripText).Perm (set.map spec.stripText))
    (hd : (out.map Record.key).Nodup) :
    (spec.truncate (sortAsc (recordRank order) out)).map spec.stripText =
      (spec.truncate (sortAsc (recordRank order) set)).map spec.stripText := by
  have hrank : ∀ l : List (Record ν), (sortAsc (recordRank order) l).map spec.stripText =
      sortAsc (recordRank order) (l.map spec.stripText) :=
    fun l => sortAsc_map (fun a _ => recordRank_stripText spec order a)
  have hkeys : ((out.map spec.stripText).map Record.key).Nodup := by
    rw [List.map_map]
    simpa [Function.comp_def] using hd
  rw [QuerySpec.truncate_map, QuerySpec.truncate_map, hrank, hrank,
    sortAsc_congr hp (nodup_map_recordRank hkeys)]

end Project

namespace Engine

variable {ν : Type} [Numeral ν]

/-- The reserved delta label appears only on increments. -/
def DeltaLabelReserved (e : Engine ν) : Prop :=
  ∀ rows ∈ e.sources, ∀ r ∈ rows, r.labels[deltaLabel]? ≠ none → r.isDelta = true

/-! ## The match set -/

theorem key_of_readNewest {key : String} {vs : List (Record ν)} (hvs : ∀ v ∈ vs, v.key = key)
    {r : Record ν} (hr : (recordLayers ν).readNewest vs = some r) : r.key = key := by
  refine (recordLayers ν).readNewest_induction (P := fun r => r.key = key) hvs ?_ hr
  intro o n ho hn
  have hkey : (mergeDelta (some o) n).key = n.key := mergeDelta_key (ho.trans hn.symm)
  exact hkey.trans hn

theorem key_of_valueOf {e : Engine ν} {key : String} {r : Record ν}
    (h : e.valueOf key = some r) : r.key = key := by
  obtain ⟨v, hv, hsurf⟩ := Option.bind_eq_some_iff.1 h
  rw [Record.surface_key hsurf]
  exact key_of_readNewest (fun v hv => key_of_mem_versions hv) hv

theorem mem_keys_of_valueOf {e : Engine ν} {key : String} {r : Record ν}
    (h : e.valueOf key = some r) : key ∈ e.keys := by
  rw [keys, List.mem_dedup]
  cases hvs : e.versions key with
  | nil =>
      rw [valueOf, hvs] at h
      simp [readVersions, Layering.readNewest, Layering.foldNewest] at h
  | cons v vs =>
      have hv : v ∈ e.versions key := by simp [hvs]
      obtain ⟨rows, hrows, hrow⟩ := mem_versions.1 hv
      obtain ⟨hmem, rfl⟩ := rowOf_eq_some hrow
      exact List.mem_map_of_mem (List.mem_flatten.2 ⟨rows, hrows, hmem⟩)

variable [Unicode]

theorem mem_matchSet {e : Engine ν} {spec : QuerySpec ν} {r : Record ν} :
    r ∈ e.matchSet spec ↔
      e.valueOf r.key = some r ∧ spec.«matches» r = true ∧ spec.afterBoundOk r = true := by
  rw [matchSet, List.mem_filter, List.mem_filterMap, Bool.and_eq_true]
  constructor
  · rintro ⟨⟨k, -, hk⟩, hm⟩
    have hkey := key_of_valueOf hk
    exact ⟨hkey ▸ hk, hm⟩
  · rintro ⟨hv, hm⟩
    exact ⟨⟨r.key, mem_keys_of_valueOf hv, hv⟩, hm⟩

theorem matchSet_nodup (e : Engine ν) (spec : QuerySpec ν) :
    ((e.matchSet spec).map Record.key).Nodup := by
  refine nodup_map_filter ?_ _
  have hkeys : e.keys.Nodup := List.nodup_dedup _
  rw [List.Nodup, List.pairwise_map, List.pairwise_filterMap]
  refine hkeys.imp ?_
  intro k k' hne r hr r' hr' heq
  exact hne ((key_of_valueOf hr).symm.trans (heq.trans (key_of_valueOf hr')))

/-! ## Off the fold path -/

section NoDeltas

variable [LawfulNumeral ν] {e : Engine ν} {spec : QuerySpec ν}

omit [LawfulNumeral ν] in
theorem prefixOnly_matches (spec : QuerySpec ν) (r : Record ν) :
    spec.prefixOnly.«matches» r = spec.prefixOk r.key := by
  have hp : spec.prefixOnly.prefixOk r.key = spec.prefixOk r.key := rfl
  simp only [QuerySpec.«matches», QuerySpec.matchesFields, hp]
  simp [QuerySpec.prefixOnly, QuerySpec.timeOk, QuerySpec.labelsOk, QuerySpec.numericsOk,
    QuerySpec.textMatchOk, QuerySpec.textQueryTokens, QuerySpec.textLikeOk]

/-- The dispatch is conservative: off the fold path no version under the prefix is an increment. -/
theorem isDelta_false_of_not_deltasPossible (h : e.WF) (hno : e.deltasPossible spec = false)
    {key : String} (hp : spec.prefixOk key = true) {r : Record ν} (hr : r ∈ e.versions key) :
    r.isDelta = false := by
  simp only [deltasPossible, Bool.or_eq_false_iff, List.any_eq_false, Bool.and_eq_true,
    not_and, Bool.not_eq_true] at hno
  obtain ⟨⟨hmem, hfrozen⟩, hsegs⟩ := hno
  rw [versions_eq, memVersions_eq h, List.mem_append, List.mem_append] at hr
  rcases hr with (hr | hr) | hr
  · exact MemTable.isDelta_false_of_hasDeltas_false h.memtable_consistent hmem
      (Option.mem_toList.1 hr)
  · obtain ⟨f, hf, hget⟩ := List.mem_filterMap.1 hr
    have hf' : f ∈ e.frozen := List.mem_reverse.1 hf
    exact MemTable.isDelta_false_of_hasDeltas_false (h.frozen_consistent hf') (hfrozen f hf') hget
  · obtain ⟨s, hs, hrow⟩ := mem_segVersions.1 hr
    obtain ⟨hrows, rfl⟩ := rowOf_eq_some hrow
    have hcov := Segment.zone_covers hrows
    have hm := (prefixOnly_matches spec r).trans hp
    simp only [QuerySpec.«matches», Bool.and_eq_true] at hm
    have hlabel := hsegs s hs (ZoneMap.mayMatch_of_covers hcov hm.1)
    cases hd : r.isDelta with
    | false => rfl
    | true =>
        have hone : r.labels[deltaLabel]? = some "1" := by simpa [Record.isDelta] using hd
        simp [hcov.mayHave hone] at hlabel

omit [Unicode] [LawfulNumeral ν] in
/-- No key under the prefix has an increment as its newest version. -/
def HeadsFull (e : Engine ν) (spec : QuerySpec ν) : Prop :=
  ∀ key r, spec.prefixOk key = true → (e.versions key).head? = some r → r.isDelta = false

theorem headsFull_of_not_deltasPossible (h : e.WF) (hno : e.deltasPossible spec = false) :
    e.HeadsFull spec :=
  fun _ _ hp hhead => isDelta_false_of_not_deltasPossible h hno hp (List.mem_of_head? hhead)

omit [Unicode] [LawfulNumeral ν] in
/-- A full newest version is the value. -/
theorem valueOf_of_headsFull (hl : e.DeltaLabelReserved) (hfull : e.HeadsFull spec) {key : String}
    (hp : spec.prefixOk key = true) :
    e.valueOf key =
      (e.versions key).head?.bind (fun r => if r.isTombstone then none else some r) := by
  cases hvs : e.versions key with
  | nil => simp [valueOf, hvs, readVersions, Layering.readNewest, Layering.foldNewest]
  | cons v vs =>
      have hv : v ∈ e.versions key := by simp [hvs]
      have hfull : v.isDelta = false := hfull key v hp (by simp [hvs])
      have hlabel : v.labels[deltaLabel]? = none := by
        by_contra hne
        obtain ⟨rows, hrows, hrow⟩ := mem_versions.1 hv
        have hdelta := hl rows hrows v (rowOf_eq_some hrow).1 hne
        simp [hfull] at hdelta
      rw [valueOf, hvs, readVersions,
        Layering.readNewest_cons_of_full (L := recordLayers ν) hfull]
      simp [Record.surface_eq, Record.clearDelta_eq_self hlabel]

/-- The shared walk emits the match set. -/
theorem walkRows_perm (h : e.WF) (hl : e.DeltaLabelReserved) (hfull : e.HeadsFull spec) {keep : Record ν → Bool}
    (hkeep : ∀ r, keep r = spec.afterBoundOk r) :
    (e.walkRows spec keep).Perm (e.matchSet spec) := by
  have hd := (walkRows_nodup h spec keep).of_map _
  have hd' := (matchSet_nodup e spec).of_map _
  refine (List.perm_ext_iff_of_nodup hd hd').2 (fun r => ?_)
  rw [mem_walkRows h, mem_matchSet, hkeep]
  constructor
  · rintro ⟨hhead, htomb, hm, hafter⟩
    have hp := QuerySpec.prefixOk_of_matches hm
    refine ⟨?_, hm, hafter⟩
    rw [valueOf_of_headsFull hl hfull hp, hhead]
    simp [htomb]
  · rintro ⟨hv, hm, hafter⟩
    have hp := QuerySpec.prefixOk_of_matches hm
    rw [valueOf_of_headsFull hl hfull hp] at hv
    obtain ⟨v, hhead, hsome⟩ := Option.bind_eq_some_iff.1 hv
    cases htomb : v.isTombstone with
    | true => simp [htomb] at hsome
    | false =>
        simp only [htomb, Bool.false_eq_true, if_false, Option.some.injEq] at hsome
        subst hsome
        exact ⟨hhead, htomb, hm, hafter⟩

/-- The full path returns a page of the rows the walk emits. -/
theorem scanFull_eq_walk (h : e.WF) (spec : QuerySpec ν) :
    e.scanFull spec =
      (spec.truncate (sortAsc (recordRank spec.orderBy)
        (e.walkRows spec spec.afterBoundOk))).map spec.stripText := by
  have hseg : ∀ acc : List (Record ν),
      segPhase spec spec.afterBoundOk
        (fun out r => out ++ [Segment.materialize (!spec.omitText) r])
        (e.walkPlan spec).trackShadows e.memSeen (fun _ _ => false) [] (e.walkPlan spec).steps acc =
      acc ++ (segRows spec spec.afterBoundOk (e.walkPlan spec).trackShadows e.memSeen []
        (e.walkPlan spec).steps).map (Segment.materialize (!spec.omitText)) := by
    intro acc
    rw [segPhase_eq (fun _ => True) (fun _ _ _ => trivial) (by simp) _ _ _ trivial,
      foldl_concat_map]
  have hmem := memPhase_eq h spec spec.afterBoundOk
    (fun (out : List (Record ν)) r => out ++ [r]) []
  have hid := foldl_concat_map (fun r : Record ν => r) (e.memRows spec spec.afterBoundOk) []
  simp only [scanFull, hmem, hseg, hid, List.map_id', List.nil_append]
  refine page_congr ?_ ?_
  · -- Materialising a row drops the text that is stripped in any case.
    have hmap : (e.memRows spec spec.afterBoundOk ++
        (segRows spec spec.afterBoundOk (e.walkPlan spec).trackShadows e.memSeen []
          (e.walkPlan spec).steps).map (Segment.materialize (!spec.omitText))).map spec.stripText =
        (e.walkRows spec spec.afterBoundOk).map spec.stripText := by
      simp [walkRows, QuerySpec.stripText_materialize]
    rw [hmap]
  · have hkeys := walkRows_nodup h spec spec.afterBoundOk
    have hmat : ∀ r : Record ν, (Segment.materialize (!spec.omitText) r).key = r.key := by
      intro r
      unfold Segment.materialize
      split <;> rfl
    simpa [walkRows, hmat, Function.comp_def] using hkeys

theorem scanFull_eq_oracle (h : e.WF) (hl : e.DeltaLabelReserved) (hfull : e.HeadsFull spec) :
    e.scanFull spec = e.scanOracle spec := by
  rw [scanFull_eq_walk h]
  exact page_congr ((walkRows_perm h hl hfull (fun _ => rfl)).map _) (walkRows_nodup h _ _)

theorem countFull_eq (h : e.WF) (hl : e.DeltaLabelReserved) (hafter : spec.after = none)
    (hfull : e.HeadsFull spec) : e.countFull spec = (e.matchSet spec).length := by
  have hone : ∀ (l : List (Record ν)) (n : Nat), l.foldl (fun n _ => n + 1) n = n + l.length := by
    intro l
    induction l with
    | nil => simp
    | cons r l ih =>
        intro n
        rw [List.foldl_cons, ih, List.length_cons]
        omega
  have hkeep : ∀ r : Record ν, true = spec.afterBoundOk r := by
    intro r
    simp [QuerySpec.afterBoundOk, QuerySpec.afterOkCols, hafter]
  have hmem := memPhase_eq h spec (fun _ => true) (fun (n : Nat) _ => n + 1) 0
  rw [← (walkRows_perm h hl hfull hkeep).length_eq]
  simp only [countFull, hmem]
  rw [segPhase_eq (fun _ => True) (fun _ _ _ => trivial) (by simp) _ _ _ trivial, hone, hone,
    walkRows, List.length_append]
  omega

/-! ### Top-k -/

omit [Unicode] [LawfulNumeral ν] in
theorem le_suffixMaxTs {steps : List (WalkStep ν)} {step : WalkStep ν} (hs : step ∈ steps)
    (hv : step.visit = true) : step.seg.zone.maxTs ≤ suffixMaxTs steps := by
  induction steps with
  | nil => simp at hs
  | cons first rest ih =>
      simp only [suffixMaxTs, List.foldr_cons]
      rcases List.mem_cons.1 hs with rfl | hs
      · simp [hv]
      · have hle := ih hs
        rw [suffixMaxTs] at hle
        split
        · exact hle.trans (le_max_left _ _)
        · exact hle

/-- Nothing the walk has ahead is later than the suffix bound. -/
theorem timestamp_le_suffixMaxTs {keep : Record ν → Bool} {track : Bool} {seen : StrSet}
    {newer rest : List (WalkStep ν)} {r : Record ν}
    (hr : r ∈ segRows spec keep track seen newer rest) : r.timestamp ≤ suffixMaxTs rest := by
  obtain ⟨pre, step, post, hsplit, hr'⟩ := mem_segRows.1 hr
  obtain ⟨hvisit, hrow, -⟩ := mem_stepRows.1 hr'
  exact (Segment.zone_covers hrow).le_maxTs.trans (le_suffixMaxTs (by simp [hsplit]) hvisit)

/-- The early exit skips only rows a full heap ignores. -/
theorem topkStop_sound {order : OrderBy} {limit : Nat} {keep : Record ν → Bool} {track : Bool}
    {seen : StrSet} {heap : List (HeapItem ν)} {newer rest : List (WalkStep ν)}
    (hheap : ∀ item ∈ heap, ∃ src, item = HeapItem.ofSrc order src)
    (hstop : topkStop order limit heap rest = true) :
    (segRows spec keep track seen newer rest).foldl (offerRow order limit .seg) heap = heap := by
  simp only [topkStop, Bool.and_eq_true, decide_eq_true_eq] at hstop
  obtain ⟨⟨rfl, hfull⟩, hlast⟩ := hstop
  cases hw : heap.getLast? with
  | none => simp [hw] at hlast
  | some worst =>
      simp only [hw, decide_eq_true_eq] at hlast
      obtain ⟨src, rfl⟩ := hheap worst (List.mem_of_getLast? hw)
      have hmap : (segRows spec keep track seen newer rest).foldl
          (offerRow .timestampDesc limit .seg) heap =
          ((segRows spec keep track seen newer rest).map
            (fun r => HeapItem.ofSrc .timestampDesc (.seg r))).foldl
              (heapOffer HeapItem.rank limit) heap := by
        rw [List.foldl_map]
        rfl
      refine hmap.trans (foldl_offer_of_worse hfull hw ?_)
      intro item hitem
      obtain ⟨r, hr, rfl⟩ := List.mem_map.1 hitem
      exact rank_le_of_timestamp_lt ((timestamp_le_suffixMaxTs hr).trans_lt hlast)

omit [Unicode] [LawfulNumeral ν] in
/-- Every heap item is built from its source. -/
theorem ofSrc_of_offerRow {order : OrderBy} {limit : Nat} {src : Record ν → CandSrc ν}
    {heap : List (HeapItem ν)} (hheap : ∀ item ∈ heap, ∃ src, item = HeapItem.ofSrc order src)
    (r : Record ν) :
    ∀ item ∈ offerRow order limit src heap r, ∃ src, item = HeapItem.ofSrc order src := by
  intro item hitem
  rcases mem_of_mem_heapOffer hitem with rfl | hmem
  · exact ⟨_, rfl⟩
  · exact hheap item hmem

/-- Every candidate of the top-k walk, in the order it is offered. -/
def topkItems (e : Engine ν) (spec : QuerySpec ν) (order : OrderBy) : List (HeapItem ν) :=
  (e.memRows spec spec.afterBoundOk).map (fun r => HeapItem.ofSrc order (.mem r)) ++
    (segRows spec spec.afterBoundOk (e.walkPlan spec).trackShadows e.memSeen []
      (e.walkPlan spec).steps).map (fun r => HeapItem.ofSrc order (.seg r))

omit [LawfulNumeral ν] in
theorem topkItems_records (e : Engine ν) (spec : QuerySpec ν) (order : OrderBy) :
    (e.topkItems spec order).map (fun item => item.src.record) =
      e.walkRows spec spec.afterBoundOk := by
  simp [topkItems, walkRows, HeapItem.ofSrc, CandSrc.record, Function.comp_def]

omit [LawfulNumeral ν] in
theorem rank_of_mem_topkItems {order : OrderBy} {item : HeapItem ν}
    (hitem : item ∈ e.topkItems spec order) :
    item.rank = recordRank (some order) item.src.record := by
  rcases List.mem_append.1 hitem with hm | hm
  · obtain ⟨r, -, rfl⟩ := List.mem_map.1 hm
    rfl
  · obtain ⟨r, -, rfl⟩ := List.mem_map.1 hm
    rfl

theorem topkItems_nodup (h : e.WF) (order : OrderBy) :
    ((e.topkItems spec order).map HeapItem.rank).Nodup := by
  have heq : (e.topkItems spec order).map HeapItem.rank =
      (e.walkRows spec spec.afterBoundOk).map (recordRank (some order)) := by
    rw [← topkItems_records e spec order, List.map_map]
    exact List.map_congr_left (fun item hitem => rank_of_mem_topkItems hitem)
  rw [heq]
  exact nodup_map_recordRank (walkRows_nodup h _ _)

/-- After both phases the heap holds the best `limit` candidates, early exit or not. -/
theorem topkHeap_eq (h : e.WF) (hlimit : 0 < spec.limit) (order : OrderBy) :
    segPhase spec spec.afterBoundOk (offerRow order spec.limit .seg)
      (e.walkPlan spec).trackShadows e.memSeen (topkStop order spec.limit) []
      (e.walkPlan spec).steps
      ((e.memRows spec spec.afterBoundOk).foldl (offerRow order spec.limit .mem) []) =
      (sortAsc HeapItem.rank (e.topkItems spec order)).take spec.limit := by
  rw [segPhase_eq (fun heap => ∀ item ∈ heap, ∃ src, item = HeapItem.ofSrc order src)]
  · rw [← foldl_offer_eq_take hlimit (topkItems_nodup h order), topkItems, List.foldl_append,
      List.foldl_map, List.foldl_map]
    rfl
  · exact fun heap r hP => ofSrc_of_offerRow hP r
  · exact fun heap newer rest hP hstop => topkStop_sound hP hstop
  · refine List.foldlRecOn
      (motive := fun heap => ∀ item ∈ heap, ∃ src, item = HeapItem.ofSrc order src)
      (e.memRows spec spec.afterBoundOk) (offerRow order spec.limit .mem) (by simp) ?_
    exact fun heap hP r _ => ofSrc_of_offerRow hP r

/-- So does the top-k path. -/
theorem topkRows_eq_walk (h : e.WF) (hlimit : 0 < spec.limit) {order : OrderBy}
    (horder : spec.orderBy = some order) :
    e.topkRows spec order =
      (spec.truncate (sortAsc (recordRank spec.orderBy)
        (e.walkRows spec spec.afterBoundOk))).map spec.stripText := by
  have hdrain : ∀ src : CandSrc ν, spec.stripText (src.drain (!spec.omitText)) =
      spec.stripText src.record := by
    intro src
    cases src with
    | mem r => rfl
    | seg r => exact QuerySpec.stripText_materialize spec r
  have hsorted : (sortAsc HeapItem.rank (e.topkItems spec order)).map
      (fun item => item.src.record) =
      sortAsc (recordRank (some order)) (e.walkRows spec spec.afterBoundOk) := by
    rw [← topkItems_records e spec order]
    exact sortAsc_map (fun item hitem => (rank_of_mem_topkItems hitem).symm)
  simp only [topkRows, memPhase_eq h, topkHeap_eq h hlimit]
  rw [horder, ← hsorted]
  simp [QuerySpec.truncate, hlimit, hdrain, Function.comp_def]

theorem topkRows_eq_oracle (h : e.WF) (hl : e.DeltaLabelReserved) (hfull : e.HeadsFull spec)
    (hlimit : 0 < spec.limit) {order : OrderBy}
    (horder : spec.orderBy = some order) : e.topkRows spec order = e.scanOracle spec := by
  rw [topkRows_eq_walk h hlimit horder]
  exact page_congr ((walkRows_perm h hl hfull (fun _ => rfl)).map _) (walkRows_nodup h _ _)

end NoDeltas

end Engine

end Girder
