import Girder.ScanSpec

/-!
# ScanFold — the fold path, and the scan contract

`scanFold` keeps one fold state per key.  After all sources have been fed, the state of a key under
the prefix is the newest-first fold of its versions (`getElem?_foldStates`), up to texts that the
projection would erase anyway.

The module ends with the contract of `scan` and `count`.
-/

namespace Girder

open Lib

namespace Record

variable {ν : Type} [Numeral ν]

theorem mergeDelta_dropText (o n : Record ν) :
    mergeDelta (some o.dropText) n.dropText = (mergeDelta (some o) n).dropText := by
  cases ht : o.isTombstone with
  | true =>
      have ht' : o.dropText.isTombstone = true := ht
      rw [mergeDelta_tombstone ht, mergeDelta_tombstone ht']
      rfl
  | false =>
      have ht' : o.dropText.isTombstone = false := ht
      cases hd : o.isDelta with
      | true =>
          have hd' : o.dropText.isDelta = true := hd
          rw [mergeDelta_delta ht hd, mergeDelta_delta ht' hd']
          rfl
      | false =>
          have hd' : o.dropText.isDelta = false := hd
          rw [mergeDelta_full ht hd, mergeDelta_full ht' hd']
          rfl

/-- Folding does not look at texts. -/
theorem readNewest_dropText (vs : List (Record ν)) :
    (recordLayers ν).readNewest (vs.map dropText) =
      ((recordLayers ν).readNewest vs).map dropText :=
  (recordLayers ν).readNewest_map (f := dropText) (fun _ => rfl) mergeDelta_dropText vs

end Record

namespace Engine

variable {ν : Type} [Numeral ν]

/-! ## Fold states -/

theorem getElem?_feedState (states : OrdMap String (Layering.Fold (Record ν))) (r : Record ν)
    (key : String) :
    (feedState states r)[key]? =
      if r.key = key then (recordLayers ν).feed states[key]? r else states[key]? := by
  have hsome : ∃ fold, (recordLayers ν).feed states[r.key]? r = some fold := by
    rcases states[r.key]? with _ | ⟨p⟩ | ⟨d⟩
    · exact ⟨_, rfl⟩
    · exact ⟨_, rfl⟩
    · exact ⟨_, rfl⟩
  obtain ⟨fold, hfold⟩ := hsome
  unfold feedState
  rw [hfold]
  by_cases hkey : r.key = key
  · subst hkey
    simp [hfold]
  · simp [Std.ExtTreeMap.getElem?_insert, hkey]

/-- The state of a key is the walk over the rows of that key. -/
theorem getElem?_foldl_feedState (key : String) :
    ∀ (rows : List (Record ν)) (states : OrdMap String (Layering.Fold (Record ν))),
      (rows.foldl feedState states)[key]? =
        (rows.filter (fun r => decide (r.key = key))).foldl (recordLayers ν).feed states[key]? := by
  intro rows
  induction rows with
  | nil => exact fun _ => rfl
  | cons r rows ih =>
      intro states
      rw [List.foldl_cons, ih, getElem?_feedState]
      by_cases hkey : r.key = key
      · simp [hkey]
      · simp [hkey]

variable [Unicode]

/-- Does the fold have to fetch texts? -/
def foldWantsText (spec : QuerySpec ν) : Bool :=
  !spec.omitText || spec.textMatch.isSome || spec.textLike.isSome

/-- Every row the fold path feeds, in order. -/
def foldRows (e : Engine ν) (spec : QuerySpec ν) : List (Record ν) :=
  e.memSources.flatMap (fun rows => rows.filter (fun r => spec.prefixOk r.key)) ++
    (e.prunedSegments spec.prefixOnly).flatMap
      (fun s => (s.matchingRows spec.prefixOnly).map (Segment.materialize (foldWantsText spec)))

/-- The fold states once every source is fed. -/
def foldStates (e : Engine ν) (spec : QuerySpec ν) : OrdMap String (Layering.Fold (Record ν)) :=
  (e.foldRows spec).foldl feedState ∅

/-- The folded records that pass. -/
def foldOut (e : Engine ν) (spec : QuerySpec ν) : List (Record ν) :=
  ((e.foldStates spec).toList.map (fun kv => kv.2.value.finishFold)).filter
    (fun r => !r.isTombstone && spec.«matches» r && spec.afterBoundOk r)

omit [Unicode] in
theorem foldl_flatMap_feedState {α : Type} (f : α → List (Record ν)) :
    ∀ (l : List α) (states : OrdMap String (Layering.Fold (Record ν))),
      l.foldl (fun states a => (f a).foldl feedState states) states =
        (l.flatMap f).foldl feedState states := by
  intro l
  induction l with
  | nil => exact fun _ => rfl
  | cons a l ih =>
      intro states
      rw [List.foldl_cons, ih, List.flatMap_cons, List.foldl_append]

theorem scanFold_eq (e : Engine ν) (spec : QuerySpec ν) :
    e.scanFold spec =
      (spec.truncate (sortAsc (recordRank spec.orderBy) (e.foldOut spec))).map spec.stripText := by
  have hfrozen := foldl_flatMap_feedState
    (fun f : Nat × MemTable ν => f.2.values.filter (fun r => spec.prefixOk r.key))
    e.frozen.reverse
  have hsegs := foldl_flatMap_feedState
    (fun s : Segment ν =>
      (s.matchingRows spec.prefixOnly).map (Segment.materialize (foldWantsText spec)))
    (e.prunedSegments spec.prefixOnly)
  simp only [foldWantsText] at hsegs
  simp only [scanFold, hfrozen, hsegs, ← List.foldl_append, foldOut, foldStates, foldRows,
    memSources, List.flatMap_cons, List.flatMap_map, foldWantsText, List.append_assoc]

/-! ## States and versions -/

section States

variable [LawfulNumeral ν] {e : Engine ν} {spec : QuerySpec ν}

/-- The rows fed for a key under the prefix are its versions. -/
theorem filter_foldRows (h : e.WF) {key : String} (hp : spec.prefixOk key = true) :
    (e.foldRows spec).filter (fun r => decide (r.key = key)) =
      e.memVersions key ++
        (segVersions e.manifest.segments key).map (Segment.materialize (foldWantsText spec)) := by
  rw [foldRows, List.filter_append]
  congr 1
  · refine filter_flatMap_key (fun rows hrows => ?_)
    have hsorted : rows.Pairwise (fun a b => a.key < b.key) :=
      sources_sorted h (by rw [sources]; exact List.mem_append_left _ hrows)
    rw [filter_key_eq (hsorted.filter _), rowOf_filter hsorted]
    cases hrow : rowOf rows key with
    | none => rfl
    | some r =>
        obtain ⟨-, rfl⟩ := rowOf_eq_some hrow
        simp [Option.filter, hp]
  · -- A segment that is pruned by the prefix has no row of the key.
    have hpruned : segVersions e.manifest.segments key =
        segVersions (e.manifest.segments.filter (fun s => s.zone.mayMatch spec.prefixOnly))
          key := by
      refine (segVersions_filter h.ids_nodup (fun s _ hpr => ?_)).symm
      cases hrow : rowOf s.rows key with
      | none => rfl
      | some r =>
          obtain ⟨hr, rfl⟩ := rowOf_eq_some hrow
          have hm := (prefixOnly_matches spec r).trans hp
          simp only [QuerySpec.«matches», Bool.and_eq_true] at hm
          simp [ZoneMap.mayMatch_of_covers (Segment.zone_covers hr) hm.1] at hpr
    rw [hpruned, segVersions, List.map_filterMap]
    refine filter_flatMap_key (fun s hs => ?_)
    have hs' : s ∈ e.manifest.segments :=
      List.mem_of_mem_filter ((mem_sortDesc Segment.id).1 hs)
    have hkeys : (fun r : Record ν => decide (r.key = key)) ∘
        Segment.materialize (foldWantsText spec) = fun r => decide (r.key = key) := by
      funext r
      simp
    rw [List.filter_map, hkeys, Segment.matchingRows, filter_key_eq ((h.sorted hs').filter _),
      rowOf_filter (h.sorted hs')]
    cases hrow : rowOf s.rows key with
    | none => rfl
    | some r =>
        obtain ⟨-, rfl⟩ := rowOf_eq_some hrow
        simp [Option.filter, prefixOnly_matches, hp]

theorem getElem?_foldStates (h : e.WF) {key : String} (hp : spec.prefixOk key = true) :
    (e.foldStates spec)[key]?.map Layering.Fold.value =
      (recordLayers ν).readNewest (e.memVersions key ++
        (segVersions e.manifest.segments key).map
          (Segment.materialize (foldWantsText spec))) := by
  rw [foldStates, getElem?_foldl_feedState, filter_foldRows h hp]
  simp [Layering.readNewest, Layering.foldNewest]

omit [LawfulNumeral ν] in
theorem key_of_foldStates {key : String} {fold : Layering.Fold (Record ν)}
    (hs : (e.foldStates spec)[key]? = some fold) : fold.value.key = key := by
  rw [foldStates, getElem?_foldl_feedState] at hs
  have hread : (recordLayers ν).readNewest
      ((e.foldRows spec).filter (fun r => decide (r.key = key))) = some fold.value := by
    simp only [Std.ExtTreeMap.getElem?_empty] at hs
    simp [Layering.readNewest, Layering.foldNewest, hs]
  refine key_of_readNewest (fun v hv => ?_) hread
  simpa using (List.mem_filter.1 hv).2

/-! ## The page -/

/-- What a folded record contributes to the page. -/
def pageRow (spec : QuerySpec ν) (r : Record ν) : Option (Record ν) :=
  if !r.isTombstone && spec.«matches» r.finishFold && spec.afterBoundOk r then
    some (spec.stripText r.finishFold)
  else
    none

omit [LawfulNumeral ν] in
/-- Without text predicates, under the projection, texts do not matter. -/
theorem pageRow_dropText (hw : foldWantsText spec = false) (r : Record ν) :
    pageRow spec r.dropText = pageRow spec r := by
  simp only [foldWantsText, Bool.or_eq_false_iff, Bool.not_eq_false', Option.isSome_eq_false_iff,
    Option.isNone_iff_eq_none] at hw
  obtain ⟨⟨homit, hmatch⟩, hlike⟩ := hw
  have hm : spec.«matches» r.dropText.finishFold = spec.«matches» r.finishFold := by
    simp only [QuerySpec.«matches», QuerySpec.textMatchOk, QuerySpec.textQueryTokens, hmatch,
      QuerySpec.textLikeOk, hlike]
    rfl
  have hstrip : spec.stripText r.dropText.finishFold = spec.stripText r.finishFold := by
    simp only [QuerySpec.stripText, homit]
    rfl
  unfold pageRow
  rw [hm, hstrip]
  rfl

/-- The state of a key contributes what its value does. -/
theorem pageRow_foldStates (h : e.WF) {key : String} (hp : spec.prefixOk key = true) :
    ((e.foldStates spec)[key]?.map Layering.Fold.value).bind (pageRow spec) =
      ((recordLayers ν).readNewest (e.versions key)).bind (pageRow spec) := by
  rw [getElem?_foldStates h hp, versions_eq]
  cases hw : foldWantsText spec with
  | true =>
      have hid : (Segment.materialize true : Record ν → Record ν) = id := by
        funext r
        rfl
      rw [hid, List.map_id]
  | false =>
      have hdrop : ∀ o : Option (Record ν),
          o.bind (pageRow spec) = (o.map Record.dropText).bind (pageRow spec) := by
        intro o
        cases o with
        | none => rfl
        | some r => exact (pageRow_dropText hw r).symm
      have hmat : (Record.dropText ∘ Segment.materialize false : Record ν → Record ν) =
          Record.dropText := by
        funext r
        rfl
      rw [hdrop, ← Record.readNewest_dropText, List.map_append, List.map_map, hmat,
        ← List.map_append, Record.readNewest_dropText, ← hdrop]

omit [LawfulNumeral ν] in
theorem mem_foldOut_strip {x : Record ν} :
    x ∈ (e.foldOut spec).map spec.stripText ↔
      ∃ key : String,
        ((e.foldStates spec)[key]?.map Layering.Fold.value).bind (pageRow spec) = some x := by
  simp only [foldOut, List.mem_map, List.mem_filter]
  constructor
  · rintro ⟨r, ⟨⟨⟨key, fold⟩, hmem, rfl⟩, hok⟩, rfl⟩
    have hs := Std.ExtTreeMap.mem_toList_iff_getElem?_eq_some.1 hmem
    refine ⟨key, ?_⟩
    rw [Record.isTombstone_finishFold, QuerySpec.afterBoundOk_finishFold] at hok
    simp [hs, pageRow, hok]
  · rintro ⟨key, hx⟩
    obtain ⟨r, hr, hpage⟩ := Option.bind_eq_some_iff.1 hx
    obtain ⟨fold, hs, rfl⟩ := Option.map_eq_some_iff.1 hr
    unfold pageRow at hpage
    split at hpage
    · rename_i hok
      simp only [Option.some.injEq] at hpage
      refine ⟨_, ⟨⟨(key, fold), Std.ExtTreeMap.mem_toList_iff_getElem?_eq_some.2 hs, rfl⟩, ?_⟩,
        hpage⟩
      rw [Record.isTombstone_finishFold, QuerySpec.afterBoundOk_finishFold]
      exact hok
    · simp at hpage

omit [LawfulNumeral ν] in
theorem mem_matchSet_strip {x : Record ν} :
    x ∈ (e.matchSet spec).map spec.stripText ↔
      ∃ key, ((recordLayers ν).readNewest (e.versions key)).bind (pageRow spec) = some x := by
  rw [List.mem_map]
  constructor
  · rintro ⟨r, hr, rfl⟩
    obtain ⟨hv, hm, hafter⟩ := mem_matchSet.1 hr
    obtain ⟨v, hread, hsurf⟩ := Option.bind_eq_some_iff.1 hv
    refine ⟨r.key, ?_⟩
    rw [hread, Option.bind_some, pageRow]
    unfold Record.surface at hsurf
    simp only [Record.isTombstone_finishFold] at hsurf
    cases ht : v.isTombstone with
    | true => simp [ht] at hsurf
    | false =>
        -- Folding changes no field that the predicates read.
        simp only [ht, Bool.false_eq_true, if_false, Option.some.injEq] at hsurf
        have hafter' : spec.afterBoundOk v = true := by
          rw [← QuerySpec.afterBoundOk_finishFold, hsurf]
          exact hafter
        simp [hsurf, hm, hafter']
  · rintro ⟨key, hx⟩
    obtain ⟨v, hread, hpage⟩ := Option.bind_eq_some_iff.1 hx
    unfold pageRow at hpage
    split at hpage
    · rename_i hok
      simp only [Bool.and_eq_true, Bool.not_eq_true'] at hok
      have hval : e.valueOf key = some v.finishFold := by
        rw [valueOf, readVersions, hread, Option.bind_some, Record.surface]
        simp [Record.isTombstone_finishFold, hok.1.1]
      have hkey : v.finishFold.key = key := key_of_valueOf hval
      refine ⟨v.finishFold, mem_matchSet.2 ⟨by rw [hkey]; exact hval, hok.1.2, ?_⟩, by
        simpa using hpage⟩
      rw [QuerySpec.afterBoundOk_finishFold]
      exact hok.2
    · simp at hpage

omit [LawfulNumeral ν] in
theorem prefixOk_of_pageRow {r x : Record ν} (h : pageRow spec r = some x) :
    spec.prefixOk r.key = true := by
  unfold pageRow at h
  split at h
  · rename_i hok
    simp only [Bool.and_eq_true] at hok
    exact QuerySpec.prefixOk_of_matches (r := r.finishFold) hok.1.2
  · simp at h

omit [LawfulNumeral ν] in
theorem foldOut_nodup : ((e.foldOut spec).map Record.key).Nodup := by
  refine nodup_map_filter ?_ _
  rw [List.map_map, List.Nodup, List.pairwise_map]
  refine (e.foldStates spec).toList_distinct.imp_of_mem ?_
  rintro ⟨k, a⟩ ⟨k', b⟩ ha hb hne heq
  have hka := key_of_foldStates (Std.ExtTreeMap.mem_toList_iff_getElem?_eq_some.1 ha)
  have hkb := key_of_foldStates (Std.ExtTreeMap.mem_toList_iff_getElem?_eq_some.1 hb)
  exact hne (hka.symm.trans (heq.trans hkb))

theorem scanFold_eq_oracle (h : e.WF) : e.scanFold spec = e.scanOracle spec := by
  rw [scanFold_eq, scanOracle]
  refine page_congr ?_ foldOut_nodup
  have hnodup : ∀ l : List (Record ν), (l.map Record.key).Nodup →
      (l.map spec.stripText).Nodup := by
    intro l hl
    refine List.Nodup.of_map Record.key ?_
    rw [List.map_map]
    simpa [Function.comp_def] using hl
  refine (List.perm_ext_iff_of_nodup (hnodup _ foldOut_nodup)
    (hnodup _ (matchSet_nodup e spec))).2 (fun x => ?_)
  rw [mem_foldOut_strip, mem_matchSet_strip]
  constructor
  · rintro ⟨key, hx⟩
    obtain ⟨v, hv, hpage⟩ := Option.bind_eq_some_iff.1 hx
    obtain ⟨fold, hs, rfl⟩ := Option.map_eq_some_iff.1 hv
    have hp : spec.prefixOk key = true := by
      rw [← key_of_foldStates hs]
      exact prefixOk_of_pageRow hpage
    exact ⟨key, by rw [← pageRow_foldStates h hp]; exact hx⟩
  · rintro ⟨key, hx⟩
    obtain ⟨v, hv, hpage⟩ := Option.bind_eq_some_iff.1 hx
    have hp : spec.prefixOk key = true := by
      rw [← key_of_readNewest (fun v hv => key_of_mem_versions hv) hv]
      exact prefixOk_of_pageRow hpage
    exact ⟨key, by rw [pageRow_foldStates h hp]; exact hx⟩

end States

/-! ## The contract -/

section Contract

variable [LawfulNumeral ν]

omit [LawfulNumeral ν] in
/-- Limit and order do not change what matches. -/
theorem length_scanOracle_unlimited (e : Engine ν) (spec : QuerySpec ν) :
    (e.scanOracle { spec with limit := 0 }).length =
      (e.matchSet { spec with limit := 0 }).length := by
  simp [scanOracle, QuerySpec.truncate, (sortAsc_perm _ _).length_eq]

omit [LawfulNumeral ν] in
theorem matchSet_congr {e : Engine ν} {spec spec' : QuerySpec ν}
    (hm : spec.«matches» = spec'.«matches») (ha : spec.afterBoundOk = spec'.afterBoundOk) :
    e.matchSet spec = e.matchSet spec' := by
  rw [matchSet, matchSet, hm, ha]

/-- The path a scan takes returns what the oracle says, unless the heap is past the room there is. -/
theorem takePath_eq [HeapLayout] {e : Engine ν} (h : e.WF) (hl : e.DeltaLabelReserved)
    (spec : QuerySpec ν) :
    e.takePath (e.deltasPossible spec) spec =
      if e.deltasPossible spec = true ∨ spec.limit = 0 ∨ spec.orderBy = none ∨
          HeapFits spec.limit then
        .ok (e.scanOracle spec)
      else .error .panic := by
  cases hdp : e.deltasPossible spec with
  | true => simp [takePath, scanFold_eq_oracle h]
  | false =>
      have hheads := headsFull_of_not_deltasPossible h hdp
      simp only [takePath, Bool.false_eq_true, if_false, false_or]
      split
      · rename_i order hlimit horder
        have hpos : spec.limit ≠ 0 := (of_decide_eq_true hlimit).ne'
        simp only [hpos, horder, reduceCtorEq, false_or, scanTopk]
        by_cases hfits : HeapFits spec.limit
        · rw [if_pos hfits, reserveHeap_fits hfits, Res.ok_bind,
            topkRows_eq_oracle h hl hheads (of_decide_eq_true hlimit) horder]
          rfl
        · rw [if_neg hfits, reserveHeap_panics hfits]
          rfl
      · rename_i hpath
        rw [scanFull_eq_oracle h hl hheads, if_pos]
        by_contra hroom
        obtain ⟨hlimit, horder⟩ := not_or.1 hroom
        obtain ⟨order, horder⟩ := Option.ne_none_iff_exists'.1 (not_or.1 horder).1
        exact hpath order (decide_eq_true (Nat.pos_of_ne_zero hlimit)) horder

/-- A count is the size of the whole match set. -/
theorem count_eq_oracle {e : Engine ν} (h : e.WF) (hl : e.DeltaLabelReserved)
    {spec : QuerySpec ν} (hafter : spec.after = none) :
    e.count spec = .ok (e.scanOracle { spec with limit := 0 }).length := by
  have hlen : (e.matchSet { spec with limit := 0, orderBy := none }).length =
      (e.scanOracle { spec with limit := 0 }).length := by
    rw [length_scanOracle_unlimited]
    refine congrArg List.length (matchSet_congr rfl ?_)
    funext r
    simp [QuerySpec.afterBoundOk, QuerySpec.afterOkCols, hafter]
  have hsome : spec.after.isSome = false := by simp [hafter]
  simp only [count, countPath, hsome, Bool.false_eq_true, if_false]
  rw [← hlen]
  cases hdp : e.deltasPossible { spec with limit := 0, orderBy := none } with
  | true =>
      rw [if_pos rfl, scanFold_eq_oracle h]
      simp [scanOracle, QuerySpec.truncate, (sortAsc_perm _ _).length_eq]
  | false =>
      have hcount : e.countFull { spec with limit := 0, orderBy := none } =
          (e.matchSet { spec with limit := 0, orderBy := none }).length :=
        countFull_eq h hl hafter (headsFull_of_not_deltasPossible h hdp)
      rw [if_neg (by simp), hcount]

/-- Whatever path it takes, a scan that reserves no heap, or one there is room for, returns what the
oracle says. -/
theorem scan_eq_oracle [HeapLayout] {e : Engine ν} (h : e.WF) (hl : e.DeltaLabelReserved)
    {spec : QuerySpec ν} (hroom : e.deltasPossible spec = true ∨ spec.limit = 0 ∨
      spec.orderBy = none ∨ HeapFits spec.limit) :
    e.scan spec =
      if spec.afterUnordered then
        .error (.err (.config "QuerySpec.after requires a timestamp order"))
      else .ok (e.scanOracle spec) := by
  rw [scan, takePath_eq h hl, if_pos hroom]

/-- Every scan path returns what the oracle says, and a count is the size of the whole match set,
exactly if the scan is rejected, takes a path without a heap, or its heap fits. -/
theorem scan_and_count_eq_oracle_iff [HeapLayout] {e : Engine ν} (h : e.WF)
    (hl : e.DeltaLabelReserved) (spec : QuerySpec ν) :
    ((e.scan spec =
      if spec.afterUnordered then
        .error (.err (.config "QuerySpec.after requires a timestamp order"))
      else .ok (e.scanOracle spec)) ∧
    (spec.after = none →
      e.count spec = .ok (e.scanOracle { spec with limit := 0 }).length)) ↔
      spec.afterUnordered = true ∨ e.deltasPossible spec = true ∨ spec.limit = 0 ∨
        spec.orderBy = none ∨ HeapFits spec.limit := by
  rw [and_iff_left (fun hafter => count_eq_oracle h hl hafter)]
  cases hau : spec.afterUnordered with
  | true => simp [scan, hau]
  | false =>
      rw [scan, hau, takePath_eq h hl]
      simp only [Bool.false_eq_true, if_false, false_or]
      split
      case isTrue hroom => exact iff_of_true rfl hroom
      case isFalse hroom => exact iff_of_false (fun hok => by cases hok) hroom

end Contract

end Engine

/-! A small store: the memtable deletes `a`, and the newer segment holds an earlier-dated `b`. -/

section Sample

local instance instSampleUnicode : Unicode := asciiUnicode

local instance instSampleHeapLayout : HeapLayout := sampleHeap

def scanSample : Engine Int where
  memtable := ({} : MemTable Int).insert (Record.tombstone "a" 5)
  manifest :=
    { nextSegmentId := 3
      segments := [Segment.ofRows 1 [Record.bare "a" 1, Record.bare "b" 9],
        Segment.ofRows 2 [Record.bare "b" 3]] }

theorem scanSample_wf : scanSample.WF where
  memtable_consistent := MemTable.insert_consistent MemTable.empty_consistent _
  frozen_consistent hf := by simp [scanSample] at hf
  ids_nodup := by decide
  sorted {s} hs := by
    revert s
    decide

theorem scanSample_deltaLabelReserved : scanSample.DeltaLabelReserved := by
  have h : ∀ rows ∈ scanSample.sources, ∀ r ∈ rows, r.labels[deltaLabel]? = none := by decide
  exact fun rows hrows r hr hne => absurd (h rows hrows r hr) hne

theorem scan_and_count_sample :
    scanSample.scan { limit := 1, orderBy := some .timestampDesc } = .ok [Record.bare "b" 3] ∧
      scanSample.count { limit := 1, orderBy := some .timestampDesc } = .ok 1 := by
  obtain ⟨hscan, hcount⟩ := (Engine.scan_and_count_eq_oracle_iff scanSample_wf
    scanSample_deltaLabelReserved { limit := 1, orderBy := some .timestampDesc }).2 (by decide)
  refine ⟨hscan.trans ?_, (hcount rfl).trans ?_⟩
  · decide
  · decide

/-- With a limit of half the address space the same scan panics where the oracle has a row. -/
theorem scanSample_panics :
    scanSample.scan { limit := 2 ^ 63, orderBy := some .timestampDesc } = .error .panic ∧
      scanSample.scan { limit := 2 ^ 63, orderBy := some .timestampDesc } ≠
        .ok (scanSample.scanOracle { limit := 2 ^ 63, orderBy := some .timestampDesc }) ∧
      scanSample.scanOracle { limit := 2 ^ 63, orderBy := some .timestampDesc } =
        [Record.bare "b" 3] ∧
      scanSample.scan { limit := 2 ^ 63 } = .ok [Record.bare "b" 3] := by
  have hpanics : scanSample.scan { limit := 2 ^ 63, orderBy := some .timestampDesc } =
      .error .panic := by
    rw [Engine.scan, if_neg (by decide),
      Engine.takePath_eq scanSample_wf scanSample_deltaLabelReserved, if_neg]
    simp only [not_or]
    exact ⟨by decide, by decide, by decide, not_heapFits (Nat.le_refl _) (by decide)⟩
  refine ⟨hpanics, ?_, by decide, by decide⟩
  rw [hpanics]
  exact nofun

end Sample

end Girder
