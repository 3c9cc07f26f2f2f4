import Girder.Scan

/-!
# ScanWalk — what the shared walk emits

The rows emitted by the in-memory phase and by the segment phase of a scan are computed here as
lists, `memRows` and `segRows`, independently of what the path does with them.  Together they are
the rows that are the newest version of their key, are not tombstones, match the spec and pass the
path's own check (`mem_walkRows`), each key at most once (`walkRows_nodup`).
-/

namespace Girder

open Lib

namespace Engine

variable {ν : Type} [Numeral ν] [Unicode] {β : Type}
variable {spec : QuerySpec ν} {keep : Record ν → Bool}

/-! ## The in-memory phase -/

/-- The rows the in-memory phase emits. -/
def memRows (e : Engine ν) (spec : QuerySpec ν) (keep : Record ν → Bool) : List (Record ν) :=
  (firstsBy Record.key ∅ e.memSources.flatten).filter
    (fun r => !r.isTombstone && spec.«matches» r && keep r)

/-- The keys the in-memory phase leaves seen. -/
def memSeen (e : Engine ν) : StrSet :=
  e.memSources.flatten.foldl (fun seen r => seen.insert r.key) ∅

/-- The token map answers as the naive text predicate does. -/
theorem memMatches_eq {m : MemTable ν} (h : m.Consistent) {r : Record ν} (hr : r ∈ m.values) :
    memMatches spec r (spec.textQueryTokens.map m.textCandidates) = spec.«matches» r := by
  have hget : m.get r.key = some r := (MemTable.mem_values h).1 hr
  cases hq : spec.textQueryTokens with
  | none => rfl
  | some want =>
      have hcand : (m.textCandidates want).contains r.key = textContainsAll r.text want := by
        rw [Bool.eq_iff_iff, Std.ExtTreeSet.contains_iff_mem]
        exact MemTable.mem_textCandidates_iff h hget want
      simp only [Option.map_some, memMatches, hcand, QuerySpec.«matches», QuerySpec.textMatchOk, hq]
      cases textContainsAll r.text want <;> simp

theorem foldl_memSource (emit : β → Record ν → β) :
    ∀ {ms : List (MemTable ν)}, (∀ m ∈ ms, m.Consistent) → ∀ st : StrSet × β,
      ms.foldl (memSource spec keep emit) st =
        (ms.map MemTable.values).flatten.foldl
          (freshStep Record.key (fun r => !r.isTombstone && spec.«matches» r && keep r) emit)
          st := by
  intro ms
  induction ms with
  | nil => exact fun _ _ => rfl
  | cons m ms ih =>
      intro hms st
      have hsource : memSource spec keep emit st m = m.values.foldl
          (freshStep Record.key (fun r => !r.isTombstone && spec.«matches» r && keep r) emit)
          st := by
        refine List.foldl_ext _ _ st (fun st' r hr => ?_)
        simp only [freshStep, memMatches_eq (hms m (by simp)) hr]
      rw [List.foldl_cons, hsource, ih (fun m' hm' => hms m' (by simp [hm']))]
      simp [List.foldl_append]

theorem memPhase_eq {e : Engine ν} (h : e.WF) (spec : QuerySpec ν) (keep : Record ν → Bool)
    (emit : β → Record ν → β) (init : β) :
    e.memPhase spec keep emit init = (e.memSeen, (e.memRows spec keep).foldl emit init) := by
  have hms : ∀ m ∈ e.memtable :: e.frozen.reverse.map Prod.snd, m.Consistent := by
    intro m hm
    rcases List.mem_cons.1 hm with rfl | hm
    · exact h.memtable_consistent
    · obtain ⟨f, hf, rfl⟩ := List.mem_map.1 hm
      exact h.frozen_consistent (List.mem_reverse.1 hf)
  have hsrc : (e.memtable :: e.frozen.reverse.map Prod.snd).map MemTable.values =
      e.memSources := by
    simp [memSources]
  rw [memPhase, foldl_memSource emit hms, hsrc, foldl_freshStep]
  rfl

omit [Numeral ν] [Unicode] in
theorem head?_memVersions (e : Engine ν) (key : String) :
    (e.memVersions key).head? = e.memSources.flatten.find? (fun r => decide (r.key = key)) := by
  rw [memVersions, List.head?_filterMap, List.find?_flatten]
  rfl

theorem mem_memRows {e : Engine ν} {r : Record ν} :
    r ∈ e.memRows spec keep ↔
      (e.memVersions r.key).head? = some r ∧ r.isTombstone = false ∧ spec.«matches» r = true ∧
        keep r = true := by
  rw [memRows, List.mem_filter, mem_firstsBy, head?_memVersions]
  simp only [Std.ExtTreeSet.not_mem_empty, not_false_eq_true, true_and, Bool.and_eq_true,
    Bool.not_eq_true', and_assoc]

theorem memRows_nodup (e : Engine ν) : ((e.memRows spec keep).map Record.key).Nodup :=
  nodup_map_filter (firstsBy_nodup Record.key _ _) _

omit [Numeral ν] [Unicode] in
theorem memSeen_contains {e : Engine ν} {key : String} :
    e.memSeen.contains key = false ↔ e.memVersions key = [] := by
  rw [← Bool.not_eq_true, Std.ExtTreeSet.contains_iff_mem, memSeen, mem_foldl_insert]
  simp only [Std.ExtTreeSet.not_mem_empty, false_or, List.mem_flatten, memVersions,
    List.filterMap_eq_nil_iff, rowOf_eq_none]
  constructor
  · intro hno rows hrows r hr hkey
    exact hno ⟨r, ⟨rows, hrows, hr⟩, hkey⟩
  · rintro hall ⟨r, ⟨rows, hrows, hr⟩, hkey⟩
    exact hall rows hrows r hr hkey

/-! ## The segment phase -/

/-- The rows the segment phase emits. -/
def segRows (spec : QuerySpec ν) (keep : Record ν → Bool) (track : Bool) (seen : StrSet) :
    List (WalkStep ν) → List (WalkStep ν) → List (Record ν)
  | _, [] => []
  | newer, step :: rest =>
      stepRows spec keep track seen newer step ++
        segRows spec keep track seen (newer ++ [step]) rest

variable {track : Bool} {seen : StrSet}

/-- A stop that only skips rows without effect leaves the walk's result as it is. -/
theorem segPhase_eq {emit : β → Record ν → β} {stop : β → List (WalkStep ν) → Bool} (P : β → Prop)
    (hemit : ∀ acc r, P acc → P (emit acc r))
    (hstop : ∀ acc newer rest, P acc → stop acc rest = true →
      (segRows spec keep track seen newer rest).foldl emit acc = acc) :
    ∀ (steps newer : List (WalkStep ν)) (acc : β), P acc →
      segPhase spec keep emit track seen stop newer steps acc =
        (segRows spec keep track seen newer steps).foldl emit acc := by
  have hrows : ∀ (rows : List (Record ν)) (acc : β), P acc → P (rows.foldl emit acc) := by
    intro rows
    induction rows with
    | nil => exact fun _ hacc => hacc
    | cons r rows ih => exact fun acc hacc => ih _ (hemit acc r hacc)
  intro steps
  induction steps with
  | nil => exact fun _ _ _ => rfl
  | cons step rest ih =>
      intro newer acc hacc
      cases hs : stop acc (step :: rest) with
      | true =>
          rw [hstop acc newer (step :: rest) hacc hs]
          simp [segPhase, hs]
      | false =>
          have hrest := ih (newer ++ [step]) _
            (hrows (stepRows spec keep track seen newer step) acc hacc)
          simp [segPhase, hs, hrest, segRows, List.foldl_append]

theorem mem_stepRows {newer : List (WalkStep ν)} {step : WalkStep ν} {r : Record ν} :
    r ∈ stepRows spec keep track seen newer step ↔
      step.visit = true ∧ r ∈ step.seg.rows ∧ spec.«matches» r = true ∧
        seen.contains r.key = false ∧ r.isTombstone = false ∧
        (track && shadowed newer r.key) = false ∧ keep r = true := by
  unfold stepRows
  cases step.visit with
  | false => simp
  | true =>
      simp only [if_true, Segment.matchingRows, List.mem_filter, Bool.and_eq_true,
        Bool.not_eq_true', Bool.or_eq_false_iff]
      tauto

theorem mem_segRows {r : Record ν} :
    ∀ {steps newer : List (WalkStep ν)},
      r ∈ segRows spec keep track seen newer steps ↔
        ∃ pre step post, steps = pre ++ step :: post ∧
          r ∈ stepRows spec keep track seen (newer ++ pre) step := by
  intro steps
  induction steps with
  | nil => simp [segRows]
  | cons step rest ih =>
      intro newer
      rw [segRows, List.mem_append, ih]
      constructor
      · rintro (hr | ⟨pre, step', post, rfl, hr⟩)
        · exact ⟨[], step, rest, rfl, by simpa using hr⟩
        · exact ⟨step :: pre, step', post, rfl, by simpa using hr⟩
      · rintro ⟨pre, step', post, hsplit, hr⟩
        cases pre with
        | nil =>
            simp only [List.nil_append, List.cons.injEq] at hsplit
            obtain ⟨rfl, rfl⟩ := hsplit
            exact Or.inl (by simpa using hr)
        | cons first pre =>
            simp only [List.cons_append, List.cons.injEq] at hsplit
            obtain ⟨rfl, rfl⟩ := hsplit
            exact Or.inr ⟨pre, step', post, rfl, by simpa using hr⟩

variable [LawfulNumeral ν]

/-- The segment phase emits the newest segment versions that pass. -/
theorem mem_segRows_plan {e : Engine ν} (h : e.WF) {r : Record ν} :
    r ∈ segRows spec keep (e.walkPlan spec).trackShadows seen [] (e.walkPlan spec).steps ↔
      (segVersions e.manifest.segments r.key).head? = some r ∧ seen.contains r.key = false ∧
        r.isTombstone = false ∧ spec.«matches» r = true ∧ keep r = true := by
  rw [mem_segRows, head?_segVersions h.ids_nodup]
  constructor
  · rintro ⟨pre, step, post, hsplit, hr⟩
    obtain ⟨hvisit, hrow, hm, hseen, htomb, hsh, hkeep⟩ := mem_stepRows.1 hr
    have hseg : step.seg ∈ e.manifest.segments :=
      (mem_walkSteps.1 ((walkPlan_sublist e spec).mem (by simp [hsplit]))).1
    refine ⟨⟨step.seg, hseg, rowOf_of_mem (h.sorted hseg) hrow, ?_⟩, hseen, htomb, hm, hkeep⟩
    intro s' hs' hlt
    by_contra hne
    have hprobe := (shadowed_iff_newer h hsplit hvisit hrow (QuerySpec.prefixOk_of_matches hm)).2
      ⟨s', hs', hlt, Option.isSome_iff_ne_none.2 hne⟩
    simp only [List.nil_append] at hsh
    simp [hprobe] at hsh
  · rintro ⟨⟨s, hs, hrow, hnewer⟩, hseen, htomb, hm, hkeep⟩
    obtain ⟨hr, -⟩ := rowOf_eq_some hrow
    have hfields : spec.matchesFields r = true := by
      simp only [QuerySpec.«matches», Bool.and_eq_true] at hm
      exact hm.1
    obtain ⟨newer, rest, hsplit⟩ := exists_visit_step hs hr hfields
    refine ⟨newer, _, rest, hsplit, mem_stepRows.2 ⟨rfl, hr, hm, hseen, htomb, ?_, hkeep⟩⟩
    rw [List.nil_append, ← Bool.not_eq_true,
      shadowed_iff_newer h hsplit rfl hr (QuerySpec.prefixOk_of_matches hm)]
    rintro ⟨s', hs', hlt, hsome⟩
    simp [hnewer s' hs' hlt] at hsome

/-- No key is emitted twice: a second occurrence would be shadowed by the first. -/
theorem segRows_nodup {e : Engine ν} (h : e.WF) :
    ∀ {steps newer : List (WalkStep ν)}, (e.walkPlan spec).steps = newer ++ steps →
      ((segRows spec keep (e.walkPlan spec).trackShadows seen newer steps).map
        Record.key).Nodup := by
  intro steps
  induction steps with
  | nil => exact fun _ => List.nodup_nil
  | cons step rest ih =>
      intro newer hsplit
      have hseg : step.seg ∈ e.manifest.segments :=
        (mem_walkSteps.1 ((walkPlan_sublist e spec).mem (by simp [hsplit]))).1
      rw [segRows, List.map_append, List.nodup_append]
      refine ⟨?_, ih (by simp [hsplit]), ?_⟩
      · unfold stepRows
        split
        · exact nodup_map_filter (nodup_map_filter (nodup_map_of_pairwise_lt (h.sorted hseg)) _) _
        · exact List.nodup_nil
      · intro k hk k' hk' heq
        obtain ⟨a, ha, rfl⟩ := List.mem_map.1 hk
        obtain ⟨b, hb, rfl⟩ := List.mem_map.1 hk'
        obtain ⟨pre, step', post, hrest, hb'⟩ := mem_segRows.1 hb
        obtain ⟨-, harow, -⟩ := mem_stepRows.1 ha
        obtain ⟨hvisit, hbrow, hbm, -, -, hsh, -⟩ := mem_stepRows.1 hb'
        have hsplit' : (e.walkPlan spec).steps = (newer ++ [step] ++ pre) ++ step' :: post := by
          simp [hsplit, hrest]
        have hlt : step'.seg.id < step.seg.id :=
          ((mem_newer_iff h hsplit').1 (by simp)).2
        have hsome : (rowOf step.seg.rows b.key).isSome = true := by
          rw [← heq, rowOf_of_mem (h.sorted hseg) harow]
          rfl
        have hpre := QuerySpec.prefixOk_of_matches hbm
        -- The older row of the same key is shadowed by the newer segment.
        have hprobe := (shadowed_iff_newer h hsplit' hvisit hbrow hpre).2
          ⟨step.seg, hseg, hlt, hsome⟩
        rw [hprobe] at hsh
        exact absurd hsh (by simp)

/-! ## The whole walk -/

/-- Every row the walk emits. -/
def walkRows (e : Engine ν) (spec : QuerySpec ν) (keep : Record ν → Bool) : List (Record ν) :=
  e.memRows spec keep ++
    segRows spec keep (e.walkPlan spec).trackShadows e.memSeen [] (e.walkPlan spec).steps

/-- The walk emits the newest versions that are not tombstones, match and pass `keep`. -/
theorem mem_walkRows {e : Engine ν} (h : e.WF) {r : Record ν} :
    r ∈ e.walkRows spec keep ↔
      (e.versions r.key).head? = some r ∧ r.isTombstone = false ∧ spec.«matches» r = true ∧
        keep r = true := by
  rw [walkRows, List.mem_append, mem_memRows, mem_segRows_plan h, memSeen_contains, versions_eq]
  cases hmem : e.memVersions r.key with
  | nil => simp
  | cons v vs => simp

theorem walkRows_nodup {e : Engine ν} (h : e.WF) (spec : QuerySpec ν) (keep : Record ν → Bool) :
    ((e.walkRows spec keep).map Record.key).Nodup := by
  rw [walkRows, List.map_append, List.nodup_append]
  refine ⟨memRows_nodup e, segRows_nodup h rfl, ?_⟩
  intro k hk k' hk' heq
  obtain ⟨a, ha, rfl⟩ := List.mem_map.1 hk
  obtain ⟨b, hb, rfl⟩ := List.mem_map.1 hk'
  obtain ⟨hhead, -⟩ := mem_memRows.1 ha
  obtain ⟨-, hseen, -⟩ := (mem_segRows_plan h).1 hb
  rw [memSeen_contains, ← heq] at hseen
  simp [hseen] at hhead

end Engine

end Girder
