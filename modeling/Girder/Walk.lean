import Girder.Engine

/-!
# Walk — the newest-wins walk over the segments

A query visits the segments whose zones may match it, newest first.  A newer segment that cannot
match still *shadows* older versions of the keys it holds, so the plan keeps it as a probe target
when it overlaps an older visited one; when the key ranges of the plan are pairwise disjoint, no key
lives in two of its segments and the probes are dropped.

`shadowed_iff_newer` states what all of this amounts to: for a matching row of a visited segment,
the probes answer whether any newer segment of the manifest holds its key.
-/

namespace Girder

open Lib

/-- One segment of the walk: read fully (`visit`) or probed by key only. -/
structure WalkStep (ν : Type) where
  seg : Segment ν
  visit : Bool

/-- The newest-first walk, and whether shadow probes are needed at all. -/
structure WalkPlan (ν : Type) where
  steps : List (WalkStep ν)
  trackShadows : Bool

section Definitions

variable {ν : Type} [Numeral ν]

/-- Are the key ranges pairwise disjoint?  Sort by the lower end, compare neighbours. -/
def keyRangesDisjoint (steps : List (WalkStep ν)) : Bool :=
  let ranges := sortAsc Prod.fst (steps.map (fun s => (s.seg.zone.minKey, s.seg.zone.maxKey)))
  (ranges.zip ranges.tail).all (fun w => decide (w.1.2 < w.2.1))

/-- Does any of the `newer` steps hold `key`?  Only steps whose key range covers it are read. -/
def shadowed (newer : List (WalkStep ν)) (key : String) : Bool :=
  newer.any (fun step => step.seg.zone.containsKey key && (step.seg.findKey key).isSome)

namespace Engine

/-- The candidate steps: segments the key prefix cannot rule out, newest first. -/
def walkSteps (e : Engine ν) (spec : QuerySpec ν) : List (WalkStep ν) :=
  sortDesc (fun step => step.seg.id)
    ((e.manifest.segments.filter (fun s => s.zone.mayOverlapPrefix spec)).map
      (fun s => { seg := s, visit := s.zone.mayMatch spec }))

/-- Could some older visited step share a key with `s`? -/
def worthProbing (steps : List (WalkStep ν)) (s : WalkStep ν) : Bool :=
  steps.any (fun v =>
    v.visit && decide (v.seg.id < s.seg.id) && v.seg.zone.keyRangeOverlaps s.seg.zone)

/-- The newest-wins segment walk for `spec`. -/
def walkPlan (e : Engine ν) (spec : QuerySpec ν) : WalkPlan ν :=
  let all := e.walkSteps spec
  let steps := all.filter (fun s => s.visit || worthProbing all s)
  let disjoint := keyRangesDisjoint steps
  { steps := if disjoint then steps.filter (fun s => s.visit) else steps
    trackShadows := !disjoint }

end Engine

end Definitions

/-! ## Disjoint key ranges -/

section Disjoint

variable {ν : Type} [Numeral ν]

/-- Neighbours apart means all apart, when the lower ends ascend. -/
theorem pairwise_of_neighbours {ranges : List (String × String)}
    (hsorted : ranges.Pairwise (fun a b => a.1 ≤ b.1))
    (hnext : (ranges.zip ranges.tail).all (fun w => decide (w.1.2 < w.2.1)) = true) :
    ranges.Pairwise (fun a b => a.2 < b.1) := by
  induction ranges with
  | nil => exact List.Pairwise.nil
  | cons a ranges ih =>
      obtain ⟨-, htail⟩ := List.pairwise_cons.1 hsorted
      cases ranges with
      | nil => simp
      | cons b ranges =>
          simp only [List.tail_cons, List.zip_cons_cons, List.all_cons, Bool.and_eq_true,
            decide_eq_true_eq] at hnext
          have hrest := ih htail (by simpa using hnext.2)
          refine List.pairwise_cons.2 ⟨?_, hrest⟩
          intro c hc
          rcases List.mem_cons.1 hc with rfl | hc
          · exact hnext.1
          · exact hnext.1.trans_le ((List.pairwise_cons.1 htail).1 c hc)

/-- In a disjoint plan a key is in the range of at most one step. -/
theorem eq_of_keyRangesDisjoint {steps : List (WalkStep ν)} (h : keyRangesDisjoint steps = true)
    {a b : WalkStep ν} (ha : a ∈ steps) (hb : b ∈ steps) {key : String}
    (hka : a.seg.zone.containsKey key = true) (hkb : b.seg.zone.containsKey key = true) :
    a = b := by
  have hpair := pairwise_of_neighbours (sortAsc_pairwise Prod.fst _) h
  have hapart : (steps.map (fun s => (s.seg.zone.minKey, s.seg.zone.maxKey))).Pairwise
      (fun x y => x.2 < y.1 ∨ y.2 < x.1) := by
    refine (sortAsc_perm Prod.fst _).pairwise (hpair.imp Or.inl) ?_
    intro x y hxy
    exact hxy.symm
  rw [List.pairwise_map] at hapart
  have hsymm : Std.Symm (fun a b : WalkStep ν =>
      a.seg.zone.maxKey < b.seg.zone.minKey ∨ b.seg.zone.maxKey < a.seg.zone.minKey) :=
    ⟨fun _ _ hab => hab.symm⟩
  by_contra hne
  simp only [ZoneMap.containsKey, Bool.and_eq_true, decide_eq_true_eq] at hka hkb
  rcases hapart.forall ha hb hne with hlt | hlt
  · exact absurd (hkb.1.trans hka.2) (not_le.2 hlt)
  · exact absurd (hka.1.trans hkb.2) (not_le.2 hlt)

end Disjoint

/-! ## What the plan contains -/

namespace Engine

variable {ν : Type} [Numeral ν]

theorem mem_walkSteps {e : Engine ν} {spec : QuerySpec ν} {step : WalkStep ν} :
    step ∈ e.walkSteps spec ↔
      step.seg ∈ e.manifest.segments ∧ step.seg.zone.mayOverlapPrefix spec = true ∧
        step.visit = step.seg.zone.mayMatch spec := by
  simp only [walkSteps, mem_sortDesc, List.mem_map, List.mem_filter]
  constructor
  · rintro ⟨s, ⟨hs, hp⟩, rfl⟩
    exact ⟨hs, hp, rfl⟩
  · rintro ⟨hs, hp, hv⟩
    exact ⟨step.seg, ⟨hs, hp⟩, by rw [← hv]⟩

theorem walkPlan_sublist (e : Engine ν) (spec : QuerySpec ν) :
    (e.walkPlan spec).steps.Sublist (e.walkSteps spec) := by
  simp only [walkPlan]
  split
  · exact List.filter_sublist.trans List.filter_sublist
  · exact List.filter_sublist

theorem seg_of_mem_walkPlan (e : Engine ν) (spec : QuerySpec ν) :
    ∀ step ∈ (e.walkPlan spec).steps, step.seg ∈ e.manifest.segments :=
  fun _ hstep => (mem_walkSteps.1 ((walkPlan_sublist e spec).subset hstep)).1

theorem walkSteps_pairwise [Unicode] {e : Engine ν} (h : e.WF) (spec : QuerySpec ν) :
    (e.walkSteps spec).Pairwise (fun a b => b.seg.id < a.seg.id) := by
  refine sortDesc_pairwise_gt ?_
  rw [List.map_map]
  exact nodup_map_filter h.ids_nodup _

/-- The steps before a step of the plan are the ones with a larger id. -/
theorem mem_newer_iff [Unicode] {e : Engine ν} (h : e.WF) {spec : QuerySpec ν}
    {newer rest : List (WalkStep ν)} {step : WalkStep ν}
    (hsplit : (e.walkPlan spec).steps = newer ++ step :: rest) {s : WalkStep ν} :
    s ∈ newer ↔ s ∈ (e.walkPlan spec).steps ∧ step.seg.id < s.seg.id := by
  have hsorted := (walkSteps_pairwise h spec).sublist (walkPlan_sublist e spec)
  rw [hsplit] at hsorted ⊢
  obtain ⟨-, htail, hcross⟩ := List.pairwise_append.1 hsorted
  constructor
  · intro hs
    exact ⟨by simp [hs], hcross s hs step (by simp)⟩
  · rintro ⟨hs, hlt⟩
    rcases List.mem_append.1 hs with hs | hs
    · exact hs
    · rcases List.mem_cons.1 hs with rfl | hs
      · exact absurd hlt (lt_irrefl _)
      · exact absurd ((List.pairwise_cons.1 htail).1 s hs) (not_lt.2 hlt.le)

variable [Unicode] [LawfulNumeral ν]

/-- For a row of a visited step under the spec's prefix, the probes find exactly the newer
segments that hold its key. -/
theorem shadowed_iff_newer {e : Engine ν} (h : e.WF) {spec : QuerySpec ν}
    {newer rest : List (WalkStep ν)} {step : WalkStep ν}
    (hsplit : (e.walkPlan spec).steps = newer ++ step :: rest) (hvisit : step.visit = true)
    {r : Record ν} (hr : r ∈ step.seg.rows) (hpre : spec.prefixOk r.key = true) :
    ((e.walkPlan spec).trackShadows && shadowed newer r.key) = true ↔
      ∃ s ∈ e.manifest.segments, step.seg.id < s.id ∧ (rowOf s.rows r.key).isSome = true := by
  have hstep : step ∈ (e.walkPlan spec).steps := by simp [hsplit]
  constructor
  · intro hsh
    simp only [shadowed, Bool.and_eq_true, List.any_eq_true] at hsh
    obtain ⟨-, s, hs, -, hfind⟩ := hsh
    obtain ⟨hs', hlt⟩ := (mem_newer_iff h hsplit).1 hs
    have hseg := (mem_walkSteps.1 ((walkPlan_sublist e spec).mem hs')).1
    exact ⟨s.seg, hseg, hlt, by rw [← Segment.findKey_isSome (h.sorted hseg)]; exact hfind⟩
  · rintro ⟨s, hs, hlt, hsome⟩
    obtain ⟨r', hr'⟩ := Option.isSome_iff_exists.1 hsome
    have hcs : s.zone.containsKey r.key = true := Segment.zone_containsKey hr'
    have hcr : step.seg.zone.containsKey r.key = true := (Segment.zone_covers hr).containsKey
    -- The newer segment is a candidate step, and overlaps the visited one, so it is kept.
    let shadow : WalkStep ν := { seg := s, visit := s.zone.mayMatch spec }
    have hall : shadow ∈ e.walkSteps spec :=
      mem_walkSteps.2 ⟨hs, ZoneMap.mayOverlapPrefix_of_range hcs hpre, rfl⟩
    have hstepAll : step ∈ e.walkSteps spec := (walkPlan_sublist e spec).mem hstep
    have hworth : worthProbing (e.walkSteps spec) shadow = true := by
      simp only [worthProbing, List.any_eq_true, Bool.and_eq_true, decide_eq_true_eq]
      exact ⟨step, hstepAll, ⟨hvisit, hlt⟩, ZoneMap.keyRangeOverlaps_of_mem hcr hcs⟩
    have hkept : shadow ∈ (e.walkSteps spec).filter
        (fun s => s.visit || worthProbing (e.walkSteps spec) s) :=
      List.mem_filter.2 ⟨hall, by simp [hworth]⟩
    have hstepKept : step ∈ (e.walkSteps spec).filter
        (fun s => s.visit || worthProbing (e.walkSteps spec) s) :=
      List.mem_filter.2 ⟨hstepAll, by simp [hvisit]⟩
    cases hdisj : keyRangesDisjoint ((e.walkSteps spec).filter
        (fun s => s.visit || worthProbing (e.walkSteps spec) s)) with
    | true =>
        -- Two steps of a disjoint plan cannot both cover the key.
        have heq := eq_of_keyRangesDisjoint hdisj hkept hstepKept hcs hcr
        rw [← heq] at hlt
        exact absurd hlt (lt_irrefl _)
    | false =>
        have hsteps : (e.walkPlan spec).steps = (e.walkSteps spec).filter
            (fun s => s.visit || worthProbing (e.walkSteps spec) s) := by
          simp [walkPlan, hdisj]
        have htrack : (e.walkPlan spec).trackShadows = true := by simp [walkPlan, hdisj]
        have hnewer : shadow ∈ newer := (mem_newer_iff h hsplit).2 ⟨hsteps ▸ hkept, hlt⟩
        simp only [htrack, Bool.true_and, shadowed, List.any_eq_true, Bool.and_eq_true]
        exact ⟨shadow, hnewer, hcs, by rw [Segment.findKey_isSome (h.sorted hs)]; exact hsome⟩

omit [Unicode] in
/-- A matching row keeps its segment among the visited steps. -/
theorem exists_visit_step {e : Engine ν} {spec : QuerySpec ν} {s : Segment ν}
    (hs : s ∈ e.manifest.segments) {r : Record ν} (hr : r ∈ s.rows)
    (hm : spec.matchesFields r = true) :
    ∃ newer rest, (e.walkPlan spec).steps = newer ++ { seg := s, visit := true } :: rest := by
  have hcov := Segment.zone_covers hr
  have hmay : s.zone.mayMatch spec = true := ZoneMap.mayMatch_of_covers hcov hm
  have hpre : s.zone.mayOverlapPrefix spec = true := by
    simp only [ZoneMap.mayMatch, Bool.and_eq_true] at hmay
    exact hmay.1.1.2
  have hall : ({ seg := s, visit := true } : WalkStep ν) ∈ e.walkSteps spec :=
    mem_walkSteps.2 ⟨hs, hpre, hmay.symm⟩
  refine List.append_of_mem ?_
  simp only [walkPlan]
  split
  · exact List.mem_filter.2 ⟨List.mem_filter.2 ⟨hall, by simp⟩, rfl⟩
  · exact List.mem_filter.2 ⟨hall, by simp⟩

end Engine

end Girder
