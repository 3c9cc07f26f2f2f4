import Mathlib.Algebra.Order.BigOperators.Group.List
import Mathlib.Algebra.Order.Ring.Nat
import Mathlib.Data.Finset.Card
import Girder.Reclaim

/-!
# Space — what reclamation leaves

Reclaim passes over an idle store come to rest.  Each one that rewrites a segment takes rows away,
and once as many in a row as there are segments have rewritten nothing, every sealed segment has had
its audit.  Fewer than half of the rows of each are dead then.  A row that is not dead is the newest
of its key, unless the key has increments; so at rest the sealed segments hold at most two rows for
each key, and two more for each row whose key has increments (`reclaim_bounds_space`).
-/

namespace Girder

open Lib

variable {ν : Type}

/-! ## Audits that succeed -/

/-- The file is in the current format, and can be opened. -/
def Segment.Legible (s : Segment ν) : Prop := s.version = 2 ∧ (s.tier = .remote → s.pulled = true)

theorem Segment.Legible.readHeader {s : Segment ν} (h : s.Legible) : s.readHeader = .ok 2 := by
  unfold Segment.readHeader
  rw [if_neg, h.1]
  rintro ⟨htier, hpulled⟩
  rw [h.2 htier] at hpulled
  cases hpulled

theorem Segment.Legible.readAllRecords {s : Segment ν} (h : s.Legible) :
    s.readAllRecords = .ok s.rows := by
  unfold Segment.readAllRecords
  rw [if_neg]
  rintro ⟨htier, hpulled⟩
  rw [h.2 htier] at hpulled
  cases hpulled

section Audits

variable [Numeral ν]

theorem auditNewer_ok {newer : List (Segment ν)} (h : ∀ m ∈ newer, m.Legible) :
    ∀ rows : List AuditRow, ∃ rows', auditNewer newer rows = .ok rows' := by
  induction newer with
  | nil => exact fun rows => ⟨rows, rfl⟩
  | cons m newer ih =>
      intro rows
      have hrest := ih fun x hx => h x (List.mem_cons_of_mem m hx)
      rw [auditNewer, (h m List.mem_cons_self).readHeader]
      exact hrest (rows.map (auditNewerRow m))

theorem auditOlder_ok {older : List (Segment ν)} (h : ∀ m ∈ older, m.Legible) :
    ∀ rows : List AuditRow, ∃ rows', auditOlder older rows = .ok rows' := by
  induction older with
  | nil => exact fun rows => ⟨rows, rfl⟩
  | cons m older ih =>
      intro rows
      have hrest := ih fun x hx => h x (List.mem_cons_of_mem m hx)
      rw [auditOlder, (h m List.mem_cons_self).readHeader]
      split
      · exact hrest (rows.map (auditOlderRow m 2))
      · exact hrest rows

/-- An audit fails only over a file it cannot open. -/
theorem audit_ok {cand : Segment ν} {newer older : List (Segment ν)}
    (hnewer : ∀ m ∈ newer, m.Legible) (holder : ∀ m ∈ older, m.Legible) :
    audit cand newer older = .ok (cand.rows.map (auditRow cand newer older)) := by
  have hok : ∃ rows, audit cand newer older = .ok rows := by
    obtain ⟨seen, hseen⟩ := auditNewer_ok hnewer (auditStart cand)
    obtain ⟨rows, hrows⟩ := auditOlder_ok holder seen
    rw [audit, hseen]
    show ∃ rows, (if seen.any AuditRow.tomb = true then _ else _) = _
    split
    · exact ⟨rows, hrows⟩
    · exact ⟨seen, rfl⟩
  obtain ⟨rows, hrows⟩ := hok
  rw [hrows, audit_eq_ok hrows]

/-! ## Rows that are dead -/

theorem shadowed_auditNewerRow {m : Segment ν} {row : AuditRow} (h : row.shadowed = true) :
    (auditNewerRow m row).shadowed = true := by
  unfold auditNewerRow
  split
  · exact h
  · split
    · exact h
    · split
      · exact h
      · rfl

/-- A full record of the key in a newer segment, found by the search. -/
theorem shadowed_of_full {m : Segment ν} (hm : m.Sorted) {row : AuditRow} {v : Record ν}
    (hv : rowOf m.rows row.key = some v) (hfull : v.isDelta = false) :
    (auditNewerRow m row).shadowed = true := by
  obtain ⟨j, hj, hrow⟩ : ∃ j, m.findKey row.key = some j ∧ m.rows[j]? = some v := by
    have hlookup := (Segment.lookup_eq_rowOf hm row.key).trans hv
    exact Option.bind_eq_some_iff.1 hlookup
  unfold auditNewerRow
  split
  · rename_i hknown
    exact (Bool.and_eq_true_iff.1 hknown).1
  · rw [hj]
    have hno : rowIsDelta m j = false := by simp [rowIsDelta, hrow, hfull]
    simp [hno]

/-- Without an increment of the key the row stays without one above it. -/
theorem deltaOver_auditNewerRow {m : Segment ν} (hm : m.Sorted) {row : AuditRow}
    (hno : ∀ v, rowOf m.rows row.key = some v → v.isDelta = false) (h : row.deltaOver = false) :
    (auditNewerRow m row).deltaOver = false := by
  unfold auditNewerRow
  split
  · exact h
  · split
    · exact h
    · rename_i j hj
      obtain ⟨v, hv⟩ := Option.isSome_iff_exists.1
        ((Segment.findKey_isSome hm row.key).symm.trans (by rw [hj]; rfl))
      have hrow : m.rows[j]? = some v := by
        have hlookup := (Segment.lookup_eq_rowOf hm row.key).trans hv
        rw [Segment.lookup, hj] at hlookup
        exact hlookup
      have hfull : rowIsDelta m j = false := by simp [rowIsDelta, hrow, hno v hv]
      simp [hfull, h]

/-- What the newer segments say of a key without increments. -/
theorem newerRow_of_plain {key : String} {newer : List (Segment ν)} :
    ∀ {row : AuditRow}, (∀ m ∈ newer, m.version = 2 ∧ m.Sorted) → row.key = key →
      (∀ m ∈ newer, ∀ v, rowOf m.rows key = some v → v.isDelta = false) → row.deltaOver = false →
      (newerRow newer row).deltaOver = false ∧
        (row.shadowed = true ∨ (∃ m ∈ newer, (rowOf m.rows key).isSome = true) →
          (newerRow newer row).shadowed = true) := by
  induction newer with
  | nil =>
      intro row _ _ _ hdelta
      refine ⟨hdelta, fun h => ?_⟩
      rcases h with h | ⟨m, hm, -⟩
      · exact h
      · exact absurd hm List.not_mem_nil
  | cons m newer ih =>
      intro row hmodern hkey hno hdelta
      obtain ⟨hversion, hsorted⟩ := hmodern m List.mem_cons_self
      have hno' := hno m List.mem_cons_self
      rw [← hkey] at hno'
      have hkey' : (auditNewerRow m row).key = key :=
        (congrArg Prod.fst (auditNewerRow_fixed m row)).trans hkey
      obtain ⟨hrest, hshadow⟩ := ih (fun x hx => hmodern x (List.mem_cons_of_mem m hx)) hkey'
        (fun x hx => hno x (List.mem_cons_of_mem m hx))
        (deltaOver_auditNewerRow hsorted hno' hdelta)
      have hstep : newerRow (m :: newer) row = newerRow newer (auditNewerRow m row) := by
        simp only [newerRow, List.foldl_cons, hversion, ne_eq, not_true_eq_false, if_false]
      rw [hstep]
      refine ⟨hrest, fun h => hshadow ?_⟩
      rcases h with h | ⟨x, hx, hfound⟩
      · exact .inl (shadowed_auditNewerRow h)
      · rcases List.mem_cons.1 hx with rfl | hx
        · obtain ⟨v, hv⟩ := Option.isSome_iff_exists.1 hfound
          rw [← hkey] at hv
          exact .inl (shadowed_of_full hsorted hv (hno' v hv))
        · exact .inr ⟨x, hx, hfound⟩

end Audits

namespace Engine

variable [Numeral ν]

/-! ## What is stored -/

def storedRows (e : Engine ν) : Nat := (e.manifest.segments.map (fun s => s.rows.length)).sum

def sealedSegments (e : Engine ν) : List (Segment ν) :=
  e.manifest.segments.filter (isSealed e.config)

def sealedRows (e : Engine ν) : Nat := (e.sealedSegments.map (fun s => s.rows.length)).sum

/-- The keys the segments hold. -/
def storedKeys (e : Engine ν) : Finset String :=
  (e.manifest.segments.flatMap (fun s => s.rows.map Record.key)).toFinset

/-- Does a segment hold an increment of the key? -/
def hasIncrement (e : Engine ν) (key : String) : Bool :=
  e.manifest.segments.any (fun s => (rowOf s.rows key).any Record.isDelta)

/-- The rows of sealed segments whose key has increments. -/
def countedRows (e : Engine ν) : Nat :=
  (e.sealedSegments.map (fun s => s.rows.countP (fun r => e.hasIncrement r.key))).sum

/-- An audit of the segment would leave it as it is. -/
def Tight (e : Engine ν) (s : Segment ν) : Prop :=
  s.rows.countP (e.reclaimable s) * 2 < s.rows.length ∨ s.rows = []

/-- Every segment can be audited. -/
structure Legible [Unicode] (e : Engine ν) : Prop where
  wf : e.WF
  segments : ∀ s ∈ e.manifest.segments, s.Legible

/-! ## One pass -/

section Pass

omit [Numeral ν] in
theorem storedRows_eq {e : Engine ν} (hd : (e.manifest.segments.map Segment.id).Nodup)
    {s : Segment ν} (hs : s ∈ e.manifest.segments) :
    e.storedRows = s.rows.length + ((e.others s.id).map (fun x => x.rows.length)).sum := by
  have hperm := (segments_perm_others hd hs).map (fun x => x.rows.length)
  rw [storedRows, hperm.sum_eq, List.map_cons, List.sum_cons]

variable [SegmentFile ν]

/-- What becomes of a candidate whose audit succeeds. -/
theorem reclaimCandidate_eq {e : Engine ν} {cand : Segment ν} {newer older : List (Segment ν)}
    {rows : List AuditRow} (hcand : cand.Legible) (haudit : audit cand newer older = .ok rows) :
    e.reclaimCandidate cand newer older =
      if cand.rows.length = 0 ∨ rows.countP AuditRow.dead * 2 < rows.length then .ok (e, false)
      else if (survivors rows cand.rows).isEmpty then .ok (e.dropSegment cand.id, true)
      else .ok (e.replaceSegment cand (survivors rows cand.rows), true) := by
  rw [reclaimCandidate, hcand.readHeader, haudit, hcand.readAllRecords]
  by_cases hnone : cand.rows.length = 0
  · simp [hnone, bind, Except.bind, pure, Except.pure]
  · by_cases hratio : rows.countP AuditRow.dead * 2 < rows.length
    · simp [hnone, hratio, bind, Except.bind, pure, Except.pure]
    · simp only [hnone, hratio, bind, Except.bind, pure, Except.pure, survivors, ne_eq,
        not_true_eq_false, or_self, if_false]
      rfl

variable [Unicode]

omit [SegmentFile ν] in
theorem Legible.audit_eq {e : Engine ν} (h : e.Legible) (cand : Segment ν) :
    audit cand (e.newerEvidence cand) (e.olderEvidence cand) =
      .ok (cand.rows.map (auditRow cand (e.newerEvidence cand) (e.olderEvidence cand))) := by
  refine audit_ok (fun m hm => ?_) (fun m hm => ?_)
  · exact h.segments m (List.mem_of_mem_filter (List.mem_of_mem_filter hm))
  · unfold olderEvidence at hm
    split at hm
    · exact h.segments m (List.mem_of_mem_filter (List.mem_of_mem_filter hm))
    · exact absurd hm List.not_mem_nil

omit [Numeral ν] in
/-- The slot of a segment with fewer rows, or none. -/
theorem Legible.shrink {e e' : Engine ν} (h : e.Legible) {cand : Segment ν}
    (hcand : cand ∈ e.manifest.segments) {p : Record ν → Bool}
    (hfewer : (cand.rows.filter p).length < cand.rows.length)
    (hcase : e' = e.dropSegment cand.id ∨ e' = e.replaceSegment cand (cand.rows.filter p)) :
    e'.Legible ∧ e'.storedRows < e.storedRows ∧
      e'.manifest.segments.length ≤ e.manifest.segments.length := by
  have hlength := (segments_perm_others h.wf.ids_nodup hcand).length_eq
  have hstored := storedRows_eq h.wf.ids_nodup hcand
  have hothers : ∀ s ∈ e.others cand.id, s.Legible := fun s hs => h.segments s (mem_others.1 hs).1
  rcases hcase with rfl | rfl
  · refine ⟨⟨dropSegment_wf h.wf cand.id, hothers⟩, ?_, ?_⟩
    · calc (e.dropSegment cand.id).storedRows
          = ((e.others cand.id).map (fun x => x.rows.length)).sum := rfl
        _ < e.storedRows := by omega
    · rw [hlength]
      exact Nat.le_succ _
  · refine ⟨⟨replaceSegment_wf h.wf cand ((h.wf.sorted hcand).filter _), fun s hs => ?_⟩, ?_, ?_⟩
    · rcases List.mem_append.1 hs with hs | hs
      · exact hothers s hs
      · rw [List.mem_singleton.1 hs]
        exact ⟨rfl, fun htier => Tier.noConfusion htier⟩
    · calc (e.replaceSegment cand (cand.rows.filter p)).storedRows
          = ((e.others cand.id).map (fun x => x.rows.length)).sum +
              (cand.rows.filter p).length := by
            show ((e.others cand.id ++ [e.rewrittenSegment cand (cand.rows.filter p)]).map
              (fun x => x.rows.length)).sum = _
            rw [List.map_append, List.sum_append]
            rfl
        _ < e.storedRows := by omega
    · show (e.others cand.id ++ [_]).length ≤ _
      rw [hlength, List.length_append, List.length_cons]
      exact Nat.le_refl _

/-- A pass over a tight candidate moves the cursor; over another it takes rows away. -/
theorem Legible.pass {e : Engine ν} (h : e.Legible) {cand : Segment ν}
    (hpick : e.reclaimPick = some cand) :
    (e.Tight cand ∧ e.reclaimSealed.1 = { e with reclaimCursor := cand.id }) ∨
      (¬e.Tight cand ∧ e.reclaimSealed.1.Legible ∧ e.reclaimSealed.1.storedRows < e.storedRows ∧
        e.reclaimSealed.1.manifest.segments.length ≤ e.manifest.segments.length) := by
  have hcand := (sealed_of_reclaimPick hpick).1
  have hmoved : ({ e with reclaimCursor := cand.id } : Engine ν).Legible :=
    ⟨⟨h.wf.memtable_consistent, h.wf.frozen_consistent, h.wf.ids_nodup, h.wf.sorted⟩, h.segments⟩
  have hcount : (cand.rows.map (auditRow cand (e.newerEvidence cand)
      (e.olderEvidence cand))).countP AuditRow.dead = cand.rows.countP (e.reclaimable cand) := by
    rw [List.countP_map]
    rfl
  unfold reclaimSealed
  rw [hpick]
  dsimp only
  rw [reclaimCandidate_eq (h.segments cand hcand) (h.audit_eq cand), hcount, List.length_map]
  by_cases htight : e.Tight cand
  · rw [if_pos]
    · exact .inl ⟨htight, rfl⟩
    · exact htight.symm.imp_left List.length_eq_zero_iff.2
  · right
    rw [Tight, not_or] at htight
    rw [if_neg (by rw [List.length_eq_zero_iff]; exact fun hor => hor.elim htight.2 htight.1)]
    -- At least one row is dead.
    have hdead : 0 < cand.rows.countP (e.reclaimable cand) := by
      have hrows := List.length_pos_iff.2 htight.2
      omega
    have hsurvivors : survivors (cand.rows.map (auditRow cand (e.newerEvidence cand)
        (e.olderEvidence cand))) cand.rows = cand.rows.filter (fun r => !e.reclaimable cand r) := by
      refine List.filter_congr fun r hr => ?_
      rw [deadKeys_contains (h.wf.sorted hcand) hr]
    have hfewer :
        (cand.rows.filter (fun r => !e.reclaimable cand r)).length < cand.rows.length := by
      obtain ⟨r, hr, hdead⟩ := List.countP_pos_iff.1 hdead
      exact List.length_filter_lt_length_iff_exists.2 ⟨r, hr, by simp [hdead]⟩
    rw [hsurvivors]
    refine ⟨not_or.2 htight, ?_⟩
    by_cases hempty : (cand.rows.filter (fun r => !e.reclaimable cand r)).isEmpty = true
    · rw [if_pos hempty]
      exact hmoved.shrink hcand hfewer (.inl rfl)
    · rw [if_neg hempty]
      exact hmoved.shrink hcand hfewer (.inr rfl)

end Pass

/-! ## At rest -/

section Rest

variable [Unicode] [SegmentFile ν]

/-- The store after some reclaim passes. -/
def passes (e : Engine ν) : Nat → Engine ν := process (fun _ e => e.reclaimSealed.1) e

omit [Unicode] [SegmentFile ν] in
/-- Whether a segment is tight depends on the segments alone. -/
theorem tight_congr {e e' : Engine ν} (h : e'.manifest = e.manifest) (s : Segment ν) :
    e'.Tight s ↔ e.Tight s := by
  unfold Tight reclaimable newerEvidence olderEvidence
  rw [h]

/-- What every pass keeps. -/
theorem Legible.step {e : Engine ν} (h : e.Legible) :
    e.reclaimSealed.1.Legible ∧ e.reclaimSealed.1.storedRows ≤ e.storedRows ∧
      e.reclaimSealed.1.manifest.segments.length ≤ e.manifest.segments.length := by
  cases hpick : e.reclaimPick with
  | none =>
      have hstay : e.reclaimSealed.1 = e := by
        unfold reclaimSealed
        rw [hpick]
      rw [hstay]
      exact ⟨h, Nat.le_refl _, Nat.le_refl _⟩
  | some cand =>
      rcases h.pass hpick with ⟨-, heq⟩ | ⟨-, hlegible, hless, hlength⟩
      · rw [heq]
        exact ⟨⟨⟨h.wf.memtable_consistent, h.wf.frozen_consistent, h.wf.ids_nodup, h.wf.sorted⟩,
          h.segments⟩, Nat.le_refl _, Nat.le_refl _⟩
      · exact ⟨hlegible, hless.le, hlength⟩

/-- A pass that takes no row away finds its candidate tight and changes nothing. -/
theorem Legible.quiet {e : Engine ν} (h : e.Legible)
    (hsame : e.reclaimSealed.1.storedRows = e.storedRows) :
    e.reclaimSealed.1.manifest = e.manifest ∧ ∀ cand, e.reclaimPick = some cand → e.Tight cand := by
  cases hpick : e.reclaimPick with
  | none =>
      refine ⟨?_, fun _ hcand => by cases hcand⟩
      unfold reclaimSealed
      rw [hpick]
  | some cand =>
      rcases h.pass hpick with ⟨htight, heq⟩ | ⟨-, -, hless, -⟩
      · rw [heq]
        exact ⟨rfl, fun _ hcand => (Option.some.inj hcand) ▸ htight⟩
      · exact absurd hsame hless.ne

omit [Unicode] [SegmentFile ν] in
/-- The candidates that metadata rules out have no dead row. -/
theorem tight_of_no_evidence {e : Engine ν} {s : Segment ν} (h : e.hasEvidence s = false) :
    e.Tight s := by
  rw [← not_ruledOut_eq, Bool.not_eq_false', Bool.and_eq_true, List.isEmpty_iff] at h
  obtain ⟨hnewer, hmay⟩ := h
  have hmay : s.zone.mayHave tombstoneLabel = false := by simpa using hmay
  have hdead : ∀ r ∈ s.rows, e.reclaimable s r = false := by
    intro r _
    unfold reclaimable auditRow olderEvidence
    rw [hnewer, hmay]
    rfl
  by_cases hrows : s.rows = []
  · exact .inr hrows
  · refine .inl ?_
    rw [List.countP_eq_zero.2 fun r hr => by rw [hdead r hr]; exact Bool.false_ne_true]
    exact List.length_pos_iff.2 hrows

/-- Every sealed segment is tight. -/
def AtRest (e : Engine ν) : Prop := ∀ s ∈ e.sealedSegments, e.Tight s

/-- At rest no pass changes the manifest any more. -/
theorem Legible.stays {e : Engine ν} (h : e.Legible) (hrest : e.AtRest) :
    e.reclaimSealed.1.manifest = e.manifest ∧ e.reclaimSealed.1.AtRest := by
  have hmanifest : e.reclaimSealed.1.manifest = e.manifest := by
    cases hpick : e.reclaimPick with
    | none =>
        unfold reclaimSealed
        rw [hpick]
    | some cand =>
        rcases h.pass hpick with ⟨-, heq⟩ | ⟨hdirty, -⟩
        · rw [heq]
        · obtain ⟨hcand, hsealed⟩ := sealed_of_reclaimPick hpick
          exact absurd (hrest cand (List.mem_filter.2 ⟨hcand, hsealed⟩)) hdirty
  refine ⟨hmanifest, fun s hs => (tight_congr hmanifest s).2 (hrest s ?_)⟩
  unfold sealedSegments at hs ⊢
  rwa [hmanifest, (reclaimSealed_keeps e).1] at hs

/-- Passes over an idle store come to rest, after as many as there are rows and segments. -/
theorem Legible.rests {e : Engine ν} (h : e.Legible) :
    ∃ k ≤ (e.storedRows + 1) * e.manifest.segments.length,
      ∀ n, k ≤ n → (e.passes n).AtRest ∧ (e.passes n).manifest = (e.passes k).manifest := by
  have hlegible : ∀ n, (e.passes n).Legible :=
    process_keeps (fun _ _ h => h.step.1) h
  have hlength : ∀ n, (e.passes n).manifest.segments.length ≤ e.manifest.segments.length := by
    intro n
    induction n with
    | zero => exact Nat.le_refl _
    | succ n ih => exact (hlegible n).step.2.2.trans ih
  obtain ⟨k, hk, hquiet⟩ := exists_quiet_window e.manifest.segments.length e.storedRows
    (f := fun n => (e.passes n).storedRows) (Nat.le_refl _) (fun n => (hlegible n).step.2.1)
  -- In the window each auditable segment is picked once.
  have hsame : ∀ i < e.manifest.segments.length,
      (e.passes (k + i + 1)).manifest = (e.passes (k + i)).manifest :=
    fun i hi => ((hlegible (k + i)).quiet (hquiet i hi)).1
  have hmanifest : ∀ i ≤ e.manifest.segments.length,
      (e.passes (k + i)).manifest = (e.passes k).manifest := by
    intro i
    induction i with
    | zero => exact fun _ => rfl
    | succ i ih => exact fun hi => (hsame i hi).trans (ih (Nat.le_of_succ_le hi))
  have hnext : ∀ i < e.manifest.segments.length,
      NextPass ((fun i => e.passes (k + i)) i) ((fun i => e.passes (k + i)) (i + 1)) :=
    fun i hi => nextPass_reclaimSealed (hsame i hi)
  have hpicks := (reclaimPick_rotates (hlegible k).wf.ids_nodup hnext).2
  have hcount : (e.passes (k + 0)).auditable.length ≤ e.manifest.segments.length :=
    (List.length_filter_le _ _).trans (hlength k)
  have hrest : (e.passes k).AtRest := by
    intro s hs
    obtain ⟨hmem, hsealed⟩ := List.mem_filter.1 hs
    cases hevidence : (e.passes k).hasEvidence s with
    | false => exact tight_of_no_evidence hevidence
    | true =>
        have hauditable : s ∈ (e.passes k).auditable :=
          List.mem_filter.2 ⟨hmem, by rw [hsealed, hevidence]; rfl⟩
        have hturn := (hpicks 0 (by omega)).mem_iff.2 (List.mem_map_of_mem hauditable)
        obtain ⟨i, hi, hpick⟩ := List.mem_map.1 hturn
        have hlt : i < e.manifest.segments.length := by
          obtain ⟨j, hj, rfl⟩ := List.mem_range'.1 hi
          omega
        exact (tight_congr (hmanifest i hlt.le) s).1
          (((hlegible (k + i)).quiet (hquiet i hlt)).2 s hpick)
  refine ⟨k, by omega, fun n hn => ?_⟩
  obtain ⟨i, rfl⟩ := Nat.exists_eq_add_of_le hn
  induction i with
  | zero => exact ⟨hrest, rfl⟩
  | succ i ih =>
      obtain ⟨hbefore, heq⟩ := ih (Nat.le_add_right k i)
      obtain ⟨hstep, hafter⟩ := (hlegible (k + i)).stays hbefore
      exact ⟨hafter, hstep.trans heq⟩

end Rest

/-! ## What the sealed segments hold -/

section Bound

variable [Unicode] [LawfulNumeral ν]

/-- A row that is not dead, of a key without increments: no newer segment holds the key. -/
theorem Legible.newest {e : Engine ν} (h : e.Legible) {s m : Segment ν}
    (hs : s ∈ e.manifest.segments) (hm : m ∈ e.manifest.segments) (hlt : s.id < m.id)
    {r : Record ν} (hr : r ∈ s.rows) (hplain : e.hasIncrement r.key = false)
    (hlive : e.reclaimable s r = false) : rowOf m.rows r.key = none := by
  by_contra hheld
  obtain ⟨v, hv⟩ := Option.ne_none_iff_exists'.1 hheld
  have hrow : rowOf s.rows r.key = some r := rowOf_of_mem (h.wf.sorted hs) hr
  have hevidence : m ∈ e.newerEvidence s := List.mem_filter.2
    ⟨List.mem_filter.2 ⟨hm, decide_eq_true hlt⟩, rangesMeet_of_common_key hv hrow⟩
  have hlisted : ∀ x ∈ e.newerEvidence s, x ∈ e.manifest.segments :=
    fun x hx => List.mem_of_mem_filter (List.mem_of_mem_filter hx)
  have hfull : ∀ x ∈ e.newerEvidence s, ∀ w, rowOf x.rows r.key = some w → w.isDelta = false := by
    intro x hx w hw
    by_contra hdelta
    have hany : e.hasIncrement r.key = true :=
      List.any_eq_true.2 ⟨x, hlisted x hx, by simp [hw, Bool.eq_true_of_not_eq_false hdelta]⟩
    rw [hplain] at hany
    cases hany
  obtain ⟨hover, hshadow⟩ := @newerRow_of_plain ν _ r.key (e.newerEvidence s)
    { key := r.key, tomb := s.zone.mayHave tombstoneLabel && r.isTombstone }
    (fun x hx => ⟨(h.segments x (hlisted x hx)).1, h.wf.sorted (hlisted x hx)⟩) rfl hfull rfl
  have hshadowed := hshadow (.inr ⟨m, hevidence, by rw [hv]; rfl⟩)
  -- The older evidence does not touch either mark.
  have hfixed := olderRow_fixed (e.olderEvidence s) (newerRow (e.newerEvidence s)
    { key := r.key, tomb := s.zone.mayHave tombstoneLabel && r.isTombstone })
  have hdead : e.reclaimable s r = true := by
    have hshadowed' : (auditRow s (e.newerEvidence s) (e.olderEvidence s) r).shadowed = true :=
      (congrArg (fun x => x.2.2.1) hfixed).trans hshadowed
    have hover' : (auditRow s (e.newerEvidence s) (e.olderEvidence s) r).deltaOver = false :=
      (congrArg (fun x => x.2.2.2) hfixed).trans hover
    rw [reclaimable, AuditRow.dead, hshadowed', hover']
    rfl
  rw [hlive] at hdead
  cases hdead

/-- The keys without increments of the rows that are not dead. -/
def liveKeys (e : Engine ν) (s : Segment ν) : List String :=
  (s.rows.filter (fun r => !e.reclaimable s r && !e.hasIncrement r.key)).map Record.key

omit [Unicode] [LawfulNumeral ν] in
theorem mem_liveKeys {e : Engine ν} {s : Segment ν} {key : String} :
    key ∈ e.liveKeys s ↔ ∃ r ∈ s.rows,
      (e.reclaimable s r = false ∧ e.hasIncrement r.key = false) ∧ r.key = key := by
  simp [liveKeys, and_assoc]

omit [Unicode] [LawfulNumeral ν] in
/-- A tight segment has at most twice as many rows as rows that are not dead. -/
theorem Tight.length_le {e : Engine ν} {s : Segment ν} (h : e.Tight s) :
    s.rows.length ≤
      2 * ((e.liveKeys s).length + s.rows.countP (fun r => e.hasIncrement r.key)) := by
  have hsplit : ∀ rows : List (Record ν), rows.length ≤ rows.countP (e.reclaimable s) +
      ((rows.filter (fun r => !e.reclaimable s r && !e.hasIncrement r.key)).length +
        rows.countP (fun r => e.hasIncrement r.key)) := by
    intro rows
    induction rows with
    | nil => exact Nat.le_refl 0
    | cons r rows ih =>
        cases hdead : e.reclaimable s r <;> cases hinc : e.hasIncrement r.key <;>
          simp only [List.length_cons, List.countP_cons, List.filter_cons, hdead, hinc] <;>
          simp <;> omega
  have hrows := hsplit s.rows
  rw [liveKeys, List.length_map]
  rcases h with hhalf | hnone
  · omega
  · rw [hnone]
    exact Nat.zero_le _

/-- No key is live in two segments. -/
theorem Legible.liveKeys_nodup {e : Engine ν} (h : e.Legible) :
    (e.sealedSegments.flatMap e.liveKeys).Nodup := by
  refine List.nodup_flatMap.2 ⟨fun s hs => ?_, ?_⟩
  · have hsorted := h.wf.sorted (List.mem_of_mem_filter hs)
    exact nodup_map_filter (nodup_map_of_pairwise_lt hsorted) _
  · have hids : e.sealedSegments.Pairwise (fun a b => a.id ≠ b.id) :=
      List.pairwise_map.1 (nodup_map_filter h.wf.ids_nodup _)
    refine hids.imp_of_mem fun {a b} ha hb hne key hka hkb => ?_
    obtain ⟨ra, hra, ⟨hlivea, hplaina⟩, rfl⟩ := mem_liveKeys.1 hka
    obtain ⟨rb, hrb, ⟨hliveb, hplainb⟩, hkey⟩ := mem_liveKeys.1 hkb
    have ha := List.mem_of_mem_filter ha
    have hb := List.mem_of_mem_filter hb
    rcases Nat.lt_or_gt_of_ne hne with hlt | hgt
    · have hnone := h.newest ha hb hlt hra hplaina hlivea
      exact rowOf_eq_none.1 hnone rb hrb hkey
    · have hnone := h.newest hb ha hgt hrb hplainb hliveb
      exact rowOf_eq_none.1 hnone ra hra hkey.symm

/-- At rest the sealed segments hold two rows for each key at most, and two for each row whose key
has increments. -/
theorem Legible.sealedRows_le {e : Engine ν} (h : e.Legible) (hrest : e.AtRest) :
    e.sealedRows ≤ 2 * (e.storedKeys.card + e.countedRows) := by
  have hsum : ∀ l : List (Segment ν), (∀ s ∈ l, e.Tight s) →
      (l.map (fun s => s.rows.length)).sum ≤ 2 * ((l.flatMap e.liveKeys).length +
        (l.map (fun s => s.rows.countP (fun r => e.hasIncrement r.key))).sum) := by
    intro l
    induction l with
    | nil => exact fun _ => Nat.le_refl 0
    | cons s l ih =>
        intro htight
        have hrest := ih fun x hx => htight x (List.mem_cons_of_mem s hx)
        have hone := (htight s List.mem_cons_self).length_le
        rw [List.map_cons, List.map_cons, List.sum_cons, List.sum_cons, List.flatMap_cons,
          List.length_append]
        omega
  have hcard : (e.sealedSegments.flatMap e.liveKeys).length ≤ e.storedKeys.card := by
    rw [← List.toFinset_card_of_nodup h.liveKeys_nodup]
    refine Finset.card_le_card fun key hkey => ?_
    obtain ⟨s, hs, hkey⟩ := List.mem_flatMap.1 (List.mem_toFinset.1 hkey)
    obtain ⟨r, hr, -, rfl⟩ := mem_liveKeys.1 hkey
    exact List.mem_toFinset.2
      (List.mem_flatMap.2 ⟨s, List.mem_of_mem_filter hs, List.mem_map_of_mem hr⟩)
  calc e.sealedRows
      ≤ 2 * ((e.sealedSegments.flatMap e.liveKeys).length + e.countedRows) :=
        hsum e.sealedSegments hrest
    _ ≤ 2 * (e.storedKeys.card + e.countedRows) :=
        Nat.mul_le_mul_left 2 (Nat.add_le_add_right hcard _)

variable [SegmentFile ν]

/-- On an idle store whose segments are all in the current format and can be opened: after as many
reclaim passes as there are segments, for each stored row and once more, no pass changes anything,
and the sealed segments hold at most two rows for each stored key, and two more for each row whose
key has increments. -/
theorem reclaim_bounds_space {e : Engine ν} (hwf : e.WF)
    (hlegible : ∀ s ∈ e.manifest.segments, s.Legible) {n : Nat}
    (hn : (e.storedRows + 1) * e.manifest.segments.length ≤ n) :
    (∀ m, n ≤ m → (e.passes m).manifest = (e.passes n).manifest) ∧
      (e.passes n).sealedRows ≤ 2 * ((e.passes n).storedKeys.card + (e.passes n).countedRows) := by
  have h : e.Legible := ⟨hwf, hlegible⟩
  have hkept : (e.passes n).Legible := process_keeps (fun _ _ h => h.step.1) h n
  obtain ⟨k, hk, hrests⟩ := h.rests
  obtain ⟨hrest, heq⟩ := hrests n (hk.trans hn)
  refine ⟨fun m hm => ?_, hkept.sealedRows_le hrest⟩
  rw [(hrests m (hk.trans (hn.trans hm))).2, heq]

end Bound

end Engine

section Sample

local instance instSpaceUnicode : Unicode := asciiUnicode

local instance instSpaceFile : SegmentFile Int := footprintFile Int

/-- The overwritten row of the sealed segment is gone, and nothing changes any more. -/
theorem reclaim_bounds_space_sealedStore :
    ((sealedStore.passes 8).manifest.segments.map (fun s => s.rows.map Record.key) =
        [["a"], ["b"]]) ∧
      (∀ m, 8 ≤ m → (sealedStore.passes m).manifest = (sealedStore.passes 8).manifest) := by
  have hwf : sealedStore.WF := Engine.wf_of_segments rfl rfl (by decide) (by decide)
  have hlegible : ∀ s ∈ sealedStore.manifest.segments, s.Legible := by
    intro s hs
    rcases List.mem_cons.1 hs with rfl | hs
    · exact ⟨rfl, fun htier => Tier.noConfusion htier⟩
    · rw [List.mem_singleton.1 hs]
      exact ⟨rfl, fun htier => Tier.noConfusion htier⟩
  exact ⟨by rfl, (Engine.reclaim_bounds_space hwf hlegible (by decide)).1⟩

end Sample

end Girder
