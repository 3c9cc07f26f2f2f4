import Girder.Engine

/-!
# Slots — one key across the recency order

The id of a segment is its slot in the recency order.  The lemmas here compute the versions of a key
(`segVersions`) when a segment is added at a slot, when several segments are written from pieces of
one sorted stream (`segVersions_outputs`), and when some segments lie together around a slot
(`segVersions_split`).

`replaceSegment` and `dropSegment` are the two moves of the passes that rewrite one segment in
place.
-/

namespace Girder

open Lib

namespace Engine

variable {ν : Type}

/-- The id of the output that holds `key`. -/
def slotOf (outputs : List (Segment ν)) (key : String) : Option Nat :=
  (outputs.find? (fun o => (rowOf o.rows key).isSome)).map Segment.id

/-- At most one of some pieces of sorted rows holds a key. -/
theorem filterMap_rowOf_pieces {outputs : List (Segment ν)}
    (h : (outputs.flatMap Segment.rows).Pairwise (fun a b => a.key < b.key)) (key : String) :
    outputs.filterMap (fun o => rowOf o.rows key) =
      (rowOf (outputs.flatMap Segment.rows) key).toList := by
  rw [← filter_key_eq h]
  refine (filter_flatMap_key (fun o ho => ?_)).symm
  refine filter_key_eq (h.sublist ?_) key
  rw [List.flatMap_def]
  exact List.sublist_flatten_of_mem (List.mem_map_of_mem ho)

/-- Further segments without the key contribute nothing. -/
theorem segVersions_append_of_none {segments more : List (Segment ν)}
    (hd : ((segments ++ more).map Segment.id).Nodup) {key : String}
    (hnone : ∀ s ∈ more, rowOf s.rows key = none) :
    segVersions (segments ++ more) key = segVersions segments key := by
  have hd' : (segments.map Segment.id).Nodup := by
    rw [List.map_append] at hd
    exact hd.of_append_left
  have hholds : ∀ (l : List (Segment ν)), ∀ s ∈ l, (rowOf s.rows key).isSome = false →
      rowOf s.rows key = none := by simp
  have hmore : more.filter (fun s => (rowOf s.rows key).isSome) = [] :=
    List.filter_eq_nil_iff.2 (fun s hs => by simp [hnone s hs])
  rw [← segVersions_filter hd (hholds _), ← segVersions_filter hd' (hholds _),
    List.filter_append, hmore, List.append_nil]

/-- One more segment puts its row between the versions above and below it. -/
theorem segVersions_cons {o : Segment ν} {others : List (Segment ν)}
    (hd : ((o :: others).map Segment.id).Nodup) {key : String} {m : Record ν}
    (hm : rowOf o.rows key = some m) :
    segVersions (o :: others) key =
      segVersions (others.filter (fun s => decide (o.id < s.id))) key ++
        m :: segVersions (others.filter (fun s => decide (s.id < o.id))) key := by
  have hd' : (others.map Segment.id).Nodup := (List.nodup_cons.1 hd).2
  unfold segVersions recency
  rw [sortDesc_cons hd, sortDesc_filter hd', sortDesc_filter hd', List.filterMap_append]
  simp [hm]

/-- A key none of the outputs holds. -/
theorem segVersions_outputs_none {others outputs : List (Segment ν)}
    (hd : ((others ++ outputs).map Segment.id).Nodup)
    (hs : (outputs.flatMap Segment.rows).Pairwise (fun a b => a.key < b.key)) {key : String}
    (hnone : rowOf (outputs.flatMap Segment.rows) key = none) :
    segVersions (others ++ outputs) key = segVersions others key := by
  have hpieces := filterMap_rowOf_pieces hs key
  rw [hnone, Option.toList_none, List.filterMap_eq_nil_iff] at hpieces
  exact segVersions_append_of_none hd hpieces

/-- A key one of the outputs holds: its row sits at that output's slot. -/
theorem segVersions_outputs {others outputs : List (Segment ν)}
    (hd : ((others ++ outputs).map Segment.id).Nodup)
    (hs : (outputs.flatMap Segment.rows).Pairwise (fun a b => a.key < b.key)) {key : String}
    {m : Record ν} (hm : rowOf (outputs.flatMap Segment.rows) key = some m) :
    ∃ o ∈ outputs, slotOf outputs key = some o.id ∧
      segVersions (others ++ outputs) key =
        segVersions (others.filter (fun s => decide (o.id < s.id))) key ++
          m :: segVersions (others.filter (fun s => decide (s.id < o.id))) key := by
  have hpieces := filterMap_rowOf_pieces hs key
  rw [hm, Option.toList_some] at hpieces
  -- The outputs before and after the holder hold nothing.
  obtain ⟨pre, o, post, hsplit, hpre, hrow, hpost⟩ := List.filterMap_eq_cons_iff.1 hpieces
  rw [List.filterMap_eq_nil_iff] at hpost
  have hfind : outputs.find? (fun o => (rowOf o.rows key).isSome) = some o := by
    rw [List.find?_eq_some_iff_append]
    refine ⟨by simp [hrow], pre, post, hsplit, fun s hmem => ?_⟩
    simp [hpre s hmem]
  have hperm : (others ++ outputs).Perm (o :: others ++ (pre ++ post)) := by
    rw [hsplit, ← List.append_assoc, ← List.append_assoc, List.cons_append, List.cons_append]
    exact List.perm_middle
  have hd' : ((o :: others ++ (pre ++ post)).map Segment.id).Nodup :=
    (hperm.map Segment.id).nodup_iff.1 hd
  have hrest : ∀ s ∈ pre ++ post, rowOf s.rows key = none := by
    intro s hmem
    rcases List.mem_append.1 hmem with hmem | hmem
    · exact hpre s hmem
    · exact hpost s hmem
  have hd'' : ((o :: others).map Segment.id).Nodup := by
    rw [List.map_append] at hd'
    exact hd'.of_append_left
  refine ⟨o, by simp [hsplit], by simp [slotOf, hfind], ?_⟩
  rw [segVersions_perm hd hperm, segVersions_append_of_none hd' hrest,
    segVersions_cons hd'' hrow]

/-- Before the rewrite: when no segment left alone that holds the key sits between the slot and a
holder of the run, the run's versions are together, at the slot. -/
theorem segVersions_split {segments : List (Segment ν)} (hd : (segments.map Segment.id).Nodup)
    (inRun : Segment ν → Bool) {slot : Nat} {key : String}
    (hslot : ∀ s ∈ segments, inRun s = false → s.id ≠ slot)
    (hsep : ∀ s ∈ segments, inRun s = false → (rowOf s.rows key).isSome → ∀ t ∈ segments,
      inRun t = true → (rowOf t.rows key).isSome →
        (slot < s.id → t.id < s.id) ∧ (s.id < slot → s.id < t.id)) :
    segVersions segments key =
      segVersions
          ((segments.filter (fun s => !inRun s)).filter (fun s => decide (slot < s.id))) key ++
        (segVersions (segments.filter inRun) key ++
          segVersions
            ((segments.filter (fun s => !inRun s)).filter (fun s => decide (s.id < slot)))
            key) := by
  have hasymm : ∀ a b : Segment ν, b.id < a.id → ¬ a.id < b.id := fun _ _ => lt_asymm
  -- Among the holders of the key, newest first, those above the slot come first, then the run's.
  have hsorted := (sortDesc_pairwise_gt hd).filter (fun s => (rowOf s.rows key).isSome)
  have hholder : ∀ s ∈ (sortDesc Segment.id segments).filter (fun s => (rowOf s.rows key).isSome),
      s ∈ segments ∧ (rowOf s.rows key).isSome = true := by
    intro s hs
    exact ⟨(mem_sortDesc Segment.id).1 (List.mem_of_mem_filter hs), (List.mem_filter.1 hs).2⟩
  have habove := eq_filter_append_of_pairwise (p := fun s => !inRun s && decide (slot < s.id))
    hasymm hsorted (by
      intro a ha b hb hpa hpb
      obtain ⟨ha, hka⟩ := hholder a ha
      obtain ⟨hb, hkb⟩ := hholder b hb
      have hout : inRun a = false ∧ slot < a.id := by simpa using hpa
      cases hrun : inRun b with
      | true => exact (hsep a ha hout.1 hka b hb hrun hkb).1 hout.2
      | false =>
          have hle : b.id ≤ slot := by simpa [hrun] using hpb
          exact hle.trans_lt hout.2)
  have hbelow := eq_filter_append_of_pairwise (p := inRun) hasymm
    (hsorted.filter (fun s => !(!inRun s && decide (slot < s.id)))) (by
      intro a ha b hb hpa hpb
      obtain ⟨ha, -⟩ := List.mem_filter.1 ha
      obtain ⟨hb, hnotb⟩ := List.mem_filter.1 hb
      obtain ⟨ha, hka⟩ := hholder a ha
      obtain ⟨hb, hkb⟩ := hholder b hb
      have hle : b.id ≤ slot := by simpa [hpb] using hnotb
      have hlt : b.id < slot := lt_of_le_of_ne hle (hslot b hb hpb)
      exact (hsep b hb hpb hkb a ha hpa hka).2 hlt)
  rw [hbelow] at habove
  have hall : segVersions segments key =
      ((sortDesc Segment.id segments).filter (fun s => (rowOf s.rows key).isSome)).filterMap
        (fun s => rowOf s.rows key) := by
    rw [segVersions, recency, List.filterMap_filter]
    refine List.filterMap_congr (fun s _ => ?_)
    cases rowOf s.rows key <;> rfl
  rw [hall, habove, List.filterMap_append, List.filterMap_append]
  simp only [segVersions, recency, sortDesc_filter hd,
    sortDesc_filter (nodup_map_filter hd _), List.filterMap_filter]
  congr 1
  · refine List.filterMap_congr (fun s _ => ?_)
    cases rowOf s.rows key <;> cases inRun s <;> simp
  · congr 1
    · refine List.filterMap_congr (fun s _ => ?_)
      cases rowOf s.rows key <;> cases inRun s <;> simp
    · refine List.filterMap_congr (fun s hs => ?_)
      have hs' : s ∈ segments := (mem_sortDesc Segment.id).1 hs
      cases hrun : inRun s with
      | true => simp
      | false =>
          have hne := hslot s hs' hrun
          have hiff : slot < s.id ↔ ¬ s.id < slot := by omega
          cases rowOf s.rows key <;> simp [hiff]

/-- The versions above and below an unused slot. -/
theorem segVersions_above_below {segments : List (Segment ν)}
    (hd : (segments.map Segment.id).Nodup) {slot : Nat} (hslot : ∀ s ∈ segments, s.id ≠ slot)
    (key : String) :
    segVersions segments key =
      segVersions (segments.filter (fun s => decide (slot < s.id))) key ++
        segVersions (segments.filter (fun s => decide (s.id < slot))) key := by
  have hsplit : segVersions segments key = _ :=
    segVersions_split hd (fun _ => false) (fun s hs _ => hslot s hs) (by simp)
  simpa [segVersions, recency, sortDesc, sortAsc] using hsplit

/-- The segments a rewrite of `run` leaves alone. -/
def outside (e : Engine ν) (run : List (Segment ν)) : List (Segment ν) :=
  e.manifest.segments.filter (fun s => !(run.map Segment.id).contains s.id)

theorem mem_outside {e : Engine ν} {run : List (Segment ν)} {s : Segment ν} :
    s ∈ e.outside run ↔ s ∈ e.manifest.segments ∧ s.id ∉ run.map Segment.id := by
  simp [outside]

/-! ## Rewriting one segment in place -/

section InPlace

/-- The segments other than `id`. -/
def others (e : Engine ν) (id : Nat) : List (Segment ν) :=
  e.manifest.segments.filter (fun s => decide (s.id ≠ id))

/-- Take a segment out of the manifest. -/
def dropSegment (e : Engine ν) (id : Nat) : Engine ν :=
  { e with manifest := { e.manifest with segments := e.others id } }

/-- The segment with new rows: same slot, fresh file, hot, current format. -/
def rewrittenSegment [SegmentFile ν] (e : Engine ν) (m : Segment ν) (rows : List (Record ν)) :
    Segment ν where
  id := m.id
  file := e.manifest.nextSegmentId
  tier := .hot
  bytes := SegmentFile.fileBytes rows
  createdUnixNanos := m.createdUnixNanos
  version := 2
  pulled := false
  rows := rows

/-- Put a segment with new rows in the slot of `m`. -/
def replaceSegment [SegmentFile ν] (e : Engine ν) (m : Segment ν) (rows : List (Record ν)) :
    Engine ν :=
  { e with
    manifest :=
      { nextSegmentId := e.manifest.nextSegmentId + 1
        segments := e.others m.id ++ [e.rewrittenSegment m rows] } }

/-- The versions of a key above a slot. -/
def aboveSlot (e : Engine ν) (id : Nat) (key : String) : List (Record ν) :=
  e.memVersions key ++ segVersions ((e.others id).filter (fun s => decide (id < s.id))) key

/-- The versions of a key below a slot. -/
def belowSlot (e : Engine ν) (id : Nat) (key : String) : List (Record ν) :=
  segVersions ((e.others id).filter (fun s => decide (s.id < id))) key

theorem mem_others {e : Engine ν} {id : Nat} {s : Segment ν} :
    s ∈ e.others id ↔ s ∈ e.manifest.segments ∧ s.id ≠ id := by
  simp [others]

theorem others_ids_nodup {e : Engine ν} (hd : (e.manifest.segments.map Segment.id).Nodup)
    (id : Nat) : ((e.others id).map Segment.id).Nodup :=
  nodup_map_filter hd _

theorem cons_others_nodup {e : Engine ν} (hd : (e.manifest.segments.map Segment.id).Nodup)
    (o : Segment ν) : ((o :: e.others o.id).map Segment.id).Nodup := by
  refine List.nodup_cons.2 ⟨?_, others_ids_nodup hd o.id⟩
  intro hmem
  obtain ⟨s, hs, hid⟩ := List.mem_map.1 hmem
  exact (mem_others.1 hs).2 hid

/-- A segment at a slot among the others. -/
theorem segVersions_cons_others {e : Engine ν} (hd : (e.manifest.segments.map Segment.id).Nodup)
    (o : Segment ν) (key : String) :
    e.memVersions key ++ segVersions (o :: e.others o.id) key =
      e.aboveSlot o.id key ++ ((rowOf o.rows key).toList ++ e.belowSlot o.id key) := by
  have hd' := cons_others_nodup hd o
  unfold aboveSlot belowSlot
  rw [List.append_assoc]
  congr 1
  cases hrow : rowOf o.rows key with
  | some r => exact segVersions_cons hd' hrow
  | none =>
      have hperm : (o :: e.others o.id).Perm (e.others o.id ++ [o]) :=
        (List.perm_append_singleton o _).symm
      rw [segVersions_perm hd' hperm,
        segVersions_append_of_none ((hperm.map Segment.id).nodup_iff.1 hd') (by simp [hrow]),
        segVersions_above_below (others_ids_nodup hd o.id) (fun s hs => (mem_others.1 hs).2)]
      rfl

/-- A segment and the others. -/
theorem segments_perm_others {e : Engine ν} (hd : (e.manifest.segments.map Segment.id).Nodup)
    {m : Segment ν} (hm : m ∈ e.manifest.segments) :
    e.manifest.segments.Perm (m :: e.others m.id) := by
  have hnodup : e.manifest.segments.Nodup := List.Nodup.of_map _ hd
  have hnodup' : (m :: e.others m.id).Nodup := List.Nodup.of_map _ (cons_others_nodup hd m)
  refine (List.perm_ext_iff_of_nodup hnodup hnodup').2 (fun s => ?_)
  rw [List.mem_cons, mem_others]
  constructor
  · intro hs
    by_cases hid : s.id = m.id
    · exact Or.inl (List.inj_on_of_nodup_map hd hs hm hid)
    · exact Or.inr ⟨hs, hid⟩
  · rintro (rfl | ⟨hs, -⟩)
    · exact hm
    · exact hs

/-- The versions of a key, seen from the slot of a segment. -/
theorem versions_eq_slot {e : Engine ν} (hd : (e.manifest.segments.map Segment.id).Nodup)
    {m : Segment ν} (hm : m ∈ e.manifest.segments) (key : String) :
    e.versions key =
      e.aboveSlot m.id key ++ ((rowOf m.rows key).toList ++ e.belowSlot m.id key) := by
  rw [versions_eq, segVersions_perm hd (segments_perm_others hd hm), segVersions_cons_others hd]

theorem versions_dropSegment {e : Engine ν} (hd : (e.manifest.segments.map Segment.id).Nodup)
    (id : Nat) (key : String) :
    (e.dropSegment id).versions key = e.aboveSlot id key ++ e.belowSlot id key := by
  rw [versions_eq, aboveSlot, belowSlot, List.append_assoc]
  show e.memVersions key ++ segVersions (e.others id) key = _
  rw [segVersions_above_below (others_ids_nodup hd id) (fun s hs => (mem_others.1 hs).2)]

theorem versions_replaceSegment [SegmentFile ν] {e : Engine ν}
    (hd : (e.manifest.segments.map Segment.id).Nodup) (m : Segment ν) (rows : List (Record ν))
    (key : String) :
    (e.replaceSegment m rows).versions key =
      e.aboveSlot m.id key ++ ((rowOf rows key).toList ++ e.belowSlot m.id key) := by
  have hperm : (e.others m.id ++ [e.rewrittenSegment m rows]).Perm
      (e.rewrittenSegment m rows :: e.others m.id) := List.perm_append_singleton _ _
  have hd' : ((e.rewrittenSegment m rows :: e.others m.id).map Segment.id).Nodup :=
    cons_others_nodup hd (e.rewrittenSegment m rows)
  rw [versions_eq]
  show e.memVersions key ++ segVersions (e.others m.id ++ [e.rewrittenSegment m rows]) key = _
  rw [segVersions_perm ((hperm.map Segment.id).nodup_iff.2 hd') hperm]
  exact segVersions_cons_others hd (e.rewrittenSegment m rows) key

theorem dropSegment_numbered {e : Engine ν} (hnum : e.Numbered) (id : Nat) :
    (e.dropSegment id).Numbered :=
  fun s hs => hnum s (mem_others.1 hs).1

theorem replaceSegment_numbered [SegmentFile ν] {e : Engine ν} (hnum : e.Numbered) {m : Segment ν}
    (hm : m ∈ e.manifest.segments) (rows : List (Record ν)) :
    (e.replaceSegment m rows).Numbered := by
  intro s hs
  have hnext :
      (e.replaceSegment m rows).manifest.nextSegmentId = e.manifest.nextSegmentId + 1 := rfl
  rcases List.mem_append.1 hs with hs | hs
  · have hlt := hnum s (mem_others.1 hs).1
    omega
  · have hlt := hnum m hm
    have hid : s.id = m.id := by
      rw [List.mem_singleton.1 hs]
      rfl
    omega

variable [Unicode]

theorem dropSegment_wf {e : Engine ν} (hwf : e.WF) (id : Nat) : (e.dropSegment id).WF where
  memtable_consistent := hwf.memtable_consistent
  frozen_consistent hf := hwf.frozen_consistent hf
  ids_nodup := others_ids_nodup hwf.ids_nodup id
  sorted hs := hwf.sorted (mem_others.1 hs).1

theorem replaceSegment_wf [SegmentFile ν] {e : Engine ν} (hwf : e.WF) (m : Segment ν)
    {rows : List (Record ν)} (hrows : rows.Pairwise (fun a b => a.key < b.key)) :
    (e.replaceSegment m rows).WF where
  memtable_consistent := hwf.memtable_consistent
  frozen_consistent hf := hwf.frozen_consistent hf
  ids_nodup := by
    have hd' : ((e.rewrittenSegment m rows :: e.others m.id).map Segment.id).Nodup :=
      cons_others_nodup hwf.ids_nodup (e.rewrittenSegment m rows)
    exact ((List.perm_append_singleton _ _).map Segment.id).nodup_iff.2 hd'
  sorted {s} hs := by
    rcases List.mem_append.1 hs with hs | hs
    · exact hwf.sorted (mem_others.1 hs).1
    · rw [List.mem_singleton.1 hs]
      exact hrows

end InPlace

end Engine

end Girder
