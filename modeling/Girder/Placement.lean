import Girder.Rewrite
import Girder.Tally

/-!
# Placement — where a rewrite puts the row of a key

The slices a rewrite writes take the highest ids of its run in order, and fresh ids above every other
when there are more slices than ids.  The caps alone settle how many slices some rows need
(`SliceCount`), so the id that goes to a key is a matter of the rows kept up to that key and of all
rows kept (`AssignedSlot`).  `assignedSlot_of_slotOf` compares it with the id the outputs do take.

A rewrite lays the versions of a key out around that id.  `valueOf_rewritten_iff`: a key whose row
is kept reads as before exactly when its versions amount to the same there (`SlotTallies`).
-/

namespace Girder

open Lib

variable {ν : Type}

namespace Engine

/-! ## The id of a key -/

section Assigned

variable [Numeral ν]

/-- The rows a rewrite keeps: merged, unexpired and without the purged key. -/
def keptOf (e : Engine ν) (run : List (Segment ν)) (purge : Option String) (now : Int64) :
    List (Record ν) :=
  (rowsOf (mergeRows (runRows run))).filter (e.config.keepsRow now purge)

/-- The rows kept up to a key. -/
def keptUpTo (e : Engine ν) (run : List (Segment ν)) (purge : Option String) (now : Int64)
    (key : String) : List (Record ν) :=
  (e.keptOf run purge now).filter (fun r => decide (r.key ≤ key))

/-- The least number of slices within both caps that some rows need. -/
def Slices (config : Config) (rows : List (Record ν)) (k : Nat) : Prop :=
  SliceCount recordBytes config.cap config.maxSegmentBytes rows k

/-- The id for the slice that holds `key`.  The slices take the highest ids of the run, all of them
when there are more slices, and from then on ids that no segment has. -/
def AssignedSlot (e : Engine ν) (run : List (Segment ν)) (purge : Option String) (now : Int64)
    (key : String) (slot : Nat) : Prop :=
  ∃ total upTo, Slices e.config (e.keptOf run purge now) total ∧
    Slices e.config (e.keptUpTo run purge now key) (upTo + 1) ∧
    slot = ((sortAsc id (run.map Segment.id))[run.length - total + upTo]?).getD
      e.manifest.nextSegmentId

variable {e : Engine ν} {run : List (Segment ν)} {purge : Option String} {now : Int64}
  {key : String}

theorem keptRows_run (e : Engine ν) (run : List (Segment ν)) (purge : Option String)
    (now : Int64) : keptRows e.config now purge (runRows run) = e.keptOf run purge now :=
  keptRows_eq _ _ _ _

theorem AssignedSlot.unique {slot slot' : Nat} (h : e.AssignedSlot run purge now key slot)
    (h' : e.AssignedSlot run purge now key slot') : slot = slot' := by
  obtain ⟨total, upTo, htotal, hupTo, rfl⟩ := h
  obtain ⟨total', upTo', htotal', hupTo', rfl⟩ := h'
  obtain rfl : total = total' := htotal.unique htotal'
  obtain rfl : upTo = upTo' := Nat.succ.inj (hupTo.unique hupTo')
  rfl

/-- The id is one of the run's, unless even the rows up to the key need more slices than the run has
segments: then it is one no segment has. -/
theorem AssignedSlot.cases {slot : Nat} (h : e.AssignedSlot run purge now key slot) :
    slot ∈ run.map Segment.id ∨ (slot = e.manifest.nextSegmentId ∧
      ¬ Cuttable recordBytes e.config.cap e.config.maxSegmentBytes run.length
        (e.keptUpTo run purge now key)) := by
  obtain ⟨total, upTo, htotal, hupTo, rfl⟩ := h
  have hlen : (sortAsc id (run.map Segment.id)).length = run.length := by
    simpa using (sortAsc_perm id (run.map Segment.id)).length_eq
  have hle : upTo + 1 ≤ total := (hupTo total).1 (((htotal total).2 (Nat.le_refl total)).filter _)
  -- Is an id of the run left for the slice?
  by_cases hreuse : run.length - total + upTo < run.length
  · left
    rw [List.getElem?_eq_getElem (hlen ▸ hreuse), Option.getD_some]
    exact (mem_sortAsc id).1 (List.getElem_mem _)
  · right
    rw [List.getElem?_eq_none (by omega), Option.getD_none]
    exact ⟨rfl, fun hcut => by have := (hupTo run.length).1 hcut; omega⟩

/-- Two ids with the same segments above and below. -/
def LiesAs (e : Engine ν) (id slot : Nat) : Prop :=
  ∀ s ∈ e.manifest.segments, (id < s.id ↔ slot < s.id) ∧ (s.id < id ↔ s.id < slot)

omit [Numeral ν] in
theorem liesAs_of_fresh (hnum : e.Numbered) {id slot : Nat} (hid : e.manifest.nextSegmentId ≤ id)
    (hslot : e.manifest.nextSegmentId ≤ slot) : e.LiesAs id slot := by
  intro s hs
  have hlt := hnum s hs
  constructor <;> omega

variable [SegmentFile ν]

theorem length_outputs (e : Engine ν) (run : List (Segment ν)) (purge : Option String)
    (now : Int64) : (e.outputs run purge now).length =
      (outputChunks e.config now purge (runRows run)).length := by
  rw [← List.length_map (f := Segment.rows), outputs, outputsOf, writeOutputs_rows]

/-- Up to a key of its output number `pre.length + 1` the rows need that many slices. -/
theorem slices_keptUpTo {pre post : List (Segment ν)} {o : Segment ν}
    (hsplit : e.outputs run purge now = pre ++ o :: post) {r : Record ν} (hr : r ∈ o.rows)
    (hkey : r.key = key) : Slices e.config (e.keptUpTo run purge now key) (pre.length + 1) := by
  have hkept := e.flatMap_rows_outputs run purge now
  have hsorted := e.outputs_sorted run purge now
  have hchunks : splitChunks (e.keptOf run purge now) e.config.maxSegmentRecords
      e.config.maxSegmentBytes = (e.outputs run purge now).map Segment.rows := by
    rw [← keptRows_run]
    exact (writeOutputs_rows _ _ _ _ _ _).symm
  rw [keptRows_run] at hkept
  rw [hsplit, List.flatMap_append, List.flatMap_cons] at hkept hsorted
  obtain ⟨-, hrest, hbefore⟩ := List.pairwise_append.1 hsorted
  obtain ⟨hrows, -, hafter⟩ := List.pairwise_append.1 hrest
  -- The output is cut behind the key: what comes before is kept up to it, what comes after is not.
  have hcut : o.rows = o.rows.filter (fun r => decide (r.key ≤ key)) ++
      o.rows.filter (fun r => !decide (r.key ≤ key)) := by
    refine eq_filter_append_of_pairwise (fun _ _ => lt_asymm) hrows (fun a _ b _ ha hb => ?_)
    exact (of_decide_eq_true ha).trans_lt (not_le.1 (of_decide_eq_false hb))
  have hpre : (pre.flatMap Segment.rows).filter (fun r => decide (r.key ≤ key)) =
      pre.flatMap Segment.rows := by
    refine List.filter_eq_self.2 (fun a ha => decide_eq_true ?_)
    rw [← hkey]
    exact (hbefore a ha r (List.mem_append_left _ hr)).le
  have hpost : (post.flatMap Segment.rows).filter (fun r => decide (r.key ≤ key)) = [] := by
    refine List.filter_eq_nil_iff.2 (fun b hb hle => ?_)
    rw [decide_eq_true_eq, ← hkey] at hle
    exact absurd (hafter r hr b hb) (not_lt.2 hle)
  have hupTo : e.keptUpTo run purge now key = (pre.map Segment.rows).flatten ++
      o.rows.filter (fun r => decide (r.key ≤ key)) := by
    rw [keptUpTo, ← hkept, List.filter_append, List.filter_append, hpre, hpost, List.append_nil,
      List.flatMap_def]
  have hne : o.rows.filter (fun r => decide (r.key ≤ key)) ≠ [] :=
    List.ne_nil_of_mem (List.mem_filter.2 ⟨hr, decide_eq_true hkey.le⟩)
  rw [hsplit, List.map_append, List.map_cons, hcut] at hchunks
  rw [Slices, hupTo, ← List.length_map (f := Segment.rows)]
  exact sliceCount_prefix hchunks hne

/-- The id the outputs take for a key is the assigned one, or both lie above every segment. -/
theorem assignedSlot_of_slotOf (hnum : e.Numbered) {id : Nat}
    (h : slotOf (e.outputs run purge now) key = some id) :
    ∃ slot, e.AssignedSlot run purge now key slot ∧ e.LiesAs id slot := by
  obtain ⟨o, hfind, rfl⟩ := Option.map_eq_some_iff.1 h
  obtain ⟨hheld, pre, post, hsplit, -⟩ := List.find?_eq_some_iff_append.1 hfind
  obtain ⟨r, hrow⟩ := Option.isSome_iff_exists.1 hheld
  obtain ⟨hr, hkey⟩ := rowOf_eq_some hrow
  have htotal : Slices e.config (e.keptOf run purge now)
      (outputChunks e.config now purge (runRows run)).length := by
    rw [outputChunks, keptRows_run]
    exact sliceCount_greedyChunks _
  refine ⟨_, ⟨_, _, htotal, slices_keptUpTo hsplit hr hkey, rfl⟩, ?_⟩
  obtain ⟨fresh, hids⟩ := e.outputs_ids run purge now
  have hlen : (sortAsc id (run.map Segment.id)).length = run.length := by
    simpa using (sortAsc_perm id (run.map Segment.id)).length_eq
  have hcount : pre.length < (outputChunks e.config now purge (runRows run)).length := by
    rw [← length_outputs, hsplit]
    simp
  have hat : ((e.outputs run purge now).map Segment.id)[pre.length]? = some o.id := by
    simp [hsplit]
  rw [hids.eq, List.getElem?_append, List.length_take, List.length_drop, hlen] at hat
  split at hat
  · -- An id of the run is left for the output.
    rename_i hreuse
    rw [List.getElem?_take_of_lt hcount, List.getElem?_drop] at hat
    rw [hat, Option.getD_some]
    exact fun _ _ => ⟨Iff.rfl, Iff.rfl⟩
  · -- The ids of the run have run out.
    rename_i hfresh
    rw [List.getElem?_eq_none (by omega), Option.getD_none]
    exact liesAs_of_fresh hnum (hids.fresh_ge (List.mem_of_getElem? hat)) (Nat.le_refl _)

end Assigned

/-! ## The versions around that id -/

/-- The versions of a key that a rewrite of `run` leaves above a slot. -/
def laidAbove (e : Engine ν) (run : List (Segment ν)) (slot : Nat) (key : String) :
    List (Record ν) :=
  e.memVersions key ++ segVersions ((e.outside run).filter (fun s => decide (slot < s.id))) key

/-- The versions of a key that a rewrite of `run` leaves below a slot. -/
def laidBelow (e : Engine ν) (run : List (Segment ν)) (slot : Nat) (key : String) :
    List (Record ν) :=
  segVersions ((e.outside run).filter (fun s => decide (s.id < slot))) key

section Alike

variable {e : Engine ν} {id slot : Nat}

theorem LiesAs.laidAbove_eq (h : e.LiesAs id slot) (run : List (Segment ν)) (key : String) :
    e.laidAbove run id key = e.laidAbove run slot key := by
  rw [laidAbove, laidAbove]
  congr 2
  refine List.filter_congr (fun s hs => ?_)
  rw [decide_eq_decide]
  exact (h s (mem_outside.1 hs).1).1

theorem LiesAs.laidBelow_eq (h : e.LiesAs id slot) (run : List (Segment ν)) (key : String) :
    e.laidBelow run id key = e.laidBelow run slot key := by
  rw [laidBelow, laidBelow]
  congr 1
  refine List.filter_congr (fun s hs => ?_)
  rw [decide_eq_decide]
  exact (h s (mem_outside.1 hs).1).2

theorem LiesAs.overtakes_iff (h : e.LiesAs id slot) (run : List (Segment ν)) (key : String) :
    e.Overtakes run id key ↔ e.Overtakes run slot key := by
  refine exists_congr (fun s => and_congr_right (fun hs => and_congr_right (fun _ => ?_)))
  refine exists_congr (fun t => and_congr_right (fun _ => and_congr_right (fun _ => ?_)))
  obtain ⟨habove, hbelow⟩ := h s (mem_outside.1 hs).1
  rw [habove, hbelow]

end Alike

/-- Nothing is overtaken of a key the run does not hold. -/
theorem not_overtakes_of_none {e : Engine ν} {run : List (Segment ν)} {key : String}
    (hnone : segVersions run key = []) (slot : Nat) : ¬ e.Overtakes run slot key := by
  rintro ⟨s, -, -, t, ht, htk, -⟩
  obtain ⟨r, hr⟩ := Option.isSome_iff_exists.1 htk
  have hmem : r ∈ segVersions run key := mem_segVersions.2 ⟨t, ht, hr⟩
  simp [hnone] at hmem

section Tallied

variable [Numeral ν]

/-- Where the row of a key would move past another segment, or its versions in the run are merged in
another order than reads do, the versions laid out around its id amount to what they did. -/
def SlotTallies (e : Engine ν) (run : List (Segment ν)) (purge : Option String) (now : Int64)
    (key : String) : Prop :=
  ∀ slot, e.AssignedSlot run purge now key slot →
    e.Overtakes run slot key ∨ Regroups run key = true →
      SameTally (e.versions key) (e.laidAbove run slot key) (segVersions run key)
        (e.laidBelow run slot key)

variable {e : Engine ν} {run : List (Segment ν)} {purge : Option String} {now : Int64}
  {key : String}

theorem slotTallies_of_none (hnone : segVersions run key = []) :
    e.SlotTallies run purge now key := by
  rintro slot - (hover | hgroup)
  · exact absurd hover (not_overtakes_of_none hnone slot)
  · exact absurd hnone (ne_nil_of_regroups hgroup)

variable [SegmentFile ν]

/-- The versions of a key whose merged row is written. -/
theorem versions_rewritten (hd : ((e.outside run ++ e.outputs run purge now).map Segment.id).Nodup)
    {m : Record ν} (hm : rowOf (keptRows e.config now purge (runRows run)) key = some m) :
    ∃ id, slotOf (e.outputs run purge now) key = some id ∧
      (e.rewritten run purge now).versions key =
        e.laidAbove run id key ++ m :: e.laidBelow run id key := by
  rcases segVersions_rewritten hd key with ⟨hnone, -⟩ | ⟨m', o, -, hm', hslot, hvs⟩
  · simp [hm] at hnone
  · obtain rfl : m = m' := Option.some.inj (hm.symm.trans hm')
    refine ⟨o.id, hslot, ?_⟩
    rw [versions_eq, hvs, laidAbove, List.append_assoc]
    rfl

/-- A key whose merged row is kept reads as before exactly when its versions amount to the same
around the id its row is given. -/
theorem valueOf_rewritten_iff [Unicode] (hwf : e.WF) (hnum : e.Numbered)
    (hrun : RunOf e.manifest.segments run)
    (hkeep : ∀ m, (recordLayers ν).stack (segVersions run key) = some m →
      e.config.keepsRow now purge m = true)
    (hplain : Regroups run key = true → ∀ v ∈ segVersions run key, v.PlainDelta) :
    (e.rewritten run purge now).valueOf key = e.valueOf key ↔
      e.SlotTallies run purge now key := by
  have hd : ((e.outside run ++ e.outputs run purge now).map Segment.id).Nodup :=
    rewritten_ids_nodup hwf.ids_nodup hrun (Or.inl hnum)
  cases hst : (recordLayers ν).stack (segVersions run key) with
  | none =>
      -- The run does not hold the key.
      have hempty : segVersions run key = [] := ((recordLayers ν).stack_eq_none_iff).1 hst
      refine iff_of_true ?_ (slotTallies_of_none hempty)
      exact valueOf_rewritten hwf hrun (Or.inl hnum) hkeep
        (fun slot _ => not_overtakes_of_none hempty slot) (fun above below _ => by simp [hempty])
  | some m =>
      have hkept : rowOf (keptRows e.config now purge (runRows run)) key = some m := by
        rw [rowOf_keptRows_run e.config now purge hrun.nodup
          (fun s hs => hwf.sorted (hrun.subset hs)) key, hst]
        simp [Option.filter, hkeep m hst]
      -- The row is written under an id that lies as the assigned one does.
      obtain ⟨id, hid, hafter⟩ := versions_rewritten hd hkept
      obtain ⟨slot, hslot, hlies⟩ := assignedSlot_of_slotOf hnum hid
      have hread : (e.rewritten run purge now).valueOf key = e.valueOf key ↔
          SameTally (e.versions key) (e.laidAbove run slot key) (segVersions run key)
            (e.laidBelow run slot key) := by
        rw [← readVersions_layout_iff hplain, hst, ← hlies.laidAbove_eq, ← hlies.laidBelow_eq,
          valueOf, hafter]
        rfl
      by_cases hmoved : e.Overtakes run slot key ∨ Regroups run key = true
      · rw [hread]
        exact ⟨fun hsame slot' hslot' _ => hslot'.unique hslot ▸ hsame,
          fun htally => htally slot hslot hmoved⟩
      · -- Nothing overtaken and nothing regrouped: no law of arithmetic is needed.
        rw [not_or, Bool.not_eq_true] at hmoved
        refine iff_of_true ?_ (fun slot' hslot' hmove => ?_)
        · refine valueOf_rewritten hwf hrun (Or.inl hnum) hkeep ?_
            (fun above below _ => readVersions_collapse hmoved.2 above below)
          intro id' hid'
          rw [Option.some.inj (hid'.symm.trans hid), hlies.overtakes_iff]
          exact hmoved.1
        · rw [hslot'.unique hslot, hmoved.2] at hmove
          exact absurd hmove (by simp [hmoved.1])

end Tallied

/-! ## An interval of the id order -/

/-- The versions of a key above a run: in memory and in newer segments. -/
def versionsAbove (e : Engine ν) (run : List (Segment ν)) (key : String) : List (Record ν) :=
  e.memVersions key ++
    segVersions ((e.outside run).filter (fun s => run.all (fun t => decide (t.id < s.id)))) key

/-- The versions of a key below a run: in older segments. -/
def versionsBelow (e : Engine ν) (run : List (Segment ν)) (key : String) : List (Record ν) :=
  segVersions ((e.outside run).filter (fun s => run.all (fun t => decide (s.id < t.id)))) key

/-- The versions of a key outside a run. -/
def versionsOutside (e : Engine ν) (run : List (Segment ν)) (key : String) : List (Record ν) :=
  e.memVersions key ++ segVersions (e.outside run) key

section Interval

variable {e : Engine ν} {run : List (Segment ν)}

/-- Above one segment of a contiguous run is above all of it, and the same below. -/
theorem liesBeyond_of_contiguous (hrun : Contiguous e.manifest.segments run) {t : Segment ν}
    (ht : t ∈ run) {s : Segment ν} (hs : s ∈ e.outside run) :
    (run.all (fun t => decide (t.id < s.id)) = decide (t.id < s.id)) ∧
      run.all (fun t => decide (s.id < t.id)) = decide (s.id < t.id) := by
  obtain ⟨hs, hnot⟩ := mem_outside.1 hs
  -- A segment outside the run lies between no two of its segments.
  have hin : ∀ u ∈ run, ¬ (t.id ≤ s.id ∧ s.id ≤ u.id) ∧ ¬ (u.id ≤ s.id ∧ s.id ≤ t.id) :=
    fun u hu => ⟨fun h => hnot (List.mem_map_of_mem (hrun.interval hs ht hu h.1 h.2)),
      fun h => hnot (List.mem_map_of_mem (hrun.interval hs hu ht h.1 h.2))⟩
  constructor
  · rw [Bool.eq_iff_iff, List.all_eq_true, decide_eq_true_eq]
    refine ⟨fun hall => of_decide_eq_true (hall t ht), fun hlt u hu => decide_eq_true ?_⟩
    exact not_le.1 (fun hle => (hin u hu).1 ⟨hlt.le, hle⟩)
  · rw [Bool.eq_iff_iff, List.all_eq_true, decide_eq_true_eq]
    refine ⟨fun hall => of_decide_eq_true (hall t ht), fun hlt u hu => decide_eq_true ?_⟩
    exact not_le.1 (fun hle => (hin u hu).2 ⟨hle, hlt.le⟩)

theorem versionsAbove_eq (hrun : Contiguous e.manifest.segments run) {slot : Nat}
    (hslot : slot ∈ run.map Segment.id) (key : String) :
    e.versionsAbove run key = e.laidAbove run slot key := by
  obtain ⟨t, ht, rfl⟩ := List.mem_map.1 hslot
  rw [versionsAbove, laidAbove, List.filter_congr (fun s hs => (liesBeyond_of_contiguous hrun ht hs).1)]

theorem versionsBelow_eq (hrun : Contiguous e.manifest.segments run) {slot : Nat}
    (hslot : slot ∈ run.map Segment.id) (key : String) :
    e.versionsBelow run key = e.laidBelow run slot key := by
  obtain ⟨t, ht, rfl⟩ := List.mem_map.1 hslot
  rw [versionsBelow, laidBelow, List.filter_congr (fun s hs => (liesBeyond_of_contiguous hrun ht hs).2)]

/-- A contiguous run that holds a key splits its versions into those above, its own and those
below. -/
theorem versions_split (hd : (e.manifest.segments.map Segment.id).Nodup)
    (hrun : Contiguous e.manifest.segments run) {key : String}
    (hne : segVersions run key ≠ []) :
    e.versions key =
        e.versionsAbove run key ++ (segVersions run key ++ e.versionsBelow run key) ∧
      e.versionsOutside run key = e.versionsAbove run key ++ e.versionsBelow run key := by
  obtain ⟨r, hr⟩ := List.exists_mem_of_ne_nil _ hne
  obtain ⟨t, ht, -⟩ := mem_segVersions.1 hr
  have hid : t.id ∈ run.map Segment.id := List.mem_map_of_mem ht
  have hslot : ∀ s ∈ e.outside run, s.id ≠ t.id :=
    fun s hs heq => (mem_outside.1 hs).2 (heq ▸ hid)
  rw [versionsAbove_eq hrun hid, versionsBelow_eq hrun hid, laidAbove, laidBelow]
  constructor
  · rw [versions_eq, segVersions_eq_of_not_overtakes hd hrun.toRunOf hslot
      (not_overtakes_of_contiguous hrun hid key), List.append_assoc]
  · have hd' : ((e.outside run).map Segment.id).Nodup := nodup_map_filter hd _
    rw [versionsOutside, segVersions_above_below hd' hslot, List.append_assoc]

/-- Around a slot where nothing is overtaken lie the versions above the run and those below. -/
theorem laid_eq_of_not_overtakes (hd : (e.manifest.segments.map Segment.id).Nodup)
    (hrun : Contiguous e.manifest.segments run) {slot : Nat} (hslot : ∀ s ∈ e.outside run, s.id ≠ slot)
    {key : String} (hnot : ¬ e.Overtakes run slot key) (hne : segVersions run key ≠ []) :
    e.laidAbove run slot key = e.versionsAbove run key ∧
      e.laidBelow run slot key = e.versionsBelow run key := by
  obtain ⟨r, hr⟩ := List.exists_mem_of_ne_nil _ hne
  obtain ⟨t, ht, hrow⟩ := mem_segVersions.1 hr
  have hd' : ((e.outside run).map Segment.id).Nodup := nodup_map_filter hd _
  -- A holder outside the run lies on the same side of the slot as of the run.
  have hside : ∀ s ∈ e.outside run, (rowOf s.rows key).isSome = true →
      decide (slot < s.id) = decide (t.id < s.id) ∧ decide (s.id < slot) = decide (s.id < t.id) := by
    intro s hs hheld
    have hover : ¬ ((slot < s.id ∧ s.id < t.id) ∨ (t.id < s.id ∧ s.id < slot)) :=
      fun hbetween => hnot ⟨s, hs, hheld, t, ht, by simp [hrow], hbetween⟩
    have hneslot := hslot s hs
    have hnet : s.id ≠ t.id := fun heq => (mem_outside.1 hs).2 (heq ▸ List.mem_map_of_mem ht)
    rw [decide_eq_decide, decide_eq_decide]
    omega
  -- A segment without the key may be picked or not.
  have hpick : ∀ {p q : Segment ν → Bool}, (∀ s ∈ e.outside run, (rowOf s.rows key).isSome = true →
      p s = q s) → segVersions ((e.outside run).filter p) key =
        segVersions ((e.outside run).filter q) key := by
    intro p q hpq
    have hnone : ∀ (l : List (Segment ν)), ∀ s ∈ l, (rowOf s.rows key).isSome = false →
        rowOf s.rows key = none := fun l s _ h => by simpa using h
    rw [← segVersions_filter (nodup_map_filter hd' p) (hnone _),
      ← segVersions_filter (nodup_map_filter hd' q) (hnone _), List.filter_filter,
      List.filter_filter]
    congr 1
    refine List.filter_congr (fun s hs => ?_)
    cases hheld : (rowOf s.rows key).isSome with
    | true => simp [hpq s hs hheld]
    | false => rfl
  constructor
  · rw [versionsAbove_eq hrun (List.mem_map_of_mem ht), laidAbove, laidAbove,
      hpick (fun s hs hheld => (hside s hs hheld).1)]
  · rw [versionsBelow_eq hrun (List.mem_map_of_mem ht), laidBelow, laidBelow,
      hpick (fun s hs hheld => (hside s hs hheld).2)]

end Interval

end Engine

end Girder
