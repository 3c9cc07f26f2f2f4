import Girder.Compaction

/-!
# Rewrite — what rewriting a run leaves for one key

A rewrite replaces the versions of a key in the run by one merged row (or by none, when the row is
expired or purged), at the slot of the chunk that holds it.  `segVersions_outputs` lists the
versions afterwards; `segVersions_split` lists the versions before, when no segment left alone sits
between that slot and the run's holders of the key.  `valueOf_rewritten` compares the two: a key
whose merged row is kept and overtakes nothing reads as before whenever its versions in the run may
be replaced by their merge.
-/

namespace Girder

open Lib

variable {ν : Type}

/-! ## Reading the run -/

theorem mapM_readAllRecords :
    ∀ {run : List (Segment ν)} {pieces : List (List (Record ν))},
      run.mapM Segment.readAllRecords = .ok pieces → pieces = run.map Segment.rows := by
  intro run
  induction run with
  | nil =>
      intro pieces h
      simpa [pure, Except.pure] using h.symm
  | cons s run ih =>
      intro pieces h
      rw [List.mapM_cons] at h
      cases hs : s.readAllRecords with
      | error err => simp [hs, bind, Except.bind] at h
      | ok rows =>
          cases hrest : run.mapM Segment.readAllRecords with
          | error err => simp [hs, hrest, bind, Except.bind] at h
          | ok rest =>
              have hpieces : pieces = rows :: rest := by
                simpa [hs, hrest, bind, Except.bind, pure, Except.pure] using h.symm
              rw [hpieces, Segment.readAllRecords_eq_ok hs, ih hrest, List.map_cons]

theorem readRun_eq_ok {run : List (Segment ν)} {rows : List (Record ν)}
    (h : readRun run = .ok rows) : rows = (sortAsc Segment.id run).flatMap Segment.rows := by
  unfold readRun at h
  cases hm : (sortAsc Segment.id run).mapM Segment.readAllRecords with
  | error err =>
      rw [hm] at h
      cases h
  | ok pieces =>
      rw [hm] at h
      have hrows : pieces.flatten = rows := Except.ok.inj h
      rw [← hrows, mapM_readAllRecords hm, List.flatMap_def]

/-- A run of hot segments can be read. -/
theorem readRun_of_hot {run : List (Segment ν)} (h : ∀ s ∈ run, s.tier = .hot) :
    readRun run = .ok ((sortAsc Segment.id run).flatMap Segment.rows) := by
  have hgo : ∀ l : List (Segment ν), (∀ s ∈ l, s.tier = .hot) →
      l.mapM Segment.readAllRecords = .ok (l.map Segment.rows) := by
    intro l
    induction l with
    | nil => exact fun _ => rfl
    | cons s l ih =>
        intro hl
        rw [List.mapM_cons, Segment.readAllRecords_of_hot (hl s (by simp)),
          ih (fun t ht => hl t (by simp [ht]))]
        rfl
  unfold readRun
  rw [hgo _ (fun s hs => h s ((mem_sortAsc Segment.id).1 hs)), List.flatMap_def]
  rfl

section Merged

variable [Numeral ν]

/-- The merged row of a key is the stacked value of its versions in the run. -/
theorem getElem?_mergeRows_run {run : List (Segment ν)} (hd : (run.map Segment.id).Nodup)
    (hs : ∀ s ∈ run, s.Sorted) (key : String) :
    (mergeRows ((sortAsc Segment.id run).flatMap Segment.rows))[key]? =
      (recordLayers ν).stack (Engine.segVersions run key) := by
  have hkey : ((sortAsc Segment.id run).flatMap Segment.rows).filter
      (fun r => decide (r.key = key)) =
        (sortAsc Segment.id run).filterMap (fun s => rowOf s.rows key) := by
    refine filter_flatMap_key (fun s hmem => ?_)
    exact filter_key_eq (hs s ((mem_sortAsc Segment.id).1 hmem)) key
  rw [getElem?_mergeRows, hkey, Layering.replay_eq_stack, Engine.segVersions, Engine.recency,
    sortDesc_eq_reverse_sortAsc hd, List.filterMap_reverse]

/-- Is a merged row written out? -/
def Config.keepsRow (config : Config) (now : Int64) (purge : Option String) (r : Record ν) : Bool :=
  config.retentionPolicy.keeps now r && decide (purge ≠ some r.key)

theorem keptRows_eq (config : Config) (now : Int64) (purge : Option String)
    (rows : List (Record ν)) :
    keptRows config now purge rows =
      (rowsOf (mergeRows rows)).filter (config.keepsRow now purge) := by
  have hret : (if config.retentionPolicy.isEmpty then rowsOf (mergeRows rows) else
      (rowsOf (mergeRows rows)).filter (config.retentionPolicy.keeps now)) =
        (rowsOf (mergeRows rows)).filter (config.retentionPolicy.keeps now) := by
    split
    · rename_i hempty
      refine (List.filter_eq_self.2 (fun r _ => ?_)).symm
      exact RetentionPolicy.keeps_of_isEmpty hempty now r
    · rfl
  unfold keptRows
  simp only
  rw [hret]
  cases purge with
  | none =>
      refine List.filter_congr (fun r _ => ?_)
      simp [Config.keepsRow]
  | some key =>
      refine List.filter_filter.trans (List.filter_congr (fun r _ => ?_))
      rw [Bool.and_comm]
      simp [Config.keepsRow, eq_comm]

theorem keptRows_sorted (config : Config) (now : Int64) (purge : Option String)
    (rows : List (Record ν)) :
    (keptRows config now purge rows).Pairwise (fun a b => a.key < b.key) := by
  rw [keptRows_eq]
  exact (keyed_mergeRows rows).rowsOf_sorted.filter _

theorem rowOf_keptRows (config : Config) (now : Int64) (purge : Option String)
    (rows : List (Record ν)) (key : String) :
    rowOf (keptRows config now purge rows) key =
      (mergeRows rows)[key]?.filter (config.keepsRow now purge) := by
  rw [keptRows_eq, rowOf_filter (keyed_mergeRows rows).rowsOf_sorted,
    rowOf_rowsOf (keyed_mergeRows rows)]

end Merged

/-! ## The outputs -/

section Outputs

variable [SegmentFile ν]

theorem writeOutputs_rows (reuseIds : List Nat) (idBase : Nat) (created : Int64) :
    ∀ (chunks : List (List (Record ν))) (ci next : Nat),
      (writeOutputs reuseIds idBase created ci next chunks).1.map Segment.rows = chunks := by
  intro chunks
  induction chunks with
  | nil => exact fun _ _ => rfl
  | cons chunk chunks ih =>
      intro ci next
      simp [writeOutputs, ih]

/-- What ids some outputs take: the first of the reused ones, then fresh ones between the sequence
counters before and after. -/
structure OutputIds (reuseIds : List Nat) (count next next' : Nat) (ids fresh : List Nat) :
    Prop where
  eq : ids = reuseIds.take count ++ fresh
  length_fresh : fresh.length = count - reuseIds.length
  fresh_ge {id : Nat} : id ∈ fresh → next ≤ id
  fresh_lt {id : Nat} : id ∈ fresh → id < next'
  fresh_sorted : fresh.Pairwise (· < ·)
  next_le : next ≤ next'

theorem writeOutputs_ids (reuseIds : List Nat) (idBase : Nat) (created : Int64) :
    ∀ (chunks : List (List (Record ν))) (ci next : Nat),
      ∃ fresh : List Nat,
        OutputIds (reuseIds.drop (idBase + ci)) chunks.length next
          (writeOutputs reuseIds idBase created ci next chunks).2
          ((writeOutputs reuseIds idBase created ci next chunks).1.map Segment.id) fresh := by
  intro chunks
  induction chunks with
  | nil => exact fun ci next => ⟨[], by simp [writeOutputs], by simp, by simp, by simp, by simp,
      le_refl _⟩
  | cons chunk chunks ih =>
      intro ci next
      by_cases hreuse : idBase + ci < reuseIds.length
      · -- A reused id is left.
        obtain ⟨fresh, h⟩ := ih (ci + 1) (next + 1)
        have hlen := h.length_fresh
        have hnext := h.next_le
        refine ⟨fresh, ?_, ?_, ?_, ?_, h.fresh_sorted, ?_⟩
        · simp only [writeOutputs, List.map_cons, if_pos hreuse, h.eq, List.length_cons]
          rw [List.drop_eq_getElem_cons hreuse, List.take_succ_cons,
            List.getElem?_eq_getElem hreuse, Option.getD_some, ← Nat.add_assoc, List.cons_append]
        · simp only [List.length_drop, List.length_cons] at hlen ⊢
          omega
        · exact fun hid => (Nat.le_succ next).trans (h.fresh_ge hid)
        · intro id hid
          simpa [writeOutputs, if_pos hreuse] using h.fresh_lt hid
        · simp only [writeOutputs, if_pos hreuse]
          omega
      · -- They have run out: the output takes the counter's value, its file the next one.
        obtain ⟨fresh, h⟩ := ih (ci + 1) (next + 1 + 1)
        have hdrop : reuseIds.drop (idBase + ci) = [] := List.drop_eq_nil_of_le (by omega)
        have hdrop' : reuseIds.drop (idBase + (ci + 1)) = [] := List.drop_eq_nil_of_le (by omega)
        have hnone : reuseIds[idBase + ci]? = none := List.getElem?_eq_none (by omega)
        have hnext := h.next_le
        refine ⟨next :: fresh, ?_, ?_, ?_, ?_, ?_, ?_⟩
        · simp [writeOutputs, if_neg hreuse, h.eq, hdrop, hdrop', hnone]
        · simpa [hdrop, hdrop'] using h.length_fresh
        · intro id hid
          rcases List.mem_cons.1 hid with rfl | hid
          · exact le_refl _
          · have := h.fresh_ge hid
            omega
        · intro id hid
          simp only [writeOutputs, if_neg hreuse]
          rcases List.mem_cons.1 hid with rfl | hid
          · omega
          · exact h.fresh_lt hid
        · refine List.pairwise_cons.2 ⟨fun id hid => ?_, h.fresh_sorted⟩
          have := h.fresh_ge hid
          omega
        · simp only [writeOutputs, if_neg hreuse]
          omega

end Outputs

/-! ## A rewritten engine -/

namespace Engine

/-! ## Merging ahead of time -/

section Collapse

variable [Numeral ν]

/-- Whether the versions of a key in the run are merged in another order than reads do. -/
def Regroups (run : List (Segment ν)) (key : String) : Bool :=
  (recordLayers ν).regroups (segVersions run key)

theorem ne_nil_of_regroups {run : List (Segment ν)} {key : String}
    (h : Regroups run key = true) : segVersions run key ≠ [] := by
  intro hnil
  rw [Regroups, hnil] at h
  cases h

theorem readVersions_collapse {run : List (Segment ν)} {key : String}
    (h : Regroups run key = false) (above below : List (Record ν)) :
    readVersions (above ++ (((recordLayers ν).stack (segVersions run key)).toList ++ below)) =
      readVersions (above ++ (segVersions run key ++ below)) := by
  unfold readVersions
  rw [Layering.readNewest_collapse_of_not_regroups mergeDelta_fullBase h]

theorem readVersions_collapse_exact [ExactNumeral ν] {above run below : List (Record ν)}
    (hok : ∀ v ∈ above ++ (run ++ below), v.PlainDelta) :
    readVersions (above ++ (((recordLayers ν).stack run).toList ++ below)) =
      readVersions (above ++ (run ++ below)) := by
  have hL : (recordLayers ν).Lawful Record.PlainDelta := mergeDelta_lawful
  simp only [List.mem_append] at hok
  have ha : ∀ v ∈ above, v.PlainDelta := fun v hv => hok v (Or.inl hv)
  have hr : ∀ v ∈ run, v.PlainDelta := fun v hv => hok v (Or.inr (Or.inl hv))
  have hb : ∀ v ∈ below, v.PlainDelta := fun v hv => hok v (Or.inr (Or.inr hv))
  have hmerged : ∀ v ∈ above ++ (((recordLayers ν).stack run).toList ++ below), v.PlainDelta := by
    intro v hv
    simp only [List.mem_append, Option.mem_toList] at hv
    rcases hv with hv | hv | hv
    · exact ha v hv
    · exact hL.ok_stack hr hv
    · exact hb v hv
  unfold readVersions
  rw [hL.readNewest_eq_stack hmerged, hL.stack_collapse ha hr hb, ← hL.readNewest_eq_stack]
  simpa [List.mem_append] using hok

end Collapse

section Rewritten

variable [Numeral ν] [SegmentFile ν]

/-- The rows of a run in merge order. -/
def runRows (run : List (Segment ν)) : List (Record ν) :=
  (sortAsc Segment.id run).flatMap Segment.rows

/-- The output segments of a rewrite. -/
def outputs (e : Engine ν) (run : List (Segment ν)) (purge : Option String) (now : Int64) :
    List (Segment ν) :=
  (e.outputsOf run purge now (runRows run)).1

/-- The engine after a rewrite. -/
def rewritten (e : Engine ν) (run : List (Segment ν)) (purge : Option String) (now : Int64) :
    Engine ν :=
  { e with
    manifest :=
      { nextSegmentId := (e.outputsOf run purge now (runRows run)).2
        segments := e.outside run ++ e.outputs run purge now } }

/-- Do the chunks of a rewrite fit the ids of its run? -/
def Fits (e : Engine ν) (run : List (Segment ν)) (purge : Option String) (now : Int64) : Prop :=
  (outputChunks e.config now purge (runRows run)).length ≤ run.length

theorem compactRun_eq_ok {e e' : Engine ν} {run : List (Segment ν)} {purge : Option String}
    {now : Int64} (h : e.compactRun run purge now = .ok e') : e' = e.rewritten run purge now := by
  unfold compactRun at h
  cases hread : readRun run with
  | error err =>
      rw [hread] at h
      cases h
  | ok rows =>
      rw [hread, readRun_eq_ok hread] at h
      exact (Except.ok.inj h).symm

theorem compactRun_of_hot {e : Engine ν} {run : List (Segment ν)} (purge : Option String)
    (now : Int64) (h : ∀ s ∈ run, s.tier = .hot) :
    e.compactRun run purge now = .ok (e.rewritten run purge now) := by
  unfold compactRun
  rw [readRun_of_hot h]
  rfl

theorem flatMap_rows_outputs (e : Engine ν) (run : List (Segment ν)) (purge : Option String)
    (now : Int64) :
    (e.outputs run purge now).flatMap Segment.rows =
      keptRows e.config now purge (runRows run) := by
  rw [List.flatMap_def]
  unfold outputs outputsOf
  simp only
  rw [writeOutputs_rows]
  exact flatten_greedyChunks _

theorem outputs_sorted (e : Engine ν) (run : List (Segment ν)) (purge : Option String)
    (now : Int64) :
    ((e.outputs run purge now).flatMap Segment.rows).Pairwise (fun a b => a.key < b.key) := by
  rw [flatMap_rows_outputs]
  exact keptRows_sorted _ _ _ _

/-- The ids of the outputs. -/
theorem outputs_ids (e : Engine ν) (run : List (Segment ν)) (purge : Option String) (now : Int64) :
    ∃ fresh : List Nat,
      OutputIds
        ((sortAsc id (run.map Segment.id)).drop
          (run.length - (outputChunks e.config now purge (runRows run)).length))
        (outputChunks e.config now purge (runRows run)).length e.manifest.nextSegmentId
        (e.rewritten run purge now).manifest.nextSegmentId
        ((e.outputs run purge now).map Segment.id) fresh := by
  obtain ⟨fresh, h⟩ := writeOutputs_ids (sortAsc id (run.map Segment.id))
    (run.length - (outputChunks e.config now purge (runRows run)).length)
    (((run.map Segment.createdUnixNanos).min?).getD now)
    (outputChunks e.config now purge (runRows run)) 0 e.manifest.nextSegmentId
  have hlen : (sortAsc id (run.map Segment.id)).length = run.length := by
    simpa using (sortAsc_perm id (run.map Segment.id)).length_eq
  refine ⟨fresh, ?_⟩
  simpa only [outputs, rewritten, outputsOf, hlen, Nat.add_zero] using h

/-- An output takes an id of the run or a fresh one. -/
theorem output_id_cases {e : Engine ν} {run : List (Segment ν)} {purge : Option String}
    {now : Int64} {o : Segment ν} (ho : o ∈ e.outputs run purge now) :
    o.id ∈ run.map Segment.id ∨ e.manifest.nextSegmentId ≤ o.id := by
  obtain ⟨fresh, h⟩ := e.outputs_ids run purge now
  have hid : o.id ∈ (e.outputs run purge now).map Segment.id := List.mem_map_of_mem ho
  rw [h.eq] at hid
  rcases List.mem_append.1 hid with hid | hid
  · left
    exact (mem_sortAsc id).1 (List.mem_of_mem_drop (List.mem_of_mem_take hid))
  · exact Or.inr (h.fresh_ge hid)

/-- When the chunks fit, the outputs take the highest ids of the run. -/
theorem outputs_ids_of_fits {e : Engine ν} {run : List (Segment ν)} {purge : Option String}
    {now : Int64} (hfits : e.Fits run purge now) :
    ((e.outputs run purge now).map Segment.id).Sublist (sortAsc id (run.map Segment.id)) := by
  obtain ⟨fresh, h⟩ := e.outputs_ids run purge now
  have hlen : (sortAsc id (run.map Segment.id)).length = run.length := by
    simpa using (sortAsc_perm id (run.map Segment.id)).length_eq
  have hfresh : fresh = [] := by
    have hcount := h.length_fresh
    unfold Fits at hfits
    rw [List.length_drop, hlen] at hcount
    exact List.eq_nil_of_length_eq_zero (by omega)
  rw [h.eq, hfresh, List.append_nil]
  exact (List.take_sublist _ _).trans (List.drop_sublist _ _)

theorem output_id_of_fits {e : Engine ν} {run : List (Segment ν)} {purge : Option String}
    {now : Int64} (hfits : e.Fits run purge now) {o : Segment ν}
    (ho : o ∈ e.outputs run purge now) : o.id ∈ run.map Segment.id :=
  (mem_sortAsc id).1 ((outputs_ids_of_fits hfits).subset (List.mem_map_of_mem ho))

theorem outputs_ids_nodup {e : Engine ν} {run : List (Segment ν)} {purge : Option String}
    {now : Int64} (hrun : (run.map Segment.id).Nodup)
    (hnum : (∀ t ∈ run, t.id < e.manifest.nextSegmentId) ∨ e.Fits run purge now) :
    ((e.outputs run purge now).map Segment.id).Nodup := by
  have hsorted : (sortAsc id (run.map Segment.id)).Nodup :=
    (sortAsc_perm id (run.map Segment.id)).nodup_iff.2 hrun
  rcases hnum with hnew | hfits
  case inr => exact hsorted.sublist (outputs_ids_of_fits hfits)
  obtain ⟨fresh, h⟩ := e.outputs_ids run purge now
  rw [h.eq]
  refine List.nodup_append.2 ⟨?_, h.fresh_sorted.imp (fun hlt => ne_of_lt hlt), ?_⟩
  · exact hsorted.sublist ((List.take_sublist _ _).trans (List.drop_sublist _ _))
  · intro i hi j hj heq
    have hmem := (mem_sortAsc id).1 (List.mem_of_mem_drop (List.mem_of_mem_take hi))
    obtain ⟨t, ht, rfl⟩ := List.mem_map.1 hmem
    have hlt := hnew t ht
    have hge := h.fresh_ge hj
    omega

/-- The ids of a rewritten manifest are distinct. -/
theorem rewritten_ids_nodup {e : Engine ν} {run : List (Segment ν)} {purge : Option String}
    {now : Int64} (hd : (e.manifest.segments.map Segment.id).Nodup)
    (hrun : RunOf e.manifest.segments run) (hnum : e.Numbered ∨ e.Fits run purge now) :
    ((e.outside run ++ e.outputs run purge now).map Segment.id).Nodup := by
  rw [List.map_append]
  refine List.nodup_append.2 ⟨nodup_map_filter hd _, ?_, ?_⟩
  · exact outputs_ids_nodup hrun.nodup (hnum.imp_left (fun h t ht => h t (hrun.subset ht)))
  · intro i hi j hj heq
    obtain ⟨s, hs, rfl⟩ := List.mem_map.1 hi
    obtain ⟨o, ho, rfl⟩ := List.mem_map.1 hj
    obtain ⟨hs, hnot⟩ := mem_outside.1 hs
    rcases output_id_cases ho with hin | hge
    · exact hnot (heq ▸ hin)
    · rcases hnum with hnum | hfits
      · have hlt := hnum s hs
        omega
      · exact hnot (heq ▸ output_id_of_fits hfits ho)

/-- The versions of a key in a rewritten manifest. -/
theorem segVersions_rewritten {e : Engine ν} {run : List (Segment ν)} {purge : Option String}
    {now : Int64} (hd : ((e.outside run ++ e.outputs run purge now).map Segment.id).Nodup)
    (key : String) :
    (rowOf (keptRows e.config now purge (runRows run)) key = none ∧
      segVersions (e.rewritten run purge now).manifest.segments key =
        segVersions (e.outside run) key) ∨
    ∃ m, ∃ o ∈ e.outputs run purge now,
      rowOf (keptRows e.config now purge (runRows run)) key = some m ∧
      slotOf (e.outputs run purge now) key = some o.id ∧
      segVersions (e.rewritten run purge now).manifest.segments key =
        segVersions ((e.outside run).filter (fun s => decide (o.id < s.id))) key ++
          m :: segVersions ((e.outside run).filter (fun s => decide (s.id < o.id))) key := by
  have hsorted := e.outputs_sorted run purge now
  rw [← flatMap_rows_outputs]
  cases hrow : rowOf ((e.outputs run purge now).flatMap Segment.rows) key with
  | none => exact Or.inl ⟨rfl, segVersions_outputs_none hd hsorted hrow⟩
  | some m =>
      obtain ⟨o, ho, hslot, hvs⟩ := segVersions_outputs hd hsorted hrow
      exact Or.inr ⟨m, o, ho, rfl, hslot, hvs⟩

omit [SegmentFile ν] in
/-- The merged row of a key, as a rewrite of `run` would write it. -/
theorem rowOf_keptRows_run (config : Config) (now : Int64) (purge : Option String)
    {run : List (Segment ν)} (hrun : (run.map Segment.id).Nodup) (hs : ∀ s ∈ run, s.Sorted)
    (key : String) :
    rowOf (keptRows config now purge (runRows run)) key =
      ((recordLayers ν).stack (segVersions run key)).filter (config.keepsRow now purge) := by
  rw [rowOf_keptRows, runRows, getElem?_mergeRows_run hrun hs]

omit [Numeral ν] [SegmentFile ν] in
/-- The run, picked out of the manifest by its ids. -/
theorem filter_run_perm {e : Engine ν} {run : List (Segment ν)}
    (hd : (e.manifest.segments.map Segment.id).Nodup) (hrun : RunOf e.manifest.segments run) :
    (e.manifest.segments.filter (fun s => (run.map Segment.id).contains s.id)).Perm run := by
  have hnodup : e.manifest.segments.Nodup := List.Nodup.of_map _ hd
  refine (List.perm_ext_iff_of_nodup (hnodup.filter _) (List.Nodup.of_map _ hrun.nodup)).2 ?_
  intro s
  rw [List.mem_filter, List.contains_iff_mem]
  constructor
  · rintro ⟨hs, hin⟩
    obtain ⟨t, ht, hid⟩ := List.mem_map.1 hin
    rwa [List.inj_on_of_nodup_map hd hs (hrun.subset ht) hid.symm]
  · exact fun hs => ⟨hrun.subset hs, List.mem_map_of_mem hs⟩

/-- A segment left alone that holds the key and sits between the slot and a holder of the run: the
rewrite changes its order with that holder. -/
def Overtakes (e : Engine ν) (run : List (Segment ν)) (slot : Nat) (key : String) : Prop :=
  ∃ s ∈ e.outside run, (rowOf s.rows key).isSome ∧ ∃ t ∈ run, (rowOf t.rows key).isSome ∧
    ((slot < s.id ∧ s.id < t.id) ∨ (t.id < s.id ∧ s.id < slot))

omit [Numeral ν] [SegmentFile ν] in
/-- Without overtaking, the run's versions of a key lie together at the slot. -/
theorem segVersions_eq_of_not_overtakes {e : Engine ν} {run : List (Segment ν)}
    (hd : (e.manifest.segments.map Segment.id).Nodup) (hrun : RunOf e.manifest.segments run)
    {slot : Nat} (hslot : ∀ s ∈ e.outside run, s.id ≠ slot) {key : String}
    (hnot : ¬ e.Overtakes run slot key) :
    segVersions e.manifest.segments key =
      segVersions ((e.outside run).filter (fun s => decide (slot < s.id))) key ++
        (segVersions run key ++
          segVersions ((e.outside run).filter (fun s => decide (s.id < slot))) key) := by
  have hout : ∀ s ∈ e.manifest.segments, (run.map Segment.id).contains s.id = false →
      s ∈ e.outside run := by
    intro s hs hin
    exact mem_outside.2 ⟨hs, by simpa using hin⟩
  have hmem : ∀ t ∈ e.manifest.segments, (run.map Segment.id).contains t.id = true → t ∈ run :=
    fun t ht hin => (filter_run_perm hd hrun).subset (List.mem_filter.2 ⟨ht, hin⟩)
  have hsplit := segVersions_split hd (fun s => (run.map Segment.id).contains s.id)
    (fun s hs hin => hslot s (hout s hs hin)) (by
      intro s hs hsout hsk t ht htin htk
      have hne : s.id ≠ t.id := by
        intro heq
        rw [heq, htin] at hsout
        cases hsout
      -- A holder between the slot and one of the run's would be overtaken.
      constructor
      · intro hlt
        by_contra hge
        exact hnot ⟨s, hout s hs hsout, hsk, t, hmem t ht htin, htk, Or.inl ⟨hlt, by omega⟩⟩
      · intro hlt
        by_contra hge
        exact hnot ⟨s, hout s hs hsout, hsk, t, hmem t ht htin, htk, Or.inr ⟨by omega, hlt⟩⟩)
  rw [hsplit, segVersions_perm (nodup_map_filter hd _) (filter_run_perm hd hrun)]
  rfl

omit [Numeral ν] [SegmentFile ν] in
/-- A key the run does not hold. -/
theorem segVersions_outside_of_none {e : Engine ν} {run : List (Segment ν)}
    (hd : (e.manifest.segments.map Segment.id).Nodup) (hrun : RunOf e.manifest.segments run)
    {key : String} (hnone : segVersions run key = []) :
    segVersions (e.outside run) key = segVersions e.manifest.segments key := by
  refine segVersions_filter hd (fun s hs hin => ?_)
  have hmem : s ∈ run := by
    refine (filter_run_perm hd hrun).subset (List.mem_filter.2 ⟨hs, ?_⟩)
    simpa using hin
  cases hrow : rowOf s.rows key with
  | none => rfl
  | some r =>
      have hr : r ∈ segVersions run key := mem_segVersions.2 ⟨s, hmem, hrow⟩
      simp [hnone] at hr

omit [Numeral ν] [SegmentFile ν] in
/-- At a slot of a contiguous run nothing is overtaken. -/
theorem not_overtakes_of_contiguous {e : Engine ν} {run : List (Segment ν)}
    (hrun : Contiguous e.manifest.segments run) {slot : Nat} (hslot : slot ∈ run.map Segment.id)
    (key : String) : ¬ e.Overtakes run slot key := by
  rintro ⟨s, hs, -, t, ht, -, hbetween⟩
  obtain ⟨hs, hnot⟩ := mem_outside.1 hs
  obtain ⟨u, hu, rfl⟩ := List.mem_map.1 hslot
  have hmem : s ∈ run := by
    rcases hbetween with ⟨hlo, hhi⟩ | ⟨hlo, hhi⟩
    · exact hrun.interval hs hu ht hlo.le hhi.le
    · exact hrun.interval hs ht hu hlo.le hhi.le
  exact hnot (List.mem_map_of_mem hmem)

/-- A rewrite keeps the invariant of the store. -/
theorem rewritten_wf [Unicode] {e : Engine ν} (hwf : e.WF) {run : List (Segment ν)}
    (hrun : RunOf e.manifest.segments run) {purge : Option String} {now : Int64}
    (hnum : e.Numbered ∨ e.Fits run purge now) : (e.rewritten run purge now).WF where
  memtable_consistent := hwf.memtable_consistent
  frozen_consistent hf := hwf.frozen_consistent hf
  ids_nodup := rewritten_ids_nodup hwf.ids_nodup hrun hnum
  sorted {s} hs := by
    rcases List.mem_append.1 hs with hs | hs
    · exact hwf.sorted (mem_outside.1 hs).1
    · refine (e.outputs_sorted run purge now).sublist ?_
      rw [List.flatMap_def]
      exact List.sublist_flatten_of_mem (List.mem_map_of_mem hs)

/-- A rewrite keeps ids below the sequence counter. -/
theorem rewritten_numbered {e : Engine ν} (hnum : e.Numbered) {run : List (Segment ν)}
    (hrun : RunOf e.manifest.segments run) (purge : Option String) (now : Int64) :
    (e.rewritten run purge now).Numbered := by
  obtain ⟨fresh, h⟩ := e.outputs_ids run purge now
  intro s hs
  rcases List.mem_append.1 hs with hs | hs
  · exact (hnum s (mem_outside.1 hs).1).trans_le h.next_le
  · have hid : s.id ∈ (e.outputs run purge now).map Segment.id := List.mem_map_of_mem hs
    rw [h.eq] at hid
    rcases List.mem_append.1 hid with hid | hid
    · have hmem := (mem_sortAsc id).1 (List.mem_of_mem_drop (List.mem_of_mem_take hid))
      obtain ⟨t, ht, hid⟩ := List.mem_map.1 hmem
      rw [← hid]
      exact (hnum t (hrun.subset ht)).trans_le h.next_le
    · exact h.fresh_lt hid

/-- A key whose merged row is kept and overtakes nothing reads as before, if its versions in the run
may be replaced by their merge. -/
theorem valueOf_rewritten {e : Engine ν} {run : List (Segment ν)} {purge : Option String}
    {now : Int64} [Unicode] (hwf : e.WF) (hrun : RunOf e.manifest.segments run)
    (hnum : e.Numbered ∨ e.Fits run purge now) {key : String}
    (hkeep : ∀ m, (recordLayers ν).stack (segVersions run key) = some m →
      e.config.keepsRow now purge m = true)
    (hnot : ∀ slot, slotOf (e.outputs run purge now) key = some slot → ¬ e.Overtakes run slot key)
    (hread : ∀ above below : List (Record ν),
      e.versions key = above ++ (segVersions run key ++ below) →
        readVersions (above ++ (((recordLayers ν).stack (segVersions run key)).toList ++ below)) =
          readVersions (above ++ (segVersions run key ++ below))) :
    (e.rewritten run purge now).valueOf key = e.valueOf key := by
  have hd := hwf.ids_nodup
  have hd' := rewritten_ids_nodup hd hrun hnum
  have hrow := rowOf_keptRows_run e.config now purge hrun.nodup
    (fun s hs => hwf.sorted (hrun.subset hs)) key
  have hfilter : ((recordLayers ν).stack (segVersions run key)).filter
      (e.config.keepsRow now purge) = (recordLayers ν).stack (segVersions run key) := by
    cases hst : (recordLayers ν).stack (segVersions run key) with
    | none => rfl
    | some m => simp [Option.filter, hkeep m hst]
  rw [hfilter] at hrow
  have hmem : (e.rewritten run purge now).memVersions key = e.memVersions key := rfl
  rw [valueOf, valueOf, versions_eq, versions_eq, hmem]
  rcases segVersions_rewritten hd' key with ⟨hnone, hvs⟩ | ⟨m, o, ho, hm, hslot, hvs⟩
  · -- Nothing is written for the key, so the run does not hold it.
    rw [hrow] at hnone
    have hempty : segVersions run key = [] := ((recordLayers ν).stack_eq_none_iff).1 hnone
    rw [hvs, segVersions_outside_of_none hd hrun hempty]
  · -- The merged row stands where the versions of the run stood.
    rw [hrow] at hm
    have hne : ∀ s ∈ e.outside run, s.id ≠ o.id := by
      intro s hsout heq
      rw [List.map_append] at hd'
      exact (List.nodup_append.1 hd').2.2 s.id (List.mem_map_of_mem hsout) o.id
        (List.mem_map_of_mem ho) heq
    have hbefore := segVersions_eq_of_not_overtakes hd hrun hne (hnot o.id hslot)
    have hr := hread (e.memVersions key ++
        segVersions ((e.outside run).filter (fun s => decide (o.id < s.id))) key)
      (segVersions ((e.outside run).filter (fun s => decide (s.id < o.id))) key)
      (by rw [versions_eq, hbefore, List.append_assoc])
    rw [hm] at hr
    rw [hvs, hbefore]
    simpa using hr

end Rewritten

end Engine

end Girder
