import Girder.Merge
import Girder.ScanFold

/-!
# History — the writes behind the versions

A write is a full put (a tombstone is one) or an increment.  A key's history ends up cut into
consecutive pieces, each folded inside the source that holds it: by the writes to a memtable, by a
log replay, or by a compaction of sources that were folded earlier (`Held`).

In exact arithmetic the cut does not show: `Held.eq_replay` says what a source holds for a key, and
`get_and_scanFold_eq_memtable` that reads return what one memtable with the whole history would.
-/

namespace Girder

open Lib

/-- One acknowledged write. -/
inductive Write (ν : Type)
  | put (record : Record ν)
  | incr (record : Record ν)

namespace Write

variable {ν : Type}

def record : Write ν → Record ν
  | put r => r
  | incr r => r

def key (w : Write ν) : String := w.record.key

/-- Puts are full records; increments are delta-flagged and never tombstones. -/
def Ok : Write ν → Prop
  | put r => r.isDelta = false
  | incr d => d.isDelta = true ∧ d.isTombstone = false

theorem Ok.plainDelta {w : Write ν} (h : w.Ok) : w.record.PlainDelta := by
  cases w with
  | put r =>
      intro hd
      have hfull : r.isDelta = false := h
      exact absurd hd (by simp [record, hfull])
  | incr d => exact fun _ => h.2

end Write

section Folds

variable {ν : Type} [Unicode] [Numeral ν]

/-- The writer's visibility step for one record. -/
def MemTable.applyWrite (m : MemTable ν) : Write ν → MemTable ν
  | .put r => m.insert r
  | .incr d => m.insertDelta d

/-- A memtable after some writes. -/
def memtableOf (ws : List (Write ν)) : MemTable ν :=
  ws.foldl MemTable.applyWrite {}

/-- The records written to `key`, in write order. -/
def recordsOf (key : String) (ws : List (Write ν)) : List (Record ν) :=
  (ws.map Write.record).filter (fun r => decide (r.key = key))

theorem MemTable.get_insertDelta (m : MemTable ν) (d : Record ν) (hm : m.Consistent)
    (key : String) :
    (m.insertDelta d).get key =
      if d.key = key then some (mergeDelta (m.get key) d) else m.get key := by
  have hkey : (mergeDelta m.records[d.key]? d).key = d.key := by
    cases hbase : m.records[d.key]? with
    | none => rfl
    | some b => exact mergeDelta_key (hm.key_eq hbase)
  rw [MemTable.insertDelta, MemTable.get_insert, hkey]
  by_cases hd : d.key = key
  · rw [if_pos hd, if_pos hd, ← hd]
    rfl
  · rw [if_neg hd, if_neg hd]

theorem MemTable.applyWrite_consistent {m : MemTable ν} (hm : m.Consistent) (w : Write ν) :
    (m.applyWrite w).Consistent := by
  cases w with
  | put r => exact MemTable.insert_consistent hm r
  | incr d => exact MemTable.insertDelta_consistent hm d

/-- A write is laid on what the memtable holds for its key, and touches no other key. -/
theorem MemTable.get_applyWrite {m : MemTable ν} (hm : m.Consistent) {w : Write ν} {key : String}
    (hw : w.key = key → w.Ok) :
    (m.applyWrite w).get key =
      if w.key = key then some ((recordLayers ν).layerOpt (m.get key) w.record)
      else m.get key := by
  cases w with
  | put r =>
      rw [MemTable.applyWrite, MemTable.get_insert]
      by_cases hkey : r.key = key
      · have hfull : r.isDelta = false := hw hkey
        simp [Write.key, Write.record, hkey, layerOpt_of_full hfull]
      · simp [Write.key, Write.record, hkey]
  | incr d =>
      rw [MemTable.applyWrite, MemTable.get_insertDelta m d hm]
      by_cases hkey : d.key = key
      · have hdelta : d.isDelta = true := (hw hkey).1
        simp [Write.key, Write.record, hkey, mergeDelta_eq_layerOpt hdelta]
      · simp [Write.key, Write.record, hkey]

theorem foldl_applyWrite {key : String} :
    ∀ {ws : List (Write ν)}, (∀ w ∈ ws, w.key = key → w.Ok) → ∀ {m : MemTable ν}, m.Consistent →
      (ws.foldl MemTable.applyWrite m).get key =
        (recordsOf key ws).foldl (fun acc r => some ((recordLayers ν).layerOpt acc r))
          (m.get key) := by
  intro ws
  induction ws with
  | nil => exact fun _ _ _ => rfl
  | cons w ws ih =>
      intro hws m hm
      have hrest := ih (fun v hv => hws v (by simp [hv])) (MemTable.applyWrite_consistent hm w)
      rw [List.foldl_cons, hrest, MemTable.get_applyWrite hm (hws w (by simp))]
      by_cases hkey : w.key = key
      · have hkey' : w.record.key = key := hkey
        simp [recordsOf, hkey, hkey']
      · have hkey' : ¬ w.record.key = key := hkey
        simp [recordsOf, hkey, hkey']

theorem foldl_applyWrite_consistent {m : MemTable ν} (hm : m.Consistent) (ws : List (Write ν)) :
    (ws.foldl MemTable.applyWrite m).Consistent :=
  List.foldlRecOn (motive := MemTable.Consistent) ws MemTable.applyWrite hm
    (fun _ hm w _ => MemTable.applyWrite_consistent hm w)

/-- A memtable that has taken a write is not empty. -/
theorem isEmpty_foldl_applyWrite {ws : List (Write ν)} (h : ws ≠ []) (m : MemTable ν) :
    (ws.foldl MemTable.applyWrite m).isEmpty = false := by
  obtain ⟨front, w, rfl⟩ := List.eq_nil_or_concat ws |>.resolve_left h
  rw [List.concat_eq_append, List.foldl_append]
  cases w with
  | put r =>
      simp [MemTable.applyWrite, MemTable.isEmpty, MemTable.insert,
        Std.ExtTreeMap.isEmpty_eq_false_iff]
  | incr d =>
      simp [MemTable.applyWrite, MemTable.isEmpty, MemTable.insertDelta, MemTable.insert,
        Std.ExtTreeMap.isEmpty_eq_false_iff]

/-- An empty memtable has seen no write. -/
theorem eq_nil_of_isEmpty {ws : List (Write ν)} (h : (memtableOf ws).isEmpty = true) :
    ws = [] := by
  by_contra hne
  rw [memtableOf, isEmpty_foldl_applyWrite hne] at h
  cases h

theorem MemTable.get_applyWrite_eq_none {m : MemTable ν} (hm : m.Consistent) {w : Write ν}
    {key : String} : (m.applyWrite w).get key = none ↔ m.get key = none ∧ w.key ≠ key := by
  cases w with
  | put r =>
      rw [MemTable.applyWrite, MemTable.get_insert]
      by_cases hkey : r.key = key <;> simp [hkey, Write.key, Write.record]
  | incr d =>
      rw [MemTable.applyWrite, MemTable.get_insertDelta m d hm]
      by_cases hkey : d.key = key <;> simp [hkey, Write.key, Write.record]

theorem memtableOf_consistent (ws : List (Write ν)) : (memtableOf ws).Consistent :=
  foldl_applyWrite_consistent MemTable.empty_consistent ws

/-- A memtable holds the keys that were written. -/
theorem get_memtableOf_eq_none {ws : List (Write ν)} {key : String} :
    (memtableOf ws).get key = none ↔ ∀ w ∈ ws, w.key ≠ key := by
  induction ws using List.reverseRecOn with
  | nil => exact iff_of_true rfl (by simp)
  | append_singleton ws w ih =>
      have hstep : memtableOf (ws ++ [w]) = (memtableOf ws).applyWrite w := List.foldl_concat ..
      rw [hstep, MemTable.get_applyWrite_eq_none (memtableOf_consistent ws), ih]
      simp [or_imp, forall_and]

/-- What holds of a memtable after any sequence of `insert` and `insert_delta`: the token map files a key
under exactly the tokens of its text and keeps no empty set; a key's token list is the sorted
distinct one and there is none without tokens; the count is that of the increments held, so it is
positive when one of them is overwritten; the range covers every increment held; and the token map
answers as a scan of the records does. -/
theorem memtable_represents (ws : List (Write ν)) :
    (∀ t k, MemTable.TokenHas (memtableOf ws).tokenKeys t k ↔
      ∃ r text, (memtableOf ws).get k = some r ∧ r.text = some text ∧ t ∈ ftsTokens text) ∧
    (∀ (t : String) (set : StrSet), (memtableOf ws).tokenKeys[t]? = some set →
      set.isEmpty = false) ∧
    (∀ (k : String) (ts : List String), (memtableOf ws).keyTokens[k]? = some ts ↔
      ts ≠ [] ∧ ts.Pairwise (· < ·) ∧ ∃ r, (memtableOf ws).get k = some r ∧
        ∀ t, t ∈ ts ↔ ∃ text, r.text = some text ∧ t ∈ ftsTokens text) ∧
    (memtableOf ws).deltaKeys = ((memtableOf ws).values.filter Record.isDelta).length ∧
    (∀ (k : String) (r : Record ν), (memtableOf ws).get k = some r → r.isDelta = true →
      0 < (memtableOf ws).deltaKeys ∧
        ∃ lo hi, (memtableOf ws).deltaRange = some (lo, hi) ∧ lo ≤ k ∧ k ≤ hi) ∧
    ∀ (want : List String) (k : String), k ∈ (memtableOf ws).textCandidates want ↔
      ∃ r, (memtableOf ws).get k = some r ∧ textContainsAll r.text want = true := by
  have h := memtableOf_consistent ws
  refine ⟨fun t k => ?_, fun t set => h.token_nonempty, fun k ts => ?_, ?_, fun k r hr hd => ?_,
    fun want k => ?_⟩
  · rw [h.token_iff]
    refine exists_congr fun r => ?_
    rw [MemTable.mem_tokens]
    exact ⟨fun ⟨hr, text, ht⟩ => ⟨text, hr, ht⟩, fun ⟨text, hr, ht⟩ => ⟨hr, text, ht⟩⟩
  · rw [h.keyTokens_iff]
    refine and_congr_right fun _ => ⟨?_, ?_⟩
    · rintro ⟨r, hr, rfl⟩
      exact ⟨MemTable.tokens_sorted r, r, hr, fun t => MemTable.mem_tokens⟩
    · -- A sorted list is known by its elements.
      rintro ⟨hsorted, r, hr, hmem⟩
      exact ⟨r, hr, hsorted.eq_of_mem_iff (MemTable.tokens_sorted r)
        fun t => (hmem t).trans MemTable.mem_tokens.symm⟩
  · exact h.deltaKeys_values
  · have hmem : r ∈ (memtableOf ws).values := by
      rw [MemTable.mem_values h, h.key_eq hr]
      exact hr
    refine ⟨?_, h.deltaRange_covers hr hd⟩
    rw [h.deltaKeys_values]
    exact List.length_pos_of_mem (List.mem_filter.2 ⟨hmem, hd⟩)
  · constructor
    · intro hk
      obtain ⟨r, hr⟩ := MemTable.exists_get_of_mem_textCandidates h hk
      have hkey : r.key = k := h.key_eq hr
      subst hkey
      exact ⟨r, hr, (MemTable.mem_textCandidates_iff h hr want).1 hk⟩
    · rintro ⟨r, hr, hall⟩
      have hkey : r.key = k := h.key_eq hr
      subst hkey
      exact (MemTable.mem_textCandidates_iff h hr want).2 hall

theorem get_applyWrite_of_ne {m : MemTable ν} (hm : m.Consistent) {w : Write ν} {key : String}
    (hw : w.key ≠ key) : (m.applyWrite w).get key = m.get key := by
  cases w with
  | put r =>
      have hr : ¬ r.key = key := hw
      rw [MemTable.applyWrite, MemTable.get_insert, if_neg hr]
  | incr d =>
      have hd : ¬ d.key = key := hw
      rw [MemTable.applyWrite, MemTable.get_insertDelta m d hm, if_neg hd]

/-- Writes to other keys leave the version of a key alone. -/
theorem get_foldl_of_none {key : String} {ws : List (Write ν)} {m : MemTable ν}
    (hm : m.Consistent) (h : ∀ w ∈ ws, w.key ≠ key) :
    (ws.foldl MemTable.applyWrite m).get key = m.get key := by
  induction ws generalizing m with
  | nil => rfl
  | cons w ws ih =>
      rw [List.foldl_cons, ih (MemTable.applyWrite_consistent hm w) (fun v hv => h v (by simp [hv])),
        get_applyWrite_of_ne hm (h w (by simp))]

/-- The version of a key whose last write is a put. -/
theorem get_foldl_of_put {key : String} {ws : List (Write ν)} {m : MemTable ν}
    (hm : m.Consistent) {r : Record ν}
    (h : ws.reverse.find? (fun w => decide (w.key = key)) = some (.put r)) :
    (ws.foldl MemTable.applyWrite m).get key = some r := by
  obtain ⟨hkey, newer, older, hsplit, hnewer⟩ := List.find?_eq_some_iff_append.1 h
  have hws : ws = older.reverse ++ .put r :: newer.reverse := by
    have hrev := congrArg List.reverse hsplit
    simpa using hrev
  have hkey' : r.key = key := of_decide_eq_true hkey
  rw [hws, List.foldl_append, List.foldl_cons, get_foldl_of_none]
  · rw [MemTable.applyWrite, MemTable.get_insert, if_pos hkey']
  · exact MemTable.applyWrite_consistent (foldl_applyWrite_consistent hm _) _
  · intro w hw
    simpa using hnewer w (List.mem_reverse.1 hw)

omit [Numeral ν] in
/-- A consistent memtable lists the version of a key. -/
theorem mem_values_of_get {m : MemTable ν} (hm : m.Consistent) {key : String} {r : Record ν}
    (h : m.get key = some r) : r ∈ m.values := by
  rw [Engine.get_eq_rowOf hm] at h
  exact (rowOf_eq_some h).1

/-- A memtable holds the replay of the writes to each key. -/
theorem get_memtableOf {ws : List (Write ν)} {key : String} (hws : ∀ w ∈ ws, w.key = key → w.Ok) :
    (memtableOf ws).get key = (recordLayers ν).replay (recordsOf key ws) := by
  have h := foldl_applyWrite hws MemTable.empty_consistent
  simpa [memtableOf, Layering.replay, MemTable.get] using h

/-! ## Sources -/

/-- `Held key piece version`: a source folded the writes `piece` (to `key`, oldest first) and holds
`version` for the key. -/
inductive Held (key : String) : List (Write ν) → Option (Record ν) → Prop
  /-- A memtable, live or frozen, or a segment flushed from one. -/
  | memtable (ws : List (Write ν)) :
      Held key (ws.filter (fun w => decide (w.key = key))) ((memtableOf ws).get key)
  /-- The records of leftover logs, replayed. -/
  | replay (ws : List (Write ν)) :
      Held key (ws.filter (fun w => decide (w.key = key)))
        (mergeRows (ws.map Write.record))[key]?
  /-- A compaction of segments, oldest first. -/
  | compact (parts : List (List (Write ν) × List (Record ν)))
      (hsorted : ∀ p ∈ parts, p.2.Pairwise (fun a b => a.key < b.key))
      (hheld : ∀ p ∈ parts, Held key p.1 (rowOf p.2 key)) :
      Held key (parts.flatMap Prod.fst) (mergeRows (parts.flatMap Prod.snd))[key]?

omit [Unicode] [Numeral ν] in
theorem recordsOf_filter (key : String) (ws : List (Write ν)) :
    (ws.filter (fun w => decide (w.key = key))).map Write.record = recordsOf key ws := by
  simp only [recordsOf, List.filter_map]
  rfl

omit [Unicode] [Numeral ν] in
theorem plainDelta_of_ok {ws : List (Write ν)} (hws : ∀ w ∈ ws, w.Ok) :
    ∀ r ∈ ws.map Write.record, r.PlainDelta := by
  intro r hr
  obtain ⟨w, hw, rfl⟩ := List.mem_map.1 hr
  exact (hws w hw).plainDelta

omit [Unicode] in
/-- Folding each piece first, then the results, is folding the whole. -/
theorem stack_pieces [ExactNumeral ν] {α : Type} {piece : α → List (Write ν)}
    {version : α → Option (Record ν)} {parts : List α}
    (hok : ∀ p ∈ parts, ∀ w ∈ piece p, w.Ok)
    (hv : ∀ p ∈ parts, version p = (recordLayers ν).replay ((piece p).map Write.record)) :
    (recordLayers ν).stack (parts.filterMap version) =
      (recordLayers ν).stack (parts.flatMap (fun p => ((piece p).map Write.record).reverse)) := by
  have hplain : ∀ vs ∈ parts.map (fun p => ((piece p).map Write.record).reverse), ∀ v ∈ vs,
      v.PlainDelta := by
    intro vs hvs v hmem
    obtain ⟨p, hp, rfl⟩ := List.mem_map.1 hvs
    exact plainDelta_of_ok (hok p hp) v (List.mem_reverse.1 hmem)
  calc (recordLayers ν).stack (parts.filterMap version)
      = (recordLayers ν).stack
          ((parts.map (fun p => ((piece p).map Write.record).reverse)).filterMap
            (recordLayers ν).stack) := by
        rw [List.filterMap_map]
        refine congrArg _ (List.filterMap_congr (fun p hp => ?_))
        rw [hv p hp, Layering.replay_eq_stack]
        rfl
    _ = (recordLayers ν).stack
          (parts.map (fun p => ((piece p).map Write.record).reverse)).flatten :=
        mergeDelta_lawful.stack_flatten hplain
    _ = (recordLayers ν).stack
          (parts.flatMap (fun p => ((piece p).map Write.record).reverse)) := by
        rw [List.flatMap_def]

/-- What a source holds for a key is the replay of its piece of the history. -/
theorem Held.eq_replay [ExactNumeral ν] {key : String} {piece : List (Write ν)}
    {version : Option (Record ν)} (h : Held key piece version) :
    (∀ w ∈ piece, w.Ok) → version = (recordLayers ν).replay (piece.map Write.record) := by
  induction h with
  | memtable ws =>
      intro hok
      rw [recordsOf_filter]
      apply get_memtableOf
      intro w hw hkey
      exact hok w (List.mem_filter.2 ⟨hw, by simpa using hkey⟩)
  | replay ws =>
      intro _
      rw [recordsOf_filter, getElem?_mergeRows]
      rfl
  | compact parts hsorted hheld ih =>
      intro hok
      have hok' : ∀ p ∈ parts, ∀ w ∈ p.1, w.Ok :=
        fun p hp w hw => hok w (List.mem_flatMap.2 ⟨p, hp, hw⟩)
      -- The compaction sees one row of the key per segment, oldest first.
      have hrows : (parts.flatMap Prod.snd).filter (fun r => decide (r.key = key)) =
          parts.filterMap (fun p => rowOf p.2 key) :=
        filter_flatMap_key (fun p hp => filter_key_eq (hsorted p hp) key)
      have hpieces : (recordLayers ν).stack (parts.reverse.filterMap (fun p => rowOf p.2 key)) =
          (recordLayers ν).stack
            (parts.reverse.flatMap (fun p => (p.1.map Write.record).reverse)) := by
        apply stack_pieces
        · exact fun p hp => hok' p (List.mem_reverse.1 hp)
        · intro p hp
          have hp' := List.mem_reverse.1 hp
          exact ih p hp' (hok' p hp')
      have hflat : parts.reverse.flatMap (fun p => (p.1.map Write.record).reverse) =
          ((parts.flatMap Prod.fst).map Write.record).reverse := by
        rw [List.map_flatMap, List.reverse_flatMap]
        rfl
      rw [getElem?_mergeRows, hrows, Layering.replay_eq_stack, ← List.filterMap_reverse, hpieces,
        hflat, ← Layering.replay_eq_stack]

end Folds

/-! ## Reading through any cut -/

namespace Engine

variable {ν : Type} [Unicode] [Numeral ν]

/-- The pieces of a key's history as the engine's sources hold them, newest source first. -/
def HoldsHistory (e : Engine ν) (key : String) (pieces : List (List (Write ν))) : Prop :=
  List.Forall₂ (fun rows piece => Held key piece (rowOf rows key)) e.sources pieces

/-- The versions of the key are the replays of the pieces. -/
theorem versions_of_holdsHistory [ExactNumeral ν] {e : Engine ν} {key : String}
    {pieces : List (List (Write ν))} (hheld : e.HoldsHistory key pieces)
    (hok : ∀ piece ∈ pieces, ∀ w ∈ piece, w.Ok) :
    e.versions key =
      pieces.filterMap (fun piece => (recordLayers ν).replay (piece.map Write.record)) := by
  unfold HoldsHistory at hheld
  unfold versions
  generalize e.sources = sources at hheld
  induction hheld with
  | nil => rfl
  | cons hhead _ ih =>
      have hrow := hhead.eq_replay (hok _ (by simp))
      have hrest := ih (fun piece hp => hok piece (by simp [hp]))
      simp only [List.filterMap_cons, hrow, hrest]

/-- In exact arithmetic, what the sources hold reads as the replay of the whole history. -/
theorem readNewest_of_holdsHistory [ExactNumeral ν] {e : Engine ν} {key : String}
    {pieces : List (List (Write ν))} (hheld : e.HoldsHistory key pieces)
    (hok : ∀ piece ∈ pieces, ∀ w ∈ piece, w.Ok) :
    (recordLayers ν).readNewest (e.versions key) =
      (recordLayers ν).replay (pieces.reverse.flatten.map Write.record) := by
  have hversions := versions_of_holdsHistory hheld hok
  have hplain : ∀ v ∈ e.versions key, v.PlainDelta := by
    intro v hv
    rw [hversions] at hv
    obtain ⟨piece, hpiece, hrep⟩ := List.mem_filterMap.1 hv
    rw [Layering.replay_eq_stack] at hrep
    refine mergeDelta_lawful.ok_stack (fun r hr => ?_) hrep
    exact plainDelta_of_ok (hok piece hpiece) r (List.mem_reverse.1 hr)
  have hflat : pieces.flatMap (fun piece => (piece.map Write.record).reverse) =
      (pieces.reverse.flatten.map Write.record).reverse := by
    rw [List.map_flatten, List.reverse_flatten, List.map_reverse, List.map_reverse,
      List.reverse_reverse, List.flatMap_def, List.map_map]
    rfl
  calc (recordLayers ν).readNewest (e.versions key)
      = (recordLayers ν).stack (e.versions key) := mergeDelta_lawful.readNewest_eq_stack hplain
    _ = (recordLayers ν).stack
          (pieces.flatMap (fun piece => (piece.map Write.record).reverse)) := by
        rw [hversions, stack_pieces hok (fun _ _ => rfl)]
    _ = (recordLayers ν).replay (pieces.reverse.flatten.map Write.record) := by
        rw [hflat, ← Layering.replay_eq_stack]

/-- The row of a key on an unlimited fold-mode page. -/
theorem find?_scanFold [LawfulNumeral ν] {e : Engine ν} (h : e.WF) {spec : QuerySpec ν}
    (hlimit : spec.limit = 0) (key : String) :
    (e.scanFold spec).find? (fun r => decide (r.key = key)) =
      ((e.valueOf key).filter (fun r => spec.«matches» r && spec.afterBoundOk r)).map
        spec.stripText := by
  have hpage : e.scanFold spec =
      (sortAsc (recordRank spec.orderBy) (e.matchSet spec)).map spec.stripText := by
    rw [scanFold_eq_oracle h, scanOracle, QuerySpec.truncate, if_neg (by omega)]
  have hkeys : ((sortAsc (recordRank spec.orderBy) (e.matchSet spec)).map Record.key).Nodup :=
    ((sortAsc_perm _ _).map _).nodup_iff.2 (matchSet_nodup e spec)
  have hfind : (sortAsc (recordRank spec.orderBy) (e.matchSet spec)).find?
      (fun r => decide (r.key = key)) =
      (e.valueOf key).filter (fun r => spec.«matches» r && spec.afterBoundOk r) := by
    refine Option.ext (fun r => ?_)
    constructor
    · intro hr
      have hmem : r ∈ e.matchSet spec := (mem_sortAsc _).1 (List.mem_of_find?_eq_some hr)
      have hkey : r.key = key := by simpa using List.find?_some hr
      obtain ⟨hv, hm, hafter⟩ := mem_matchSet.1 hmem
      rw [hkey] at hv
      simp [hv, Option.filter, hm, hafter]
    · intro hr
      obtain ⟨hv, hok⟩ := Option.mem_filter_iff.1 (Option.mem_def.2 hr)
      have hkey : r.key = key := key_of_valueOf hv
      rw [Bool.and_eq_true] at hok
      have hmem : r ∈ sortAsc (recordRank spec.orderBy) (e.matchSet spec) :=
        (mem_sortAsc _).2 (mem_matchSet.2 ⟨by rw [hkey]; exact hv, hok.1, hok.2⟩)
      -- Keys are distinct, so the first row with this key is the row itself.
      cases hf : (sortAsc (recordRank spec.orderBy) (e.matchSet spec)).find?
          (fun r => decide (r.key = key)) with
      | none =>
          have hnone := List.find?_eq_none.1 hf r hmem
          simp [hkey] at hnone
      | some s =>
          have hs : s.key = key := by simpa using List.find?_some hf
          have heq := List.inj_on_of_nodup_map hkeys (List.mem_of_find?_eq_some hf) hmem
            (hs.trans hkey.symm)
          rw [heq]
  have hstrip : (fun r : Record ν => decide (r.key = key)) ∘ spec.stripText =
      fun r => decide (r.key = key) := by
    funext r
    rw [Function.comp_apply, QuerySpec.stripText_key]
  rw [hpage, List.find?_map, hstrip, ← hfind]

/-- In exact arithmetic reads do not depend on how a history is cut into sources. -/
theorem get_and_scanFold_eq_memtable [LawfulNumeral ν] [ExactNumeral ν] {e : Engine ν} (h : e.WF)
    (key : String) {pieces : List (List (Write ν))} (hheld : e.HoldsHistory key pieces)
    (hok : ∀ piece ∈ pieces, ∀ w ∈ piece, w.key = key ∧ w.Ok) :
    e.getOnce key = ((memtableOf pieces.reverse.flatten).get key).bind Record.surface ∧
      ∀ spec : QuerySpec ν, spec.limit = 0 →
        (e.scanFold spec).find? (fun r => decide (r.key = key)) =
          ((((memtableOf pieces.reverse.flatten).get key).bind Record.surface).filter
            (fun r => spec.«matches» r && spec.afterBoundOk r)).map spec.stripText := by
  have hok' : ∀ piece ∈ pieces, ∀ w ∈ piece, w.Ok := fun piece hp w hw => (hok piece hp w hw).2
  have hmem : ∀ w ∈ pieces.reverse.flatten, w.key = key ∧ w.Ok := by
    intro w hw
    obtain ⟨piece, hpiece, hw'⟩ := List.mem_flatten.1 hw
    exact hok piece (List.mem_reverse.1 hpiece) w hw'
  -- Every write is to the key, so the memtable replays all of them.
  have hall : recordsOf key pieces.reverse.flatten = pieces.reverse.flatten.map Write.record := by
    rw [← recordsOf_filter, List.filter_eq_self.2]
    exact fun w hw => by simpa using (hmem w hw).1
  have hvalue : e.valueOf key =
      ((memtableOf pieces.reverse.flatten).get key).bind Record.surface := by
    rw [valueOf, readVersions, readNewest_of_holdsHistory hheld hok',
      get_memtableOf (fun w hw _ => (hmem w hw).2), hall]
  refine ⟨(getOnce_eq h key).trans hvalue, fun spec hlimit => ?_⟩
  rw [find?_scanFold h hlimit, hvalue]

end Engine

/-! A counter whose base sits in a segment, one increment in a frozen memtable, one in the live
memtable. -/

section Sample

local instance instHistoryUnicode : Unicode := asciiUnicode

/-- The writes of each source, newest source first. -/
def historySample : List (List (Write Int)) :=
  [[.incr (Record.delta "n" 3 ((∅ : OrdMap String Int).insert "hits" 4))],
    [.incr (Record.delta "n" 2 ((∅ : OrdMap String Int).insert "hits" 2))],
    [.put { (Record.bare "n" 1 : Record Int) with
      numerics := (∅ : OrdMap String Int).insert "hits" 1 }]]

def historyStore : Engine Int where
  memtable := memtableOf (historySample[0]?.getD [])
  frozen := [(0, memtableOf (historySample[1]?.getD []))]
  manifest :=
    { nextSegmentId := 1
      segments := [Segment.ofRows 0 (memtableOf (historySample[2]?.getD [])).values] }

theorem historyStore_wf : historyStore.WF where
  memtable_consistent := memtableOf_consistent _
  frozen_consistent {f} hf := by
    simp only [historyStore, List.mem_cons, List.not_mem_nil, or_false] at hf
    subst hf
    exact memtableOf_consistent _
  ids_nodup := by decide
  sorted {s} hs := by
    simp only [historyStore, List.mem_cons, List.not_mem_nil, or_false] at hs
    subst hs
    exact MemTable.values_sorted (memtableOf_consistent _)

theorem historyStore_holds : historyStore.HoldsHistory "n" historySample := by
  have hrow : ∀ ws : List (Write Int), ws.filter (fun w => decide (w.key = "n")) = ws →
      Held "n" ws (rowOf (memtableOf ws).values "n") := by
    intro ws hws
    have h : Held "n" (ws.filter (fun w => decide (w.key = "n"))) ((memtableOf ws).get "n") :=
      Held.memtable ws
    rw [hws, Engine.get_eq_rowOf (memtableOf_consistent ws)] at h
    exact h
  exact .cons (hrow _ rfl) (.cons (hrow _ rfl) (.cons (hrow _ rfl) .nil))

theorem get_and_scanFold_sample :
    (historyStore.getOnce "n").map (fun r => r.numerics["hits"]?) = some (some 7) := by
  have h := Engine.get_and_scanFold_eq_memtable historyStore_wf "n" historyStore_holds
    (by
      intro piece hp w hw
      simp only [historySample, List.mem_cons, List.not_mem_nil, or_false] at hp
      rcases hp with rfl | rfl | rfl
      · simp only [List.mem_singleton] at hw
        subst hw
        exact ⟨rfl, by decide, by decide⟩
      · simp only [List.mem_singleton] at hw
        subst hw
        exact ⟨rfl, by decide, by decide⟩
      · simp only [List.mem_singleton] at hw
        subst hw
        exact ⟨rfl, by show _ = _; decide⟩)
  rw [h.1]
  decide

end Sample

end Girder
