import Girder.Lib.Keyset
import Girder.ScanFold

/-!
# Paging — keyset pages tile the result

A client drains a query by scanning with a limit and passing the last row's timestamp and key as the
next scan's `after`, until a page is empty.  The store may change between two scans.

The keyset bound is the rank of the row it was taken from, so a page is a page of the rank order and
the drain is the library's (`drainPages_eq`), as long as the scans have room for their heaps.
`PagesTile` collects what is promised of a drain: rows come in strictly increasing order, a match that
does not change is returned exactly once, and a store that does not change is drained to its unlimited
scan; `pages_tile_iff` says when the promise is kept.
-/

namespace Girder

open Lib

variable {ν : Type}

/-- The orders the keyset bound is defined for. -/
def QuerySpec.ByTimestamp (spec : QuerySpec ν) : Prop :=
  spec.orderBy = none ∨ spec.orderBy = some .timestampDesc ∨ spec.orderBy = some .timestampAsc

section Bounds

variable [Numeral ν]

/-- The rank of a keyset bound. -/
def boundRank (order : Option OrderBy) (bound : Int64 × String) : Prim ×ₗ String :=
  toLex (makePrim (order.getD .timestampDesc) bound.1 (none : Option ν), bound.2)

/-- Ranks of one class compare by value, then by key. -/
theorem rank_lt_iff {c : Nat} {a b : Int} {j k : String} :
    (toLex (toLex (c, a), j) : Prim ×ₗ String) < toLex (toLex (c, b), k) ↔
      a < b ∨ a = b ∧ j < k := by
  rw [Prod.Lex.toLex_lt_toLex, Prod.Lex.toLex_lt_toLex]
  simp

/-- The bound keeps the records that rank after it. -/
theorem afterBoundOk_eq_past {spec : QuerySpec ν} (hspec : spec.ByTimestamp) (r : Record ν) :
    spec.afterBoundOk r =
      past (recordRank spec.orderBy) (spec.after.map (boundRank (ν := ν) spec.orderBy)) r := by
  unfold QuerySpec.afterBoundOk QuerySpec.afterOkCols
  cases hafter : spec.after with
  | none => rfl
  | some bound =>
      obtain ⟨ts, key⟩ := bound
      have hdesc : (toLex (toLex (0, -ts.toInt), key) : Prim ×ₗ String) <
          toLex (toLex (0, -r.timestamp.toInt), r.key) ↔
            r.timestamp < ts ∨ r.timestamp = ts ∧ key < r.key := by
        rw [rank_lt_iff, Int64.lt_iff_toInt_lt, ← Int64.toInt_inj, neg_lt_neg_iff, neg_inj]
        exact or_congr_right (and_congr_left' eq_comm)
      have hasc : (toLex (toLex (0, ts.toInt), key) : Prim ×ₗ String) <
          toLex (toLex (0, r.timestamp.toInt), r.key) ↔
            ts < r.timestamp ∨ r.timestamp = ts ∧ key < r.key := by
        rw [rank_lt_iff, Int64.lt_iff_toInt_lt, ← Int64.toInt_inj]
        exact or_congr_right (and_congr_left' eq_comm)
      rcases hspec with horder | horder | horder
      · rw [horder]
        refine Eq.trans ?_ (Bool.decide_congr hdesc).symm
        simp
      · rw [horder]
        refine Eq.trans ?_ (Bool.decide_congr hdesc).symm
        simp
      · rw [horder]
        refine Eq.trans ?_ (Bool.decide_congr hasc).symm
        simp

/-- A bound taken from a row has the row's rank. -/
theorem boundRank_row {spec : QuerySpec ν} (hspec : spec.ByTimestamp) (r : Record ν) :
    boundRank (ν := ν) spec.orderBy (r.timestamp, r.key) = recordRank spec.orderBy r := by
  rcases hspec with horder | horder | horder <;> rw [horder] <;> rfl

omit [Numeral ν] in
@[simp]
theorem QuerySpec.stripText_timestamp (spec : QuerySpec ν) (r : Record ν) :
    (spec.stripText r).timestamp = r.timestamp := by
  rw [QuerySpec.stripText_eq]
  split <;> rfl

/-- The bound the next page starts from is the rank of this page's last row. -/
theorem boundRank_last {base : QuerySpec ν} (hbase : base.ByTimestamp) (r : Record ν) :
    (some ((base.stripText r).timestamp, (base.stripText r).key)).map
      (boundRank (ν := ν) base.orderBy) = some (recordRank base.orderBy r) := by
  rw [QuerySpec.stripText_timestamp, QuerySpec.stripText_key, Option.map_some,
    boundRank_row hbase]

end Bounds

section Drain

variable [Unicode] [Numeral ν] {base : QuerySpec ν} {pageSize : Nat}

/-- The bound only narrows the match set. -/
theorem matchSet_after (e : Engine ν) (hbase : base.ByTimestamp) (pageSize : Nat)
    (after : Option (Int64 × String)) :
    e.matchSet { base with after := after, limit := pageSize } =
      (e.matchSet { base with after := none }).filter
        (past (recordRank base.orderBy) (after.map (boundRank (ν := ν) base.orderBy))) := by
  have hpast : ∀ r : Record ν,
      QuerySpec.afterBoundOk { base with after := after, limit := pageSize } r =
        past (recordRank base.orderBy) (after.map (boundRank (ν := ν) base.orderBy)) r :=
    @afterBoundOk_eq_past ν _ { base with after := after, limit := pageSize } hbase
  have hnone : ∀ r : Record ν, QuerySpec.afterBoundOk { base with after := none } r = true :=
    fun _ => rfl
  rw [Engine.matchSet, Engine.matchSet, List.filter_filter]
  refine List.filter_congr (fun r _ => ?_)
  rw [hpast r, hnone r, Bool.and_true, Bool.and_comm]
  rfl

/-- The drain of the rank order: the pages, and whether the empty one was reached. -/
def rankDrain (base : QuerySpec ν) (pageSize : Nat) (bound : Option (Prim ×ₗ String))
    (engines : List (Engine ν)) : List (Record ν) × Bool :=
  drain (recordRank base.orderBy) pageSize bound
    (engines.map (fun e => e.matchSet { base with after := none }))

/-- Every store that a page is asked of, the empty page not being reached before, may hold deltas. -/
def FoldsThroughout (base : QuerySpec ν) (pageSize : Nat) (bound : Option (Prim ×ₗ String))
    (engines : List (Engine ν)) : Prop :=
  ∀ n e, engines[n]? = some e → (rankDrain base pageSize bound (engines.take n)).2 = false →
    e.deltasPossible base = true

theorem foldsThroughout_cons {bound : Option (Prim ×ₗ String)} {e : Engine ν}
    {engines : List (Engine ν)} :
    FoldsThroughout base pageSize bound (e :: engines) ↔
      e.deltasPossible base = true ∧
        ∀ last, (pageAfter (recordRank base.orderBy) pageSize bound
            (e.matchSet { base with after := none })).getLast? = some last →
          FoldsThroughout base pageSize (some (recordRank base.orderBy last)) engines := by
  constructor
  · intro h
    refine ⟨h 0 e rfl rfl, fun last hlast n e' he' hmore => h (n + 1) e' he' ?_⟩
    rw [List.take_succ_cons, rankDrain, List.map_cons, drain, hlast]
    exact hmore
  · rintro ⟨he, hrest⟩ n e' he' hmore
    cases n with
    | zero =>
        cases Option.some.inj he'
        exact he
    | succ n =>
        rw [List.take_succ_cons, rankDrain, List.map_cons, drain] at hmore
        split at hmore
        · cases hmore
        · rename_i last hlast
          exact hrest last hlast n e' he' hmore

/-- The records the drain picks from. -/
theorem mem_matchSet_all {e : Engine ν} {r : Record ν} :
    r ∈ e.matchSet { base with after := none } ↔
      e.valueOf r.key = some r ∧ base.«matches» r = true := by
  rw [Engine.mem_matchSet]
  exact and_congr_right (fun _ => and_iff_left rfl)

omit [Unicode] in
/-- Rows in strictly increasing rank, all of one rank when they have the key. -/
theorem filter_key_eq_singleton {rows : List (Record ν)} {order : Option OrderBy} {r : Record ν}
    (hsorted : rows.Pairwise (fun a b => recordRank order a < recordRank order b))
    (hr : r ∈ rows) (hsame : ∀ x ∈ rows, x.key = r.key → x = r) :
    rows.filter (fun x => decide (x.key = r.key)) = [r] := by
  have hnodup : rows.Nodup := hsorted.imp (fun hlt heq => hlt.ne (congrArg _ heq))
  refine (List.perm_ext_iff_of_nodup (hnodup.filter _) (List.nodup_singleton r)).2
    (fun x => ?_) |>.eq_singleton
  rw [List.mem_filter, List.mem_singleton, decide_eq_true_eq]
  constructor
  · rintro ⟨hx, hkey⟩
    exact hsame x hx hkey
  · rintro rfl
    exact ⟨hr, rfl⟩

theorem nodup_matchSets (engines : List (Engine ν)) :
    ∀ l ∈ engines.map (fun e => e.matchSet { base with after := none }),
      (l.map (recordRank base.orderBy)).Nodup := by
  intro l hl
  obtain ⟨e, -, rfl⟩ := List.mem_map.1 hl
  exact nodup_map_recordRank (Engine.matchSet_nodup e _)

/-- The projected rows keep the order of the drain. -/
theorem drained_pairwise (engines : List (Engine ν)) :
    ((rankDrain base pageSize (base.after.map (boundRank (ν := ν) base.orderBy)) engines).1.map
      base.stripText).Pairwise
      (fun a b => recordRank base.orderBy a < recordRank base.orderBy b) := by
  refine List.pairwise_map.2 ((drain_pairwise (nodup_matchSets engines)).imp (fun hlt => ?_))
  rw [recordRank_stripText, recordRank_stripText]
  exact hlt

variable [HeapLayout]

/-- Drain a query page by page; `engines` are the store at each of the scans.  The flag says whether
an empty page was reached. -/
def drainPages (base : QuerySpec ν) (pageSize : Nat) :
    Option (Int64 × String) → List (Engine ν) → Res (List (Record ν) × Bool)
  | _, [] => .ok ([], false)
  | after, e :: engines => do
      let page ← e.scan { base with after := after, limit := pageSize }
      match page.getLast? with
      | none => .ok ([], true)
      | some last =>
          let (rest, done) ← drainPages base pageSize (some (last.timestamp, last.key)) engines
          .ok (page ++ rest, done)

/-- A scan cuts a piece out of the rank order. -/
theorem scan_eq_piece [LawfulNumeral ν] {e : Engine ν} (h : e.WF) (hl : e.DeltaLabelReserved)
    (hbase : base.ByTimestamp) {pageSize : Nat} (hroom : e.deltasPossible base = true ∨
      pageSize = 0 ∨ base.orderBy = none ∨ HeapFits pageSize) (after : Option (Int64 × String)) :
    e.scan { base with after := after, limit := pageSize } =
      .ok ((QuerySpec.truncate { base with after := after, limit := pageSize }
        ((sortAsc (recordRank base.orderBy) (e.matchSet { base with after := none })).filter
          (past (recordRank base.orderBy)
            (after.map (boundRank (ν := ν) base.orderBy))))).map base.stripText) := by
  have hordered :
      QuerySpec.afterUnordered { base with after := after, limit := pageSize } = false := by
    rcases hbase with horder | horder | horder <;> simp [QuerySpec.afterUnordered, horder]
  rw [Engine.scan_eq_oracle h hl hroom, if_neg (by simp [hordered]), Engine.scanOracle,
    matchSet_after e hbase, sortAsc_filter (nodup_map_recordRank (Engine.matchSet_nodup e _))]
  rfl

/-- A page is the next piece. -/
theorem scan_page [LawfulNumeral ν] {e : Engine ν} (h : e.WF) (hl : e.DeltaLabelReserved)
    (hbase : base.ByTimestamp) (hsize : 0 < pageSize) (hroom : e.deltasPossible base = true ∨
      base.orderBy = none ∨ HeapFits pageSize) (after : Option (Int64 × String)) :
    e.scan { base with after := after, limit := pageSize } =
      .ok ((pageAfter (recordRank base.orderBy) pageSize
        (after.map (boundRank (ν := ν) base.orderBy))
          (e.matchSet { base with after := none })).map base.stripText) := by
  rw [scan_eq_piece h hl hbase (hroom.imp_right Or.inr), QuerySpec.truncate, if_pos hsize]
  rfl

/-- A page without room for its heap is never returned. -/
theorem scan_page_panics [LawfulNumeral ν] {e : Engine ν} (h : e.WF) (hl : e.DeltaLabelReserved)
    (hbase : base.ByTimestamp) (hsize : 0 < pageSize) (hroom : ¬ (e.deltasPossible base = true ∨
      base.orderBy = none ∨ HeapFits pageSize)) (after : Option (Int64 × String)) :
    e.scan { base with after := after, limit := pageSize } = .error .panic := by
  have hordered :
      QuerySpec.afterUnordered { base with after := after, limit := pageSize } = false := by
    rcases hbase with horder | horder | horder <;> simp [QuerySpec.afterUnordered, horder]
  rw [Engine.scan, if_neg (by simp [hordered]), Engine.takePath_eq h hl, if_neg]
  rintro (hdeltas | hlimit | hrest)
  · exact hroom (Or.inl hdeltas)
  · exact hsize.ne' hlimit
  · exact hroom (Or.inr hrest)

/-- An unlimited scan returns all of it. -/
theorem scan_unlimited [LawfulNumeral ν] {e : Engine ν} (h : e.WF) (hl : e.DeltaLabelReserved)
    (hbase : base.ByTimestamp) :
    e.scan { base with limit := 0 } =
      .ok (((sortAsc (recordRank base.orderBy) (e.matchSet { base with after := none })).filter
        (past (recordRank base.orderBy)
          (base.after.map (boundRank (ν := ν) base.orderBy)))).map base.stripText) := by
  have hpiece := scan_eq_piece h hl hbase (Or.inr (Or.inl rfl)) base.after
  rw [QuerySpec.truncate, if_neg (by simp)] at hpiece
  exact hpiece

/-- With room for the heaps the drain of a client is the drain of the rank order. -/
theorem drainPages_eq [LawfulNumeral ν] (hbase : base.ByTimestamp) (hsize : 0 < pageSize)
    {engines : List (Engine ν)} :
    ∀ {after : Option (Int64 × String)}, (∀ e ∈ engines, e.WF ∧ e.DeltaLabelReserved) →
      base.orderBy = none ∨ HeapFits pageSize ∨
        FoldsThroughout base pageSize (after.map (boundRank (ν := ν) base.orderBy)) engines →
      drainPages base pageSize after engines =
        .ok ((rankDrain base pageSize (after.map (boundRank (ν := ν) base.orderBy))
            engines).1.map base.stripText,
          (rankDrain base pageSize (after.map (boundRank (ν := ν) base.orderBy)) engines).2) := by
  induction engines with
  | nil => exact fun _ _ => rfl
  | cons e engines ih =>
      intro after hall hroom
      obtain ⟨⟨hwf, hl⟩, hrest⟩ := List.forall_mem_cons.1 hall
      have hpage : e.deltasPossible base = true ∨ base.orderBy = none ∨ HeapFits pageSize := by
        rcases hroom with hnone | hfits | hfolds
        · exact Or.inr (Or.inl hnone)
        · exact Or.inr (Or.inr hfits)
        · exact Or.inl (foldsThroughout_cons.1 hfolds).1
      rw [drainPages, scan_page hwf hl hbase hsize hpage after, rankDrain, List.map_cons, drain]
      simp only [bind, Except.bind, List.getLast?_map]
      split
      · rename_i hnone
        rw [Option.map_eq_none_iff.1 hnone]
        rfl
      · -- The next page starts behind the last row of this one.
        rename_i last hlast
        obtain ⟨r, hr, rfl⟩ := Option.map_eq_some_iff.1 hlast
        have hroom' := hroom.imp_right (Or.imp_right
          (fun hfolds => (foldsThroughout_cons.1 hfolds).2 r hr))
        rw [← boundRank_last hbase] at hroom'
        rw [hr, ih hrest hroom', boundRank_last hbase]
        simp only [List.map_append, rankDrain]

/-- Without room for a heap that is asked for, the drain panics. -/
theorem drainPages_panics [LawfulNumeral ν] (hbase : base.ByTimestamp) (hsize : 0 < pageSize)
    (hordered : ¬ base.orderBy = none) (hfits : ¬ HeapFits pageSize)
    {engines : List (Engine ν)} :
    ∀ {after : Option (Int64 × String)}, (∀ e ∈ engines, e.WF ∧ e.DeltaLabelReserved) →
      ¬ FoldsThroughout base pageSize (after.map (boundRank (ν := ν) base.orderBy)) engines →
      drainPages base pageSize after engines = .error .panic := by
  induction engines with
  | nil => exact fun _ hfolds => absurd (fun n e he => by cases he) hfolds
  | cons e engines ih =>
      intro after hall hfolds
      obtain ⟨⟨hwf, hl⟩, hrest⟩ := List.forall_mem_cons.1 hall
      by_cases hdeltas : e.deltasPossible base = true
      · rw [foldsThroughout_cons, and_iff_right hdeltas] at hfolds
        obtain ⟨last, hlast, hmore⟩ := by simpa only [not_forall] using hfolds
        rw [← boundRank_last hbase] at hmore
        rw [drainPages, scan_page hwf hl hbase hsize (Or.inl hdeltas) after]
        simp only [bind, Except.bind, List.getLast?_map, hlast, Option.map_some, ih hrest hmore]
      · rw [drainPages, scan_page_panics hwf hl hbase hsize
          (by simp only [not_or]; exact ⟨hdeltas, hordered, hfits⟩) after]
        rfl

/-- What is promised of pages chained through the last row's timestamp and key, with the store
changing between them or not: the rows come in strictly increasing order and none is repeated; once
an empty page is reached every match that did not change has been returned exactly once; and a store
that did not change has been drained to its unlimited scan, which takes at most one page more than it
has matches. -/
def PagesTile (base : QuerySpec ν) (pageSize : Nat) (engines : List (Engine ν)) : Prop :=
  ∃ rows done, drainPages base pageSize base.after engines = .ok (rows, done) ∧
    rows.Pairwise (fun a b => recordRank base.orderBy a < recordRank base.orderBy b) ∧
    (rows.map (fun r => (r.timestamp, r.key))).Nodup ∧
    (done = true → ∀ r, (∀ e ∈ engines, e.valueOf r.key = some r) →
      base.«matches» r = true → base.afterBoundOk r = true →
        rows.filter (fun x => decide (x.key = r.key)) = [base.stripText r]) ∧
    ∀ e m, engines = List.replicate m e →
      (done = true → e.scan { base with limit := 0 } = .ok rows) ∧
        ((e.matchSet base).length < m → done = true)

theorem pages_tile [LawfulNumeral ν] (hbase : base.ByTimestamp) (hsize : 0 < pageSize)
    {engines : List (Engine ν)} (hall : ∀ e ∈ engines, e.WF ∧ e.DeltaLabelReserved)
    (hroom : base.orderBy = none ∨ HeapFits pageSize ∨ FoldsThroughout base pageSize
      (base.after.map (boundRank (ν := ν) base.orderBy)) engines) :
    PagesTile base pageSize engines := by
  refine ⟨_, _, drainPages_eq hbase hsize hall hroom, ?_, ?_, ?_, ?_⟩
  · exact drained_pairwise engines
  · -- Equal positions would have equal ranks.
    refine List.pairwise_map.2 ((drained_pairwise engines).imp (fun hlt heq => ?_))
    obtain ⟨hts, hkey⟩ := Prod.mk.inj heq
    refine hlt.ne ?_
    rw [← boundRank_row hbase, ← boundRank_row hbase, hts, hkey]
  · intro hdone r hvalue hm hafter
    rw [← QuerySpec.stripText_key base r]
    refine filter_key_eq_singleton (drained_pairwise engines) ?_ ?_
    · rw [afterBoundOk_eq_past hbase] at hafter
      refine List.mem_map_of_mem (mem_drain hsize (nodup_matchSets engines) ?_ hafter hdone)
      intro l hl
      obtain ⟨e, he, rfl⟩ := List.mem_map.1 hl
      exact mem_matchSet_all.2 ⟨hvalue e he, hm⟩
    · -- Whatever has the key was read while the value was the same.
      intro x hx hkey
      obtain ⟨y, hy, rfl⟩ := List.mem_map.1 hx
      obtain ⟨⟨l, hl, hmem⟩, -⟩ := mem_of_mem_drain hy
      obtain ⟨e, he, rfl⟩ := List.mem_map.1 hl
      rw [QuerySpec.stripText_key, QuerySpec.stripText_key] at hkey
      have hy' := (mem_matchSet_all.1 hmem).1
      rw [hkey, hvalue e he] at hy'
      rw [Option.some.inj hy']
  · -- The same engine throughout: the pages are those of one long scan.
    rintro e m rfl
    rw [rankDrain, List.map_replicate]
    constructor
    · intro hdone
      have hm : 0 < m := by
        rcases Nat.eq_zero_or_pos m with rfl | hm
        · cases hdone
        · exact hm
      obtain ⟨hwf, hl⟩ := hall e (List.mem_replicate.2 ⟨hm.ne', rfl⟩)
      rw [scan_unlimited hwf hl hbase, drain_replicate hsize
        (nodup_map_recordRank (Engine.matchSet_nodup e _)) hdone]
    · intro hm
      refine drain_replicate_done ?_
      have hset := matchSet_after e hbase base.limit base.after
      rw [← hset]
      exact hm

/-- The pages tile the result exactly if there is no explicit order, the heap for a page fits, or
every page that is asked for takes the folding path. -/
theorem pages_tile_iff [LawfulNumeral ν] (hbase : base.ByTimestamp) (hsize : 0 < pageSize)
    {engines : List (Engine ν)} (hall : ∀ e ∈ engines, e.WF ∧ e.DeltaLabelReserved) :
    PagesTile base pageSize engines ↔
      base.orderBy = none ∨ HeapFits pageSize ∨ FoldsThroughout base pageSize
        (base.after.map (boundRank (ν := ν) base.orderBy)) engines := by
  refine ⟨?_, pages_tile hbase hsize hall⟩
  rintro ⟨rows, done, hdrain, -⟩
  by_contra hroom
  obtain ⟨hordered, hrest⟩ := not_or.1 hroom
  obtain ⟨hfits, hfolds⟩ := not_or.1 hrest
  rw [drainPages_panics hbase hsize hordered hfits hall hfolds] at hdrain
  cases hdrain

end Drain

section Sample

local instance instPagingUnicode : Unicode := asciiUnicode

local instance instPagingHeapLayout : HeapLayout := sampleHeap

/-- Three records in a segment, and what was written since. -/
def pagedStore (writes : List (Record Int)) : Engine Int where
  memtable := writes.foldl MemTable.insert {}
  manifest :=
    { nextSegmentId := 1
      segments := [Segment.ofRows 0 [Record.bare "a" 3, Record.bare "b" 2, Record.bare "c" 1]] }

theorem pagedStore_wf (writes : List (Record Int)) : (pagedStore writes).WF where
  memtable_consistent :=
    List.foldlRecOn (motive := MemTable.Consistent) writes MemTable.insert
      MemTable.empty_consistent (fun _ hm r _ => MemTable.insert_consistent hm r)
  frozen_consistent hf := by cases hf
  ids_nodup := List.nodup_singleton _
  sorted {s} hs := by
    have hall : ∀ s ∈ (pagedStore []).manifest.segments, s.Sorted := by decide
    exact hall s hs

/-- Between the pages `a` gets a new timestamp and `d` arrives. -/
def pagedStores : List (Engine Int) :=
  [pagedStore [], pagedStore [Record.bare "a" 9], pagedStore [Record.bare "a" 9, Record.bare "d" 8],
    pagedStore [Record.bare "a" 9, Record.bare "d" 8]]

theorem pagedStores_valid : ∀ e ∈ pagedStores, e.WF ∧ e.DeltaLabelReserved := by
  have hlabels : ∀ e ∈ pagedStores, ∀ rows ∈ e.sources, ∀ r ∈ rows,
      r.labels[deltaLabel]? = none := by decide
  intro e he
  refine ⟨?_, fun rows hrows r hr hne => absurd (hlabels e he rows hrows r hr) hne⟩
  simp only [pagedStores, List.mem_cons, List.not_mem_nil, or_false] at he
  rcases he with rfl | rfl | rfl | rfl <;> exact pagedStore_wf _

theorem pagedStores_drain :
    ∃ rows, drainPages { orderBy := some .timestampDesc } 1 none pagedStores = .ok (rows, true) ∧
      rows.filter (fun r => decide (r.key = "c")) = [Record.bare "c" 1] := by
  obtain ⟨rows, done, hdrain, -, -, honce, -⟩ :=
    (@pages_tile_iff Int _ _ { orderBy := some .timestampDesc } 1 _ _ (.inr (.inl rfl)) Nat.one_pos
      _ pagedStores_valid).2 (.inr (.inl (by decide)))
  have hdone : (drainPages { orderBy := some .timestampDesc } 1 none pagedStores).toOption.map
      Prod.snd = some true := by decide
  rw [hdrain] at hdone
  obtain rfl : done = true := by simpa [Except.toOption] using hdone
  exact ⟨rows, hdrain, honce rfl (Record.bare "c" 1) (by decide) (by decide) (by decide)⟩

/-- The first page of half the address space panics, and the pages tile nothing. -/
theorem pagedStores_panic :
    drainPages { orderBy := some .timestampDesc } (2 ^ 63) none pagedStores = .error .panic ∧
      ¬ PagesTile { orderBy := some .timestampDesc } (2 ^ 63) pagedStores := by
  have hfolds : ¬ FoldsThroughout { orderBy := some .timestampDesc } (2 ^ 63) none pagedStores :=
    fun hfolds => absurd (hfolds 0 (pagedStore []) rfl rfl) (by decide)
  have hpanics : drainPages { orderBy := some .timestampDesc } (2 ^ 63) none pagedStores =
      .error .panic :=
    @drainPages_panics Int _ _ { orderBy := some .timestampDesc } _ _ _ (.inr (.inl rfl))
      (by decide) (by decide) (not_heapFits (Nat.le_refl _) (by decide)) _ none pagedStores_valid hfolds
  refine ⟨hpanics, ?_⟩
  rintro ⟨rows, done, hdrain, -⟩
  have hpanics' := hpanics.symm.trans hdrain
  cases hpanics'

end Sample

end Girder
