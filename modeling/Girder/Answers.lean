import Girder.Replies
import Girder.Vanishing

/-!
# Answers — every read, through the shared cache

The query paths one by one: whatever others do to the cache and the files meanwhile, each returns
what the same path of `Engine` returns on the rows of its view.

`reads_through_cache` states it for any number of reads that share the cache.
-/

namespace Girder

open Lib Access

section Memory

variable {ν β γ : Type} [Unicode] [Numeral ν]

/-- The memory phases of two reads keep what they have accumulated related. -/
theorem memPhase_rel {R : β → γ → Prop} {keep : Record ν → Bool} {emit : β → Record ν → β}
    {emit' : γ → Record ν → γ} (e : Engine ν) (spec : QuerySpec ν)
    (hemit : ∀ acc acc' r, R acc acc' → R (emit acc r) (emit' acc' r)) {init : β} {init' : γ}
    (hinit : R init init') :
    (e.memPhase spec keep emit init).1 = (e.memPhase spec keep emit' init').1 ∧
      R (e.memPhase spec keep emit init).2 (e.memPhase spec keep emit' init').2 := by
  have hsources : ∀ (ms : List (MemTable ν)) (seen : StrSet) (acc : β) (acc' : γ), R acc acc' →
      (ms.foldl (Engine.memSource spec keep emit) (seen, acc)).1 =
          (ms.foldl (Engine.memSource spec keep emit') (seen, acc')).1 ∧
        R (ms.foldl (Engine.memSource spec keep emit) (seen, acc)).2
          (ms.foldl (Engine.memSource spec keep emit') (seen, acc')).2 := by
    intro ms
    induction ms with
    | nil => exact fun _ _ _ hR => ⟨rfl, hR⟩
    | cons m ms ih =>
        intro seen acc acc' hR
        have hsource : (Engine.memSource spec keep emit (seen, acc) m).1 =
            (Engine.memSource spec keep emit' (seen, acc') m).1 ∧
              R (Engine.memSource spec keep emit (seen, acc) m).2
                (Engine.memSource spec keep emit' (seen, acc') m).2 :=
          foldl_freshStep_rel hemit m.values seen acc acc' hR
        -- One source leaves both reads with the same keys seen.
        obtain ⟨hseen, hacc⟩ := hsource
        have hnext := ih (Engine.memSource spec keep emit (seen, acc) m).1 _ _ hacc
        rw [List.foldl_cons, List.foldl_cons]
        rwa [← Prod.mk.eta (p := Engine.memSource spec keep emit' (seen, acc') m), ← hseen]
  exact hsources _ _ _ _ hinit

end Memory

/-! ## The bounded heap -/

section Candidates

variable {ν : Type} [Unicode] [Deflate] [FloatBits ν] [Numeral ν] {content : Nat → Bytes}
  {segs : List (Segment ν)}

/-- Where a candidate's data lives, in the files and among the rows. -/
inductive SrcShows (content : Nat → Bytes) (segs : List (Segment ν)) : FileSrc ν → CandSrc ν → Prop
  | mem (r : Record ν) : SrcShows content segs (.mem r) (.mem r)
  | seg {s : Segment ν} {cols : SegmentColumns ν} {handle : Option Bytes} {needTokens : Bool}
      {row : Nat} {r : Record ν} (hs : s ∈ segs)
      (hcols : cols.Serves handle (content s.cacheKey) s.rows needTokens)
      (hr : s.rows[row]? = some r) : SrcShows content segs (.seg cols s row) (.seg r)

/-- A candidate stands for one among the rows. -/
structure ItemShows (content : Nat → Bytes) (segs : List (Segment ν)) (item : FileItem ν)
    (item' : HeapItem ν) : Prop where
  prim_eq : item.prim = item'.prim
  key_eq : item.key = item'.key
  src : SrcShows content segs item.src item'.src

theorem ItemShows.rank_eq {item : FileItem ν} {item' : HeapItem ν}
    (h : ItemShows content segs item item') : item.rank = item'.rank := by
  rw [FileItem.rank, HeapItem.rank, h.prim_eq, h.key_eq]

theorem ItemShows.timestamp_eq {item : FileItem ν} {item' : HeapItem ν}
    (h : ItemShows content segs item item') : item.timestamp = .ok item'.timestamp := by
  obtain ⟨prim, key, src⟩ := item
  obtain ⟨prim', key', src'⟩ := item'
  cases h.src with
  | mem r => rfl
  | seg hs hcols hr => exact hcols.shows.timestampAt_eq hr

theorem itemShows_memItem (order : OrderBy) (r : Record ν) :
    ItemShows content segs (Queries.memItem order r) (HeapItem.ofSrc order (.mem r)) :=
  ⟨rfl, rfl, SrcShows.mem r⟩

variable [Crc32] [Rmp SectionDir] [Rmp (List (BlockMeta ν))] [Rmp (List (Record ν))]
  {kept : Nat → Prop}

theorem emitsAlike_topk (order : OrderBy) (limit : Nat) (needTokens : Bool) :
    EmitsAlike content kept segs needTokens (List.Forall₂ (ItemShows content segs))
      (Queries.emitTopk order limit) (Engine.offerRow order limit .seg) := by
  intro s cols handle row r heap heap' hs hcols hr hheap
  have hnum : Queries.orderedNumeric order cols row =
      .ok (order.numericName.bind (fun n => r.numerics[n]?)) := by
    unfold Queries.orderedNumeric
    cases order.numericName with
    | none => rfl
    | some n => exact hcols.shows.numericAt_eq hr n
  refine bind_ofRes hnum ?_
  refine bind_ofRes (hcols.shows.timestampAt_eq hr) ?_
  refine bind_ofRes (hcols.shows.keyAt_eq hr) ?_
  have hprim : makePrim order r.timestamp (order.numericName.bind (fun n => r.numerics[n]?)) =
      recordPrim order r := by
    cases order <;> rfl
  exact gives_pure (forall₂_heapOffer (fun _ _ h => h.rank_eq) hheap
    ⟨hprim, rfl, SrcShows.seg hs hcols hr⟩)

theorem gives_topkStop (order : OrderBy) (limit : Nat) {heap : List (FileItem ν)}
    {heap' : List (HeapItem ν)} (h : List.Forall₂ (ItemShows content segs) heap heap')
    (ahead : List (WalkStep ν)) :
    (Queries.topkStop order limit heap ahead).Gives content kept segs
      (fun b => b = Engine.topkStop order limit heap' ahead) := by
  unfold Queries.topkStop Engine.topkStop
  rw [h.length_eq]
  split
  · rename_i hfull
    rw [decide_eq_true hfull.1, decide_eq_true hfull.2]
    rcases forall₂_last h with ⟨rfl, rfl⟩ | ⟨xs, w, ys, w', rfl, rfl, -, hw⟩
    · exact gives_pure rfl
    · rw [List.getLast?_concat, List.getLast?_concat]
      exact bind_ofRes hw.timestamp_eq (gives_pure rfl)
  · rename_i hroom
    refine gives_pure ?_
    rw [not_and_or] at hroom
    rcases hroom with hroom | hroom
    · rw [decide_eq_false hroom, Bool.false_and, Bool.false_and]
    · rw [decide_eq_false hroom, Bool.and_false, Bool.false_and]

theorem gives_openPayloadFile {s : Segment ν} (hs : s ∈ segs) {cols : SegmentColumns ν}
    {handle : Option Bytes} {needTokens : Bool}
    (hcols : cols.Serves handle (content s.cacheKey) s.rows needTokens) :
    (Queries.openPayloadFile content s cols).Gives content kept segs
      (fun file => file = handle) := by
  rw [hcols.reopened]
  unfold Queries.openPayloadFile
  split
  · refine Prog.Sat.bind (sat_openSegmentFile s.cacheKey) (fun out hout => ?_)
    rcases hout with ⟨rfl, hgone⟩ | rfl
    · exact Or.inl ⟨rfl, s, hs, hgone⟩
    · exact Or.inr ⟨_, rfl, rfl⟩
  · exact gives_pure rfl

theorem gives_fetch (spec : QuerySpec ν) {src : FileSrc ν} {src' : CandSrc ν}
    (h : SrcShows content segs src src') :
    (Queries.fetch content spec src).Gives content kept segs
      (fun r => r = src'.drain (!spec.omitText)) := by
  cases h with
  | mem r => exact gives_pure rfl
  | seg hs hcols hr =>
      exact Gives.bind_eq (gives_openPayloadFile hs hcols)
        (gives_ofRes (hcols.materialize_eq hr _) rfl)

/-- The survivors are cut out of their files, opened again. -/
theorem gives_drain (spec : QuerySpec ν) {items : List (FileItem ν)} {items' : List (HeapItem ν)}
    (h : List.Forall₂ (ItemShows content segs) items items') :
    (Queries.drain content spec items).Gives content kept segs
      (fun out => out = items'.map (fun item => item.src.drain (!spec.omitText))) := by
  induction h with
  | nil => exact gives_pure rfl
  | cons hitem _ ih =>
      unfold Queries.drain
      exact Gives.bind_eq (gives_fetch spec hitem.src) (Gives.bind_eq ih (gives_pure rfl))

end Candidates

section Answers

variable {ν : Type} [Unicode] [Deflate] [FloatBits ν] [Numeral ν] [Crc32] [Rmp SectionDir]
  [Rmp (List (BlockMeta ν))] [Rmp (List (Record ν))] {content : Nat → Bytes} {kept : Nat → Prop}
  {segs : List (Segment ν)}

theorem gives_foldSegment {s : Segment ν} {cols : SegmentColumns ν} {handle : Option Bytes}
    {needTokens : Bool} (hcols : cols.Serves handle (content s.cacheKey) s.rows needTokens)
    (wantText : Bool) {rows : List Nat} {recs : List (Record ν)}
    (hrows : List.Forall₂ (fun i r => s.rows[i]? = some r) rows recs) :
    ∀ states : OrdMap String (Layering.Fold (Record ν)),
      (Queries.foldSegment wantText cols handle rows states).Gives content kept segs
        (fun out => out =
          (recs.map (Segment.materialize wantText)).foldl Engine.feedState states) := by
  induction hrows with
  | nil => exact fun states => gives_pure rfl
  | cons hr _ ih => exact fun states => bind_ofRes (hcols.materialize_eq hr wantText) (ih _)

variable [LawfulUnicode] [LawfulDeflate] [LawfulFloatBits ν] [LawfulNumeral ν]
  [LawfulRmp SectionDir] [LawfulRmp (List (BlockMeta ν))] {e : Engine ν}

/-! ## The walks that return rows and that count them -/

theorem gives_scanFull (hstored : Stored content e.manifest.segments) (spec : QuerySpec ν) :
    (Queries.scanFull content e spec).Gives content kept e.manifest.segments
      (fun out => out = e.scanFull spec) := by
  have hemit : EmitsAlike content kept e.manifest.segments spec.needTokens Eq
      (Queries.emitFull spec)
      (fun out r => out ++ [Segment.materialize (!spec.omitText) r]) := by
    rintro s cols handle row r acc _ hs hcols hr rfl
    exact bind_ofRes (hcols.materialize_eq hr _) (gives_pure rfl)
  refine Gives.bind_eq (gives_walk hstored (Engine.seg_of_mem_walkPlan e spec) spec hemit
    (fun acc acc' ahead _ => gives_pure rfl) _ [] _ _ _ rfl rfl (probeOk_noProbe _)) ?_
  exact gives_pure rfl

theorem gives_countFull (hstored : Stored content e.manifest.segments) (spec : QuerySpec ν) :
    (Queries.countFull content e spec).Gives content kept e.manifest.segments
      (fun n => n = e.countFull spec) := by
  have hemit : EmitsAlike content kept e.manifest.segments spec.needTokens Eq
      (fun n _ _ _ _ => pure (n + 1)) (fun n _ => n + 1) := by
    rintro s cols handle row r acc _ hs hcols hr rfl
    exact gives_pure rfl
  exact gives_walk hstored (Engine.seg_of_mem_walkPlan e spec) spec hemit
    (fun acc acc' ahead _ => gives_pure rfl) _ [] _ _ _ rfl rfl (probeOk_noProbe _)

/-! ## Top-k -/

theorem ends_scanTopk [HeapLayout] (hstored : Stored content e.manifest.segments)
    (spec : QuerySpec ν) (order : OrderBy) :
    (Queries.scanTopk content e spec order).Ends content kept (Missing kept e.manifest.segments)
      (e.scanTopk spec order) := by
  unfold Queries.scanTopk Engine.scanTopk
  by_cases hfits : HeapFits spec.limit
  case neg =>
    rw [reserveHeap_panics hfits]
    exact Or.inr rfl
  rw [reserveHeap_fits hfits]
  refine Gives.ends (bind_ofRes rfl ?_)
  -- The memory phase leaves heaps that stand for each other, and the same keys seen.
  obtain ⟨hseen, hheap⟩ : (e.memPhase spec spec.afterBoundOk (fun heap r =>
      heapOffer FileItem.rank spec.limit heap (Queries.memItem order r)) []).1 =
        (e.memPhase spec spec.afterBoundOk (Engine.offerRow order spec.limit .mem) []).1 ∧
      List.Forall₂ (ItemShows content e.manifest.segments) _ _ :=
    memPhase_rel (R := List.Forall₂ (ItemShows content e.manifest.segments)) e spec
      (fun heap heap' r h =>
        forall₂_heapOffer (fun _ _ h => h.rank_eq) h (itemShows_memItem order r))
      List.Forall₂.nil
  refine (gives_walk hstored (Engine.seg_of_mem_walkPlan e spec) spec
    (emitsAlike_topk order spec.limit spec.needTokens)
    (fun heap heap' ahead h => gives_topkStop order spec.limit h ahead) _ [] _ _ _ rfl hheap
    (probeOk_noProbe _)).bind (fun heap hwalked => ?_)
  rw [hseen] at hwalked
  exact Gives.bind_eq (gives_drain spec hwalked) (gives_pure rfl)

/-! ## The fold -/

theorem gives_foldSegments (hstored : Stored content segs) (spec : QuerySpec ν) (wantText : Bool) :
    ∀ (rest : List (Segment ν)) (states : OrdMap String (Layering.Fold (Record ν))),
      (∀ s ∈ rest, s ∈ segs) →
      (Queries.foldSegments content spec wantText rest states).Gives content kept segs
        (fun out => out = rest.foldl (fun states s =>
          ((s.matchingRows spec.prefixOnly).map (Segment.materialize wantText)).foldl
            Engine.feedState states) states) := by
  intro rest
  induction rest with
  | nil => exact fun states _ => gives_pure rfl
  | cons s rest ih =>
      intro states hrest
      refine (gives_loadSegmentCached hstored (hrest s List.mem_cons_self) false).bind
        (fun loaded hcols => ?_)
      -- Narrowing by prefix alone needs no tokens.
      refine bind_ofRes (hcols.selects spec.prefixOnly id) ?_
      refine Gives.bind_eq (gives_foldSegment hcols wantText
        (forall₂_naiveRows spec.prefixOnly s.rows) states) ?_
      exact ih _ (fun s' hs' => hrest s' (List.mem_cons_of_mem s hs'))

theorem gives_scanFold (hstored : Stored content e.manifest.segments) (spec : QuerySpec ν) :
    (Queries.scanFold content e spec).Gives content kept e.manifest.segments
      (fun out => out = e.scanFold spec) :=
  Gives.bind_eq (gives_foldSegments hstored spec _ _ _ (Engine.mem_of_mem_prunedSegments e _))
    (gives_pure rfl)

/-! ## Point reads -/

theorem gives_pointSegments (hstored : Stored content segs) (key : String) :
    ∀ (rest : List (Segment ν)) (st : Option (Layering.Fold (Record ν))), (∀ s ∈ rest, s ∈ segs) →
      (Queries.pointSegments content key rest st).Gives content kept segs
        (fun out => out = rest.foldl (fun st s => Engine.feedVersion st (s.lookup key)) st) := by
  intro rest
  induction rest with
  | nil => exact fun st _ => gives_pure rfl
  | cons s rest ih =>
      intro st hrest
      have hmore : ∀ s' ∈ rest, s' ∈ segs := fun s' hs' => hrest s' (List.mem_cons_of_mem s hs')
      unfold Queries.pointSegments
      split
      · rw [Engine.foldl_feedVersion_done]
        exact gives_pure rfl
      · refine (gives_loadSegmentCached hstored (hrest s List.mem_cons_self) false).bind
          (fun loaded hcols => ?_)
        refine bind_ofRes (hcols.shows.findKey_eq key) ?_
        rw [List.foldl_cons, Segment.lookup]
        cases hfind : s.findKey key with
        | none => exact ih st hmore
        | some i =>
            obtain ⟨-, hi, -⟩ := bsearch_sound hfind
            have hr : s.rows[i]? = some s.rows[i] := List.getElem?_eq_getElem hi
            refine bind_ofRes (hcols.materialize_eq hr true) ?_
            rw [Option.bind_some, hr]
            exact ih _ hmore

theorem gives_point (hstored : Stored content e.manifest.segments) (key : String) :
    (Queries.point content e key).Gives content kept e.manifest.segments
      (fun out => out = e.getOnce key) :=
  Gives.bind_eq (gives_pointSegments hstored key _ _ (Engine.mem_of_mem_prunedSegments e _))
    (gives_pure rfl)

/-! ## Whole reads -/

variable [HeapLayout] {check : Engine ν}

theorem ends_takePath (hstored : Stored content e.manifest.segments) (fold : Bool)
    (spec : QuerySpec ν) :
    (Queries.takePath content e fold spec).Ends content kept (Missing kept e.manifest.segments)
      (e.takePath fold spec) := by
  unfold Queries.takePath Engine.takePath
  split
  · exact (gives_scanFold hstored spec).ends
  · cases decide (0 < spec.limit) with
    | false => exact (gives_scanFull hstored spec).ends
    | true =>
        cases spec.orderBy with
        | none => exact (gives_scanFull hstored spec).ends
        | some order => exact ends_scanTopk hstored spec order

theorem ends_scan (hstored : Stored content e.manifest.segments) (spec : QuerySpec ν) :
    (Reply.page <$> Queries.scan content check e spec).Ends content kept
      (Missing kept e.manifest.segments) ((Query.scan spec).answer check e) := by
  unfold Queries.scan
  simp only [Query.answer]
  split
  · exact Or.inr rfl
  · exact (ends_takePath hstored _ spec).map Reply.page

theorem ends_count (hstored : Stored content e.manifest.segments) (spec : QuerySpec ν) :
    (Reply.number <$> Queries.count content check e spec).Ends content kept
      (Missing kept e.manifest.segments) ((Query.count spec).answer check e) := by
  unfold Queries.count
  simp only [Query.answer, Engine.countPath]
  split
  · exact Or.inr rfl
  · split
    · exact ((gives_scanFold hstored _).ends.map List.length).map Reply.number
    · exact (gives_countFull hstored _).ends.map Reply.number

theorem Query.ends_once (hstored : Stored content e.manifest.segments) (query : Query ν) :
    (query.once content check e).Ends content kept (Missing kept e.manifest.segments)
      (query.answer check e) := by
  cases query with
  | get key => exact (gives_point hstored key).ends.map Reply.record
  | scan spec => exact ends_scan hstored spec
  | count spec => exact ends_count hstored spec

/-- A store that changes over time, the files of its segments holding their rows. -/
structure Timeline (content : Nat → Bytes) (ν : Type) [Unicode] [Deflate] [FloatBits ν] [Numeral ν]
    [Crc32] [Rmp SectionDir] [Rmp (List (BlockMeta ν))] [Rmp (List (Record ν))] where
  state : Nat → Engine ν
  stored : ∀ t, Stored content (state t).manifest.segments

/-- A read with the moments at which its attempts lock the containers. -/
structure ReadCall (ν : Type) where
  query : Query ν
  attempts : Nat → Attempt

/-- A whole read. -/
def ReadCall.program (store : Timeline content ν) (c : ReadCall ν) :
    Prog (Shelf ν) (Res (Reply ν)) :=
  (retryVanished (fun k => c.query.once content (Engine.metAt store.state (c.attempts k).check)
    (Engine.metAt store.state (c.attempts k).path)) vanishedSegmentRetries 0).run

/-- Any number of gets, scans and counts of a changing store share a cache that evicts, while files
come and go and sections are dropped: a read that has ended, ended as its path of the rows of the
containers that one of its attempts met, taken as the containers its delta check met told it to, or
each of its attempts missed a file.  If the store stood still for that attempt, the answer is that of
the store. -/
theorem reads_through_cache (store : Timeline content ν) (kept : Nat → Prop) (capacityBytes : Nat)
    {present : Nat → Bool} (hpresent : ∀ id, kept id → present id = true)
    {pool : Pool (Shelf ν) (ReadCall ν) (Res (Reply ν))}
    (hsteps : Pool.Steps (Shelf.Changes kept) (ReadCall.program store)
      { store := Shelf.empty capacityBytes present } pool)
    {call : ReadCall ν} {out : Res (Reply ν)} (hended : (call, .done out) ∈ pool.threads) :
    (out = .error vanished ∧ ∀ k ≤ vanishedSegmentRetries,
        Missing kept (Engine.metAt store.state (call.attempts k).path).manifest.segments) ∨
      ∃ k ≤ vanishedSegmentRetries,
        out = call.query.answer (Engine.metAt store.state (call.attempts k).check)
          (Engine.metAt store.state (call.attempts k).path) ∧
        ∀ e, Engine.metAt store.state (call.attempts k).check = e →
          Engine.metAt store.state (call.attempts k).path = e → out = call.query.eval e := by
  -- Each call by itself ends as one of its attempts; the pool mixes them without a race.
  have hprogram : ∀ c : ReadCall ν, (c.program store).Sat (Shelf.Good content kept) (fun out =>
      (out = .error vanished ∧ ∀ k, 0 ≤ k → k ≤ 0 + vanishedSegmentRetries →
        Missing kept (Engine.metAt store.state (c.attempts k).path).manifest.segments) ∨
      ∃ k, 0 ≤ k ∧ k ≤ 0 + vanishedSegmentRetries ∧
        out = c.query.answer (Engine.metAt store.state (c.attempts k).check)
          (Engine.metAt store.state (c.attempts k).path)) :=
    fun c => sat_retryVanished (fun k => Query.ends_once
      (e := Engine.metAt store.state (c.attempts k).path)
      (store.stored (c.attempts k).path.manifest) c.query) _ 0
  have hok := Pool.sat_of_steps
    ⟨Shelf.good_empty capacityBytes hpresent, fun hmem => absurd hmem List.not_mem_nil⟩
    (fun _ _ hgood hchange => hgood.change hchange) hprogram hsteps
  refine (hok.threads hended).imp ?_ ?_
  · rintro ⟨rfl, hmissing⟩
    exact ⟨rfl, fun k hk => hmissing k (Nat.zero_le k) (by omega)⟩
  · rintro ⟨k, -, hk, rfl⟩
    refine ⟨k, by omega, rfl, fun e hcheck hpath => ?_⟩
    rw [hcheck, hpath, Query.answer_self]

end Answers

/-! ## A get and a scan while the memtable is frozen -/

section Sample

local instance instAnswersCrc32 : Crc32 := instAssemblyCrc32

local instance instAnswersUnicode : Unicode := instAssemblyUnicode

local instance instAnswersDeflate : Deflate := instAssemblyDeflate

local instance instAnswersLawfulDeflate : LawfulDeflate := instAssemblyLawfulDeflate

noncomputable local instance instAnswersRmpBlocks : Rmp (List (BlockMeta Binary64)) :=
  instAssemblyRmpBlocks

noncomputable local instance instAnswersRmpDir : Rmp SectionDir := instAssemblyRmpDir

local instance instAnswersRmpRecords : Rmp (List (Record Binary64)) := instAssemblyRmpRecords

local instance instAnswersLawfulRmpBlocks : LawfulRmp (List (BlockMeta Binary64)) :=
  instAssemblyLawfulRmpBlocks

local instance instAnswersLawfulRmpDir : LawfulRmp SectionDir := instAssemblyLawfulRmpDir

local instance instAnswersLawfulUnicode : LawfulUnicode := lawfulUnicode_ascii

local instance instAnswersHeapLayout : HeapLayout := sampleHeap

/-- A store whose only segment is the sample file; its memtable, with a write to `a`, is frozen at
moment one. -/
def freezingStore (t : Nat) : Engine Binary64 :=
  let written := ({} : MemTable Binary64).insert (Record.bare "a" 9)
  { memtable := if t = 0 then written else {}
    frozen := if t = 0 then [] else [(0, written)]
    manifest := { segments := [Segment.ofRows 0 sampleRows] } }

/-- Its segment stays on disk. -/
noncomputable def freezingTimeline : Timeline (fun _ => fileOf sampleRows) Binary64 where
  state := freezingStore
  stored := by
    intro t s hs
    obtain rfl := List.mem_singleton.1 hs
    have hsorted : KeysAscend sampleRows := by
      refine List.pairwise_pair.2 ?_
      decide
    exact ⟨hsorted, storable_sampleRows.rows_lt,
      Or.inr ⟨storable_sampleRows, encodeV2_eq sampleRows, length_sampleRows⟩⟩

/-- A read whose check comes before the freeze, which falls between its first and its second lock. -/
def tornRead (query : Query Binary64) : ReadCall Binary64 where
  query := query
  attempts := fun _ => ⟨⟨0, 0, 0⟩, ⟨0, 1, 1⟩⟩

/-- A get and a scan, begun together. -/
noncomputable def sampleReads (store : Timeline (fun _ => fileOf sampleRows) Binary64) :
    Pool (Shelf Binary64) (ReadCall Binary64) (Res (Reply Binary64)) where
  store := Shelf.empty 4096 (fun _ => true)
  threads := [(tornRead (.get "a"), (tornRead (.get "a")).program store),
    (tornRead (.scan {}), (tornRead (.scan {})).program store)]

/-- The two take turns at the cache eight times, then the scan ends, then the get; both have met the
write to `a` twice. -/
theorem reads_through_cache_sampleRows :
    ((([0, 1, 0, 1, 0, 1, 0, 1].foldl Pool.turn
        (sampleReads freezingTimeline)).finish 1).finish 0).threads =
      [(tornRead (.get "a"), .done ((Query.get "a").answer
          (freezingStore 0) (Engine.metAt freezingStore ⟨0, 1, 1⟩))),
        (tornRead (.scan {}), .done ((Query.scan {}).answer
          (freezingStore 0) (Engine.metAt freezingStore ⟨0, 1, 1⟩)))] := by
  have hstate : freezingTimeline.state = freezingStore := rfl
  -- The store is kept abstract, so that no step of the reads is computed.
  generalize freezingTimeline = store at hstate
  have hstarted : Pool.Steps (Shelf.Changes (fun _ => True)) (ReadCall.program store)
      { store := Shelf.empty 4096 (fun _ => true) } (sampleReads store) :=
    Relation.ReflTransGen.head (Pool.Step.start (tornRead (.get "a")))
      (Relation.ReflTransGen.single (Pool.Step.start (tornRead (.scan {}))))
  have hturned := hstarted.trans (Pool.steps_turns [0, 1, 0, 1, 0, 1, 0, 1] (sampleReads store))
  have hsteps := (hturned.trans (Pool.steps_finish _ 1)).trans (Pool.steps_finish _ 0)
  have hanswer : ∀ query {out}, (tornRead query, Prog.done out) ∈ (Pool.finish (Pool.finish
      ([0, 1, 0, 1, 0, 1, 0, 1].foldl Pool.turn (sampleReads store)) 1) 0).threads →
        out = query.answer (freezingStore 0) (Engine.metAt freezingStore ⟨0, 1, 1⟩) := by
    intro query out hended
    rcases reads_through_cache store (fun _ => True) 4096 (fun _ _ => rfl) hsteps hended
      with ⟨-, hmissing⟩ | ⟨k, -, hout, -⟩
    · obtain ⟨s, -, hgone⟩ := hmissing 0 (Nat.zero_le _)
      exact absurd trivial hgone
    · rw [hout, hstate]
      rfl
  obtain ⟨got, scanned, hends⟩ := Pool.threads_finish_two (p := sampleReads store) rfl
    [0, 1, 0, 1, 0, 1, 0, 1]
  rw [hends] at hanswer
  have hgot := hanswer (.get "a") List.mem_cons_self
  have hscanned := hanswer (.scan {}) (List.mem_cons_of_mem _ List.mem_cons_self)
  rw [hends, ← hgot, ← hscanned]

end Sample

end Girder
