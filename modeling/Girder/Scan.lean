import Girder.Cursor
import Girder.Order
import Girder.Walk

/-!
# Scan — the query paths

`scan` dispatches to one of three paths: `scanFold` when increments may be in range, `scanTopk` when
an explicit order comes with a limit, `scanFull` otherwise; `count` counts what `scanFull` would
return.  The last three share the newest-wins walk: the in-memory sources are read first and seed
the set of seen keys, then the walk plan's segments follow, newest first.

The module also states what all of them are for: `scanOracle` folds every key, filters, sorts and
cuts.
-/

namespace Girder

open Lib

namespace QuerySpec

variable {ν : Type}

/-- The output gate of the `omit_text` projection. -/
def stripText (spec : QuerySpec ν) (r : Record ν) : Record ν :=
  if spec.omitText then { r with text := none } else r

/-- Cut a page to the limit; zero means unlimited. -/
def truncate {α : Type} (spec : QuerySpec ν) (l : List α) : List α :=
  if 0 < spec.limit then l.take spec.limit else l

/-- Narrowing by key prefix alone. -/
def prefixOnly (spec : QuerySpec ν) : QuerySpec ν := { keyPrefix := spec.keyPrefix }

/-- Does the spec combine a keyset bound with an order it is not defined for? -/
def afterUnordered (spec : QuerySpec ν) : Bool :=
  spec.after.isSome &&
    (match spec.orderBy with
    | some (.numericAsc _) => true
    | some (.numericDesc _) => true
    | _ => false)

end QuerySpec

/-! ## The room of the top-k heap -/

/-- How the program is built: the size of an item of the top-k heap, which the compiler chooses, and
whether additions are checked for overflow. -/
class HeapLayout where
  itemBytes : Nat
  itemBytes_pos : 0 < itemBytes
  overflowChecks : Bool

/-- A record and its ordering key in 256 bytes, and no overflow checks, for the samples. -/
@[reducible] def sampleHeap : HeapLayout := ⟨256, by decide, false⟩

section Heap

variable [HeapLayout] {limit : Nat}

/-- `limit + 1` items: an overflow panics, or wraps if nothing checks for it. -/
def heapItems (limit : Nat) : Nat :=
  if HeapLayout.overflowChecks then limit + 1 else (limit + 1) % 2 ^ 64

/-- `BinaryHeap::with_capacity(limit + 1)`: a capacity past half the address space panics. -/
def reserveHeap (limit : Nat) : Res Unit := Res.capacity (heapItems limit) HeapLayout.itemBytes

/-- Is there room for the heap? -/
def HeapFits (limit : Nat) : Prop := heapItems limit * HeapLayout.itemBytes < 2 ^ 63

instance (limit : Nat) : Decidable (HeapFits limit) := inferInstanceAs (Decidable (_ < _))

theorem reserveHeap_fits (h : HeapFits limit) : reserveHeap limit = .ok () := Res.check_true h

theorem reserveHeap_panics (h : ¬ HeapFits limit) : reserveHeap limit = .error .panic := if_neg h

/-- However small the items are, half the address space is too much. -/
theorem not_heapFits (h : 2 ^ 63 ≤ limit) (hsmall : limit + 1 < 2 ^ 64) : ¬ HeapFits limit := by
  have hitems : heapItems limit = limit + 1 := by
    rw [heapItems, Nat.mod_eq_of_lt hsmall, ite_self]
  have hroom := Nat.le_mul_of_pos_right (limit + 1) HeapLayout.itemBytes_pos
  rw [HeapFits, hitems]
  omega

end Heap

namespace Engine

variable {ν : Type} [Numeral ν] {β : Type}

/-! ## The shared walk -/

section Walk

variable [Unicode] (spec : QuerySpec ν) (keep : Record ν → Bool) (emit : β → Record ν → β)

/-- Memtable-phase matcher: `text_match` goes through the candidate set of the token map. -/
def memMatches (record : Record ν) (cand : Option StrSet) : Bool :=
  match cand with
  | none => spec.«matches» record
  | some c => c.contains record.key && spec.matchesFields record && spec.textLikeOk record

/-- Read one in-memory source: every key becomes seen, fresh matching rows are emitted. -/
def memSource (st : StrSet × β) (m : MemTable ν) : StrSet × β :=
  let cand := spec.textQueryTokens.map m.textCandidates
  m.values.foldl
    (freshStep Record.key (fun r => !r.isTombstone && memMatches spec r cand && keep r) emit) st

/-- Memtable, then frozen memtables newest first. -/
def memPhase (e : Engine ν) (init : β) : StrSet × β :=
  (e.memtable :: e.frozen.reverse.map Prod.snd).foldl (memSource spec keep emit) (∅, init)

/-- The rows a walk step emits; `newer` are the steps before it. -/
def stepRows (track : Bool) (seen : StrSet) (newer : List (WalkStep ν)) (step : WalkStep ν) :
    List (Record ν) :=
  if step.visit then
    (step.seg.matchingRows spec).filter (fun r =>
      !(seen.contains r.key || r.isTombstone) && !(track && shadowed newer r.key) && keep r)
  else
    []

/-- Walk the steps newest first; `stop` may end the walk before a step. -/
def segPhase (track : Bool) (seen : StrSet) (stop : β → List (WalkStep ν) → Bool) :
    List (WalkStep ν) → List (WalkStep ν) → β → β
  | _, [], acc => acc
  | newer, step :: rest, acc =>
      if stop acc (step :: rest) then
        acc
      else
        segPhase track seen stop (newer ++ [step]) rest
          ((stepRows spec keep track seen newer step).foldl emit acc)

end Walk

/-! ## The paths -/

/-- Any delta-flagged records among the sources this spec's key range can touch? -/
def deltasPossible (e : Engine ν) (spec : QuerySpec ν) : Bool :=
  e.memtable.hasDeltas ||
    e.frozen.any (fun f => f.2.hasDeltas) ||
    e.manifest.segments.any (fun s =>
      s.zone.mayMatch spec.prefixOnly && s.zone.mayHave deltaLabel)

section Paths

variable [Unicode]

/-- Materialize every match, dedupe newest-wins, sort, truncate. -/
def scanFull (e : Engine ν) (spec : QuerySpec ν) : List (Record ν) :=
  let mem := e.memPhase spec spec.afterBoundOk (fun out r => out ++ [r]) []
  let plan := e.walkPlan spec
  let out := segPhase spec spec.afterBoundOk
    (fun out r => out ++ [Segment.materialize (!spec.omitText) r])
    plan.trackShadows mem.1 (fun _ _ => false) [] plan.steps mem.2
  (spec.truncate (sortAsc (recordRank spec.orderBy) out)).map spec.stripText

/-- The latest timestamp a visited step of `steps` can hold. -/
def suffixMaxTs (steps : List (WalkStep ν)) : Int64 :=
  steps.foldr (fun step acc => if step.visit then max acc step.seg.zone.maxTs else acc)
    Int64.minValue

/-- The early exit of the newest-first order: the heap is full and nothing ahead can enter it. -/
def topkStop (order : OrderBy) (limit : Nat) (heap : List (HeapItem ν))
    (ahead : List (WalkStep ν)) : Bool :=
  decide (order = .timestampDesc) && decide (limit ≤ heap.length) &&
    (match heap.getLast? with
    | some worst => decide (suffixMaxTs ahead < worst.timestamp)
    | none => false)

/-- Offer a row to the bounded heap; `src` says where its data lives. -/
def offerRow (order : OrderBy) (limit : Nat) (src : Record ν → CandSrc ν)
    (heap : List (HeapItem ν)) (r : Record ν) : List (HeapItem ν) :=
  heapOffer HeapItem.rank limit heap (HeapItem.ofSrc order (src r))

/-- The rows of the bounded top-k over the ordered dimension. -/
def topkRows (e : Engine ν) (spec : QuerySpec ν) (order : OrderBy) : List (Record ν) :=
  let mem := e.memPhase spec spec.afterBoundOk (offerRow order spec.limit .mem) []
  let plan := e.walkPlan spec
  let heap := segPhase spec spec.afterBoundOk (offerRow order spec.limit .seg) plan.trackShadows
    mem.1 (topkStop order spec.limit) [] plan.steps mem.2
  (heap.map (fun item => item.src.drain (!spec.omitText))).map spec.stripText

/-- Reserve the heap, then run the bounded top-k. -/
def scanTopk [HeapLayout] (e : Engine ν) (spec : QuerySpec ν) (order : OrderBy) :
    Res (List (Record ν)) := do
  reserveHeap spec.limit
  pure (e.topkRows spec order)

/-- Feed a version to the fold state of its key. -/
def feedState (states : OrdMap String (Layering.Fold (Record ν))) (record : Record ν) :
    OrdMap String (Layering.Fold (Record ν)) :=
  match (recordLayers ν).feed states[record.key]? record with
  | some fold => states.insert record.key fold
  | none => states

/-- Fold-mode scan: narrow by prefix, fold every key newest first, then apply the whole spec. -/
def scanFold (e : Engine ν) (spec : QuerySpec ν) : List (Record ν) :=
  let foldWantsText := !spec.omitText || spec.textMatch.isSome || spec.textLike.isSome
  let feedRows (states : OrdMap String (Layering.Fold (Record ν))) (rows : List (Record ν)) :=
    (rows.filter (fun r => spec.prefixOk r.key)).foldl feedState states
  let states := feedRows ∅ e.memtable.values
  let states := e.frozen.reverse.foldl (fun states f => feedRows states f.2.values) states
  let states := (e.prunedSegments spec.prefixOnly).foldl
    (fun states s =>
      ((s.matchingRows spec.prefixOnly).map (Segment.materialize foldWantsText)).foldl
        feedState states) states
  let out := (states.toList.map (fun kv => kv.2.value.finishFold)).filter
    (fun r => !r.isTombstone && spec.«matches» r && spec.afterBoundOk r)
  (spec.truncate (sortAsc (recordRank spec.orderBy) out)).map spec.stripText

/-- The path a scan takes once the delta check has answered. -/
def takePath [HeapLayout] (e : Engine ν) (fold : Bool) (spec : QuerySpec ν) :
    Res (List (Record ν)) :=
  if fold then
    .ok (e.scanFold spec)
  else
    match decide (0 < spec.limit), spec.orderBy with
    | true, some order => e.scanTopk spec order
    | _, _ => .ok (e.scanFull spec)

/-- Scan matching records. -/
def scan [HeapLayout] (e : Engine ν) (spec : QuerySpec ν) : Res (List (Record ν)) :=
  if spec.afterUnordered then
    .error (.err (.config "QuerySpec.after requires a timestamp order"))
  else
    e.takePath (e.deltasPossible spec) spec

/-- `scanFull` counting instead of materializing. -/
def countFull (e : Engine ν) (spec : QuerySpec ν) : Nat :=
  let mem := e.memPhase spec (fun _ => true) (fun n _ => n + 1) 0
  let plan := e.walkPlan spec
  segPhase spec (fun _ => true) (fun n _ => n + 1) plan.trackShadows mem.1 (fun _ _ => false) []
    plan.steps mem.2

/-- The same for a count, whose limit and order do not change membership. -/
def countPath (e : Engine ν) (fold : Bool) (spec : QuerySpec ν) : Nat :=
  let unbounded := { spec with limit := 0, orderBy := none }
  if fold then (e.scanFold unbounded).length else e.countFull unbounded

/-- Exact match count. -/
def count (e : Engine ν) (spec : QuerySpec ν) : Res Nat :=
  if spec.after.isSome then
    .error (.err (.config "count is over the whole match set; `after` is not meaningful"))
  else
    .ok (e.countPath (e.deltasPossible { spec with limit := 0, orderBy := none }) spec)

/-! ## What a scan is for -/

/-- Every key some source holds. -/
def keys (e : Engine ν) : List String :=
  (e.sources.flatten.map Record.key).dedup

/-- The surfaced records satisfying the spec. -/
def matchSet (e : Engine ν) (spec : QuerySpec ν) : List (Record ν) :=
  (e.keys.filterMap e.valueOf).filter (fun r => spec.«matches» r && spec.afterBoundOk r)

/-- The scan specification: fold every key, filter, sort, cut, project. -/
def scanOracle (e : Engine ν) (spec : QuerySpec ν) : List (Record ν) :=
  (spec.truncate (sortAsc (recordRank spec.orderBy) (e.matchSet spec))).map spec.stripText

end Paths

end Engine

end Girder
