import Girder.Constraints
import Girder.Scan
import Girder.Selection
import Girder.Shelves
import Girder.Upkeep

/-!
# Queries — the query paths over segment files and the section cache

The reads of an open store, as they run: memtables are in memory, and a segment's columns are loaded
through the section cache, which other reads and maintenance change all the time.  A row is selected
by its columns, and its payload and text are cut out of the file when it is returned.

The memtable, the frozen list and the manifest are locked one after the other, by the delta check and
again by the path, and the store may change in between: the `Engine` a path runs on holds the
containers as the path met them (`Engine.metAt`), and is no state of the store unless it stood still.

`point`, `scan` and `count` are the reads; the walk over the segments is shared by the last two.
-/

namespace Girder

open Lib

/-! ## Rows of loaded columns -/

/-- Binary search over a key column. -/
def KeysSection.findFrom (k : KeysSection) (key : String) : Nat → Nat → Nat → Res (Option Nat)
  | 0, _, _ => pure none
  | fuel + 1, lo, hi =>
      if lo < hi then do
        let mid := (lo + hi) / 2
        let found ← k.keyAt mid
        match compare found key with
        | .lt => k.findFrom key fuel (mid + 1) hi
        | .gt => k.findFrom key fuel lo mid
        | .eq => pure (some mid)
      else
        pure none

def KeysSection.count (k : KeysSection) : Nat := k.offsets.length - 1

def KeysSection.find (k : KeysSection) (key : String) : Res (Option Nat) :=
  k.findFrom key k.count 0 k.count

namespace SegmentColumns

variable {ν : Type}

def findKey (cols : SegmentColumns ν) (key : String) : Res (Option Nat) :=
  cols.keys.findFrom key cols.count 0 cols.count

def timestampAt (cols : SegmentColumns ν) (i : Nat) : Res Int64 := Res.index cols.timestamps i

def numericAt (cols : SegmentColumns ν) (name : String) (i : Nat) : Res (Option ν) :=
  match cols.numerics[name]? with
  | some col => col.valueAt i
  | none => pure none

def labelValueAt (cols : SegmentColumns ν) (name : String) (i : Nat) : Res (Option String) :=
  match cols.labels[name]? with
  | some col => col.valueAt i
  | none => pure none

def isTombstoneAt (cols : SegmentColumns ν) (i : Nat) : Res Bool := do
  let value ← cols.labelValueAt tombstoneLabel i
  pure (decide (value = some "1"))

/-- Do the payloads sit in the file? -/
def payloadNeedsFile (cols : SegmentColumns ν) : Bool :=
  match cols.payloads with
  | .file _ => true
  | .mem _ => false

end SegmentColumns

def SegKeys.contains {ν : Type} (keys : SegKeys ν) (key : String) : Res Bool :=
  Option.isSome <$> (match keys with
    | .slim k => k.find key
    | .whole cols => cols.findKey key)

/-- Should the walk load the tokens?  A pattern the index cannot narrow does not. -/
def QuerySpec.needTokens [Unicode] {ν : Type} (spec : QuerySpec ν) : Bool :=
  spec.textMatch.isSome || spec.textLike.any (fun p => !(likeConstraints p).isEmpty)

/-! ## Heap candidates of the top-k path -/

/-- Where a candidate's data lives: a record in memory, or a row of loaded columns. -/
inductive FileSrc (ν : Type)
  | mem (record : Record ν)
  | seg (cols : SegmentColumns ν) (segment : Segment ν) (row : Nat)

structure FileItem (ν : Type) where
  prim : Prim
  key : String
  src : FileSrc ν

namespace FileItem

variable {ν : Type}

def rank (item : FileItem ν) : Prim ×ₗ String := toLex (item.prim, item.key)

def timestamp (item : FileItem ν) : Res Int64 :=
  match item.src with
  | .mem r => pure r.timestamp
  | .seg cols _ row => cols.timestampAt row

end FileItem

/-- The numeric an order ranks by. -/
def OrderBy.numericName : OrderBy → Option String
  | .numericAsc n => some n
  | .numericDesc n => some n
  | _ => none

namespace Queries

variable {ν β : Type} [Unicode] [Numeral ν] [FloatBits ν] [Deflate] [Crc32] [Rmp SectionDir]
  [Rmp (List (BlockMeta ν))] [Rmp (List (Record ν))]

variable (content : Nat → Bytes)

/-! ## Point reads -/

/-- The segments of a point read, newest first; nothing is read once a full version is reached. -/
def pointSegments (key : String) :
    List (Segment ν) → Option (Layering.Fold (Record ν)) →
      Access ν (Option (Layering.Fold (Record ν)))
  | [], st => pure st
  | s :: rest, st =>
      match st with
      | some (.done r) => pure (some (.done r))
      | st => do
          let (cols, file) ← loadSegmentCached content s.cacheKey false
          match ← (Access.ofRes (cols.findKey key) : Access ν _) with
          | none => pointSegments key rest st
          | some idx =>
              let version ← (Access.ofRes (cols.materialize idx file true) : Access ν _)
              pointSegments key rest ((recordLayers ν).feed st version)

/-- `get_once`, on the containers it meets. -/
def point (e : Engine ν) (key : String) : Access ν (Option (Record ν)) := do
  let st := Engine.feedVersion none (e.memtable.get key)
  let st := e.frozen.reverse.foldl (fun st f => Engine.feedVersion st (f.2.get key)) st
  let st ← pointSegments content key (e.prunedSegments { keyPrefix := some key }) st
  pure (st.bind (fun fold => fold.value.surface))

/-! ## The walk over the segments -/

/-- The key columns of the plan's steps that were loaded so far. -/
abbrev ShadowProbe (ν : Type) := List (Option (SegKeys ν))

/-- The keys of one step, loaded at most once. -/
def probeKeys (probe : ShadowProbe ν) (j : Nat) (step : WalkStep ν) : Access ν (SegKeys ν) :=
  match probe[j]? with
  | some (some keys) => pure keys
  | _ => loadSegmentKeys content step.seg.cacheKey

/-- Does any of these steps, numbered from `j`, hold the key? -/
def probeFrom (key : String) :
    Nat → List (WalkStep ν) → ShadowProbe ν → Access ν (Bool × ShadowProbe ν)
  | _, [], probe => pure (false, probe)
  | j, step :: rest, probe =>
      if step.seg.zone.containsKey key then do
        let keys ← probeKeys content probe j step
        let probe := probe.set j (some keys)
        if ← (Access.ofRes (keys.contains key) : Access ν _) then
          pure (true, probe)
        else
          probeFrom key (j + 1) rest probe
      else
        probeFrom key (j + 1) rest probe

section Walk

variable (track : Bool) (seen : StrSet) (bound : Int64 → String → Bool)
  (emit : β → SegmentColumns ν → Option Bytes → Segment ν → Nat → Access ν β)

/-- The selected rows of a visited step; `newer` are the steps before it. -/
def visitRows (newer : List (WalkStep ν)) (s : Segment ν) (cols : SegmentColumns ν)
    (file : Option Bytes) : List Nat → β → ShadowProbe ν → Access ν (β × ShadowProbe ν)
  | [], acc, probe => pure (acc, probe)
  | row :: rows, acc, probe => do
      let key ← (Access.ofRes (cols.keyAt row) : Access ν _)
      if seen.contains key then
        visitRows newer s cols file rows acc probe
      else if ← (Access.ofRes (cols.isTombstoneAt row) : Access ν _) then
        visitRows newer s cols file rows acc probe
      else do
        let (hidden, probe) ←
          (if track then probeFrom content key 0 newer probe else pure (false, probe) :
            Access ν (Bool × ShadowProbe ν))
        if hidden then
          visitRows newer s cols file rows acc probe
        else do
          let ts ← (Access.ofRes (cols.timestampAt row) : Access ν _)
          if bound ts key then
            let acc ← emit acc cols file s row
            visitRows newer s cols file rows acc probe
          else
            visitRows newer s cols file rows acc probe

variable (spec : QuerySpec ν) (stop : β → List (WalkStep ν) → Access ν Bool)

/-- The steps of a plan, newest first; `stop` may end the walk before a step. -/
def walk : List (WalkStep ν) → List (WalkStep ν) → β → ShadowProbe ν → Access ν β
  | _, [], acc, _ => pure acc
  | newer, step :: rest, acc, probe => do
      if ← stop acc (step :: rest) then
        pure acc
      else if step.visit then do
        let (cols, file) ← loadSegmentCached content step.seg.cacheKey spec.needTokens
        let rows ← (Access.ofRes (cols.matchingRows spec file) : Access ν _)
        let (acc, probe) ←
          visitRows content track seen bound emit newer step.seg cols file rows acc probe
        walk (newer ++ [step]) rest acc probe
      else
        walk (newer ++ [step]) rest acc probe

end Walk

/-- A probe that has loaded nothing. -/
def noProbe (steps : List (WalkStep ν)) : ShadowProbe ν := steps.map (fun _ => none)

/-! ## The paths -/

def emitFull (spec : QuerySpec ν) (out : List (Record ν)) (cols : SegmentColumns ν)
    (file : Option Bytes) (_ : Segment ν) (row : Nat) : Access ν (List (Record ν)) := do
  let r ← (Access.ofRes (cols.materialize row file (!spec.omitText)) : Access ν _)
  pure (out ++ [r])

def scanFull (e : Engine ν) (spec : QuerySpec ν) : Access ν (List (Record ν)) := do
  let mem := e.memPhase spec spec.afterBoundOk (fun out r => out ++ [r]) []
  let plan := e.walkPlan spec
  let out ← walk content plan.trackShadows mem.1 spec.afterOkCols (emitFull spec) spec
    (fun _ _ => pure false) [] plan.steps mem.2 (noProbe plan.steps)
  pure ((spec.truncate (sortAsc (recordRank spec.orderBy) out)).map spec.stripText)

/-- The value an order ranks a row by. -/
def orderedNumeric (order : OrderBy) (cols : SegmentColumns ν) (row : Nat) : Res (Option ν) :=
  match order.numericName with
  | some n => cols.numericAt n row
  | none => pure none

def emitTopk (order : OrderBy) (limit : Nat) (heap : List (FileItem ν)) (cols : SegmentColumns ν)
    (_ : Option Bytes) (s : Segment ν) (row : Nat) : Access ν (List (FileItem ν)) := do
  let num ← (Access.ofRes (orderedNumeric order cols row) : Access ν _)
  let ts ← (Access.ofRes (cols.timestampAt row) : Access ν _)
  let key ← (Access.ofRes (cols.keyAt row) : Access ν _)
  pure (heapOffer FileItem.rank limit heap
    { prim := makePrim order ts num, key := key, src := .seg cols s row })

/-- A candidate in memory. -/
def memItem (order : OrderBy) (r : Record ν) : FileItem ν where
  prim := recordPrim order r
  key := r.key
  src := .mem r

/-- The early exit of the newest-first order. -/
def topkStop (order : OrderBy) (limit : Nat) (heap : List (FileItem ν))
    (ahead : List (WalkStep ν)) : Access ν Bool :=
  if order = .timestampDesc ∧ limit ≤ heap.length then
    match heap.getLast? with
    | some worst => do
        let ts ← (Access.ofRes worst.timestamp : Access ν _)
        pure (decide (Engine.suffixMaxTs ahead < ts))
    | none => pure false
  else
    pure false

/-- The file for a row's payload, opened once more. -/
def openPayloadFile (s : Segment ν) (cols : SegmentColumns ν) : Access ν (Option Bytes) :=
  if cols.payloadNeedsFile then some <$> openSegmentFile content s.cacheKey else pure none

/-- A surviving candidate as a record: the row of a segment is cut out of its file, opened again. -/
def fetch (spec : QuerySpec ν) : FileSrc ν → Access ν (Record ν)
  | .mem r => pure r
  | .seg cols s row => do
      let file ← openPayloadFile content s cols
      Access.ofRes (cols.materialize row file (!spec.omitText))

/-- Return the kept candidates, best first. -/
def drain (spec : QuerySpec ν) : List (FileItem ν) → Access ν (List (Record ν))
  | [] => pure []
  | item :: items => do
      let r ← fetch content spec item.src
      let rest ← drain spec items
      pure (r :: rest)

def scanTopk [HeapLayout] (e : Engine ν) (spec : QuerySpec ν) (order : OrderBy) :
    Access ν (List (Record ν)) := do
  (Access.ofRes (reserveHeap spec.limit) : Access ν _)
  let mem := e.memPhase spec spec.afterBoundOk
    (fun heap r => heapOffer FileItem.rank spec.limit heap (memItem order r)) []
  let plan := e.walkPlan spec
  let heap ← walk content plan.trackShadows mem.1 spec.afterOkCols (emitTopk order spec.limit) spec
    (topkStop order spec.limit) [] plan.steps mem.2 (noProbe plan.steps)
  let out ← drain content spec heap
  pure (out.map spec.stripText)

/-- The matching rows of a segment, fed to the fold states one after the other. -/
def foldSegment (foldWantsText : Bool) (cols : SegmentColumns ν) (file : Option Bytes) :
    List Nat → OrdMap String (Layering.Fold (Record ν)) →
      Access ν (OrdMap String (Layering.Fold (Record ν)))
  | [], states => pure states
  | row :: rows, states => do
      let r ← (Access.ofRes (cols.materialize row file foldWantsText) : Access ν _)
      foldSegment foldWantsText cols file rows (Engine.feedState states r)

def foldSegments (spec : QuerySpec ν) (foldWantsText : Bool) :
    List (Segment ν) → OrdMap String (Layering.Fold (Record ν)) →
      Access ν (OrdMap String (Layering.Fold (Record ν)))
  | [], states => pure states
  | s :: rest, states => do
      let (cols, file) ← loadSegmentCached content s.cacheKey false
      let rows ← (Access.ofRes (cols.matchingRows spec.prefixOnly file) : Access ν _)
      let states ← foldSegment foldWantsText cols file rows states
      foldSegments spec foldWantsText rest states

def scanFold (e : Engine ν) (spec : QuerySpec ν) : Access ν (List (Record ν)) := do
  let foldWantsText := !spec.omitText || spec.textMatch.isSome || spec.textLike.isSome
  let feedRows (states : OrdMap String (Layering.Fold (Record ν))) (rows : List (Record ν)) :=
    (rows.filter (fun r => spec.prefixOk r.key)).foldl Engine.feedState states
  let states := feedRows ∅ e.memtable.values
  let states := e.frozen.reverse.foldl (fun states f => feedRows states f.2.values) states
  let states ← foldSegments content spec foldWantsText (e.prunedSegments spec.prefixOnly) states
  let out := (states.toList.map (fun kv => kv.2.value.finishFold)).filter
    (fun r => !r.isTombstone && spec.«matches» r && spec.afterBoundOk r)
  pure ((spec.truncate (sortAsc (recordRank spec.orderBy) out)).map spec.stripText)

/-- The path a scan takes once the delta check has answered. -/
def takePath [HeapLayout] (e : Engine ν) (fold : Bool) (spec : QuerySpec ν) :
    Access ν (List (Record ν)) :=
  if fold then
    scanFold content e spec
  else
    match decide (0 < spec.limit), spec.orderBy with
    | true, some order => scanTopk content e spec order
    | _, _ => scanFull content e spec

/-- `scan`: the delta check on the containers it meets, then the path on those that it meets. -/
def scan [HeapLayout] (check path : Engine ν) (spec : QuerySpec ν) :
    Access ν (List (Record ν)) :=
  if spec.afterUnordered then
    throw (.err (.config "QuerySpec.after requires a timestamp order"))
  else
    takePath content path (check.deltasPossible spec) spec

def countFull (e : Engine ν) (spec : QuerySpec ν) : Access ν Nat := do
  let mem := e.memPhase spec (fun _ => true) (fun n _ => n + 1) 0
  let plan := e.walkPlan spec
  walk content plan.trackShadows mem.1 (fun _ _ => true) (fun n _ _ _ _ => pure (n + 1)) spec
    (fun _ _ => pure false) [] plan.steps mem.2 (noProbe plan.steps)

/-- `count`, likewise. -/
def count (check path : Engine ν) (spec : QuerySpec ν) : Access ν Nat :=
  if spec.after.isSome then
    throw (.err (.config "count is over the whole match set; `after` is not meaningful"))
  else
    let unbounded := { spec with limit := 0, orderBy := none }
    if check.deltasPossible unbounded then
      List.length <$> scanFold content path unbounded
    else
      countFull content path unbounded

end Queries

/-! ## Calls -/

/-- A read of the store. -/
inductive Query (ν : Type)
  | get (key : String)
  | scan (spec : QuerySpec ν)
  | count (spec : QuerySpec ν)

inductive Reply (ν : Type)
  | record (r : Option (Record ν))
  | page (records : List (Record ν))
  | number (n : Nat)

/-- `retry_vanished`: an attempt that misses a file is followed by another, `retries` times at most.
Attempts are numbered, for each reads the manifest anew. -/
def retryVanished {ν α : Type} (op : Nat → Access ν α) : Nat → Nat → Access ν α
  | 0, attempt => op attempt
  | retries + 1, attempt => ExceptT.mk (do
      let out ← (op attempt).run
      match out with
      | .ok a => pure (.ok a)
      | .error e =>
          if e = vanished then (retryVanished op retries (attempt + 1)).run else pure (.error e))

/-- When a read locks each of the containers. -/
structure Moments where
  memtable : Nat
  frozen : Nat
  manifest : Nat

/-- The moments of one attempt: those of the delta check, which a get does without, and those of the
path after it. -/
structure Attempt where
  check : Moments
  path : Moments

section Calls

variable {ν : Type}

/-- The containers of a changing store as a read meets them; `store` is its state over time. -/
def Engine.metAt (store : Nat → Engine ν) (m : Moments) : Engine ν where
  memtable := (store m.memtable).memtable
  frozen := (store m.frozen).frozen
  manifest := (store m.manifest).manifest

variable [Unicode] [Numeral ν] [HeapLayout]

/-- One attempt of a read. -/
def Query.once [FloatBits ν] [Deflate] [Crc32] [Rmp SectionDir] [Rmp (List (BlockMeta ν))]
    [Rmp (List (Record ν))] (content : Nat → Bytes) (check path : Engine ν) :
    Query ν → Access ν (Reply ν)
  | .get key => Reply.record <$> Queries.point content path key
  | .scan spec => Reply.page <$> Queries.scan content check path spec
  | .count spec => Reply.number <$> Queries.count content check path spec

/-- The same read of the rows. -/
def Query.answer (check path : Engine ν) : Query ν → Res (Reply ν)
  | .get key => .ok (.record (path.getOnce key))
  | .scan spec =>
      if spec.afterUnordered then
        .error (.err (.config "QuerySpec.after requires a timestamp order"))
      else
        Reply.page <$> path.takePath (check.deltasPossible spec) spec
  | .count spec =>
      if spec.after.isSome then
        .error (.err (.config "count is over the whole match set; `after` is not meaningful"))
      else
        .ok (.number
          (path.countPath (check.deltasPossible { spec with limit := 0, orderBy := none }) spec))

/-- The read of a store at one moment. -/
def Query.eval (e : Engine ν) : Query ν → Res (Reply ν)
  | .get key => .ok (.record (e.getOnce key))
  | .scan spec => Reply.page <$> e.scan spec
  | .count spec => Reply.number <$> e.count spec

/-- A read that meets one state throughout is the store's read of it. -/
theorem Query.answer_self (e : Engine ν) (query : Query ν) :
    query.answer e e = query.eval e := by
  cases query with
  | get key => rfl
  | scan spec =>
      rw [answer, eval, Engine.scan]
      split <;> rfl
  | count spec =>
      rw [answer, eval, Engine.count]
      split <;> rfl

end Calls

end Girder
