import Girder.Lib.Layers
import Girder.Lib.Maps
import Girder.Lib.Numeral
import Girder.Lib.Prefix
import Girder.Text

/-!
# Record — the record model, the query spec and the merge oracle

A `Record` is one stored version of a key.  Two reserved labels give a version its role:
`girder.delta` marks a counter increment, `del` marks a tombstone.  `mergeDelta` is the single
oracle that lays an increment on an earlier version; memtable, reads, compaction and log replay all
go through it.

The main results are `mergeDelta_lawful` (layering records is associative in exact arithmetic as
long as no increment is also a tombstone) and `mergeDelta_fullBase` (a full record stays full).
-/

namespace Girder

open Lib

/-- One stored version of a key.  `ν` is the number format of the numerics. -/
structure Record (ν : Type) where
  key : String
  timestamp : Int64
  labels : OrdMap String String
  numerics : OrdMap String ν
  payload : List UInt8
  text : Option String
  deriving DecidableEq

/-- A record with nothing but a key and a timestamp. -/
def Record.bare {ν : Type} (key : String) (timestamp : Int64) : Record ν where
  key := key
  timestamp := timestamp
  labels := ∅
  numerics := ∅
  payload := []
  text := none

/-- Result ordering of a scan; ties always break by ascending key. -/
inductive OrderBy
  | timestampDesc
  | timestampAsc
  | numericDesc (name : String)
  | numericAsc (name : String)
  deriving DecidableEq, Repr

/-- A query: all conditions AND together. -/
structure QuerySpec (ν : Type) where
  time : Option (Int64 × Int64) := none
  labels : List (String × String) := []
  numericRanges : List (String × ν × ν) := []
  keyPrefix : Option String := none
  limit : Nat := 0
  orderBy : Option OrderBy := none
  after : Option (Int64 × String) := none
  textMatch : Option String := none
  textLike : Option String := none
  omitText : Bool := false

namespace QuerySpec

variable {ν : Type}

/-- Column-side keyset bound: strictly after `(timestamp, key)` in the effective timestamp order. -/
def afterOkCols (spec : QuerySpec ν) (ts : Int64) (key : String) : Bool :=
  match spec.after with
  | none => true
  | some (boundTs, boundKey) =>
      if spec.orderBy = some .timestampAsc then
        decide (boundTs < ts) || (decide (ts = boundTs) && decide (boundKey < key))
      else
        decide (ts < boundTs) || (decide (ts = boundTs) && decide (boundKey < key))

def afterBoundOk (spec : QuerySpec ν) (record : Record ν) : Bool :=
  spec.afterOkCols record.timestamp record.key

section Matches

variable [Numeral ν]

def timeOk (spec : QuerySpec ν) (record : Record ν) : Bool :=
  match spec.time with
  | none => true
  | some (lo, hi) => !(decide (record.timestamp < lo) || decide (hi < record.timestamp))

def prefixOk (spec : QuerySpec ν) (key : String) : Bool :=
  match spec.keyPrefix with
  | none => true
  | some p => startsWith key p

def labelsOk (spec : QuerySpec ν) (record : Record ν) : Bool :=
  spec.labels.all (fun kv => decide (record.labels[kv.1]? = some kv.2))

def numericsOk (spec : QuerySpec ν) (record : Record ν) : Bool :=
  spec.numericRanges.all (fun r =>
    match record.numerics[r.1]? with
    | some v => Numeral.le r.2.1 v && Numeral.le v r.2.2
    | none => false)

/-- Every predicate except text. -/
def matchesFields (spec : QuerySpec ν) (record : Record ν) : Bool :=
  spec.timeOk record && spec.prefixOk record.key && spec.labelsOk record && spec.numericsOk record

def textLikeOk (spec : QuerySpec ν) (record : Record ν) : Bool :=
  match spec.textLike with
  | none => true
  | some p =>
      match record.text with
      | none => false
      | some t => likeMatch p t

/-- The query's text tokens, when a text predicate is present. -/
def textQueryTokens [Unicode] (spec : QuerySpec ν) : Option (List String) :=
  spec.textMatch.map ftsTokens

def textMatchOk [Unicode] (spec : QuerySpec ν) (record : Record ν) : Bool :=
  match spec.textQueryTokens with
  | none => true
  | some want => textContainsAll record.text want

/-- The full predicate. -/
def «matches» [Unicode] (spec : QuerySpec ν) (record : Record ν) : Bool :=
  spec.matchesFields record && (spec.textMatchOk record && spec.textLikeOk record)

theorem prefixOk_of_matches [Unicode] {spec : QuerySpec ν} {r : Record ν}
    (hm : spec.«matches» r = true) :
    spec.prefixOk r.key = true := by
  simp only [«matches», matchesFields, Bool.and_eq_true] at hm
  exact hm.1.1.1.2

end Matches

end QuerySpec

/-! ## Roles of a version -/

/-- Reserved label of a counter increment. -/
def deltaLabel : String := "girder.delta"

/-- Reserved label of a delete marker. -/
def tombstoneLabel : String := "del"

namespace Record

variable {ν : Type}

def isDelta (r : Record ν) : Bool := decide (r.labels[deltaLabel]? = some "1")

def isTombstone (r : Record ν) : Bool := decide (r.labels[tombstoneLabel]? = some "1")

/-- The canonical tombstone. -/
def tombstone (key : String) (timestamp : Int64) : Record ν where
  key := key
  timestamp := timestamp
  labels := (∅ : OrdMap String String).insert tombstoneLabel "1"
  numerics := ∅
  payload := []
  text := none

/-- The record `incr` writes: the increments, delta-flagged. -/
def delta (key : String) (timestamp : Int64) (deltas : OrdMap String ν) : Record ν where
  key := key
  timestamp := timestamp
  labels := (∅ : OrdMap String String).insert deltaLabel "1"
  numerics := deltas
  payload := []
  text := none

def clearDelta (r : Record ν) : Record ν :=
  { r with labels := r.labels.erase deltaLabel }

/-- A record leaving the engine: the delta label is bookkeeping, never user data. -/
def finishFold (r : Record ν) : Record ν := r.clearDelta

/-- A record leaving `get`: a tombstone reads as absent. -/
def surface (r : Record ν) : Option (Record ν) :=
  let r := r.finishFold
  if r.isTombstone then none else some r

@[simp] theorem clearDelta_key (r : Record ν) : r.clearDelta.key = r.key := rfl
@[simp] theorem clearDelta_timestamp (r : Record ν) : r.clearDelta.timestamp = r.timestamp := rfl
@[simp] theorem clearDelta_numerics (r : Record ν) : r.clearDelta.numerics = r.numerics := rfl
@[simp] theorem finishFold_key (r : Record ν) : r.finishFold.key = r.key := rfl

theorem deltaLabel_ne_tombstoneLabel : deltaLabel ≠ tombstoneLabel := by decide

@[simp]
theorem isDelta_clearDelta (r : Record ν) : r.clearDelta.isDelta = false := by
  simp [isDelta, clearDelta]

@[simp]
theorem isTombstone_clearDelta (r : Record ν) : r.clearDelta.isTombstone = r.isTombstone := by
  simp [isTombstone, clearDelta, Std.ExtTreeMap.getElem?_erase, deltaLabel_ne_tombstoneLabel]

theorem isTombstone_finishFold (r : Record ν) : r.finishFold.isTombstone = r.isTombstone :=
  isTombstone_clearDelta r

@[simp]
theorem clearDelta_clearDelta (r : Record ν) : r.clearDelta.clearDelta = r.clearDelta := by
  have hlabels : (r.labels.erase deltaLabel).erase deltaLabel = r.labels.erase deltaLabel := by
    refine Std.ExtTreeMap.ext_getElem? (fun k => ?_)
    by_cases hk : deltaLabel = k
    · simp [hk]
    · simp [Std.ExtTreeMap.getElem?_erase, hk]
  simp [clearDelta, hlabels]

theorem clearDelta_eq_self {r : Record ν} (h : r.labels[deltaLabel]? = none) :
    r.clearDelta = r := by
  have hlabels : r.labels.erase deltaLabel = r.labels := by
    refine Std.ExtTreeMap.ext_getElem? (fun k => ?_)
    by_cases hk : deltaLabel = k
    · subst hk
      simp [h]
    · simp [Std.ExtTreeMap.getElem?_erase, hk]
  simp [clearDelta, hlabels]

theorem surface_eq (r : Record ν) :
    r.surface = if r.isTombstone then none else some r.clearDelta := by
  simp [surface, finishFold]

theorem surface_key {r r' : Record ν} (h : r.surface = some r') : r'.key = r.key := by
  rw [surface_eq] at h
  split at h
  · simp at h
  · simp only [Option.some.injEq] at h
    simp [← h]

end Record

theorem QuerySpec.afterBoundOk_finishFold {ν : Type} (spec : QuerySpec ν) (r : Record ν) :
    spec.afterBoundOk r.finishFold = spec.afterBoundOk r := rfl

/-! ## Records filed under their keys -/

section Keyed

variable {ν : Type}

/-- Every record is filed under its own key. -/
def Keyed (m : OrdMap String (Record ν)) : Prop :=
  ∀ (k : String) (r : Record ν), m[k]? = some r → r.key = k

/-- The records of a key map, in key order. -/
def rowsOf (m : OrdMap String (Record ν)) : List (Record ν) := m.toList.map Prod.snd

theorem keyed_empty : Keyed (∅ : OrdMap String (Record ν)) := by
  intro k r h
  simp at h

theorem Keyed.mem_rowsOf {m : OrdMap String (Record ν)} (h : Keyed m) {r : Record ν} :
    r ∈ rowsOf m ↔ m[r.key]? = some r := by
  constructor
  · intro hr
    obtain ⟨⟨k, s⟩, hmem, rfl⟩ := List.mem_map.1 hr
    have hget : m[k]? = some s := Std.ExtTreeMap.mem_toList_iff_getElem?_eq_some.1 hmem
    rw [h k s hget]
    exact hget
  · intro hr
    exact List.mem_map.2 ⟨(r.key, r), Std.ExtTreeMap.mem_toList_iff_getElem?_eq_some.2 hr, rfl⟩

theorem Keyed.rowsOf_sorted {m : OrdMap String (Record ν)} (h : Keyed m) :
    (rowsOf m).Pairwise (fun a b => a.key < b.key) := by
  refine List.pairwise_map.2 ?_
  have hord : m.toList.Pairwise (fun a b => compare a.1 b.1 = .lt) :=
    Std.ExtTreeMap.ordered_keys_toList
  refine hord.imp_of_mem ?_
  rintro ⟨ka, a⟩ ⟨kb, b⟩ ha hb hlt
  have hka : a.key = ka := h ka a (Std.ExtTreeMap.mem_toList_iff_getElem?_eq_some.1 ha)
  have hkb : b.key = kb := h kb b (Std.ExtTreeMap.mem_toList_iff_getElem?_eq_some.1 hb)
  rw [hka, hkb]
  exact compare_lt_iff_lt.1 hlt

end Keyed

/-! ## The merge oracle -/

section Merge

variable {ν : Type} [Numeral ν]

/-- Numerics ADD: union of names, missing counts as zero. -/
def addNumerics (base delta : OrdMap String ν) : OrdMap String ν :=
  delta.toList.foldl (OrdMap.update (fun old v => old.getD 0 + v)) base

/-- Lay the increments of `delta` on a base that is not a tombstone. -/
def addOnto (base delta : Record ν) : Record ν :=
  { base with
    numerics := addNumerics base.numerics delta.numerics
    timestamp := max base.timestamp delta.timestamp }

/-- Fold a delta record onto an optional earlier version of its key. -/
def mergeDelta (base : Option (Record ν)) (delta : Record ν) : Record ν :=
  match base with
  | none => delta
  | some base =>
      -- A tombstone base contributes nothing and turns the increments into a full value.
      if base.isTombstone then
        delta.clearDelta
      else
        let merged := addOnto base delta
        if !base.isDelta then merged.clearDelta else merged

/-- Records as versions: increments are the partial ones. -/
def recordLayers (ν : Type) [Numeral ν] : Layering (Record ν) where
  isPartial := Record.isDelta
  merge o n := mergeDelta (some o) n

theorem getElem?_addNumerics (base delta : OrdMap String ν) (n : String) :
    (addNumerics base delta)[n]? =
      match delta[n]? with
      | none => base[n]?
      | some v => some (base[n]?.getD 0 + v) :=
  OrdMap.getElem?_foldl_toList_update _ delta base n

@[simp] theorem addOnto_key (b d : Record ν) : (addOnto b d).key = b.key := rfl

@[simp]
theorem isTombstone_addOnto (b d : Record ν) : (addOnto b d).isTombstone = b.isTombstone := rfl

@[simp] theorem isDelta_addOnto (b d : Record ν) : (addOnto b d).isDelta = b.isDelta := rfl

theorem addOnto_clearDelta (b d : Record ν) : addOnto b.clearDelta d = (addOnto b d).clearDelta :=
  rfl

theorem mergeDelta_tombstone {b : Record ν} (hb : b.isTombstone = true) (d : Record ν) :
    mergeDelta (some b) d = d.clearDelta := by
  simp [mergeDelta, hb]

theorem mergeDelta_full {b : Record ν} (ht : b.isTombstone = false) (hd : b.isDelta = false)
    (d : Record ν) : mergeDelta (some b) d = (addOnto b d).clearDelta := by
  simp [mergeDelta, ht, hd]

theorem mergeDelta_delta {b : Record ν} (ht : b.isTombstone = false) (hd : b.isDelta = true)
    (d : Record ν) : mergeDelta (some b) d = addOnto b d := by
  simp [mergeDelta, ht, hd]

theorem mergeDelta_key {b d : Record ν} (h : b.key = d.key) :
    (mergeDelta (some b) d).key = d.key := by
  unfold mergeDelta
  simp only
  split
  · rfl
  · split
    · simpa using h
    · simpa using h

/-- A full record stays full whatever is merged onto it. -/
theorem mergeDelta_fullBase : (recordLayers ν).FullBase := by
  intro o n ho
  have ho' : o.isDelta = false := ho
  show (mergeDelta (some o) n).isDelta = false
  cases ht : o.isTombstone with
  | true => simp [mergeDelta_tombstone ht]
  | false => simp [mergeDelta_full ht ho']

/-- No increment is a tombstone: the shape of every record that only `incr` delta-flags. -/
def Record.PlainDelta (r : Record ν) : Prop :=
  r.isDelta = true → r.isTombstone = false

theorem addNumerics_assoc [ExactNumeral ν] (x y z : OrdMap String ν) :
    addNumerics (addNumerics x y) z = addNumerics x (addNumerics y z) := by
  refine Std.ExtTreeMap.ext_getElem? (fun n => ?_)
  simp only [getElem?_addNumerics]
  cases hz : z[n]? with
  | none => simp
  | some v =>
      cases hy : y[n]? with
      | none => simp [ExactNumeral.zero_add]
      | some y => simp [ExactNumeral.add_assoc]

theorem addOnto_assoc [ExactNumeral ν] (a b c : Record ν) :
    addOnto (addOnto a b) c = addOnto a (addOnto b c) := by
  simp [addOnto, addNumerics_assoc, max_assoc]

/-- Increments merged onto an increment stay one. -/
theorem mergeDelta_keepsPartial : (recordLayers ν).KeepsPartial Record.PlainDelta where
  ok_merge {o n} ho hn := by
    show (mergeDelta (some o) n).PlainDelta
    cases ht : o.isTombstone with
    | true =>
        intro hd
        simp [mergeDelta_tombstone ht] at hd
    | false =>
        cases hd : o.isDelta with
        | true =>
            intro _
            simpa [mergeDelta_delta ht hd] using ht
        | false =>
            intro hd'
            simp [mergeDelta_full ht hd] at hd'
  isPartial_merge {o n} ho _ hop := by
    have hd : o.isDelta = true := hop
    show (mergeDelta (some o) n).isDelta = true
    simpa [mergeDelta_delta (ho hd) hd] using hd

/-- In exact arithmetic, layering records is associative. -/
theorem mergeDelta_lawful [ExactNumeral ν] : (recordLayers ν).Lawful Record.PlainDelta where
  ok_merge ho hn := mergeDelta_keepsPartial.ok_merge ho hn
  partial_merge {o n} ho hn := by
    cases hd : (recordLayers ν).isPartial o with
    | true => exact mergeDelta_keepsPartial.isPartial_merge ho hn hd
    | false => exact mergeDelta_fullBase o n hd
  merge_assoc {a b c} ha hb hc hbp hcp := by
    have hbd : b.isDelta = true := hbp
    have hbt : b.isTombstone = false := hb hbd
    show mergeDelta (some (mergeDelta (some a) b)) c = mergeDelta (some a) (mergeDelta (some b) c)
    rw [mergeDelta_delta hbt hbd]
    cases ht : a.isTombstone with
    | true =>
        -- The tombstone turns `b` into a full value; `c` adds onto it either way.
        have hbt' : b.clearDelta.isTombstone = false := by simpa using hbt
        rw [mergeDelta_tombstone ht, mergeDelta_tombstone ht,
          mergeDelta_full hbt' (by simp), addOnto_clearDelta]
        simp
    | false =>
        cases hd : a.isDelta with
        | true =>
            rw [mergeDelta_delta ht hd, mergeDelta_delta ht hd,
              mergeDelta_delta (by simpa using ht) (by simpa using hd), addOnto_assoc]
        | false =>
            have hmt : (addOnto a b).clearDelta.isTombstone = false := by simpa using ht
            rw [mergeDelta_full ht hd, mergeDelta_full ht hd, mergeDelta_full hmt (by simp),
              addOnto_clearDelta, addOnto_assoc]
            simp

end Merge

end Girder
