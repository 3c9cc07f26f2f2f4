import Girder.Lib.Sorting
import Girder.Zone

/-!
# Segment — an immutable run of key-sorted rows

A `Segment` is a manifest entry together with the rows its file decodes to.  Its `id` is its place
in the recency order, its `file` the never-reused sequence number of its file name.

Rows are sorted by key and each key occurs once (`Segment.Sorted`), so the binary search over the
key column finds a key exactly when a row holds it (`lookup_eq_rowOf`).
-/

namespace Girder

open Lib

/-- File content. -/
abbrev Bytes := List UInt8

/-- Where a segment's file lives. -/
inductive Tier
  | hot
  | cold
  | remote
  deriving DecidableEq, Repr

/-- The engine's errors. -/
inductive GirderError
  | io (detail : String)
  | config (message : String)
  | corrupt (what detail : String)
  deriving DecidableEq, Repr

/-- The length of the file some rows are written to. -/
class SegmentFile (ν : Type) where
  fileBytes : List (Record ν) → Nat

/-- The row of `key` among some rows. -/
def rowOf {ν : Type} (rows : List (Record ν)) (key : String) : Option (Record ν) :=
  rows.find? (fun r => decide (r.key = key))

/-- A manifest entry and the rows of its file. -/
structure Segment (ν : Type) where
  id : Nat
  file : Nat
  tier : Tier
  bytes : Nat
  createdUnixNanos : Int64
  /-- Format version in the file's header. -/
  version : Nat
  /-- Is a copy of a remote segment in the pull-through cache? -/
  pulled : Bool
  rows : List (Record ν)

namespace Segment

variable {ν : Type}

/-- A hot segment in the current format. -/
def ofRows (id : Nat) (rows : List (Record ν)) : Segment ν where
  id := id
  file := id
  tier := .hot
  bytes := 0
  createdUnixNanos := 0
  version := 2
  pulled := false
  rows := rows

section Reads

/-- Binary search over the key column. -/
def findKey (s : Segment ν) (key : String) : Option Nat :=
  bsearch
    (fun i =>
      match s.rows[i]? with
      | some r => compare r.key key
      | none => .gt)
    s.rows.length 0 s.rows.length

/-- The row of `key`, found through the key column. -/
def lookup (s : Segment ν) (key : String) : Option (Record ν) :=
  (s.findKey key).bind (fun i => s.rows[i]?)

/-- Reading the whole file at the segment's local path: a remote segment has one only while it is
in the pull cache. -/
def readAllRecords (s : Segment ν) : Except GirderError (List (Record ν)) :=
  if s.tier = .remote ∧ s.pulled = false then
    .error (.io "NotFound")
  else
    .ok s.rows

/-- Assembling a row, with or without its text. -/
def materialize (wantText : Bool) (r : Record ν) : Record ν :=
  if wantText then r else { r with text := none }

variable [Numeral ν]

/-- The zone written with the rows. -/
def zone (s : Segment ν) : ZoneMap ν := ZoneMap.build s.rows

/-- The rows satisfying `spec`, in row order. -/
def matchingRows [Unicode] (s : Segment ν) (spec : QuerySpec ν) : List (Record ν) :=
  s.rows.filter spec.«matches»

end Reads

/-- Rows are strictly ascending by key. -/
def Sorted (s : Segment ν) : Prop :=
  s.rows.Pairwise (fun a b => a.key < b.key)

instance instDecidableSorted (s : Segment ν) : Decidable s.Sorted :=
  inferInstanceAs (Decidable (s.rows.Pairwise (fun a b => a.key < b.key)))

end Segment

/-! ## Rows and their keys -/

section Rows

variable {ν : Type}

theorem rowOf_eq_some {rows : List (Record ν)} {key : String} {r : Record ν}
    (h : rowOf rows key = some r) : r ∈ rows ∧ r.key = key :=
  ⟨List.mem_of_find?_eq_some h, by simpa using List.find?_some h⟩

theorem rowOf_eq_none {rows : List (Record ν)} {key : String} :
    rowOf rows key = none ↔ ∀ r ∈ rows, r.key ≠ key := by
  simp [rowOf]

theorem key_inj_of_sorted {rows : List (Record ν)} (h : rows.Pairwise (fun a b => a.key < b.key))
    {r s : Record ν} (hr : r ∈ rows) (hs : s ∈ rows) (heq : r.key = s.key) : r = s :=
  List.inj_on_of_nodup_map (nodup_map_of_pairwise_lt h) hr hs heq

/-- Among sorted rows, a row is the row of its key. -/
theorem rowOf_of_mem {rows : List (Record ν)} (h : rows.Pairwise (fun a b => a.key < b.key))
    {r : Record ν} (hr : r ∈ rows) : rowOf rows r.key = some r := by
  cases hfind : rowOf rows r.key with
  | none => exact absurd rfl (rowOf_eq_none.1 hfind r hr)
  | some s =>
      obtain ⟨hs, hkey⟩ := rowOf_eq_some hfind
      rw [key_inj_of_sorted h hs hr hkey]

theorem rowOf_eq_some_iff {rows : List (Record ν)} (h : rows.Pairwise (fun a b => a.key < b.key))
    {key : String} {r : Record ν} : rowOf rows key = some r ↔ r ∈ rows ∧ r.key = key := by
  refine ⟨rowOf_eq_some, ?_⟩
  rintro ⟨hr, rfl⟩
  exact rowOf_of_mem h hr

/-- Sorted rows are determined by their lookups. -/
theorem eq_of_rowOf_eq {rows rows' : List (Record ν)}
    (h : rows.Pairwise (fun a b => a.key < b.key)) (h' : rows'.Pairwise (fun a b => a.key < b.key))
    (heq : ∀ key, rowOf rows key = rowOf rows' key) : rows = rows' := by
  refine eq_of_perm_of_pairwise_lt ?_ h h'
  have hnodup : rows.Nodup := List.Nodup.of_map _ (nodup_map_of_pairwise_lt h)
  have hnodup' : rows'.Nodup := List.Nodup.of_map _ (nodup_map_of_pairwise_lt h')
  refine (List.perm_ext_iff_of_nodup hnodup hnodup').2 (fun r => ?_)
  constructor
  · exact fun hr => (rowOf_eq_some ((heq r.key).symm.trans (rowOf_of_mem h hr))).1
  · exact fun hr => (rowOf_eq_some ((heq r.key).trans (rowOf_of_mem h' hr))).1

/-- Looking a key up among the records of a key map. -/
theorem rowOf_rowsOf {m : OrdMap String (Record ν)} (h : Keyed m) (key : String) :
    rowOf (rowsOf m) key = m[key]? := by
  refine Option.ext (fun r => ?_)
  rw [rowOf_eq_some_iff h.rowsOf_sorted, h.mem_rowsOf]
  constructor
  · rintro ⟨hget, rfl⟩
    exact hget
  · intro hget
    have hkey := h key r hget
    exact ⟨by rw [hkey]; exact hget, hkey⟩

theorem rowOf_filter {rows : List (Record ν)} (h : rows.Pairwise (fun a b => a.key < b.key))
    (p : Record ν → Bool) (key : String) :
    rowOf (rows.filter p) key = (rowOf rows key).filter p := by
  refine Option.ext (fun r => ?_)
  rw [rowOf_eq_some_iff (h.filter p), Option.mem_def.symm, Option.mem_filter_iff, Option.mem_def,
    rowOf_eq_some_iff h, List.mem_filter]
  tauto

/-- Sorted rows hold at most one row of a key. -/
theorem filter_key_eq {rows : List (Record ν)} (h : rows.Pairwise (fun a b => a.key < b.key))
    (key : String) : rows.filter (fun r => decide (r.key = key)) = (rowOf rows key).toList := by
  induction rows with
  | nil => rfl
  | cons r rows ih =>
      obtain ⟨hhead, htail⟩ := List.pairwise_cons.1 h
      by_cases hkey : r.key = key
      · have hnone : rows.filter (fun r => decide (r.key = key)) = [] := by
          refine List.filter_eq_nil_iff.2 (fun s hs hskey => ?_)
          have hlt := hhead s hs
          rw [hkey, of_decide_eq_true hskey] at hlt
          exact lt_irrefl _ hlt
        rw [List.filter_cons_of_pos (by simpa using hkey), hnone]
        simp [rowOf, hkey]
      · rw [List.filter_cons_of_neg (by simpa using hkey), ih htail]
        simp [rowOf, hkey]

/-- Reading the rows of one key out of sources read one after the other. -/
theorem filter_flatMap_key {α : Type} {f : α → List (Record ν)} {g : α → Option (Record ν)}
    {key : String} :
    ∀ {l : List α},
      (∀ a ∈ l, (f a).filter (fun r => decide (r.key = key)) = (g a).toList) →
      (l.flatMap f).filter (fun r => decide (r.key = key)) = l.filterMap g := by
  intro l
  induction l with
  | nil => exact fun _ => rfl
  | cons a l ih =>
      intro h
      rw [List.flatMap_cons, List.filter_append, h a (by simp),
        ih (fun b hb => h b (by simp [hb]))]
      cases hg : g a with
      | none => rw [List.filterMap_cons_none hg]; rfl
      | some r => rw [List.filterMap_cons_some hg]; rfl

end Rows

/-! ## The key column -/

namespace Segment

variable {ν : Type}

theorem readAllRecords_eq_ok {s : Segment ν} {rows : List (Record ν)}
    (h : s.readAllRecords = .ok rows) : rows = s.rows := by
  unfold readAllRecords at h
  split at h
  · cases h
  · exact (Except.ok.inj h).symm

theorem readAllRecords_of_hot {s : Segment ν} (h : s.tier = .hot) :
    s.readAllRecords = .ok s.rows := by
  simp [readAllRecords, h]

@[simp]
theorem materialize_key (wantText : Bool) (r : Record ν) :
    (materialize wantText r).key = r.key := by
  unfold materialize
  split <;> rfl

theorem lookup_of_mem {s : Segment ν} (h : s.Sorted) {r : Record ν} (hr : r ∈ s.rows) :
    s.lookup r.key = some r := by
  obtain ⟨i, hi, rfl⟩ := List.getElem_of_mem hr
  have hfind : s.findKey s.rows[i].key = some i := by
    refine bsearch_complete ?_ ?_ ?_ (Nat.zero_le i) hi (by simp)
    · intro j hj
      have hj' : j < s.rows.length := hj.trans hi
      have hlt : s.rows[j].key < s.rows[i].key := List.pairwise_iff_getElem.1 h j i hj' hi hj
      simpa [hj'] using compare_lt_iff_lt.2 hlt
    · simp [hi]
    · intro j hj
      by_cases hj' : j < s.rows.length
      · have hlt : s.rows[i].key < s.rows[j].key := List.pairwise_iff_getElem.1 h i j hi hj' hj
        simpa [hj'] using compare_gt_iff_gt.2 hlt
      · simp [hj']
  simp [lookup, hfind, hi]

theorem key_of_lookup {s : Segment ν} {key : String} {r : Record ν}
    (h : s.lookup key = some r) : r ∈ s.rows ∧ r.key = key := by
  obtain ⟨i, hfind, hrow⟩ := Option.bind_eq_some_iff.1 h
  obtain ⟨-, -, heq⟩ := bsearch_sound hfind
  simp only [hrow] at heq
  exact ⟨List.mem_of_getElem? hrow, by simpa using heq⟩

/-- The binary search answers as a linear search would. -/
theorem lookup_eq_rowOf {s : Segment ν} (h : s.Sorted) (key : String) :
    s.lookup key = rowOf s.rows key := by
  refine Option.ext (fun r => ?_)
  rw [rowOf_eq_some_iff h]
  constructor
  · exact key_of_lookup
  · rintro ⟨hr, rfl⟩
    exact lookup_of_mem h hr

theorem findKey_isSome {s : Segment ν} (h : s.Sorted) (key : String) :
    (s.findKey key).isSome = (rowOf s.rows key).isSome := by
  rw [← lookup_eq_rowOf h, lookup]
  cases hfind : s.findKey key with
  | none => rfl
  | some i =>
      obtain ⟨-, hi, -⟩ := bsearch_sound hfind
      simp [hi]

variable [Numeral ν] [LawfulNumeral ν]

theorem zone_covers {s : Segment ν} {r : Record ν} (hr : r ∈ s.rows) : s.zone.Covers r :=
  ZoneMap.build_covers hr

theorem zone_containsKey {s : Segment ν} {key : String} {r : Record ν}
    (hr : rowOf s.rows key = some r) : s.zone.containsKey key = true := by
  obtain ⟨hmem, rfl⟩ := rowOf_eq_some hr
  exact (zone_covers hmem).containsKey

end Segment

end Girder
