import Girder.Segment

/-!
# Merge — folding rows into a key map, oldest first

Log replay, compaction and the groomer's rewrite all fold rows the same way: an increment is laid on
what the map already holds for its key, anything else replaces it.  `mergeRows` is that loop.

Seen through one key it is `Layering.replay` of the rows of that key (`getElem?_mergeRows`), so what
a source holds for a key is the layered value of the versions it was built from.
-/

namespace Girder

open Lib

variable {ν : Type} [Numeral ν]

/-- One row of the loop. -/
def mergeRow (merged : OrdMap String (Record ν)) (record : Record ν) : OrdMap String (Record ν) :=
  if record.isDelta then
    merged.insert record.key (mergeDelta merged[record.key]? record)
  else
    merged.insert record.key record

/-- Fold rows into a key map, oldest first. -/
def mergeRows (rows : List (Record ν)) : OrdMap String (Record ν) :=
  rows.foldl mergeRow ∅

theorem mergeDelta_eq_layerOpt {base : Option (Record ν)} {d : Record ν} (hd : d.isDelta = true) :
    mergeDelta base d = (recordLayers ν).layerOpt base d := by
  cases base with
  | none => rfl
  | some b => exact ((recordLayers ν).layer_of_isPartial hd).symm

theorem layerOpt_of_full {base : Option (Record ν)} {r : Record ν} (hr : r.isDelta = false) :
    (recordLayers ν).layerOpt base r = r := by
  cases base with
  | none => rfl
  | some b => exact (recordLayers ν).layer_of_full hr

/-- A row is laid on what the map holds for its key, and touches no other key. -/
theorem getElem?_mergeRow (merged : OrdMap String (Record ν)) (r : Record ν) (key : String) :
    (mergeRow merged r)[key]? =
      if r.key = key then some ((recordLayers ν).layerOpt merged[key]? r) else merged[key]? := by
  unfold mergeRow
  by_cases hkey : r.key = key
  · subst hkey
    cases hd : r.isDelta with
    | true => simp [mergeDelta_eq_layerOpt hd]
    | false => simp [layerOpt_of_full hd]
  · cases hd : r.isDelta with
    | true => simp [Std.ExtTreeMap.getElem?_insert, hkey]
    | false => simp [Std.ExtTreeMap.getElem?_insert, hkey]

theorem getElem?_foldl_mergeRow (key : String) :
    ∀ (rows : List (Record ν)) (merged : OrdMap String (Record ν)),
      (rows.foldl mergeRow merged)[key]? =
        (rows.filter (fun r => decide (r.key = key))).foldl
          (fun acc r => some ((recordLayers ν).layerOpt acc r)) merged[key]? := by
  intro rows
  induction rows with
  | nil => exact fun _ => rfl
  | cons r rows ih =>
      intro merged
      rw [List.foldl_cons, ih, getElem?_mergeRow]
      by_cases hkey : r.key = key
      · simp [hkey]
      · simp [hkey]

/-- Through one key the loop is a replay of the rows of that key. -/
theorem getElem?_mergeRows (rows : List (Record ν)) (key : String) :
    (mergeRows rows)[key]? =
      (recordLayers ν).replay (rows.filter (fun r => decide (r.key = key))) := by
  simp [mergeRows, getElem?_foldl_mergeRow, Layering.replay]

/-- A round files a record under its own key. -/
theorem keyed_mergeRow {merged : OrdMap String (Record ν)} (h : Keyed merged) (r : Record ν) :
    Keyed (mergeRow merged r) := by
  intro k s hs
  rw [getElem?_mergeRow] at hs
  by_cases hkey : r.key = k
  · rw [if_pos hkey, Option.some.injEq] at hs
    subst hs
    cases hbase : merged[k]? with
    | none => exact hkey
    | some b =>
        have hb : b.key = r.key := (h k b hbase).trans hkey.symm
        cases hd : r.isDelta with
        | true =>
            rw [← mergeDelta_eq_layerOpt hd]
            exact (mergeDelta_key hb).trans hkey
        | false =>
            rw [layerOpt_of_full hd]
            exact hkey
  · rw [if_neg hkey] at hs
    exact h k s hs

theorem keyed_mergeRows (rows : List (Record ν)) : Keyed (mergeRows rows) := by
  -- The invariant of the loop is `Keyed` itself.
  apply List.foldlRecOn (motive := Keyed) rows mergeRow
  · exact keyed_empty
  · exact fun merged h r _ => keyed_mergeRow h r

/-- Rows of one segment merge to themselves. -/
theorem rowsOf_mergeRows_of_sorted {rows : List (Record ν)}
    (h : rows.Pairwise (fun a b => a.key < b.key)) : rowsOf (mergeRows rows) = rows := by
  refine eq_of_rowOf_eq (keyed_mergeRows rows).rowsOf_sorted h (fun key => ?_)
  rw [rowOf_rowsOf (keyed_mergeRows rows), getElem?_mergeRows, filter_key_eq h]
  cases rowOf rows key <;> rfl

end Girder
