import Std.Data.ExtTreeSet
import Girder.Record

/-!
# Zone — per-segment pruning metadata

A `ZoneMap` summarises the rows of a segment: time range, key range, label values (up to a
cardinality cap) and numeric ranges.  It lives in the manifest and decides which segments a query
may skip.

A zone `Covers` a row when every summary contains it; `build_covers` shows that the zone built from
some rows covers each of them, and `mayMatch_of_covers` that a covered row matching a query keeps
its segment in play.
-/

namespace Girder

open Lib

/-- Cap on tracked distinct values per label. -/
def labelValuesCap : Nat := 64

/-- Per-segment pruning metadata. -/
structure ZoneMap (ν : Type) where
  minTs : Int64
  maxTs : Int64
  minKey : String
  maxKey : String
  /-- Distinct values per label; `none` means too many to track. -/
  labels : OrdMap String (Option (Std.ExtTreeSet String compare))
  numerics : OrdMap String (ν × ν)
  count : Nat

/-- Does `[minKey, maxKey]` overlap the keys starting with `p`? -/
def keyRangeOverlapsPrefix (minKey maxKey p : String) : Bool :=
  if maxKey < p then
    false
  else if !startsWith minKey p && decide (p < minKey) then
    -- `p` followed by `char::MAX`
    !decide (p.push (Char.ofNat 0x10FFFF) < minKey)
  else
    true

namespace ZoneMap

variable {ν : Type}

section Build

variable [Numeral ν]

def empty (count : Nat) : ZoneMap ν where
  minTs := Int64.maxValue
  maxTs := Int64.minValue
  minKey := ""
  maxKey := ""
  labels := ∅
  numerics := ∅
  count := count

/-- Track one more value of a label, giving up past the cap. -/
def addLabelValue (old : Option (Option (Std.ExtTreeSet String compare))) (v : String) :
    Option (Std.ExtTreeSet String compare) :=
  match old.getD (some ∅) with
  | none => none
  | some set =>
      let set := set.insert v
      if labelValuesCap < set.size then none else some set

/-- Widen a numeric range. -/
def addNumericValue (old : Option (ν × ν)) (v : ν) : ν × ν :=
  let entry := old.getD (v, v)
  (Numeral.fmin entry.1 v, Numeral.fmax entry.2 v)

/-- One round of the build loop: row `i` is `r`. -/
def add (zone : ZoneMap ν) (i : Nat) (r : Record ν) : ZoneMap ν where
  minTs := min zone.minTs r.timestamp
  maxTs := max zone.maxTs r.timestamp
  minKey := if i = 0 ∨ r.key < zone.minKey then r.key else zone.minKey
  maxKey := if i = 0 ∨ zone.maxKey < r.key then r.key else zone.maxKey
  labels := r.labels.toList.foldl (OrdMap.update addLabelValue) zone.labels
  numerics := r.numerics.toList.foldl (OrdMap.update addNumericValue) zone.numerics
  count := zone.count

def build (records : List (Record ν)) : ZoneMap ν :=
  records.zipIdx.foldl (fun zone ri => zone.add ri.2 ri.1) (empty records.length)

end Build

/-! ## Pruning tests -/

def timeMayMatch (zone : ZoneMap ν) (spec : QuerySpec ν) : Bool :=
  match spec.time with
  | none => true
  | some (lo, hi) => !(decide (zone.maxTs < lo) || decide (hi < zone.minTs))

/-- Could this segment hold any key under the spec's prefix? -/
def mayOverlapPrefix (zone : ZoneMap ν) (spec : QuerySpec ν) : Bool :=
  match spec.keyPrefix with
  | none => true
  | some p => keyRangeOverlapsPrefix zone.minKey zone.maxKey p

def labelsMayMatch (zone : ZoneMap ν) (spec : QuerySpec ν) : Bool :=
  spec.labels.all (fun kv =>
    match zone.labels[kv.1]? with
    | none => false
    | some (some values) => values.contains kv.2
    | some none => true)

def numericsMayMatch [Numeral ν] (zone : ZoneMap ν) (spec : QuerySpec ν) : Bool :=
  spec.numericRanges.all (fun r =>
    match zone.numerics[r.1]? with
    | none => false
    | some (lo, hi) => !(Numeral.lt hi r.2.1 || Numeral.lt r.2.2 lo))

/-- Could this segment contain a record matching `spec`? -/
def mayMatch [Numeral ν] (zone : ZoneMap ν) (spec : QuerySpec ν) : Bool :=
  zone.timeMayMatch spec && zone.mayOverlapPrefix spec && zone.labelsMayMatch spec &&
    zone.numericsMayMatch spec

/-- Do two segments' key ranges intersect? -/
def keyRangeOverlaps (zone other : ZoneMap ν) : Bool :=
  !(decide (zone.maxKey < other.minKey) || decide (other.maxKey < zone.minKey))

/-- May rows with `label` equal to `"1"` exist? -/
def mayHave (zone : ZoneMap ν) (label : String) : Bool :=
  match zone.labels[label]? with
  | some (some values) => values.contains "1"
  | some none => true
  | none => false

/-- Is `key` inside the zone's key range? -/
def containsKey (zone : ZoneMap ν) (key : String) : Bool :=
  decide (zone.minKey ≤ key) && decide (key ≤ zone.maxKey)

/-! ## Coverage -/

/-- Every summary of the zone contains the row. -/
structure Covers [Numeral ν] (zone : ZoneMap ν) (r : Record ν) : Prop where
  minTs_le : zone.minTs ≤ r.timestamp
  le_maxTs : r.timestamp ≤ zone.maxTs
  minKey_le : zone.minKey ≤ r.key
  le_maxKey : r.key ≤ zone.maxKey
  label {k v : String} : r.labels[k]? = some v →
    zone.labels[k]? = some none ∨ ∃ set, zone.labels[k]? = some (some set) ∧ v ∈ set
  numeric {n : String} {v : ν} : r.numerics[n]? = some v →
    ∃ lo hi, zone.numerics[n]? = some (lo, hi) ∧
      (∀ b, Numeral.le v b = true → Numeral.le lo b = true) ∧
      (∀ b, Numeral.le b v = true → Numeral.le b hi = true)

section Coverage

variable [Numeral ν]

/-- A label value once tracked stays tracked, or the label overflows. -/
theorem addLabelValue_mono {old : Option (Option (Std.ExtTreeSet String compare))} {v : String}
    (w : String) (h : old = some none ∨ ∃ set, old = some (some set) ∧ v ∈ set) :
    addLabelValue old w = none ∨ ∃ set, addLabelValue old w = some set ∧ v ∈ set := by
  rcases h with rfl | ⟨set, rfl, hv⟩
  · exact Or.inl rfl
  · by_cases hcap : labelValuesCap < (set.insert w).size
    · exact Or.inl (by simp [addLabelValue, hcap])
    · exact Or.inr ⟨set.insert w, by simp [addLabelValue, hcap], by simp [hv]⟩

theorem addLabelValue_self (old : Option (Option (Std.ExtTreeSet String compare))) (v : String) :
    addLabelValue old v = none ∨ ∃ set, addLabelValue old v = some set ∧ v ∈ set := by
  unfold addLabelValue
  cases old.getD (some ∅) with
  | none => exact Or.inl rfl
  | some set =>
      by_cases hcap : labelValuesCap < (set.insert v).size
      · exact Or.inl (by simp [hcap])
      · exact Or.inr ⟨set.insert v, by simp [hcap], by simp⟩

/-- A row just added is covered. -/
theorem add_covers_self [LawfulNumeral ν] (zone : ZoneMap ν) (i : Nat) (r : Record ν) :
    (zone.add i r).Covers r where
  minTs_le := min_le_right _ _
  le_maxTs := le_max_right _ _
  minKey_le := by
    show (if i = 0 ∨ r.key < zone.minKey then r.key else zone.minKey) ≤ r.key
    split
    · exact le_refl _
    · rename_i h
      exact not_lt.1 (fun hlt => h (Or.inr hlt))
  le_maxKey := by
    show r.key ≤ (if i = 0 ∨ zone.maxKey < r.key then r.key else zone.maxKey)
    split
    · exact le_refl _
    · rename_i h
      exact not_lt.1 (fun hlt => h (Or.inr hlt))
  label {k v} hk := by
    have hget := OrdMap.getElem?_foldl_toList_update addLabelValue r.labels zone.labels k
    simp only [hk] at hget
    rcases addLabelValue_self zone.labels[k]? v with hnone | ⟨set, hset, hv⟩
    · exact Or.inl (by simp [add, hget, hnone])
    · exact Or.inr ⟨set, by simp [add, hget, hset], hv⟩
  numeric {n v} hn := by
    have hget := OrdMap.getElem?_foldl_toList_update addNumericValue r.numerics zone.numerics n
    simp only [hn] at hget
    exact ⟨_, _, hget, fun b hb => LawfulNumeral.fmin_le_right _ hb,
      fun b hb => LawfulNumeral.le_fmax_right _ hb⟩

/-- Adding a later row keeps the rows covered before. -/
theorem add_covers_of_covers [LawfulNumeral ν] {zone : ZoneMap ν} {r : Record ν}
    (h : zone.Covers r) {i : Nat} (hi : i ≠ 0) (s : Record ν) : (zone.add i s).Covers r where
  minTs_le := (min_le_left _ _).trans h.minTs_le
  le_maxTs := h.le_maxTs.trans (le_max_left _ _)
  minKey_le := by
    show (if i = 0 ∨ s.key < zone.minKey then s.key else zone.minKey) ≤ r.key
    split
    · rename_i hlt
      exact (hlt.resolve_left hi).le.trans h.minKey_le
    · exact h.minKey_le
  le_maxKey := by
    show r.key ≤ (if i = 0 ∨ zone.maxKey < s.key then s.key else zone.maxKey)
    split
    · rename_i hlt
      exact h.le_maxKey.trans (hlt.resolve_left hi).le
    · exact h.le_maxKey
  label {k v} hk := by
    have hget := OrdMap.getElem?_foldl_toList_update addLabelValue s.labels zone.labels k
    cases hs : s.labels[k]? with
    | none =>
        -- The row does not carry the label, so its values stay as they are.
        simp only [hs] at hget
        simpa [add, hget] using h.label hk
    | some w =>
        simp only [hs] at hget
        rcases addLabelValue_mono w (h.label hk) with hnone | ⟨set, hset, hv⟩
        · exact Or.inl (by simp [add, hget, hnone])
        · exact Or.inr ⟨set, by simp [add, hget, hset], hv⟩
  numeric {n v} hn := by
    have hget := OrdMap.getElem?_foldl_toList_update addNumericValue s.numerics zone.numerics n
    obtain ⟨lo, hi', hz, hlo, hhi⟩ := h.numeric hn
    cases hs : s.numerics[n]? with
    | none =>
        simp only [hs] at hget
        exact ⟨lo, hi', hget.trans hz, hlo, hhi⟩
    | some w =>
        simp only [hs, hz] at hget
        exact ⟨_, _, hget, fun b hb => LawfulNumeral.fmin_le_left _ (hlo b hb),
          fun b hb => LawfulNumeral.le_fmax_left _ (hhi b hb)⟩

/-- The build loop covers the rows seen so far and the rows still to come. -/
theorem foldl_add_covers [LawfulNumeral ν] {r : Record ν} :
    ∀ (rows : List (Record ν)) (n : Nat) (zone : ZoneMap ν),
      (zone.Covers r ∧ n ≠ 0) ∨ r ∈ rows →
      ((rows.zipIdx n).foldl (fun zone ri => zone.add ri.2 ri.1) zone).Covers r := by
  intro rows
  induction rows with
  | nil =>
      intro n zone h
      rcases h with ⟨hc, -⟩ | hmem
      · exact hc
      · simp at hmem
  | cons s rows ih =>
      intro n zone h
      simp only [List.zipIdx_cons, List.foldl_cons]
      refine ih (n + 1) _ ?_
      rcases h with ⟨hc, hn⟩ | hmem
      · exact Or.inl ⟨add_covers_of_covers hc hn s, by simp⟩
      · rcases List.mem_cons.1 hmem with rfl | hin
        · exact Or.inl ⟨add_covers_self zone n r, by simp⟩
        · exact Or.inr hin

/-- The zone built from some rows covers each of them. -/
theorem build_covers [LawfulNumeral ν] {records : List (Record ν)} {r : Record ν}
    (h : r ∈ records) : (build records).Covers r :=
  foldl_add_covers records 0 _ (Or.inr h)

/-- The build loop keeps the lowest timestamp it starts with or takes over that of a row. -/
theorem foldl_add_minTs (rows : List (Record ν × Nat)) (zone : ZoneMap ν) :
    (rows.foldl (fun zone ri => zone.add ri.2 ri.1) zone).minTs = zone.minTs ∨
      ∃ ri ∈ rows, (rows.foldl (fun zone ri => zone.add ri.2 ri.1) zone).minTs = ri.1.timestamp := by
  induction rows generalizing zone with
  | nil => exact Or.inl rfl
  | cons ri rows ih =>
      rw [List.foldl_cons]
      rcases ih (zone.add ri.2 ri.1) with h | ⟨rj, hrj, h⟩
      · have hadd : (zone.add ri.2 ri.1).minTs = min zone.minTs ri.1.timestamp := rfl
        rw [h, hadd]
        rcases min_choice zone.minTs ri.1.timestamp with hmin | hmin
        · exact Or.inl hmin
        · exact Or.inr ⟨ri, List.mem_cons_self, hmin⟩
      · exact Or.inr ⟨rj, List.mem_cons_of_mem _ hrj, h⟩

/-- The lowest timestamp of a zone is that of one of its rows. -/
theorem exists_timestamp_eq_minTs {records : List (Record ν)} (h : records ≠ []) :
    ∃ r ∈ records, r.timestamp = (build records).minTs := by
  obtain ⟨first, rest, rfl⟩ := List.exists_cons_of_ne_nil h
  have hstart : ((empty (first :: rest).length).add 0 first).minTs = first.timestamp :=
    min_eq_right (Int64.le_maxValue _)
  have hbuild : build (first :: rest) = (rest.zipIdx 1).foldl (fun zone ri => zone.add ri.2 ri.1)
      ((empty (first :: rest).length).add 0 first) := rfl
  rw [hbuild]
  rcases foldl_add_minTs (rest.zipIdx 1) ((empty (first :: rest).length).add 0 first) with
    hmin | ⟨ri, hri, hmin⟩
  · exact ⟨first, List.mem_cons_self, (hmin.trans hstart).symm⟩
  · exact ⟨ri.1, List.mem_cons_of_mem _ (List.fst_mem_of_mem_zipIdx hri), hmin.symm⟩

theorem foldl_add_count (rows : List (Record ν × Nat)) (zone : ZoneMap ν) :
    (rows.foldl (fun zone ri => zone.add ri.2 ri.1) zone).count = zone.count := by
  induction rows generalizing zone with
  | nil => rfl
  | cons ri rows ih => simpa [add] using ih (zone.add ri.2 ri.1)

@[simp]
theorem build_count (records : List (Record ν)) : (build records).count = records.length := by
  simp [build, foldl_add_count, empty]

end Coverage

/-! ## Soundness of pruning -/

theorem keyRangeOverlapsPrefix_of_mem {minKey maxKey p key : String} (hlo : minKey ≤ key)
    (hhi : key ≤ maxKey) (hp : startsWith key p = true) :
    keyRangeOverlapsPrefix minKey maxKey p = true := by
  have hpk : p ≤ key := le_of_startsWith hp
  have hmax : ¬ maxKey < p := not_lt.2 (hpk.trans hhi)
  unfold keyRangeOverlapsPrefix
  cases hs : startsWith minKey p with
  | true => simp [hmax]
  | false =>
      -- A bound beyond the prefix and outside its extensions would exceed `key`.
      have hle : ¬ p < minKey := fun hlt =>
        not_lt.2 hlo (lt_of_startsWith_of_lt hp hlt hs)
      simp [hmax, hle]

theorem mayOverlapPrefix_of_range {zone : ZoneMap ν} {key : String}
    (h : zone.containsKey key = true) {spec : QuerySpec ν} (hp : spec.prefixOk key = true) :
    zone.mayOverlapPrefix spec = true := by
  simp only [containsKey, Bool.and_eq_true, decide_eq_true_eq] at h
  unfold mayOverlapPrefix
  unfold QuerySpec.prefixOk at hp
  cases hk : spec.keyPrefix with
  | none => rfl
  | some p =>
      simp only [hk] at hp
      exact keyRangeOverlapsPrefix_of_mem h.1 h.2 hp

/-- Ranges that share a key overlap. -/
theorem keyRangeOverlaps_of_mem {a b : ZoneMap ν} {key : String}
    (ha : a.containsKey key = true) (hb : b.containsKey key = true) :
    a.keyRangeOverlaps b = true := by
  simp only [containsKey, Bool.and_eq_true, decide_eq_true_eq] at ha hb
  have hab : ¬ a.maxKey < b.minKey := not_lt.2 (hb.1.trans ha.2)
  have hba : ¬ b.maxKey < a.minKey := not_lt.2 (ha.1.trans hb.2)
  simp only [keyRangeOverlaps, decide_eq_false hab, decide_eq_false hba, Bool.or_false,
    Bool.not_false]

variable [Numeral ν]

theorem Covers.containsKey {zone : ZoneMap ν} {r : Record ν} (h : zone.Covers r) :
    zone.containsKey r.key = true := by
  simp [ZoneMap.containsKey, h.minKey_le, h.le_maxKey]

theorem Covers.mayHave {zone : ZoneMap ν} {r : Record ν} (h : zone.Covers r) {label : String}
    (hl : r.labels[label]? = some "1") : zone.mayHave label = true := by
  unfold ZoneMap.mayHave
  rcases h.label hl with hnone | ⟨set, hset, hmem⟩
  · simp [hnone]
  · simpa [hset] using hmem

/-- A covered row that matches keeps its segment in play. -/
theorem mayMatch_of_covers [LawfulNumeral ν] {zone : ZoneMap ν} {r : Record ν} (h : zone.Covers r)
    {spec : QuerySpec ν} (hm : spec.matchesFields r = true) : zone.mayMatch spec = true := by
  simp only [QuerySpec.matchesFields, Bool.and_eq_true] at hm
  obtain ⟨⟨⟨htime, hpre⟩, hlabels⟩, hnums⟩ := hm
  simp only [mayMatch, Bool.and_eq_true]
  refine ⟨⟨⟨?_, mayOverlapPrefix_of_range h.containsKey hpre⟩, ?_⟩, ?_⟩
  · unfold timeMayMatch
    unfold QuerySpec.timeOk at htime
    cases ht : spec.time with
    | none => rfl
    | some range =>
        obtain ⟨lo, hi⟩ := range
        simp only [ht, Bool.not_eq_true', Bool.or_eq_false_iff, decide_eq_false_iff_not,
          not_lt] at htime ⊢
        exact ⟨htime.1.trans h.le_maxTs, h.minTs_le.trans htime.2⟩
  · -- A label value the row has is in the zone's set, unless the set has overflowed.
    unfold labelsMayMatch
    unfold QuerySpec.labelsOk at hlabels
    rw [List.all_eq_true] at hlabels ⊢
    intro kv hkv
    have hrow : r.labels[kv.1]? = some kv.2 := by simpa using hlabels kv hkv
    rcases h.label hrow with hnone | ⟨set, hset, hmem⟩
    · simp [hnone]
    · simpa [hset] using hmem
  · unfold numericsMayMatch
    unfold QuerySpec.numericsOk at hnums
    rw [List.all_eq_true] at hnums ⊢
    intro range hrange
    have hrow := hnums range hrange
    cases hv : r.numerics[range.1]? with
    | none => simp [hv] at hrow
    | some v =>
        simp only [hv, Bool.and_eq_true] at hrow
        obtain ⟨lo, hi, hz, hlo, hhi⟩ := h.numeric hv
        have h1 := LawfulNumeral.not_lt_of_le (hhi _ hrow.1)
        have h2 := LawfulNumeral.not_lt_of_le (hlo _ hrow.2)
        simp [hz, h1, h2]

end ZoneMap

end Girder
