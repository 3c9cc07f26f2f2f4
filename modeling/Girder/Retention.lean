import Mathlib.Data.Prod.Lex
import Girder.Engine

/-!
# Retention — per-prefix time-to-live

A policy is a list of `(prefix, ttl)` rows; the longest matching prefix governs a key and a key
without a row is kept forever.  Compaction and the groomer judge records through the same policy.

The groomer also judges whole segments from their key and time ranges: `expired_of_zone` shows that
a segment its zone calls fully expired holds only expired records, and `exists_expired_of_zone` that
one it calls partially expired holds some.
-/

namespace Girder

open Lib

/-- Compiled retention rows, longest prefix first. -/
structure RetentionPolicy where
  rows : List (String × Int64)

namespace RetentionPolicy

/-- Compile the configured rows and the global knob; the last row of a prefix wins, and negative
times clamp to zero. -/
def compile (rows : List (String × Int64)) (global : Option Int64) : RetentionPolicy :=
  let start : OrdMap String Int64 :=
    match global with
    | some ttl => (∅ : OrdMap String Int64).insert "" (max ttl 0)
    | none => ∅
  let map := rows.foldl (fun map row => map.insert row.1 (max row.2 0)) start
  { rows := sortAsc (fun row => toLex (OrderDual.toDual row.1.utf8ByteSize, row.1)) map.toList }

def isEmpty (p : RetentionPolicy) : Bool := p.rows.isEmpty

/-- The time-to-live governing `key`. -/
def ttlForKey (p : RetentionPolicy) (key : String) : Option Int64 :=
  (p.rows.find? (fun row => startsWith key row.1)).map Prod.snd

/-- A record of `key` with a timestamp below the cutoff is expired. -/
def cutoffForKey (p : RetentionPolicy) (key : String) (now : Int64) : Option Int64 :=
  (p.ttlForKey key).map (fun ttl => satSub now ttl)

/-- Does one row cover both ends of a key range? -/
def coversRange (p : RetentionPolicy) (minKey maxKey : String) : Bool :=
  p.rows.any (fun row => startsWith minKey row.1 && startsWith maxKey row.1)

/-- Do the keys starting with `pre` intersect `[minKey, maxKey]`? -/
def prefixIntersectsRange (pre minKey maxKey : String) : Bool :=
  decide (pre ≤ maxKey) && (startsWith minKey pre || decide (minKey ≤ pre))

/-- The largest time-to-live of a row that could govern a key of the range. -/
def maxTtlInRange (p : RetentionPolicy) (minKey maxKey : String) : Option Int64 :=
  ((p.rows.filter (fun row => prefixIntersectsRange row.1 minKey maxKey)).map Prod.snd).max?

/-- Is a record kept at `now`? -/
def keeps {ν : Type} (p : RetentionPolicy) (now : Int64) (r : Record ν) : Bool :=
  match p.cutoffForKey r.key now with
  | some cutoff => decide (cutoff ≤ r.timestamp)
  | none => true

end RetentionPolicy

/-- The compiled policy of an engine. -/
def Config.retentionPolicy (config : Config) : RetentionPolicy :=
  RetentionPolicy.compile config.retention config.retentionNanos

namespace RetentionPolicy

/-! ## Saturating subtraction -/

theorem toInt_satSub (a b : Int64) :
    (satSub a b).toInt =
      max Int64.minValue.toInt (min Int64.maxValue.toInt (a.toInt - b.toInt)) := by
  have hmin : Int64.minValue.toInt = -2 ^ 63 := by decide
  have hmax : Int64.maxValue.toInt = 2 ^ 63 - 1 := by decide
  unfold satSub
  simp only
  split
  · rename_i h
    omega
  · split
    · rename_i h1 h2
      omega
    · rename_i h1 h2
      rw [Int64.toInt_ofInt_of_le (by omega) (by omega)]
      omega

/-- A longer time-to-live gives an earlier cutoff. -/
theorem satSub_le_satSub (now : Int64) {a b : Int64} (h : a ≤ b) : satSub now b ≤ satSub now a := by
  have hint : a.toInt ≤ b.toInt := Int64.le_iff_toInt_le.1 h
  rw [Int64.le_iff_toInt_le, toInt_satSub, toInt_satSub]
  omega

/-! ## Segment-level judgement -/

/-- The keys between two keys that share a prefix share it. -/
theorem startsWith_of_range {pre minKey maxKey key : String} (hmin : startsWith minKey pre = true)
    (hmax : startsWith maxKey pre = true) (hlo : minKey ≤ key) (hhi : key ≤ maxKey) :
    startsWith key pre = true := by
  by_contra hnot
  have hfalse : startsWith key pre = false := by simpa using hnot
  have hle : pre ≤ key := (le_of_startsWith hmin).trans hlo
  rcases lt_or_eq_of_le hle with hlt | heq
  · exact absurd (lt_of_startsWith_of_lt hmax hlt hfalse) (not_lt.2 hhi)
  · rw [← heq, startsWith_self] at hfalse
    exact absurd hfalse (by simp)

/-- A row that governs a key of the range intersects it. -/
theorem prefixIntersectsRange_of_governs {pre minKey maxKey key : String}
    (hkey : startsWith key pre = true) (hlo : minKey ≤ key) (hhi : key ≤ maxKey) :
    prefixIntersectsRange pre minKey maxKey = true := by
  have hle : pre ≤ maxKey := (le_of_startsWith hkey).trans hhi
  unfold prefixIntersectsRange
  rw [decide_eq_true hle, Bool.true_and, Bool.or_eq_true, decide_eq_true_eq]
  by_contra hnot
  rw [not_or, Bool.not_eq_true, not_le] at hnot
  exact absurd (lt_of_startsWith_of_lt hkey hnot.2 hnot.1) (not_lt.2 hlo)

/-- In a covered range every key has a row, and its time-to-live is at most the largest one. -/
theorem ttlForKey_le {p : RetentionPolicy} {minKey maxKey key : String}
    (hcov : p.coversRange minKey maxKey = true) (hlo : minKey ≤ key) (hhi : key ≤ maxKey)
    {maxTtl : Int64} (hmax : p.maxTtlInRange minKey maxKey = some maxTtl) :
    ∃ ttl, p.ttlForKey key = some ttl ∧ ttl ≤ maxTtl := by
  simp only [coversRange, List.any_eq_true, Bool.and_eq_true] at hcov
  obtain ⟨row, hrow, hmin, hmaxk⟩ := hcov
  have hstarts := startsWith_of_range hmin hmaxk hlo hhi
  cases hfind : p.rows.find? (fun row => startsWith key row.1) with
  | none =>
      have hnone := List.find?_eq_none.1 hfind row hrow
      simp [hstarts] at hnone
  | some found =>
      have hgov : startsWith key found.1 = true := by simpa using List.find?_some hfind
      have hmem : found.2 ∈ (p.rows.filter
          (fun row => prefixIntersectsRange row.1 minKey maxKey)).map Prod.snd := by
        apply List.mem_map_of_mem
        exact List.mem_filter.2 ⟨List.mem_of_find?_eq_some hfind,
          prefixIntersectsRange_of_governs hgov hlo hhi⟩
      refine ⟨found.2, by simp [ttlForKey, hfind], ?_⟩
      exact (List.max?_eq_some_iff.1 hmax).2 found.2 hmem

/-- A segment whose zone is past the largest time-to-live of its range holds only expired rows. -/
theorem expired_of_zone {ν : Type} [Numeral ν] [LawfulNumeral ν] {p : RetentionPolicy}
    {s : Segment ν} {now maxTtl : Int64}
    (hcov : p.coversRange s.zone.minKey s.zone.maxKey = true)
    (hmax : p.maxTtlInRange s.zone.minKey s.zone.maxKey = some maxTtl)
    (hts : s.zone.maxTs < satSub now maxTtl) {r : Record ν} (hr : r ∈ s.rows) :
    p.keeps now r = false := by
  have hz := Segment.zone_covers hr
  obtain ⟨ttl, httl, hle⟩ := ttlForKey_le hcov hz.minKey_le hz.le_maxKey hmax
  have hlt : r.timestamp < satSub now ttl :=
    calc r.timestamp ≤ s.zone.maxTs := hz.le_maxTs
      _ < satSub now maxTtl := hts
      _ ≤ satSub now ttl := satSub_le_satSub now hle
  simp [keeps, cutoffForKey, httl, hlt]

/-- The longest prefix among the rows that match a key. -/
structure Governs (p : RetentionPolicy) (key : String) (row : String × Int64) : Prop where
  mem : row ∈ p.rows
  «matches» : startsWith key row.1 = true
  longest : ∀ other ∈ p.rows, startsWith key other.1 = true →
    other.1.utf8ByteSize ≤ row.1.utf8ByteSize

/-- `r` is older than the cutoff of the row that governs its key. -/
def Expired {ν : Type} (p : RetentionPolicy) (now : Int64) (r : Record ν) : Prop :=
  ∃ row, p.Governs r.key row ∧ p.cutoffForKey r.key now = some (satSub now row.2) ∧
    r.timestamp < satSub now row.2

/-- The compiled rows stand longest prefix first. -/
theorem compile_pairwise (rows : List (String × Int64)) (global : Option Int64) :
    (compile rows global).rows.Pairwise (fun a b => b.1.utf8ByteSize ≤ a.1.utf8ByteSize) := by
  have hsorted : (compile rows global).rows.Pairwise (fun a b =>
      toLex (OrderDual.toDual a.1.utf8ByteSize, a.1) ≤
        toLex (OrderDual.toDual b.1.utf8ByteSize, b.1)) := sortAsc_pairwise _ _
  refine hsorted.imp (fun {a b} hle => ?_)
  rcases Prod.Lex.toLex_le_toLex.1 hle with hlt | ⟨heq, -⟩
  · exact OrderDual.toDual_le_toDual.1 hlt.le
  · exact (OrderDual.toDual_inj.1 heq).ge

/-- The first row that matches is the longest one. -/
theorem governs_of_find? {rows : List (String × Int64)} {global : Option Int64} {key : String}
    {row : String × Int64}
    (h : (compile rows global).rows.find? (fun row => startsWith key row.1) = some row) :
    (compile rows global).Governs key row := by
  obtain ⟨hmatch, before, after, hsplit, hbefore⟩ := List.find?_eq_some_iff_append.1 h
  refine ⟨List.mem_of_find?_eq_some h, hmatch, ?_⟩
  intro other hother hstarts
  have hpair := compile_pairwise rows global
  rw [hsplit] at hother hpair
  rcases List.mem_append.1 hother with hin | hin
  · exact absurd (hbefore other hin) (by simp [hstarts])
  · rcases List.mem_cons.1 hin with rfl | hafter
    · exact le_rfl
    · exact (List.pairwise_cons.1 (List.pairwise_append.1 hpair).2.1).1 other hafter

/-- The records the compiled policy gives up are the expired ones. -/
theorem keeps_eq_false_iff {ν : Type} {rows : List (String × Int64)} {global : Option Int64}
    {now : Int64} {r : Record ν} :
    (compile rows global).keeps now r = false ↔ (compile rows global).Expired now r := by
  constructor
  · intro hkeeps
    cases hfind : (compile rows global).rows.find? (fun row => startsWith r.key row.1) with
    | none => simp [keeps, cutoffForKey, ttlForKey, hfind] at hkeeps
    | some row =>
        have hcut : (compile rows global).cutoffForKey r.key now = some (satSub now row.2) := by
          simp [cutoffForKey, ttlForKey, hfind]
        refine ⟨row, governs_of_find? hfind, hcut, ?_⟩
        rw [keeps, hcut] at hkeeps
        exact not_le.1 (of_decide_eq_false hkeeps)
  · rintro ⟨row, -, hcut, hlt⟩
    simp [keeps, hcut, hlt]

/-- A covered range has a largest time-to-live: the covering row intersects it. -/
theorem exists_maxTtlInRange {p : RetentionPolicy} {minKey maxKey : String}
    (hcov : p.coversRange minKey maxKey = true) :
    ∃ maxTtl, p.maxTtlInRange minKey maxKey = some maxTtl := by
  simp only [coversRange, List.any_eq_true, Bool.and_eq_true] at hcov
  obtain ⟨row, hrow, hmin, hmax⟩ := hcov
  have hmeets : prefixIntersectsRange row.1 minKey maxKey = true := by
    simp [prefixIntersectsRange, le_of_startsWith hmax, hmin]
  have hmem : row ∈ p.rows.filter (fun row => prefixIntersectsRange row.1 minKey maxKey) :=
    List.mem_filter.2 ⟨hrow, hmeets⟩
  exact Option.isSome_iff_exists.1 (List.isSome_max?_of_mem (List.mem_map_of_mem hmem))

/-- A segment whose oldest record is past the largest time-to-live of its range holds an expired
row. -/
theorem exists_expired_of_zone {ν : Type} [Numeral ν] [LawfulNumeral ν] {p : RetentionPolicy}
    {s : Segment ν} {now maxTtl : Int64} (hne : s.rows ≠ [])
    (hcov : p.coversRange s.zone.minKey s.zone.maxKey = true)
    (hmax : p.maxTtlInRange s.zone.minKey s.zone.maxKey = some maxTtl)
    (hts : s.zone.minTs < satSub now maxTtl) :
    ∃ r ∈ s.rows, p.keeps now r = false := by
  obtain ⟨r, hr, holdest⟩ := ZoneMap.exists_timestamp_eq_minTs hne
  have hz := Segment.zone_covers hr
  obtain ⟨ttl, httl, hle⟩ := ttlForKey_le hcov hz.minKey_le hz.le_maxKey hmax
  have hlt : r.timestamp < satSub now ttl :=
    calc r.timestamp = s.zone.minTs := holdest
      _ < satSub now maxTtl := hts
      _ ≤ satSub now ttl := satSub_le_satSub now hle
  exact ⟨r, hr, by simp [keeps, cutoffForKey, httl, hlt]⟩

/-- Without rows nothing expires. -/
theorem keeps_of_isEmpty {ν : Type} {p : RetentionPolicy} (h : p.isEmpty = true) (now : Int64)
    (r : Record ν) : p.keeps now r = true := by
  have hrows : p.rows = [] := by simpa [isEmpty] using h
  simp [keeps, cutoffForKey, ttlForKey, hrows]

end RetentionPolicy

end Girder
