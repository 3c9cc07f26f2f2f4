import Girder.Compact
import Girder.Footprint
import Girder.Lib.Runs

/-!
# Converge — does compaction come to an end?

A pass rewrites a run of at least two mergeable segments.  If at most one of its outputs is mergeable
again, the store has fewer mergeable segments than before, and a store that is not written to is left
alone after finitely many passes.

Outputs are cut by an estimate of their length and sealed by their real one.  A slice of rows that the
record cap ends is sealed; a slice that the estimate ends is sealed only if its file turns out long
enough.  `compaction_converges` is what follows for all passes whose rows, cut into slices, leave one
unsealed at most (`OneUnsealed`); rows estimated at no more than twice their length do
(`oneUnsealed_of_le_two_mul`).

The condition can fail: the estimate counts more for a row than its file takes, and a chunk of many
tiny rows in front of a wide one is closed long before its file is half as long as the cap.  The store
of `compaction_never_rests` is compacted in every pass, each time into the segments it already has.
-/

namespace Girder

open Lib

/-! ## One pass -/

def Config.RetentionOff (config : Config) : Prop :=
  config.retentionNanos = none ∧ config.retention = []

section Pass

variable {ν : Type} [Numeral ν]

/-- Without retention a pass rewrites two segments at least. -/
theorem two_le_of_chooseRun {config : Config} (hoff : config.RetentionOff)
    {segments run : List (Segment ν)} (h : chooseRun config segments = some run) :
    2 ≤ run.length := by
  have hmin := (chooseRun_infix_window h).2
  have heffective : config.effectiveMin = max config.minSeg 2 := by
    simp [Config.effectiveMin, hoff.1, hoff.2]
  rw [heffective] at hmin
  omega

/-- The chosen run is mergeable, and found in the manifest segment by segment. -/
theorem sublist_of_chooseRun {config : Config} {segments run : List (Segment ν)}
    (h : chooseRun config segments = some run) :
    run.Sublist (sortAsc Segment.id segments) ∧ ∀ m ∈ run, mergeable config m = true := by
  obtain ⟨⟨w, hw, hin⟩, -⟩ := chooseRun_infix_window h
  obtain ⟨hwin, hall⟩ := mem_windows hw
  exact ⟨(hin.trans hwin).sublist, fun m hm => hall m (hin.subset hm)⟩

variable [SegmentFile ν]

omit [Numeral ν] in
/-- Below both seals once it is written. -/
def unsealed (config : Config) (rows : List (Record ν)) : Bool :=
  decide (rows.length < config.cap) && decide (SegmentFile.fileBytes rows < config.byteSeal)

/-- An output is mergeable when its chunk is below both seals. -/
theorem map_mergeable_writeOutputs (config : Config) (reuseIds : List Nat) (idBase : Nat)
    (created : Int64) :
    ∀ (chunks : List (List (Record ν))) (ci next : Nat),
      (writeOutputs reuseIds idBase created ci next chunks).1.map (mergeable config) =
        chunks.map (unsealed config) := by
  intro chunks
  induction chunks with
  | nil => exact fun _ _ => rfl
  | cons chunk chunks ih =>
      intro ci next
      rw [writeOutputs, List.map_cons, List.map_cons, ih]
      simp [mergeable, unsealed, Segment.zone, ZoneMap.build_count]

namespace Engine

/-- The mergeable segments of a store. -/
def mergeableCount (e : Engine ν) : Nat := e.manifest.segments.countP (mergeable e.config)

/-- Cut into slices of as many rows as both caps allow, the rows have one slice at most that is below
both seals. -/
def OneUnsealed (config : Config) (rows : List (Record ν)) : Prop :=
  ∀ slices, MaximalCut recordBytes config.cap config.maxSegmentBytes rows slices →
    slices.countP (unsealed config) ≤ 1

variable {e : Engine ν} {run : List (Segment ν)} {now : Int64}

/-- The slices are what the pass writes. -/
theorem oneUnsealed_iff :
    OneUnsealed e.config (e.keptOf run none now) ↔
      (e.outputs run none now).countP (mergeable e.config) ≤ 1 := by
  have hchunks : outputChunks e.config now none (runRows run) =
      greedyChunks recordBytes e.config.cap e.config.maxSegmentBytes (e.keptOf run none now) := by
    rw [outputChunks, keptRows_run]
    rfl
  have hmap : (e.outputs run none now).map (mergeable e.config) =
      (outputChunks e.config now none (runRows run)).map (unsealed e.config) :=
    map_mergeable_writeOutputs e.config _ _ _ _ 0 _
  have hcount : (e.outputs run none now).countP (mergeable e.config) =
      (outputChunks e.config now none (runRows run)).countP (unsealed e.config) := by
    have hid := congrArg (List.countP id) hmap
    rwa [List.countP_map, List.countP_map] at hid
  rw [hcount, hchunks]
  constructor
  · exact fun h => h _ (maximalCut_greedyChunks _)
  · intro h slices hcut
    rwa [hcut.eq_greedyChunks]

omit [Numeral ν] in
/-- One slice at most is unsealed where every run of rows that the estimate ends, the row after it
breaking the byte cap, fills a file of half that cap. -/
theorem oneUnsealed_of_ended {config : Config} {kept : List (Record ν)}
    (h : ∀ rows r, rows ≠ [] → rows ++ [r] <:+: kept → rows.length < config.cap →
      config.maxSegmentBytes < (rows.map recordBytes).sum + recordBytes r →
        config.byteSeal ≤ SegmentFile.fileBytes rows) :
    OneUnsealed config kept := by
  intro slices hcut
  -- Every slice but the last is ended by one of the caps.
  have hsealed : ∀ s ∈ slices.dropLast, unsealed config s = false := by
    intro s hs
    have hne := (hcut.fits (List.mem_of_mem_dropLast hs)).1
    rw [hcut.eq_greedyChunks] at hs
    obtain ⟨r, hin, hended⟩ := closed_of_mem_dropLast hs
    rw [unsealed, Bool.and_eq_false_iff, decide_eq_false_iff_not, decide_eq_false_iff_not, not_lt,
      not_lt, or_iff_not_imp_left, not_le]
    intro hcap
    rcases hended with hfull | hover
    · exact absurd hcap (not_lt.2 hfull)
    · exact h s r hne hin hcap hover
  rcases List.eq_nil_or_concat slices with hnil | ⟨front, last, hlast⟩
  · rw [hnil]
    exact Nat.zero_le 1
  · rw [hlast, List.concat_eq_append, List.dropLast_concat] at hsealed
    have hfront : front.countP (unsealed config) = 0 :=
      List.countP_eq_zero.2 (fun s hs => by simp [hsealed s hs])
    rw [hlast, List.concat_eq_append, List.countP_append, hfront, Nat.zero_add]
    exact List.countP_le_length

omit [Numeral ν] in
/-- So it is with rows whose estimate, the row after them included, is at most twice the length of
their file. -/
theorem oneUnsealed_of_le_two_mul {config : Config} {kept : List (Record ν)}
    (h : ∀ rows r, rows ≠ [] → rows ++ [r] <:+: kept →
      (rows.map recordBytes).sum + recordBytes r ≤ 2 * SegmentFile.fileBytes rows) :
    OneUnsealed config kept := by
  refine oneUnsealed_of_ended (fun rows r hne hin _ hover => ?_)
  -- The estimate with the next row exceeds the cap, so twice the length does.
  have hclose := h rows r hne hin
  have hrow : 32 ≤ recordBytes r := Nat.le_add_left 32 _
  rw [Config.byteSeal]
  omega

/-- A rewrite takes the run's segments out and puts its outputs in. -/
theorem mergeableCount_rewritten
    (hchoose : chooseRun e.config e.manifest.segments = some run) (now : Int64) :
    (e.rewritten run none now).mergeableCount + run.length ≤
      e.mergeableCount + (e.outputs run none now).countP (mergeable e.config) := by
  obtain ⟨hsub, hall⟩ := sublist_of_chooseRun hchoose
  -- The run is among the mergeable segments that go.
  have hrun : run.length ≤ e.manifest.segments.countP (fun s =>
      mergeable e.config s && (run.map Segment.id).contains s.id) := by
    have hself : run.filter (fun s =>
        mergeable e.config s && (run.map Segment.id).contains s.id) = run := by
      refine List.filter_eq_self.2 (fun s hs => ?_)
      have hid : s.id ∈ run.map Segment.id := List.mem_map_of_mem hs
      simp [hall s hs, hid]
    calc run.length
        = (run.filter (fun s =>
            mergeable e.config s && (run.map Segment.id).contains s.id)).length := by rw [hself]
      _ ≤ ((sortAsc Segment.id e.manifest.segments).filter (fun s =>
            mergeable e.config s && (run.map Segment.id).contains s.id)).length :=
          (hsub.filter _).length_le
      _ = e.manifest.segments.countP (fun s =>
            mergeable e.config s && (run.map Segment.id).contains s.id) := by
          rw [← List.countP_eq_length_filter]
          exact (sortAsc_perm Segment.id e.manifest.segments).countP_eq _
  -- Before: those that go and those that stay.  After: those that stay and the outputs.
  have hsplit : e.mergeableCount =
      e.manifest.segments.countP (fun s =>
        mergeable e.config s && (run.map Segment.id).contains s.id) +
      (e.outside run).countP (mergeable e.config) := by
    rw [mergeableCount, outside, List.countP_eq_countP_filter_add _ _
      (fun s : Segment ν => (run.map Segment.id).contains s.id), List.countP_filter]
  have hafter : (e.rewritten run none now).mergeableCount =
      (e.outside run).countP (mergeable e.config) +
        (e.outputs run none now).countP (mergeable e.config) :=
    List.countP_append
  omega

/-- One pass, whatever it finds. -/
def afterPass (e : Engine ν) (now : Int64) : Engine ν :=
  match e.compact now with
  | .ok p => p.1
  | .error _ => e

theorem afterPass_none (h : chooseRun e.config e.manifest.segments = none) (now : Int64) :
    e.afterPass now = e := by
  rw [afterPass, compact, h]

theorem afterPass_some (h : chooseRun e.config e.manifest.segments = some run) (now : Int64) :
    e.afterPass now = e.rewritten run none now := by
  rw [afterPass, compact, h]
  simp only [compactRun_chosen (sublist_of_chooseRun h).2 now]
  rfl

/-- The store after some passes, each at its time. -/
def afterPasses (e : Engine ν) (nows : Nat → Int64) : Nat → Engine ν :=
  process (fun n e => e.afterPass (nows n)) e

theorem config_afterPass (e : Engine ν) (now : Int64) : (e.afterPass now).config = e.config := by
  cases hchoose : chooseRun e.config e.manifest.segments with
  | none => rw [afterPass_none hchoose]
  | some run =>
      rw [afterPass_some hchoose]
      rfl

theorem config_afterPasses (e : Engine ν) (nows : Nat → Int64) (n : Nat) :
    (e.afterPasses nows n).config = e.config := by
  have hkeep : ∀ (n : Nat) (t : Engine ν), t.config = e.config →
      (t.afterPass (nows n)).config = e.config :=
    fun n t h => (config_afterPass t (nows n)).trans h
  exact process_keeps hkeep rfl n

/-- A pass that meets the condition leaves fewer mergeable segments. -/
theorem mergeableCount_afterPass_lt (hoff : e.config.RetentionOff)
    (hchoose : chooseRun e.config e.manifest.segments = some run)
    (hone : OneUnsealed e.config (e.keptOf run none now)) :
    (e.afterPass now).mergeableCount < e.mergeableCount := by
  rw [afterPass_some hchoose]
  have htwo := two_le_of_chooseRun hoff hchoose
  have hle := oneUnsealed_iff.1 hone
  have hcount := mergeableCount_rewritten hchoose now
  omega

/-- A pass rewrites two segments at least and leaves one output mergeable at most exactly when its rows
have at most one unsealed slice, as rows estimated at no more than twice their length do.  Where every
pass meets this the mergeable segments get fewer and compaction comes to an end. -/
theorem compaction_converges {e : Engine ν} (hoff : e.config.RetentionOff)
    (nows : Nat → Int64) :
    (∀ n run, chooseRun (e.afterPasses nows n).config
          (e.afterPasses nows n).manifest.segments = some run →
        2 ≤ run.length ∧
        (((e.afterPasses nows n).outputs run none (nows n)).countP (mergeable e.config) ≤ 1 ↔
          OneUnsealed e.config ((e.afterPasses nows n).keptOf run none (nows n))) ∧
        ((∀ rows r, rows ≠ [] → rows ++ [r] <:+: (e.afterPasses nows n).keptOf run none (nows n) →
            (rows.map recordBytes).sum + recordBytes r ≤ 2 * SegmentFile.fileBytes rows) →
          OneUnsealed e.config ((e.afterPasses nows n).keptOf run none (nows n))) ∧
        (OneUnsealed e.config ((e.afterPasses nows n).keptOf run none (nows n)) →
          (e.afterPasses nows (n + 1)).mergeableCount <
            (e.afterPasses nows n).mergeableCount)) ∧
    ((∀ n run, chooseRun (e.afterPasses nows n).config
          (e.afterPasses nows n).manifest.segments = some run →
        OneUnsealed e.config ((e.afterPasses nows n).keptOf run none (nows n))) →
      ∃ n ≤ e.mergeableCount, ∀ m, n ≤ m →
        chooseRun (e.afterPasses nows m).config (e.afterPasses nows m).manifest.segments = none) := by
  have hconfig := e.config_afterPasses nows
  have hoff' : ∀ n, (e.afterPasses nows n).config.RetentionOff := fun n => (hconfig n).symm ▸ hoff
  have hfewer : ∀ n run, chooseRun (e.afterPasses nows n).config
        (e.afterPasses nows n).manifest.segments = some run →
      OneUnsealed e.config ((e.afterPasses nows n).keptOf run none (nows n)) →
        (e.afterPasses nows (n + 1)).mergeableCount < (e.afterPasses nows n).mergeableCount := by
    intro n run hchoose hone
    rw [← hconfig n] at hone
    exact mergeableCount_afterPass_lt (hoff' n) hchoose hone
  refine ⟨?_, ?_⟩
  · intro n run hchoose
    refine ⟨two_le_of_chooseRun (hoff' n) hchoose, ?_, oneUnsealed_of_le_two_mul,
      hfewer n run hchoose⟩
    rw [← hconfig n]
    exact oneUnsealed_iff.symm
  · -- The mergeable segments are the measure of a process that is active while a run is chosen.
    intro hone
    have hidle : ∀ (n : Nat) (t : Engine ν),
        ¬ chooseRun t.config t.manifest.segments ≠ none → t.afterPass (nows n) = t :=
      fun n t h => afterPass_none (not_not.1 h) (nows n)
    have hactive : ∀ n, chooseRun (e.afterPasses nows n).config
          (e.afterPasses nows n).manifest.segments ≠ none →
        (e.afterPasses nows (n + 1)).mergeableCount < (e.afterPasses nows n).mergeableCount := by
      intro n hactive
      obtain ⟨run, hchoose⟩ := Option.ne_none_iff_exists'.1 hactive
      exact hfewer n run hchoose (hone n run hchoose)
    obtain ⟨n, hn, hrest⟩ := process_rests hidle hactive
    exact ⟨n, hn, fun m hm => not_not.1 (hrest m hm)⟩

end Engine

end Pass

/-! ## A store that is compacted forever -/

section Sample

local instance instConvergeUnicode : Unicode := asciiUnicode

local instance instConvergeDeflate : Deflate := instAssemblyDeflate

local instance instConvergeCrc32 : Crc32 := ieeeCrc32

local instance instConvergeRmpBlocks : Rmp (List (BlockMeta Binary64)) := packedBlocks

local instance instConvergeRmpDir : Rmp SectionDir := packedDir

local instance instConvergeFile : SegmentFile Binary64 := encodedFile Binary64

/-- Two segments of one row. -/
def twoRowStore : Engine Binary64 where
  config := { compactMinSegments := 2 }
  manifest :=
    { nextSegmentId := 2
      segments := [Segment.ofRows 0 [Record.bare "a" 0], Segment.ofRows 1 [Record.bare "b" 0]] }

/-- They are merged into one, which is left alone. -/
theorem compaction_converges_twoRowStore : ∃ n ≤ 2, ∀ m, n ≤ m →
    chooseRun (twoRowStore.afterPasses (fun _ => 0) m).config
      (twoRowStore.afterPasses (fun _ => 0) m).manifest.segments = none := by
  have hfirst : chooseRun twoRowStore.config twoRowStore.manifest.segments =
      some twoRowStore.manifest.segments := by rfl
  have hone : (twoRowStore.outputs twoRowStore.manifest.segments none 0).countP
      (mergeable twoRowStore.config) ≤ 1 :=
    List.countP_le_length.trans (Nat.le_of_eq rfl)
  have hnone : chooseRun (twoRowStore.afterPasses (fun _ => 0) 1).config
      (twoRowStore.afterPasses (fun _ => 0) 1).manifest.segments = none := by
    by_contra hsome
    obtain ⟨run, hrun⟩ := Option.ne_none_iff_exists'.1 hsome
    have htwo := two_le_of_chooseRun ⟨rfl, rfl⟩ hrun
    have hle := (sublist_of_chooseRun hrun).1.length_le
    rw [(sortAsc_perm _ _).length_eq] at hle
    have hone : (twoRowStore.afterPasses (fun _ => 0) 1).manifest.segments.length = 1 := by
      change (twoRowStore.afterPass 0).manifest.segments.length = 1
      rw [Engine.afterPass_some hfirst]
      rfl
    omega
  have hidle : ∀ (n : Nat) (e : Engine Binary64),
      ¬ chooseRun e.config e.manifest.segments ≠ none → e.afterPass 0 = e :=
    fun n e h => Engine.afterPass_none (not_not.1 h) 0
  refine (Engine.compaction_converges (e := twoRowStore) ⟨rfl, rfl⟩ (fun _ => 0)).2 ?_
  intro n run hchoose
  cases n with
  | zero =>
      -- The first pass has one output.
      obtain rfl := Option.some.inj (hfirst.symm.trans hchoose)
      exact Engine.oneUnsealed_iff.2 hone
  | succ n =>
      -- Nothing is chosen from the second pass on.
      have hrest := process_idle hidle (not_not.2 hnone) (n + 1) (Nat.le_add_left 1 n)
      rw [Engine.afterPasses, hrest] at hchoose
      rw [Engine.afterPasses] at hnone
      rw [hnone] at hchoose
      cases hchoose

/-- Two characters, in the order of the numbers below `1024`. -/
def rowKey (i : Nat) : String :=
  String.ofList [Char.ofNat (48 + i / 32), Char.ofNat (48 + i % 32)]

def tinyRow (i : Nat) : Record Binary64 := Record.bare (rowKey i) 0

@[irreducible]
def widePayload : Bytes := List.replicate 9334 0

/-- A row whose payload takes most of half the byte cap. -/
def wideRow : Record Binary64 := { tinyRow 479 with payload := widePayload }

@[irreducible]
def tinyRows : List (Record Binary64) := (List.range 479).map tinyRow

@[irreducible]
def wideRows : List (Record Binary64) := wideRow :: (List.range' 480 119).map tinyRow

theorem toNat_ofNat_of_lt {n : Nat} (h : n < 128) : (Char.ofNat n).toNat = n := by
  rw [Char.ofNat, dif_pos (Or.inl (by omega))]
  rfl

/-- Keys are compared by their first character, then by their second. -/
theorem rowKey_lt {i j : Nat} (hij : i < j) (hj : j < 1024) : rowKey i < rowKey j := by
  have hchar : ∀ {m n : Nat}, m < n → n < 128 → Char.ofNat m < Char.ofNat n := by
    intro m n hmn hn
    rw [Char.lt_def, UInt32.lt_iff_toNat_lt]
    change (Char.ofNat m).toNat < (Char.ofNat n).toNat
    rwa [toNat_ofNat_of_lt hn, toNat_ofNat_of_lt (hmn.trans hn)]
  rw [String.lt_iff, rowKey, rowKey, String.toList_ofList, String.toList_ofList]
  by_cases hfirst : i / 32 = j / 32
  · rw [hfirst]
    exact List.Lex.cons (List.Lex.rel (hchar (by omega) (by omega)))
  · exact List.Lex.rel (hchar (by omega) (by omega))

theorem utf8ByteSize_rowKey {i : Nat} (hi : i < 1024) : (rowKey i).utf8ByteSize = 2 := by
  have hchar : ∀ {n : Nat}, n < 128 → (Char.ofNat n).utf8Size = 1 := by
    intro n hn
    rw [Char.utf8Size_eq_one_iff, UInt32.le_iff_toNat_le]
    change (Char.ofNat n).toNat ≤ 127
    rw [toNat_ofNat_of_lt hn]
    omega
  -- Both characters are ASCII.
  have hsplit : rowKey i = String.singleton (Char.ofNat (48 + i / 32)) ++
      String.singleton (Char.ofNat (48 + i % 32)) := by
    rw [← String.toList_inj, rowKey]
    simp
  rw [hsplit, String.utf8ByteSize_append, String.utf8ByteSize_singleton,
    String.utf8ByteSize_singleton, hchar (by omega), hchar (by omega)]

/-! The rows of the two segments, taken together, are sorted. -/

theorem keys_tinyRows_wideRows :
    (tinyRows ++ wideRows).map Record.key = (List.range 599).map rowKey := by
  rw [tinyRows, wideRows, List.map_append, List.map_cons, List.map_map, List.map_map]
  have hwide : List.range' 479 120 = 479 :: List.range' 480 119 := List.range'_succ
  have hall : List.range 479 ++ List.range' 479 120 = List.range 599 := by
    rw [List.range_eq_range', List.range_eq_range']
    exact List.range'_append_1
  rw [← hall, hwide, List.map_append]
  rfl

theorem sorted_rows : (tinyRows ++ wideRows).Pairwise (fun a b => a.key < b.key) := by
  rw [← List.pairwise_map, keys_tinyRows_wideRows, List.pairwise_map]
  refine (List.pairwise_lt_range).imp_of_mem (fun {i j} hi hj hij => ?_)
  exact rowKey_lt hij ((List.mem_range.1 hj).trans (by decide))

theorem key_size {r : Record Binary64} (h : r ∈ tinyRows ++ wideRows) :
    r.key.utf8ByteSize = 2 := by
  have hkey := List.mem_map_of_mem (f := Record.key) h
  rw [keys_tinyRows_wideRows] at hkey
  obtain ⟨i, hi, heq⟩ := List.mem_map.1 hkey
  rw [← heq]
  exact utf8ByteSize_rowKey ((List.mem_range.1 hi).trans (by decide))

theorem plain_rows {r : Record Binary64} (h : r ∈ tinyRows ++ wideRows) : Plain r := by
  have htiny : ∀ i, Plain (tinyRow i) := fun i => ⟨rfl, rfl, rfl⟩
  rcases List.mem_append.1 h with h | h
  · rw [tinyRows] at h
    obtain ⟨i, -, rfl⟩ := List.mem_map.1 h
    exact htiny i
  · rw [wideRows] at h
    rcases List.mem_cons.1 h with rfl | h
    · exact ⟨rfl, rfl, rfl⟩
    · obtain ⟨i, -, rfl⟩ := List.mem_map.1 h
      exact htiny i

theorem sum_plainBytes_tiny : ∀ {l : List Nat}, (∀ i ∈ l, i < 1024) →
    ((l.map tinyRow).map plainBytes).sum = 26 * l.length := by
  intro l
  induction l with
  | nil => exact fun _ => rfl
  | cons i l ih =>
      intro h
      have hkey := utf8ByteSize_rowKey (h i List.mem_cons_self)
      have hrow : plainBytes (tinyRow i) = 26 := by
        change 0 + (rowKey i).utf8ByteSize + 24 = 26
        rw [hkey]
      rw [List.map_cons, List.map_cons, List.sum_cons, hrow,
        ih (fun j hj => h j (List.mem_cons_of_mem i hj)), List.length_cons]
      omega

theorem sum_plainBytes_tinyRows : (tinyRows.map plainBytes).sum = 12454 := by
  rw [tinyRows, sum_plainBytes_tiny (fun i hi => (List.mem_range.1 hi).trans (by decide)),
    List.length_range]

theorem plainBytes_wideRow : plainBytes wideRow = 9360 := by
  have hkey := utf8ByteSize_rowKey (show 479 < 1024 by decide)
  have hrow : ∀ payload : Bytes, plainBytes { tinyRow 479 with payload := payload } =
      payload.length + (rowKey 479).utf8ByteSize + 24 := fun _ => rfl
  rw [wideRow, hrow, hkey, widePayload, List.length_replicate]

theorem sum_plainBytes_wideRows : (wideRows.map plainBytes).sum = 12454 := by
  have hrest := sum_plainBytes_tiny (l := List.range' 480 119)
    (fun i hi => by have := (List.mem_range'_1.1 hi).2; omega)
  rw [wideRows, List.map_cons, List.sum_cons, plainBytes_wideRow, hrest, List.length_range']

theorem length_tinyRows : tinyRows.length = 479 := by
  rw [tinyRows, List.length_map, List.length_range]

theorem length_wideRows : wideRows.length = 120 := by
  rw [wideRows, List.length_cons, List.length_map, List.length_range']

/-- The record cap is out of reach, and the byte cap is twice `12816`. -/
def stuckConfig : Config :=
  { compactMinSegments := 2, maxSegmentRecords := 10000, maxSegmentBytes := 25632 }

/-- Both segments are below the byte seal. -/
theorem fileBytes_lt {rows : List (Record Binary64)} (hsub : rows ⊆ tinyRows ++ wideRows)
    (hne : rows ≠ []) (hlen : rows.length ≤ 479) (hsum : (rows.map plainBytes).sum = 12454) :
    SegmentFile.fileBytes rows < stuckConfig.byteSeal := by
  have hle := length_fileOf_plain_le (fun r hr => plain_rows (hsub hr))
    (fun r hr => by rw [key_size (hsub hr)]; decide) hne (hlen.trans (by decide))
  rw [hsum] at hle
  change (encodedFile Binary64).fileBytes rows < 12816
  rw [fileBytes_encodedFile]
  omega

/-- The estimate of all rows exceeds the cap at the wide one. -/
theorem splitChunks_stuck : splitChunks (tinyRows ++ wideRows) stuckConfig.maxSegmentRecords
    stuckConfig.maxSegmentBytes = [tinyRows, wideRows] := by
  have htiny := sum_recordBytes tinyRows
  have hwide := sum_recordBytes wideRows
  have hrow : recordBytes wideRow = plainBytes wideRow + 8 := by
    rw [recordBytes, plainBytes]
  rw [sum_plainBytes_tinyRows, length_tinyRows] at htiny
  rw [sum_plainBytes_wideRows, length_wideRows] at hwide
  rw [plainBytes_wideRow] at hrow
  have hcons : wideRows = wideRow :: (List.range' 480 119).map tinyRow := by rw [wideRows]
  rw [hcons]
  -- 479 * 34 and 9368 are more than 25632, either alone is not.
  refine greedyChunks_two ?_ ?_ ?_ ?_ ?_ ?_
  · exact List.ne_nil_of_length_pos (by rw [length_tinyRows]; decide)
  · rw [length_tinyRows]
    decide
  · rw [htiny]
    decide
  · rw [htiny, hrow]
    decide
  · rw [← hcons]
    exact length_wideRows.trans_le (by decide)
  · rw [← hcons]
    exact hwide.trans_le (by decide)

/-! The store of the two segments is the same after every pass. -/

/-- Two mergeable segments of one size tier are a run. -/
theorem chooseRun_pair {config : Config} {a b : Segment Binary64}
    (hmin : config.effectiveMin = 2) (hid : a.id < b.id) (ha : mergeable config a = true)
    (hb : mergeable config b = true)
    (htier : max (tierSize a) (tierSize b) < 4 * min (tierSize a) (tierSize b)) :
    chooseRun config [a, b] = some [a, b] := by
  have hsort : sortAsc Segment.id [a, b] = [a, b] :=
    sortAsc_eq_of_perm (List.Perm.refl _) (by simp [hid])
  have hwindows : windows (mergeable config) [a, b] = [[a, b]] := by
    simp [windows, windowStep, ha, hb]
  have hspan : tierSpan (tierSize a) (tierSize a) [b] = 1 := by
    rw [tierSpan, if_neg (not_le.2 htier)]
    rfl
  have hlongest : longestTierRun [a, b] 2 = some [a, b] := by
    simp [longestTierRun, longestTierRunFrom, hspan]
  simp [chooseRun, hsort, hwindows, hmin, hlongest, longerRun]

/-- A segment as a rewrite leaves it, apart from its file and its age. -/
def shape (s : Segment Binary64) : Nat × Tier × Nat × List (Record Binary64) :=
  (s.id, s.tier, s.bytes, s.rows)

/-- The two segments, as long as their files are. -/
def stuckShapes : List (Nat × Tier × Nat × List (Record Binary64)) :=
  [(0, .hot, SegmentFile.fileBytes tinyRows, tinyRows),
    (1, .hot, SegmentFile.fileBytes wideRows, wideRows)]

/-- A store with these two segments and no others. -/
structure Stuck (e : Engine Binary64) : Prop where
  config : e.config = stuckConfig
  shapes : e.manifest.segments.map shape = stuckShapes

theorem pair_of_shapes {segments : List (Segment Binary64)}
    (h : segments.map shape = stuckShapes) :
    ∃ a b, segments = [a, b] ∧
      shape a = (0, .hot, SegmentFile.fileBytes tinyRows, tinyRows) ∧
      shape b = (1, .hot, SegmentFile.fileBytes wideRows, wideRows) := by
  rw [stuckShapes, List.map_eq_cons_iff] at h
  obtain ⟨a, rest, hrest, ha, h⟩ := h
  rw [List.map_eq_cons_iff] at h
  obtain ⟨b, rest', rfl, hb, h⟩ := h
  rw [List.map_eq_nil_iff.1 h] at hrest
  exact ⟨a, b, hrest, ha, hb⟩

theorem mergeable_of_shape {s : Segment Binary64} {id : Nat} {rows : List (Record Binary64)}
    (h : shape s = (id, .hot, SegmentFile.fileBytes rows, rows)) (config : Config) :
    mergeable config s = unsealed config rows := by
  simp only [shape, Prod.mk.injEq] at h
  obtain ⟨-, hhot, hbytes, hrows⟩ := h
  rw [mergeable, hhot, hbytes, Segment.zone, ZoneMap.build_count, hrows, unsealed]
  simp

theorem unsealed_stuck : unsealed stuckConfig tinyRows = true ∧
    unsealed stuckConfig wideRows = true := by
  have htiny := fileBytes_lt (List.subset_append_left tinyRows wideRows)
    (List.ne_nil_of_length_pos (by rw [length_tinyRows]; decide)) length_tinyRows.le
    sum_plainBytes_tinyRows
  have hwide := fileBytes_lt (List.subset_append_right tinyRows wideRows)
    (List.ne_nil_of_length_pos (by rw [length_wideRows]; decide))
    (length_wideRows.trans_le (by decide)) sum_plainBytes_wideRows
  have hcap : stuckConfig.cap = 10000 := rfl
  simp [unsealed, htiny, hwide, hcap, length_tinyRows, length_wideRows]

theorem countP_of_shapes {segments : List (Segment Binary64)}
    (h : segments.map shape = stuckShapes) : segments.countP (mergeable stuckConfig) = 2 := by
  obtain ⟨a, b, rfl, ha, hb⟩ := pair_of_shapes h
  simp [mergeable_of_shape ha, mergeable_of_shape hb, unsealed_stuck]

/-- A rewrite cuts the rows of both where they were cut before. -/
theorem outputChunks_stuck (now : Int64) :
    Engine.outputChunks stuckConfig now none (tinyRows ++ wideRows) = [tinyRows, wideRows] := by
  have hempty : stuckConfig.retentionPolicy.isEmpty = true := rfl
  rw [Engine.outputChunks, keptRows, rowsOf_mergeRows_of_sorted sorted_rows]
  simp only [hempty, if_true]
  exact splitChunks_stuck

/-- Both segments are chosen, and rewritten as they are. -/
theorem Stuck.pass {e : Engine Binary64} (h : Stuck e) :
    ∃ run, chooseRun e.config e.manifest.segments = some run ∧ e.outside run = [] ∧
      ∀ now, (e.outputs run none now).map shape = stuckShapes := by
  obtain ⟨a, b, hsegments, ha, hb⟩ := pair_of_shapes h.shapes
  have hamerge := (mergeable_of_shape ha stuckConfig).trans unsealed_stuck.1
  have hbmerge := (mergeable_of_shape hb stuckConfig).trans unsealed_stuck.2
  simp only [shape, Prod.mk.injEq] at ha hb
  obtain ⟨haid, -, -, harows⟩ := ha
  obtain ⟨hbid, -, -, hbrows⟩ := hb
  refine ⟨[a, b], ?_, ?_, fun now => ?_⟩
  · have hasize : tierSize a = 479 := by
      rw [tierSize, Segment.zone, ZoneMap.build_count, harows, length_tinyRows]
      rfl
    have hbsize : tierSize b = 120 := by
      rw [tierSize, Segment.zone, ZoneMap.build_count, hbrows, length_wideRows]
      rfl
    rw [h.config, hsegments]
    refine chooseRun_pair rfl (by omega) hamerge hbmerge ?_
    rw [hasize, hbsize]
    decide
  · rw [Engine.outside, hsegments]
    simp
  · have hsort : sortAsc Segment.id [a, b] = [a, b] :=
      sortAsc_eq_of_perm (List.Perm.refl _) (by simp [haid, hbid])
    have hrows : Engine.runRows [a, b] = tinyRows ++ wideRows := by
      rw [Engine.runRows, hsort, List.flatMap_cons, List.flatMap_cons, List.flatMap_nil,
        List.append_nil, harows, hbrows]
    have hids : sortAsc id [a.id, b.id] = [0, 1] := by
      rw [haid, hbid]
      rfl
    -- Two chunks for two segments: both ids are used again.
    rw [Engine.outputs, Engine.outputsOf, h.config, hrows, outputChunks_stuck]
    simp only [List.map_cons, List.map_nil, hids]
    rfl

theorem Stuck.afterPass {e : Engine Binary64} (h : Stuck e) (now : Int64) :
    Stuck (e.afterPass now) := by
  obtain ⟨run, hchoose, hout, hshapes⟩ := h.pass
  refine ⟨(Engine.config_afterPass e now).trans h.config, ?_⟩
  rw [Engine.afterPass_some hchoose]
  change (e.outside run ++ e.outputs run none now).map shape = _
  rw [hout, List.nil_append, hshapes now]

/-- Two segments, one after the other: many tiny rows, then a wide one and some more. -/
def stuckStore : Engine Binary64 where
  config := stuckConfig
  manifest :=
    { nextSegmentId := 2
      segments :=
        [{ Segment.ofRows 0 tinyRows with bytes := SegmentFile.fileBytes tinyRows },
          { Segment.ofRows 1 wideRows with bytes := SegmentFile.fileBytes wideRows }] }

theorem stuck_stuckStore : Stuck stuckStore := ⟨rfl, rfl⟩

theorem wf_stuckStore : stuckStore.WF := by
  obtain ⟨htiny, hwide, -⟩ := List.pairwise_append.1 sorted_rows
  refine Engine.wf_of_segments rfl rfl ?_ ?_
  · change [0, 1].Nodup
    decide
  · intro s hs
    rcases List.mem_pair.1 hs with rfl | rfl
    · exact htiny
    · exact hwide

/-- Two mergeable segments make two mergeable outputs, in every pass. -/
theorem compaction_never_rests :
    ¬ ∀ (e : Engine Binary64) (nows : Nat → Int64), e.WF → e.Numbered →
      (∀ s ∈ e.manifest.segments, s.bytes = SegmentFile.fileBytes s.rows) →
      e.config.RetentionOff →
      (∀ n run, chooseRun (e.afterPasses nows n).config
          (e.afterPasses nows n).manifest.segments = some run →
        ((e.afterPasses nows n).outputs run none (nows n)).countP (mergeable e.config) ≤ 1) ∨
      (∀ n run, chooseRun (e.afterPasses nows n).config
          (e.afterPasses nows n).manifest.segments = some run →
        (e.afterPasses nows (n + 1)).mergeableCount < (e.afterPasses nows n).mergeableCount) ∨
      ∃ n, ∀ m, n ≤ m →
        chooseRun (e.afterPasses nows m).config (e.afterPasses nows m).manifest.segments = none := by
  intro hall
  have hstuck : ∀ n, Stuck (stuckStore.afterPasses (fun _ => 0) n) :=
    process_keeps (P := Stuck) (fun n t h => Stuck.afterPass h 0) stuck_stuckStore
  have hnumbered : stuckStore.Numbered := by
    intro s hs
    rcases List.mem_pair.1 hs with rfl | rfl
    · exact Nat.zero_lt_two
    · exact Nat.one_lt_two
  have hbytes : ∀ s ∈ stuckStore.manifest.segments, s.bytes = SegmentFile.fileBytes s.rows := by
    intro s hs
    rcases List.mem_pair.1 hs with rfl | rfl
    · rfl
    · rfl
  rcases hall stuckStore (fun _ => 0) wf_stuckStore hnumbered hbytes ⟨rfl, rfl⟩ with
    hone | hfewer | ⟨n, hrest⟩
  · -- Each pass writes two mergeable outputs.
    obtain ⟨run, hchoose, -, hshapes⟩ := (hstuck 0).pass
    have hle := hone 0 run hchoose
    have htwo := countP_of_shapes (hshapes 0)
    exact absurd (htwo.symm.trans_le hle) (by decide)
  · -- The store has two mergeable segments after each pass.
    obtain ⟨run, hchoose, -, -⟩ := (hstuck 0).pass
    have hlt := hfewer 0 run hchoose
    have htwo : ∀ n, (stuckStore.afterPasses (fun _ => 0) n).mergeableCount = 2 := by
      intro n
      rw [Engine.mergeableCount, (hstuck n).config]
      exact countP_of_shapes (hstuck n).shapes
    rw [htwo, htwo] at hlt
    exact absurd hlt (Nat.lt_irrefl 2)
  · -- There is a run to choose after each pass.
    obtain ⟨run, hchoose, -, -⟩ := (hstuck n).pass
    rw [hrest n (Nat.le_refl n)] at hchoose
    cases hchoose

end Sample

end Girder
