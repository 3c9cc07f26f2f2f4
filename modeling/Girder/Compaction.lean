import Girder.Lib.Chunks
import Girder.Lib.Cuts
import Girder.Lib.Lists
import Girder.Merge
import Girder.Retention
import Girder.Slots

/-!
# Compaction — choosing a run of segments and rewriting it

`chooseRun` picks the longest run of adjacent, size-compatible, unsealed hot segments.  `compactRun`
merges a run oldest first, drops expired rows, optionally drops one key, cuts the merged rows into
capped chunks and swaps the manifest: the chunks take the run's own ids, the highest ones, and ids
freshly allocated when there are more chunks than ids.

The main results here are `chooseRun_contiguous`, that the chosen run is an interval of the id order,
`longestTierRun_isLongest_iff`, when the search for a one-tier run finds a longest one, and
`splitChunks_partitions`, that the chunks are the merged rows cut within the caps.
-/

namespace Girder

open Lib

namespace Config

/-- Record cap of an output. -/
def cap (config : Config) : Nat := max config.maxSegmentRecords 1

/-- Half the byte cap: a segment of this length is sealed. -/
def byteSeal (config : Config) : Nat := max (config.maxSegmentBytes / 2) 1

def minSeg (config : Config) : Nat := max config.compactMinSegments 1

/-- Without retention a run of one segment would be pure churn. -/
def effectiveMin (config : Config) : Nat :=
  if config.retentionNanos.isSome || !config.retention.isEmpty then
    config.minSeg
  else
    max config.minSeg 2

end Config

/-! ## Choosing a run -/

section Choose

variable {ν : Type} [Numeral ν]

/-- Hot, and below both seals. -/
def mergeable (config : Config) (m : Segment ν) : Bool :=
  decide (m.tier = .hot) && decide (m.zone.count < config.cap) && decide (m.bytes < config.byteSeal)

/-- Size of a segment for tiering. -/
def tierSize (m : Segment ν) : Nat := max m.zone.count 1

/-- How many more segments stay within one size tier, given the extremes so far. -/
def tierSpan : Nat → Nat → List (Segment ν) → Nat
  | _, _, [] => 0
  | mn, mx, m :: rest =>
      let nmn := min mn (tierSize m)
      let nmx := max mx (tierSize m)
      if 4 * nmn ≤ nmx then 0 else 1 + tierSpan nmn nmx rest

/-- The search for the longest one-tier run: each round takes the longest one-tier prefix and
restarts where it broke. -/
def longestTierRunFrom (minLen : Nat) :
    Nat → List (Segment ν) → Option (List (Segment ν)) → Option (List (Segment ν))
  | 0, _, best => best
  | _, [], best => best
  | fuel + 1, m :: rest, best =>
      let len := 1 + tierSpan (tierSize m) (tierSize m) rest
      let best' :=
        if minLen ≤ len ∧ best.all (fun b => decide (b.length < len)) then
          some ((m :: rest).take len)
        else
          best
      longestTierRunFrom minLen fuel ((m :: rest).drop len) best'

/-- The longest run of `window` within one size tier, at least `minLen` long. -/
def longestTierRun (window : List (Segment ν)) (minLen : Nat) : Option (List (Segment ν)) :=
  longestTierRunFrom minLen window.length window none

/-- The longest of the runs found so far; the first one wins a tie. -/
def longerRun (best : Option (List (Segment ν))) (run : List (Segment ν)) :
    Option (List (Segment ν)) :=
  if best.all (fun b => decide (b.length < run.length)) then some run else best

/-- The longest window; the last one wins a tie. -/
def longestWindow (windows : List (List (Segment ν))) : Option (List (Segment ν)) :=
  windows.foldl
    (fun best w => if best.all (fun b => decide (b.length ≤ w.length)) then some w else best) none

/-- The segments to compact next, ascending by id. -/
def chooseRun (config : Config) (segments : List (Segment ν)) : Option (List (Segment ν)) :=
  let all := sortAsc Segment.id segments
  let ws := windows (mergeable config) all
  let hotCount := (ws.map List.length).sum
  let best := ws.foldl
    (fun best w =>
      match longestTierRun w config.effectiveMin with
      | some run => longerRun best run
      | none => best)
    none
  if best.isNone ∧ 4 * config.minSeg < hotCount then
    -- Escalation: too many small segments and no one-tier run.
    longestWindow (ws.filter (fun w => decide (2 ≤ w.length)))
  else
    best

end Choose

/-! ## Rewriting a run -/

section Rewrite

variable {ν : Type}

/-- Estimated footprint of a record. -/
def recordBytes (r : Record ν) : Nat := r.payload.length + r.key.utf8ByteSize + 32

/-- A file as long as the estimated footprint of its rows. -/
@[reducible]
def footprintFile (ν : Type) : SegmentFile ν where
  fileBytes rows := (rows.map recordBytes).sum

/-- Cut key-sorted records into chunks capped by count and by estimated bytes. -/
def splitChunks (records : List (Record ν)) (maxRecords maxBytes : Nat) :
    List (List (Record ν)) :=
  greedyChunks recordBytes (max maxRecords 1) maxBytes records

variable [Numeral ν]

/-- The rows of a run in merge order. -/
def readRun (run : List (Segment ν)) : Except GirderError (List (Record ν)) :=
  ((sortAsc Segment.id run).mapM Segment.readAllRecords).map List.flatten

/-- The merged rows a rewrite keeps: those the policy keeps, without the purged key. -/
def keptRows (config : Config) (now : Int64) (purge : Option String) (rows : List (Record ν)) :
    List (Record ν) :=
  let merged := rowsOf (mergeRows rows)
  let kept :=
    if config.retentionPolicy.isEmpty then
      merged
    else
      merged.filter (config.retentionPolicy.keeps now)
  match purge with
  | some key => kept.filter (fun r => decide (r.key ≠ key))
  | none => kept

variable [SegmentFile ν]

/-- Write the chunks from number `ci` on: a chunk takes the next reused id, or a fresh one when
they have run out, and a fresh file. -/
def writeOutputs (reuseIds : List Nat) (idBase : Nat) (created : Int64) :
    Nat → Nat → List (List (Record ν)) → List (Segment ν) × Nat
  | _, next, [] => ([], next)
  | ci, next, chunk :: chunks =>
      let id := reuseIds[idBase + ci]?.getD next
      let next' := if idBase + ci < reuseIds.length then next else next + 1
      let output : Segment ν :=
        { id := id, file := next', tier := .hot, bytes := SegmentFile.fileBytes chunk,
          createdUnixNanos := created, version := 2, pulled := false, rows := chunk }
      let rest := writeOutputs reuseIds idBase created (ci + 1) (next' + 1) chunks
      (output :: rest.1, rest.2)

namespace Engine

/-- The chunks a rewrite of `run` writes. -/
def outputChunks (config : Config) (now : Int64) (purge : Option String)
    (rows : List (Record ν)) : List (List (Record ν)) :=
  splitChunks (keptRows config now purge rows) config.maxSegmentRecords config.maxSegmentBytes

/-- The output segments of a rewrite, and the sequence counter afterwards. -/
def outputsOf (e : Engine ν) (run : List (Segment ν)) (purge : Option String) (now : Int64)
    (rows : List (Record ν)) : List (Segment ν) × Nat :=
  let chunks := outputChunks e.config now purge rows
  let reuseIds := sortAsc id (run.map Segment.id)
  let created := ((run.map Segment.createdUnixNanos).min?).getD now
  writeOutputs reuseIds (reuseIds.length - chunks.length) created 0 e.manifest.nextSegmentId chunks

/-- Merge a run into fresh capped segments and swap the manifest. -/
def compactRun (e : Engine ν) (run : List (Segment ν)) (purge : Option String) (now : Int64) :
    Except GirderError (Engine ν) := do
  let rows ← readRun run
  let outputs := e.outputsOf run purge now rows
  pure { e with
    manifest :=
      { nextSegmentId := outputs.2
        segments := e.outside run ++ outputs.1 } }

/-- One compaction pass; the flag says whether a run was rewritten. -/
def compact (e : Engine ν) (now : Int64) : Except GirderError (Engine ν × Bool) :=
  match chooseRun e.config e.manifest.segments with
  | none => .ok (e, false)
  | some run => (e.compactRun run none now).map (fun e' => (e', true))

/-- Does reading the run meet a delta-flagged row of `key`? -/
def purgeCheck (key : String) : List (Segment ν) → Except GirderError Unit
  | [] => .ok ()
  | m :: rest => do
      let rows ← m.readAllRecords
      if rows.any (fun r => decide (r.key = key) && r.isDelta) then
        .error (.config "purge_key refuses counter (delta-flagged) keys")
      else
        purgeCheck key rest

/-- The segments whose key range contains `key`. -/
def purgeRun (e : Engine ν) (key : String) : List (Segment ν) :=
  e.manifest.segments.filter (fun m => m.zone.containsKey key)

/-- Rewrite every segment whose key range contains `key` without it. -/
def purgeKey (e : Engine ν) (key : String) (now : Int64) : Except GirderError (Engine ν × Bool) :=
  let run := e.purgeRun key
  if run.isEmpty then
    .ok (e, false)
  else do
    purgeCheck key run
    let e' ← e.compactRun run (some key) now
    pure (e', true)

end Engine

end Rewrite

/-! ## The chunks of a rewrite -/

section Split

variable {ν : Type}

/-- A chunk of several records is within both caps, a single record is a chunk whatever its size. -/
theorem splitChunks_fits {records chunk : List (Record ν)} {maxRecords maxBytes : Nat}
    (h : chunk ∈ splitChunks records maxRecords maxBytes) :
    chunk ≠ [] ∧ chunk.length ≤ max maxRecords 1 ∧
      (1 < chunk.length → (chunk.map recordBytes).sum ≤ maxBytes) := by
  obtain ⟨hne, hone | ⟨hcount, hbytes⟩⟩ := mem_greedyChunks h
  · exact ⟨hne, hone.trans (le_max_right _ _), fun hmany => absurd hone (not_le.2 hmany)⟩
  · exact ⟨hne, hcount, fun _ => hbytes⟩

/-- Splitting loses, repeats and reorders nothing, keeps to the caps, and cuts only where the next
record would break one. -/
theorem splitChunks_partitions (records : List (Record ν)) (maxRecords maxBytes : Nat) :
    (splitChunks records maxRecords maxBytes).flatten = records ∧
      (∀ chunk ∈ splitChunks records maxRecords maxBytes,
        chunk ≠ [] ∧ chunk.length ≤ max maxRecords 1 ∧
          (1 < chunk.length → (chunk.map recordBytes).sum ≤ maxBytes)) ∧
      ∀ front chunk next back,
        splitChunks records maxRecords maxBytes = front ++ chunk :: next :: back →
          ∃ r ∈ next.head?, max maxRecords 1 < (chunk ++ [r]).length ∨
            maxBytes < ((chunk ++ [r]).map recordBytes).sum := by
  refine ⟨flatten_greedyChunks records, fun chunk hchunk => splitChunks_fits hchunk, ?_⟩
  intro front chunk next back hsplit
  obtain ⟨r, hr, hcap⟩ := closedBy_of_greedyChunks_eq hsplit
  refine ⟨r, hr, ?_⟩
  rw [List.length_append, List.map_append, List.sum_append]
  rcases hcap with hfull | hheavy
  · exact Or.inl (Nat.lt_succ_of_le hfull)
  · exact Or.inr (by simpa using hheavy)

end Split

/-! ## The search for the longest run -/

section LongestTier

variable {ν : Type} [Numeral ν]

/-- Within one size tier: the largest size is below four times the smallest. -/
def OneTier (run : List (Segment ν)) : Prop := ∀ a ∈ run, ∀ b ∈ run, tierSize a < 4 * tierSize b

instance instDecidableOneTier (run : List (Segment ν)) : Decidable (OneTier run) :=
  inferInstanceAs (Decidable (∀ a ∈ run, ∀ b ∈ run, tierSize a < 4 * tierSize b))

theorem OneTier.of_prefix {run whole : List (Segment ν)} (hpre : run <+: whole)
    (h : OneTier whole) : OneTier run :=
  fun a ha b hb => h a (hpre.subset ha) b (hpre.subset hb)

/-- The extremes the scan tracks over the segments it has taken. -/
structure Extremes (run : List (Segment ν)) (mn mx : Nat) : Prop where
  min_le {a : Segment ν} : a ∈ run → mn ≤ tierSize a
  le_max {a : Segment ν} : a ∈ run → tierSize a ≤ mx
  min_attained : ∃ a ∈ run, tierSize a = mn
  max_attained : ∃ a ∈ run, tierSize a = mx

theorem extremes_singleton (m : Segment ν) : Extremes [m] (tierSize m) (tierSize m) where
  min_le ha := by rw [List.mem_singleton.1 ha]
  le_max ha := by rw [List.mem_singleton.1 ha]
  min_attained := ⟨m, by simp, rfl⟩
  max_attained := ⟨m, by simp, rfl⟩

theorem Extremes.append {run : List (Segment ν)} {mn mx : Nat} (h : Extremes run mn mx)
    (m : Segment ν) : Extremes (run ++ [m]) (min mn (tierSize m)) (max mx (tierSize m)) where
  min_le ha := by
    rcases List.mem_append.1 ha with ha | ha
    · exact (min_le_left _ _).trans (h.min_le ha)
    · rw [List.mem_singleton.1 ha]
      exact min_le_right _ _
  le_max ha := by
    rcases List.mem_append.1 ha with ha | ha
    · exact (h.le_max ha).trans (le_max_left _ _)
    · rw [List.mem_singleton.1 ha]
      exact le_max_right _ _
  min_attained := by
    rcases min_choice mn (tierSize m) with hmin | hmin
    · obtain ⟨a, ha, hsize⟩ := h.min_attained
      exact ⟨a, List.mem_append_left _ ha, hsize.trans hmin.symm⟩
    · exact ⟨m, by simp, hmin.symm⟩
  max_attained := by
    rcases max_choice mx (tierSize m) with hmax | hmax
    · obtain ⟨a, ha, hsize⟩ := h.max_attained
      exact ⟨a, List.mem_append_left _ ha, hsize.trans hmax.symm⟩
    · exact ⟨m, by simp, hmax.symm⟩

theorem Extremes.oneTier_iff {run : List (Segment ν)} {mn mx : Nat} (h : Extremes run mn mx) :
    OneTier run ↔ mx < 4 * mn := by
  constructor
  · intro hone
    obtain ⟨a, ha, rfl⟩ := h.max_attained
    obtain ⟨b, hb, rfl⟩ := h.min_attained
    exact hone a ha b hb
  · intro hlt a ha b hb
    have hmax := h.le_max ha
    have hmin := h.min_le hb
    omega

theorem tierSpan_le (mn mx : Nat) (rest : List (Segment ν)) :
    tierSpan mn mx rest ≤ rest.length := by
  induction rest generalizing mn mx with
  | nil => simp [tierSpan]
  | cons m rest ih =>
      simp only [tierSpan]
      split
      · omega
      · have := ih (min mn (tierSize m)) (max mx (tierSize m))
        simp only [List.length_cons]
        omega

/-- The scan goes on as long as the segments stay within one tier, and no further. -/
theorem tierSpan_spec {run : List (Segment ν)} {mn mx : Nat} (h : Extremes run mn mx)
    (hone : OneTier run) (rest : List (Segment ν)) :
    OneTier (run ++ rest.take (tierSpan mn mx rest)) ∧
      ∀ m tail, rest.drop (tierSpan mn mx rest) = m :: tail →
        ¬ OneTier (run ++ rest.take (tierSpan mn mx rest) ++ [m]) := by
  induction rest generalizing run mn mx with
  | nil => simp [tierSpan, hone]
  | cons m rest ih =>
      simp only [tierSpan]
      split
      · rename_i hbreak
        refine ⟨by simpa using hone, ?_⟩
        rintro m' tail htail hone'
        obtain ⟨rfl, -⟩ : m = m' ∧ rest = tail := by simpa using htail
        have hlt := (h.append m).oneTier_iff.1 (by simpa using hone')
        omega
      · rename_i hfits
        have hone' : OneTier (run ++ [m]) := (h.append m).oneTier_iff.2 (not_le.1 hfits)
        have hrest := ih (h.append m) hone'
        simpa [Nat.add_comm 1] using hrest

/-- The search goes over the tiers of the window. -/
theorem longestTierRunFrom_eq (minLen : Nat) :
    ∀ (fuel : Nat) (window : List (Segment ν)), window.length ≤ fuel →
      ∃ tiers, GreedyCut OneTier window tiers ∧
        ∀ best, longestTierRunFrom minLen fuel window best = firstLongest minLen best tiers := by
  intro fuel
  induction fuel with
  | zero =>
      intro window hfuel
      obtain rfl := List.length_eq_zero_iff.1 (Nat.le_zero.1 hfuel)
      exact ⟨[], .nil, fun _ => rfl⟩
  | succ fuel ih =>
      intro window hfuel
      cases window with
      | nil => exact ⟨[], .nil, fun _ => rfl⟩
      | cons m rest =>
          set len := tierSpan (tierSize m) (tierSize m) rest with hlen
          have hself : OneTier [m] := (extremes_singleton m).oneTier_iff.2 (by
            have hpos : 1 ≤ tierSize m := le_max_right _ _
            omega)
          obtain ⟨htier, hstop⟩ := tierSpan_spec (extremes_singleton m) hself rest
          rw [← hlen] at htier hstop
          have htake : ((m :: rest).take (1 + len)).length = 1 + len := by
            have hle := tierSpan_le (tierSize m) (tierSize m) rest
            simp only [List.length_take, List.length_cons]
            omega
          have hfuel' : (rest.drop len).length ≤ fuel := by
            simp only [List.length_cons] at hfuel
            simp only [List.length_drop]
            omega
          obtain ⟨tiers, hcut, hscan⟩ := ih (rest.drop len) hfuel'
          refine ⟨(m :: rest).take (1 + len) :: tiers, ?_, ?_⟩
          · rw [Nat.add_comm 1, List.take_succ_cons]
            cases hdrop : rest.drop len with
            | nil =>
                -- The tier reaches the end of the window.
                rw [hdrop] at hcut
                rw [hcut.eq_nil_of_nil]
                rw [List.take_of_length_le (List.drop_eq_nil_iff.1 hdrop)] at htier ⊢
                exact .last (by simp) htier
            | cons next tail =>
                rw [hdrop] at hcut
                have hsplit : m :: rest = (m :: rest.take len) ++ next :: tail := by
                  rw [← hdrop, List.cons_append, List.take_append_drop]
                rw [hsplit]
                exact .next (by simp) htier (hstop next tail hdrop) hcut
          · intro best
            rw [firstLongest_cons, htake, ← hscan]
            simp only [longestTierRunFrom, ← hlen, Nat.add_comm 1, List.drop_succ_cons]

/-- The one-tier runs that lie across two tiers of the window are matched by a tier as long.

The tiers are cut from the front, each as long as it can be. -/
def StraddlingMatched (window : List (Segment ν)) (minLen : Nat) : Prop :=
  ∀ tiers, GreedyCut OneTier window tiers →
    ∀ run, IsRun OneTier window minLen run → (∀ tier ∈ tiers, ¬ run <:+: tier) →
      ∃ tier ∈ tiers, run.length ≤ tier.length

/-- The search finds a longest one-tier run exactly when no run across two tiers is longer than all
of them. -/
theorem longestTierRun_isLongest_iff (window : List (Segment ν)) (minLen : Nat) :
    IsLongestRun OneTier window minLen (longestTierRun window minLen) ↔
      StraddlingMatched window minLen := by
  obtain ⟨tiers, hcut, hscan⟩ := longestTierRunFrom_eq minLen _ window le_rfl
  rw [longestTierRun, hscan, firstLongest_isLongest_iff hcut]
  constructor
  · intro h tiers' hcut'
    rwa [← hcut.unique OneTier.of_prefix hcut']
  · exact fun h => h tiers hcut

/-- Segments of one, three, five and five records. -/
def growingSegments : List (Segment Int) :=
  [1, 3, 5, 5].zipIdx.map (fun ni =>
    Segment.ofRows ni.2 ((List.range ni.1).map (fun i => Record.bare (toString i) 0)))

/-- The run of the last three segments starts inside the first tier, and is passed over. -/
theorem longestTierRun_passes_over :
    ¬ ∀ (window : List (Segment Int)) (minLen : Nat),
      IsLongestRun OneTier window minLen (longestTierRun window minLen) := by
  intro h
  have hnone : longestTierRun growingSegments 3 = none := by rfl
  have hlongest := h growingSegments 3
  rw [hnone] at hlongest
  exact hlongest growingSegments.tail
    ⟨by decide, by decide, (List.tail_suffix _).isInfix, by decide⟩

end LongestTier

/-! ## The chosen run is contiguous -/

section Contiguous

variable {ν : Type} [Numeral ν]

theorem longestTierRunFrom_isInfix {minLen : Nat} :
    ∀ (fuel : Nat) (window : List (Segment ν)) (best : Option (List (Segment ν)))
      {run : List (Segment ν)}, longestTierRunFrom minLen fuel window best = some run →
        best = some run ∨ run <:+: window := by
  intro fuel
  induction fuel with
  | zero =>
      intro window best run h
      left
      simpa [longestTierRunFrom] using h
  | succ fuel ih =>
      intro window best run h
      cases window with
      | nil =>
          left
          simpa [longestTierRunFrom] using h
      | cons m rest =>
          simp only [longestTierRunFrom] at h
          rcases ih _ _ h with hbest | hin
          · split at hbest
            · right
              rw [← Option.some.inj hbest]
              exact (List.take_prefix _ _).isInfix
            · exact Or.inl hbest
          · exact Or.inr (hin.trans (List.drop_suffix _ _).isInfix)

theorem longestTierRun_isInfix {window run : List (Segment ν)} {minLen : Nat}
    (h : longestTierRun window minLen = some run) : run <:+: window := by
  rcases longestTierRunFrom_isInfix _ _ _ h with hnone | hin
  · simp at hnone
  · exact hin

theorem longestTierRun_length {window run : List (Segment ν)} {minLen : Nat}
    (h : longestTierRun window minLen = some run) : minLen ≤ run.length := by
  obtain ⟨tiers, -, hscan⟩ := longestTierRunFrom_eq minLen window.length window le_rfl
  rw [longestTierRun, hscan] at h
  rcases (firstLongest_eq_some h).1 with hnone | ⟨-, hlen⟩
  · cases hnone
  · exact hlen

omit [Numeral ν] in
/-- A search over windows that only ever takes up a run with `P` returns one. -/
theorem foldl_best_keeps {P : List (Segment ν) → Prop} {f : Option (List (Segment ν)) →
      List (Segment ν) → Option (List (Segment ν))} {ws : List (List (Segment ν))}
    (hf : ∀ best, ∀ w ∈ ws, ∀ run, f best w = some run → best = some run ∨ P run) :
    ∀ {best : Option (List (Segment ν))} {run : List (Segment ν)}, ws.foldl f best = some run →
      best = some run ∨ P run := by
  induction ws with
  | nil => exact fun h => Or.inl h
  | cons w ws ih =>
      intro best run h
      rcases ih (fun b w' hw' => hf b w' (List.mem_cons_of_mem w hw')) h with hbest | hP
      · exact hf best w List.mem_cons_self run hbest
      · exact Or.inr hP

/-- The chosen run is a part of one window of mergeable segments, and not a short one. -/
theorem chooseRun_infix_window {config : Config} {segments run : List (Segment ν)}
    (h : chooseRun config segments = some run) :
    (∃ w ∈ windows (mergeable config) (sortAsc Segment.id segments), run <:+: w) ∧
      min config.effectiveMin 2 ≤ run.length := by
  unfold chooseRun at h
  simp only at h
  split at h
  · -- Escalation: a whole window.
    have hstep : ∀ (best : Option (List (Segment ν))),
        ∀ w ∈ (windows (mergeable config) (sortAsc Segment.id segments)).filter
          (fun w => decide (2 ≤ w.length)), ∀ run,
        (if best.all (fun b => decide (b.length ≤ w.length)) then some w else best) = some run →
          best = some run ∨
            (∃ w ∈ windows (mergeable config) (sortAsc Segment.id segments), run <:+: w) ∧
              min config.effectiveMin 2 ≤ run.length := by
      intro best w hw run hrun
      obtain ⟨hmem, hlen⟩ := List.mem_filter.1 hw
      split at hrun
      · right
        obtain rfl := Option.some.inj hrun
        exact ⟨⟨w, hmem, List.infix_rfl⟩, (min_le_right _ _).trans (of_decide_eq_true hlen)⟩
      · exact Or.inl hrun
    exact (foldl_best_keeps hstep h).resolve_left (by simp)
  · -- The longest one-tier run of a window.
    have hstep : ∀ (best : Option (List (Segment ν))),
        ∀ w ∈ windows (mergeable config) (sortAsc Segment.id segments), ∀ run,
        (match longestTierRun w config.effectiveMin with
          | some run => longerRun best run
          | none => best) = some run →
          best = some run ∨
            (∃ w ∈ windows (mergeable config) (sortAsc Segment.id segments), run <:+: w) ∧
              min config.effectiveMin 2 ≤ run.length := by
      intro best w hw run hrun
      cases htier : longestTierRun w config.effectiveMin with
      | none =>
          rw [htier] at hrun
          exact Or.inl hrun
      | some found =>
          rw [htier] at hrun
          simp only [longerRun] at hrun
          split at hrun
          · right
            obtain rfl := Option.some.inj hrun
            exact ⟨⟨w, hw, longestTierRun_isInfix htier⟩,
              (min_le_left _ _).trans (longestTierRun_length htier)⟩
          · exact Or.inl hrun
    exact (foldl_best_keeps hstep h).resolve_left (by simp)

/-- Distinct segments of a manifest. -/
structure RunOf (segments run : List (Segment ν)) : Prop where
  subset {t : Segment ν} : t ∈ run → t ∈ segments
  nodup : (run.map Segment.id).Nodup

/-- Some segments form an interval of the id order: no other segment sits between two of them. -/
structure Contiguous (segments run : List (Segment ν)) : Prop extends RunOf segments run where
  interval {s t u : Segment ν} : s ∈ segments → t ∈ run → u ∈ run →
    t.id ≤ s.id → s.id ≤ u.id → s ∈ run

omit [Numeral ν] in
/-- A part of the id-sorted segments is an interval. -/
theorem contiguous_of_isInfix {segments run : List (Segment ν)}
    (hd : (segments.map Segment.id).Nodup) (hin : run <:+: sortAsc Segment.id segments) :
    Contiguous segments run := by
  have hsorted := sortAsc_pairwise_lt hd
  have hsub : ∀ t ∈ run, t ∈ segments := fun t ht => (mem_sortAsc Segment.id).1 (hin.subset ht)
  refine ⟨⟨fun ht => hsub _ ht, ?_⟩, ?_⟩
  · exact nodup_map_of_pairwise_lt (hsorted.sublist hin.sublist)
  · intro s t u hs ht hu hlo hhi
    obtain ⟨pre, post, hsplit⟩ := hin
    have hs' : s ∈ sortAsc Segment.id segments := (mem_sortAsc Segment.id).2 hs
    rw [← hsplit] at hs' hsorted
    obtain ⟨hleft, -, hacross⟩ := List.pairwise_append.1 hsorted
    rcases List.mem_append.1 hs' with hs' | hpost
    · rcases List.mem_append.1 hs' with hpre | hrun
      · -- Before the run: older than all of it.
        have hlt := (List.pairwise_append.1 hleft).2.2 s hpre t ht
        omega
      · exact hrun
    · have hlt := hacross u (by simp [hu]) s hpost
      omega

/-- What `chooseRun` returns: an interval of the id order, all of it mergeable. -/
theorem chooseRun_contiguous {config : Config} {segments run : List (Segment ν)}
    (hd : (segments.map Segment.id).Nodup) (h : chooseRun config segments = some run) :
    Contiguous segments run ∧ ∀ m ∈ run, mergeable config m = true := by
  obtain ⟨⟨w, hw, hin⟩, -⟩ := chooseRun_infix_window h
  obtain ⟨hwin, hall⟩ := mem_windows hw
  exact ⟨contiguous_of_isInfix hd (hin.trans hwin), fun m hm => hall m (hin.subset hm)⟩

end Contiguous

end Girder
