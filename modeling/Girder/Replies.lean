import Girder.Served

/-!
# Replies — reads through the shared cache answer as the store's reads do

A read runs over files and a cache that others use and change while it runs.  Whatever they do, it
returns what the read of its view returns on the rows themselves, or it misses a file that somebody
removed.  The walk over files runs beside the walk of `Engine` over rows: what the two have
accumulated stays related, and a probe has loaded keys of the plan's steps only.
-/

namespace Girder

open Lib

section Replies

variable {ν α β γ : Type} [Unicode] [FloatBits ν] [Numeral ν] [Crc32] [Rmp SectionDir]
  [Rmp (List (BlockMeta ν))] [Rmp (List (Record ν))]

/-! ## Reads that give a value -/

/-- Somebody may remove the file of one of the segments. -/
def Missing (kept : Nat → Prop) (segs : List (Segment ν)) : Prop :=
  ∃ s ∈ segs, ¬ kept s.cacheKey

/-- Whatever others do to the shelf, the read ends in a value that satisfies `P`, or the file of one
of the segments is gone. -/
def Access.Gives (content : Nat → Bytes) (kept : Nat → Prop) (segs : List (Segment ν))
    (p : Access ν α) (P : α → Prop) : Prop :=
  p.run.Sat (Shelf.Good content kept)
    (fun out => (out = .error vanished ∧ Missing kept segs) ∨ ∃ a, out = .ok a ∧ P a)

variable {content : Nat → Bytes} {kept : Nat → Prop} {segs : List (Segment ν)}

namespace Access

variable {P : α → Prop} {Q : β → Prop}

theorem gives_pure {a : α} (h : P a) : (pure a : Access ν α).Gives content kept segs P :=
  Or.inr ⟨a, rfl, h⟩

theorem gives_ofRes {r : Res α} {a : α} (hr : r = .ok a) (h : P a) :
    (Access.ofRes r : Access ν α).Gives content kept segs P :=
  Or.inr ⟨a, hr, h⟩

theorem Gives.bind {p : Access ν α} {f : α → Access ν β} (hp : p.Gives content kept segs P)
    (hf : ∀ a, P a → (f a).Gives content kept segs Q) : (p >>= f).Gives content kept segs Q := by
  refine Access.sat_bind hp (fun e he => ?_) (fun a ha => ?_)
  · rcases he with ⟨he, hgone⟩ | ⟨a, ha, -⟩
    · exact Or.inl ⟨by cases he; rfl, hgone⟩
    · cases ha
  · rcases ha with ⟨ha, -⟩ | ⟨b, hb, hP⟩
    · cases ha
    · cases Except.ok.inj hb
      exact hf a hP

/-- A step that gives one value, then the rest. -/
theorem Gives.bind_eq {p : Access ν α} {f : α → Access ν β} {a : α}
    (hp : p.Gives content kept segs (fun b => b = a)) (hf : (f a).Gives content kept segs Q) :
    (p >>= f).Gives content kept segs Q :=
  hp.bind fun _ hb => hb ▸ hf

theorem bind_ofRes {r : Res α} {a : α} {f : α → Access ν β} (hr : r = .ok a)
    (hf : (f a).Gives content kept segs Q) :
    ((Access.ofRes r : Access ν α) >>= f).Gives content kept segs Q :=
  Gives.bind_eq (gives_ofRes hr rfl) hf

/-- A read ends in `r`, or the file of one of the segments is gone. -/
def Ends (content : Nat → Bytes) (kept : Nat → Prop) (gone : Prop)
    (p : Access ν α) (r : Res α) : Prop :=
  p.run.Sat (Shelf.Good content kept) (fun out => (out = .error vanished ∧ gone) ∨ out = r)

theorem Gives.ends {p : Access ν α} {a : α}
    (h : p.Gives content kept segs (fun b => b = a)) :
    p.Ends content kept (Missing kept segs) (.ok a) := by
  refine Prog.Sat.mono h (fun out hout => hout.imp_right ?_)
  rintro ⟨b, rfl, rfl⟩
  rfl

theorem Ends.map {gone : Prop} {p : Access ν α} {r : Res α} (h : p.Ends content kept gone r)
    (f : α → β) : Ends content kept gone (f <$> p) (f <$> r) :=
  sat_map h f

/-- With retries, a read ends as one of its attempts, and misses a file only if all of them do. -/
theorem sat_retryVanished {op : Nat → Access ν α} {gone : Nat → Prop}
    {answer : Nat → Res α}
    (hop : ∀ k, (op k).Ends content kept (gone k) (answer k)) :
    ∀ retries attempt : Nat, (retryVanished op retries attempt).run.Sat (Shelf.Good content kept)
      (fun out => (out = .error vanished ∧ ∀ k, attempt ≤ k → k ≤ attempt + retries → gone k) ∨
        ∃ k, attempt ≤ k ∧ k ≤ attempt + retries ∧ out = answer k) := by
  intro retries
  induction retries with
  | zero =>
      intro attempt
      refine Prog.Sat.mono (hop attempt) (fun out hout => hout.imp ?_ ?_)
      · rintro ⟨hout, hgone⟩
        exact ⟨hout, fun k hle hge => by rwa [Nat.le_antisymm hge hle]⟩
      · exact fun hout => ⟨attempt, Nat.le_refl _, Nat.le_refl _, hout⟩
  | succ retries ih =>
      intro attempt
      unfold retryVanished
      refine Prog.Sat.bind (hop attempt) (fun out hout => ?_)
      have hhere : out = answer attempt → ∃ k, attempt ≤ k ∧ k ≤ attempt + (retries + 1) ∧
          out = answer k :=
        fun h => ⟨attempt, Nat.le_refl _, Nat.le_add_right _ _, h⟩
      cases out with
      | ok a => exact Or.inr (hhere (hout.resolve_left (fun h => by cases h.1)))
      | error fault =>
          simp only
          split
          · -- The attempt missed a file, and the next one begins.
            rename_i hvanished
            subst hvanished
            refine Prog.Sat.mono (ih (attempt + 1)) (fun later hlater => ?_)
            rcases hlater with ⟨rfl, hgone⟩ | ⟨k, hle, hge, hk⟩
            · rcases hout with ⟨-, hfirst⟩ | hout
              · refine Or.inl ⟨rfl, fun k hle hge => ?_⟩
                rcases hle.eq_or_lt with rfl | hlt
                · exact hfirst
                · exact hgone k hlt (by omega)
              · exact Or.inr (hhere hout)
            · exact Or.inr ⟨k, by omega, by omega, hk⟩
          · rename_i hother
            exact Or.inr (hhere (hout.resolve_left (fun h => hother (by cases h.1; rfl))))

end Access

open Access

/-! ## Segments on disk -/

variable [Deflate]

/-- Every file holds the rows of its segment. -/
def Stored (content : Nat → Bytes) (segs : List (Segment ν)) : Prop :=
  ∀ s ∈ segs, Encodes (content s.cacheKey) s.rows

/-- The keys tell which keys the segment holds. -/
def SegKeys.Tells (keys : SegKeys ν) (s : Segment ν) : Prop :=
  ∀ key, keys.contains key = .ok (s.findKey key).isSome

variable [LawfulRmp SectionDir]

theorem gives_loadSegmentKeys (hstored : Stored content segs) {s : Segment ν} (hs : s ∈ segs) :
    (loadSegmentKeys content s.cacheKey : Access ν _).Gives content kept segs
      (fun keys => keys.Tells s) := by
  obtain ⟨keys, hkeys, htells⟩ := (hstored s hs).keysFrom_eq
  refine Prog.Sat.mono (sat_loadSegmentKeys s.cacheKey) (fun out hout => ?_)
  rcases hout with ⟨hout, hgone⟩ | hout
  · exact Or.inl ⟨hout, s, hs, hgone⟩
  · exact Or.inr ⟨keys, hout.trans hkeys, htells⟩

section Probe

/-- What a probe has loaded are keys of the steps. -/
def ProbeOk (steps : List (WalkStep ν)) (probe : Queries.ShadowProbe ν) : Prop :=
  ∀ (j : Nat) (step : WalkStep ν) (keys : SegKeys ν), steps[j]? = some step →
    probe[j]? = some (some keys) → keys.Tells step.seg

omit [Unicode] [FloatBits ν] [Numeral ν] [Crc32] [Rmp SectionDir] [Rmp (List (BlockMeta ν))]
  [Rmp (List (Record ν))] [Deflate] [LawfulRmp SectionDir] in
theorem probeOk_noProbe (steps : List (WalkStep ν)) : ProbeOk steps (Queries.noProbe steps) := by
  intro j step keys _ hj
  rw [Queries.noProbe, List.getElem?_map] at hj
  cases hstep : steps[j]? with
  | none =>
      rw [hstep] at hj
      cases hj
  | some step' =>
      rw [hstep] at hj
      cases hj

omit [Unicode] [FloatBits ν] [Numeral ν] [Crc32] [Rmp SectionDir] [Rmp (List (BlockMeta ν))]
  [Rmp (List (Record ν))] [Deflate] [LawfulRmp SectionDir] in
theorem ProbeOk.set {steps : List (WalkStep ν)} {probe : Queries.ShadowProbe ν}
    (h : ProbeOk steps probe) {j : Nat} {step : WalkStep ν} (hstep : steps[j]? = some step)
    {keys : SegKeys ν} (hkeys : keys.Tells step.seg) : ProbeOk steps (probe.set j (some keys)) := by
  intro i step' keys' hstep' hi
  by_cases hij : j = i
  · subst hij
    cases Option.some.inj (hstep.symm.trans hstep')
    rw [List.getElem?_set] at hi
    split at hi
    · split at hi
      · cases hi
        exact hkeys
      · cases hi
    · exact absurd rfl ‹_›
  · rw [List.getElem?_set_ne hij] at hi
    exact h i step' keys' hstep' hi

variable {steps : List (WalkStep ν)}

theorem gives_probeKeys (hstored : Stored content segs) {probe : Queries.ShadowProbe ν}
    (hprobe : ProbeOk steps probe) {j : Nat} {step : WalkStep ν} (hstep : steps[j]? = some step)
    (hs : step.seg ∈ segs) :
    (Queries.probeKeys content probe j step).Gives content kept segs
      (fun keys => keys.Tells step.seg) := by
  unfold Queries.probeKeys
  split
  · rename_i keys hloaded
    exact gives_pure (hprobe j step keys hstep hloaded)
  · exact gives_loadSegmentKeys hstored hs

/-- A probe answers whether one of the steps it is asked about holds the key. -/
theorem gives_probeFrom (hstored : Stored content segs)
    (hsegs : ∀ step ∈ steps, step.seg ∈ segs) (key : String) :
    ∀ (rest : List (WalkStep ν)) (j : Nat) (probe : Queries.ShadowProbe ν),
      (∀ i, i < rest.length → steps[j + i]? = rest[i]?) → ProbeOk steps probe →
      (Queries.probeFrom content key j rest probe).Gives content kept segs
        (fun out => out.1 = shadowed rest key ∧ ProbeOk steps out.2) := by
  intro rest
  induction rest with
  | nil => exact fun j probe _ hprobe => gives_pure ⟨rfl, hprobe⟩
  | cons step rest ih =>
      intro j probe hrest hprobe
      have hstep : steps[j]? = some step := hrest 0 (by simp)
      have hnext : ∀ i, i < rest.length → steps[j + 1 + i]? = rest[i]? := by
        intro i hi
        have h := hrest (i + 1) (by simpa using hi)
        rwa [List.getElem?_cons_succ, ← Nat.add_assoc, Nat.add_right_comm] at h
      unfold Queries.probeFrom
      rw [shadowed, List.any_cons]
      split
      · -- The key range covers the key, so the segment's keys are asked.
        rename_i hcovers
        refine (gives_probeKeys hstored hprobe hstep
          (hsegs step (List.mem_of_getElem? hstep))).bind (fun keys hkeys => ?_)
        refine bind_ofRes (hkeys key) ?_
        rw [hcovers, Bool.true_and]
        cases (step.seg.findKey key).isSome with
        | true => exact gives_pure ⟨rfl, hprobe.set hstep hkeys⟩
        | false => exact ih (j + 1) _ hnext (hprobe.set hstep hkeys)
      · rename_i hout
        rw [Bool.eq_false_iff.2 hout]
        exact ih (j + 1) probe hnext hprobe

end Probe

/-! ## The walk -/

section Walk

variable {R : β → γ → Prop} {track : Bool} {seen : StrSet} {bound : Int64 → String → Bool}
  {emit : β → SegmentColumns ν → Option Bytes → Segment ν → Nat → Access ν β}
  {emit' : γ → Record ν → γ} {steps : List (WalkStep ν)}

omit [FloatBits ν] [Crc32] [Rmp SectionDir] [Rmp (List (BlockMeta ν))] [Rmp (List (Record ν))]
  [Deflate] in
/-- Does a selected row of a step survive the walk?  `newer` are the steps before it. -/
def survives (track : Bool) (seen : StrSet) (bound : Int64 → String → Bool)
    (newer : List (WalkStep ν)) (r : Record ν) : Bool :=
  !(seen.contains r.key || r.isTombstone) && !(track && shadowed newer r.key) &&
    bound r.timestamp r.key

/-- Returning a row keeps what has been accumulated related. -/
def EmitsAlike (content : Nat → Bytes) (kept : Nat → Prop) (segs : List (Segment ν))
    (needTokens : Bool) (R : β → γ → Prop)
    (emit : β → SegmentColumns ν → Option Bytes → Segment ν → Nat → Access ν β)
    (emit' : γ → Record ν → γ) : Prop :=
  ∀ (s : Segment ν) (cols : SegmentColumns ν) (handle : Option Bytes) (row : Nat) (r : Record ν)
    (acc : β) (acc' : γ), s ∈ segs → cols.Serves handle (content s.cacheKey) s.rows needTokens →
      s.rows[row]? = some r → R acc acc' →
        (emit acc cols handle s row).Gives content kept segs (fun out => R out (emit' acc' r))

/-- The selected rows of a step: each is passed over or returned as the rows themselves say. -/
theorem gives_visitRows (hstored : Stored content segs)
    (hsegs : ∀ step ∈ steps, step.seg ∈ segs) {needTokens : Bool}
    (hemit : EmitsAlike content kept segs needTokens R emit emit') {newer rest : List (WalkStep ν)}
    (hsteps : steps = newer ++ rest) {s : Segment ν} (hs : s ∈ segs) {cols : SegmentColumns ν}
    {handle : Option Bytes} (hcols : cols.Serves handle (content s.cacheKey) s.rows needTokens)
    {rows : List Nat} {recs : List (Record ν)}
    (hrows : List.Forall₂ (fun i r => s.rows[i]? = some r) rows recs) :
    ∀ (acc : β) (acc' : γ) (probe : Queries.ShadowProbe ν), R acc acc' → ProbeOk steps probe →
      (Queries.visitRows content track seen bound emit newer s cols handle rows acc probe).Gives
        content kept segs (fun out =>
          R out.1 ((recs.filter (survives track seen bound newer)).foldl emit' acc') ∧
            ProbeOk steps out.2) := by
  induction hrows with
  | nil => exact fun acc acc' probe hR hprobe => gives_pure ⟨hR, hprobe⟩
  | @cons i r rows recs hr _ ih =>
      intro acc acc' probe hR hprobe
      unfold Queries.visitRows
      refine bind_ofRes (hcols.shows.keyAt_eq hr) ?_
      cases hseen : seen.contains r.key with
      | true =>
          rw [if_pos rfl, List.filter_cons_of_neg (by simp [survives, hseen])]
          exact ih acc acc' probe hR hprobe
      | false =>
          rw [if_neg Bool.false_ne_true]
          refine bind_ofRes (hcols.shows.isTombstoneAt_eq hr) ?_
          cases htomb : r.isTombstone with
          | true =>
              rw [if_pos rfl, List.filter_cons_of_neg (by simp [survives, htomb])]
              exact ih acc acc' probe hR hprobe
          | false =>
              rw [if_neg Bool.false_ne_true]
              -- The probe looks at the newer steps, and at none when keys cannot repeat.
              have hask : (if track then Queries.probeFrom content r.key 0 newer probe
                  else pure (false, probe) : Access ν (Bool × Queries.ShadowProbe ν)).Gives
                  content kept segs
                    (fun out => out.1 = (track && shadowed newer r.key) ∧ ProbeOk steps out.2) := by
                cases track with
                | false => exact gives_pure ⟨rfl, hprobe⟩
                | true =>
                    refine gives_probeFrom hstored hsegs r.key newer 0 probe (fun j hj => ?_) hprobe
                    rw [hsteps, Nat.zero_add, List.getElem?_append_left hj]
              refine hask.bind (fun asked hasked => ?_)
              obtain ⟨hidden, probe'⟩ := asked
              obtain ⟨hhidden, hprobe'⟩ := hasked
              simp only at hhidden hprobe' ⊢
              cases hidden with
              | true =>
                  rw [if_pos rfl, List.filter_cons_of_neg (by simp [survives, ← hhidden])]
                  exact ih acc acc' probe' hR hprobe'
              | false =>
                  rw [if_neg Bool.false_ne_true]
                  refine bind_ofRes (hcols.shows.timestampAt_eq hr) ?_
                  cases hbound : bound r.timestamp r.key with
                  | false =>
                      rw [if_neg Bool.false_ne_true,
                        List.filter_cons_of_neg (by simp [survives, hbound])]
                      exact ih acc acc' probe' hR hprobe'
                  | true =>
                      have hin : survives track seen bound newer r = true := by
                        rw [survives, hseen, htomb, ← hhidden, hbound]
                        rfl
                      rw [if_pos rfl, List.filter_cons_of_pos hin, List.foldl_cons]
                      refine (hemit s cols handle i r acc acc' hs hcols hr hR).bind
                        (fun out hout => ?_)
                      exact ih out (emit' acc' r) probe' hout hprobe'

variable [LawfulUnicode] [LawfulDeflate] [LawfulFloatBits ν] [LawfulNumeral ν]
  [LawfulRmp (List (BlockMeta ν))]

theorem gives_loadSegmentCached (hstored : Stored content segs) {s : Segment ν} (hs : s ∈ segs)
    (needTokens : Bool) :
    (loadSegmentCached content s.cacheKey needTokens : Access ν _).Gives content kept segs
      (fun out => out.1.Serves out.2 (content s.cacheKey) s.rows needTokens) := by
  obtain ⟨cols, handle, hloaded, hserves⟩ := (hstored s hs).loadedFrom_eq needTokens
  refine Prog.Sat.mono (sat_loadSegmentCached s.cacheKey needTokens) (fun out hout => ?_)
  rcases hout with ⟨hout, hgone⟩ | hout
  · exact Or.inl ⟨hout, s, hs, hgone⟩
  · exact Or.inr ⟨(cols, handle), hout.trans hloaded, hserves⟩

/-- The walk over a plan, beside the walk over the rows. -/
theorem gives_walk (hstored : Stored content segs) (hsegs : ∀ step ∈ steps, step.seg ∈ segs)
    (spec : QuerySpec ν) {stop : β → List (WalkStep ν) → Access ν Bool}
    {stop' : γ → List (WalkStep ν) → Bool}
    (hemit : EmitsAlike content kept segs spec.needTokens R emit emit')
    (hstop : ∀ acc acc' ahead, R acc acc' →
      (stop acc ahead).Gives content kept segs (fun b => b = stop' acc' ahead)) :
    ∀ (rest newer : List (WalkStep ν)) (acc : β) (acc' : γ) (probe : Queries.ShadowProbe ν),
      steps = newer ++ rest → R acc acc' → ProbeOk steps probe →
      (Queries.walk content track seen bound emit spec stop newer rest acc probe).Gives
        content kept segs (fun out => R out (Engine.segPhase spec
          (fun r => bound r.timestamp r.key) emit' track seen stop' newer rest acc')) := by
  intro rest
  induction rest with
  | nil => exact fun newer acc acc' probe _ hR _ => gives_pure hR
  | cons step rest ih =>
      intro newer acc acc' probe hsteps hR hprobe
      have hs : step.seg ∈ segs := hsegs step (by simp [hsteps])
      have hnext : steps = (newer ++ [step]) ++ rest := by simp [hsteps]
      unfold Queries.walk Engine.segPhase
      refine Gives.bind_eq (hstop acc acc' (step :: rest) hR) ?_
      split
      · exact gives_pure hR
      · -- A step that is visited loads its segment and goes through the selected rows.
        unfold Engine.stepRows
        cases step.visit with
        | false => exact ih _ acc acc' probe hnext hR hprobe
        | true =>
            refine (gives_loadSegmentCached hstored hs spec.needTokens).bind
              (fun loaded hcols => ?_)
            refine bind_ofRes (hcols.selects spec id) ?_
            refine (gives_visitRows hstored hsegs hemit hsteps hs hcols
              (forall₂_naiveRows spec step.seg.rows) acc acc' probe hR hprobe).bind
                (fun visited hvisited => ?_)
            exact ih _ visited.1 _ visited.2 hnext hvisited.1 hvisited.2

end Walk

end Replies

end Girder
