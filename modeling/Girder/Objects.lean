import Girder.Rounds

/-!
# Objects — the object store against the manifest

An open with an object store deletes every object that no remote entry names.  After that the objects
are those of the remote entries between any two duties, as long as no groom pass meets a remote segment:
`groom` removes the local path of what it drops and leaves the object (`Bench.objects_match`).

Most operations are `Quiet`: they neither touch the store nor change the remote entries.  The two that
are not are the move to the store and the drop of a purge's inputs.
-/

namespace Girder

open Lib

variable {ν : Type}

/-- The operation leaves the store and these remote entries alone. -/
def Op.Quiet (remotes : List (Segment ν)) : Op ν → Prop
  | .swap ids outputs => (∀ s ∈ remotes, s.id ∉ ids) ∧ ∀ o ∈ outputs, o.tier ≠ .remote
  | .setTier id tier => tier ≠ .remote ∧ ∀ s ∈ remotes, s.id ≠ id
  | .put _ => False
  | .remove place _ => place ≠ .store
  | .write place _ _ => place ≠ .store
  | _ => True

namespace Bench

/-- The remote entries. -/
def remotes (b : Bench ν) : List (Segment ν) :=
  b.segments.filter (fun s => decide (s.tier = .remote))

/-- The objects are those of the remote entries. -/
def Balanced (b : Bench ν) : Prop :=
  ∀ f, (b.files .store f).isSome = true ↔ ∃ s ∈ b.segments, s.tier = .remote ∧ s.file = f

variable {b b' : Bench ν} {s : Segment ν}

theorem mem_remotes : s ∈ b.remotes ↔ s ∈ b.segments ∧ s.tier = .remote := by
  rw [remotes, List.mem_filter, decide_eq_true_iff]

/-- Only the store and the remote entries matter. -/
theorem Balanced.congr (h : b.Balanced) (hremotes : b'.remotes = b.remotes)
    (hstore : ∀ f, b'.files .store f = b.files .store f) : b'.Balanced := by
  intro f
  rw [hstore f, h f]
  have hmem : ∀ x : Segment ν, (x ∈ b'.segments ∧ x.tier = .remote) ↔
      (x ∈ b.segments ∧ x.tier = .remote) := by
    intro x
    rw [← mem_remotes, ← mem_remotes, hremotes]
  constructor
  · rintro ⟨x, hx, htier, hfile⟩
    obtain ⟨hx', htier'⟩ := (hmem x).mpr ⟨hx, htier⟩
    exact ⟨x, hx', htier', hfile⟩
  · rintro ⟨x, hx, htier, hfile⟩
    obtain ⟨hx', htier'⟩ := (hmem x).mp ⟨hx, htier⟩
    exact ⟨x, hx', htier', hfile⟩

/-! ## Quiet operations -/

theorem remotes_swap {ids : List Nat} {outputs : List (Segment ν)}
    (hids : ∀ s ∈ b.remotes, s.id ∉ ids) (houtputs : ∀ o ∈ outputs, o.tier ≠ .remote) :
    (b.withManifest (b.engine.manifest.swap ids outputs)).remotes = b.remotes := by
  have hnone : outputs.filter (fun s => decide (s.tier = .remote)) = [] := by
    refine List.filter_eq_nil_iff.mpr fun o ho => ?_
    simpa using houtputs o ho
  show (b.segments.filter _ ++ outputs).filter _ = _
  rw [List.filter_append, hnone, List.append_nil, List.filter_filter, remotes]
  refine List.filter_congr fun s hs => ?_
  -- No remote entry is taken out.
  by_cases htier : s.tier = .remote
  · have hnot := hids s (mem_remotes.mpr ⟨hs, htier⟩)
    simp [htier, hnot]
  · simp [htier]

theorem remotes_setTier {id : Nat} {tier : Tier} (htier : tier ≠ .remote)
    (hid : ∀ s ∈ b.remotes, s.id ≠ id) :
    (b.withManifest (b.engine.manifest.setTier id tier)).remotes = b.remotes := by
  have hmap : ∀ segments : List (Segment ν),
      (∀ s ∈ segments, s.tier = .remote → s.id ≠ id) →
      (segments.map (fun s => if s.id = id then { s with tier := tier } else s)).filter
        (fun s => decide (s.tier = .remote)) =
      segments.filter (fun s => decide (s.tier = .remote)) := by
    intro segments
    induction segments with
    | nil => exact fun _ => rfl
    | cons s segments ih =>
        intro hne
        have hrest := ih (fun x hx => hne x (List.mem_cons_of_mem s hx))
        rw [List.map_cons]
        by_cases hs : s.id = id
        · have hlocal : s.tier ≠ .remote := fun h => hne s List.mem_cons_self h hs
          rw [if_pos hs, List.filter_cons_of_neg (by simpa using htier),
            List.filter_cons_of_neg (by simpa using hlocal), hrest]
        · rw [if_neg hs, List.filter_cons, List.filter_cons, hrest]
  exact hmap b.segments (fun s hs h => hid s (mem_remotes.mpr ⟨hs, h⟩))

theorem quiet_exec {op : Op ν} (hquiet : op.Quiet b.remotes) (hexec : b.exec op = .ok b') :
    b'.remotes = b.remotes ∧ ∀ f, b'.files .store f = b.files .store f := by
  cases op with
  | read s =>
      rw [eq_of_exec_read hexec]
      exact ⟨rfl, fun _ => rfl⟩
  | write place file data =>
      cases hexec
      exact ⟨rfl, fun f => Files.set_of_ne _ _ (Or.inl (Ne.symm hquiet))⟩
  | swap ids outputs =>
      cases hexec
      exact ⟨remotes_swap hquiet.1 hquiet.2, fun _ => rfl⟩
  | setTier id tier =>
      cases hexec
      exact ⟨remotes_setTier hquiet.1 hquiet.2, fun _ => rfl⟩
  | remove place file =>
      cases hexec
      exact ⟨rfl, fun f => Files.set_of_ne _ _ (Or.inl (Ne.symm hquiet))⟩
  | rename s =>
      -- A file moves between the hot and the cold directory.
      obtain ⟨_, _, rfl⟩ := map_open?_eq_ok hexec
      refine ⟨rfl, fun f => ?_⟩
      dsimp only
      rw [Files.set_of_ne _ _ (Or.inl Place.noConfusion),
        Files.set_of_ne _ _ (Or.inl Place.noConfusion)]
  | copy s =>
      obtain ⟨_, _, rfl⟩ := map_open?_eq_ok hexec
      refine ⟨rfl, fun f => ?_⟩
      dsimp only
      rw [Files.set_of_ne _ _ (Or.inl Place.noConfusion)]
  | removeSource s =>
      obtain ⟨_, _, rfl⟩ := map_open?_eq_ok hexec
      refine ⟨rfl, fun f => ?_⟩
      dsimp only
      rw [Files.set_of_ne _ _ (Or.inl Place.noConfusion)]
  | put s => exact hquiet.elim
  | alloc => cases hexec; exact ⟨rfl, fun _ => rfl⟩
  | popFrozen => cases hexec; exact ⟨rfl, fun _ => rfl⟩
  | setCursor id => cases hexec; exact ⟨rfl, fun _ => rfl⟩
  | fail e => cases hexec

/-- A script of quiet operations, completed or not. -/
theorem quiet_runOps {ops : List (Op ν)} :
    ∀ {b : Bench ν}, (∀ op ∈ ops, op.Quiet b.remotes) →
      (runOps ops b).1.remotes = b.remotes ∧
        ∀ f, (runOps ops b).1.files .store f = b.files .store f := by
  induction ops with
  | nil => exact fun _ => ⟨rfl, fun _ => rfl⟩
  | cons op ops ih =>
      intro b hquiet
      cases hop : b.perform op with
      | ok b' =>
          obtain ⟨hremotes, hstore⟩ :=
            quiet_exec (hquiet op List.mem_cons_self) (exec_of_perform hop)
          have hrest : ∀ x ∈ ops, x.Quiet b'.remotes := by
            intro x hx
            rw [hremotes]
            exact hquiet x (List.mem_cons_of_mem op hx)
          obtain ⟨hremotes', hstore'⟩ := ih hrest
          rw [runOps_cons_ok _ hop]
          exact ⟨hremotes'.trans hremotes, fun f => (hstore' f).trans (hstore f)⟩
      | error e =>
          rw [runOps_cons_error _ hop]
          exact ⟨rfl, fun _ => rfl⟩

theorem Balanced.quiet (h : b.Balanced) {ops : List (Op ν)}
    (hquiet : ∀ op ∈ ops, op.Quiet b.remotes) : (runOps ops b).1.Balanced :=
  h.congr (quiet_runOps hquiet).1 (quiet_runOps hquiet).2

/-! ## Quiet scripts -/

/-- A local entry shares its id with no remote one. -/
theorem Sound.remote_id_ne (hb : b.Sound) (hs : s ∈ b.segments) (htier : s.tier ≠ .remote) :
    ∀ x ∈ b.remotes, x.id ≠ s.id := by
  intro x hx heq
  obtain ⟨hx, hremote⟩ := mem_remotes.mp hx
  rw [hb.identity.id_inj hx hs heq] at hremote
  exact htier hremote

theorem place_ne_store (tier : Tier) : tier.place ≠ .store := by
  cases tier <;> exact Place.noConfusion

theorem quiet_outputOps {remotes outputs : List (Segment ν)} {n : Nat} {op : Op ν}
    (h : op ∈ outputOps n outputs) : op.Quiet remotes := by
  rcases mem_outputOps h with rfl | ⟨o, _, rfl⟩
  · trivial
  · exact place_ne_store o.tier

/-- Dropping the file of a local segment. -/
theorem quiet_dropFile {remotes : List (Segment ν)} {t : Tiering} (htier : s.tier ≠ .remote)
    {op : Op ν} (h : op ∈ dropFile t s) : op.Quiet remotes := by
  unfold dropFile at h
  split at h
  · exact absurd ‹_› htier
  · cases List.mem_singleton.mp h
    exact place_ne_store s.tier

theorem quiet_swap_one (hb : b.Sound) (hs : s ∈ b.segments) (htier : s.tier ≠ .remote)
    {outputs : List (Segment ν)} (houtputs : ∀ o ∈ outputs, o.tier ≠ .remote) :
    (Op.swap [s.id] outputs).Quiet b.remotes := by
  refine ⟨fun x hx hmem => ?_, houtputs⟩
  exact hb.remote_id_ne hs htier x hx (List.mem_singleton.mp hmem)

section Scripts

variable [SegmentFile ν]

theorem quiet_flushOps {remotes : List (Segment ν)} {clock : Nat → Int64} {op : Op ν}
    {frozen : List (Nat × MemTable ν)} :
    ∀ {n : Nat}, op ∈ Engine.flushOps clock n frozen → op.Quiet remotes := by
  induction frozen with
  | nil => exact fun h => absurd h List.not_mem_nil
  | cons f frozen ih =>
      intro n h
      rw [Engine.flushOps] at h
      rcases List.mem_append.mp h with h | h
      · rcases List.mem_append.mp h with h | h
        · exact quiet_outputOps h
        · simp only [List.mem_cons, List.not_mem_nil, or_false] at h
          rcases h with rfl | rfl
          · refine ⟨fun _ _ => List.not_mem_nil, fun o ho => ?_⟩
            cases List.mem_singleton.mp ho
            exact Tier.noConfusion
          · trivial
      · exact ih h

theorem quiet_rewriteOps (hb : b.Sound) (hs : s ∈ b.segments) (htier : s.tier ≠ .remote)
    {e : Engine ν} {rows : List (Record ν)} {drop : List (Op ν)}
    (hdrop : ∀ op ∈ drop, op.Quiet b.remotes) {op : Op ν} (h : op ∈ e.rewriteOps s rows drop) :
    op.Quiet b.remotes := by
  unfold Engine.rewriteOps at h
  split at h
  · rcases List.mem_cons.mp h with rfl | h
    · exact quiet_swap_one hb hs htier (fun o ho => absurd ho List.not_mem_nil)
    · exact hdrop op h
  · rcases List.mem_append.mp h with h | h
    · exact quiet_outputOps h
    · simp only [List.mem_cons, List.not_mem_nil, or_false] at h
      rcases h with rfl | rfl
      · refine quiet_swap_one hb hs htier fun o ho => ?_
        cases List.mem_singleton.mp ho
        exact Tier.noConfusion
      · exact place_ne_store s.tier

variable [Numeral ν]

theorem quiet_reclaimOps (hb : b.Sound) {t : Tiering} {op : Op ν}
    (h : op ∈ b.engine.reclaimOps t) : op.Quiet b.remotes := by
  unfold Engine.reclaimOps at h
  cases hpick : b.engine.reclaimPick with
  | none =>
      rw [hpick] at h
      exact absurd h List.not_mem_nil
  | some cand =>
      rw [hpick] at h
      obtain ⟨hcand, hhot⟩ := mem_of_reclaimPick hpick
      have hlocal : cand.tier ≠ .remote := by
        rw [hhot]
        exact Tier.noConfusion
      dsimp only at h
      rcases List.mem_append.mp h with h | h
      · simp only [List.mem_cons, List.not_mem_nil, or_false] at h
        rcases h with rfl | rfl <;> trivial
      · split at h
        · exact absurd h List.not_mem_nil
        · rcases List.mem_append.mp h with h | h
          · obtain ⟨s, _, rfl⟩ := List.mem_map.mp h
            trivial
          · split at h
            · exact absurd h List.not_mem_nil
            · rcases List.mem_cons.mp h with rfl | h
              · trivial
              · exact quiet_rewriteOps hb hcand hlocal
                  (fun op hop => quiet_dropFile hlocal hop) h

theorem quiet_groomLoop (hb : b.Sound) {now : Int64} {op : Op ν} {ms : List (Segment ν)} :
    ∀ {e : Engine ν}, (∀ m ∈ ms, m ∈ b.segments ∧ m.tier ≠ .remote) →
      op ∈ Engine.groomLoopOps now ms e → op.Quiet b.remotes := by
  induction ms with
  | nil => exact fun _ h => absurd h List.not_mem_nil
  | cons m ms ih =>
      intro e hms h
      obtain ⟨hm, htier⟩ := hms m List.mem_cons_self
      rw [Engine.groomLoopOps] at h
      rcases List.mem_append.mp h with h | h
      · unfold Engine.groomOneOps at h
        split at h
        · simp only [List.mem_cons, List.not_mem_nil, or_false] at h
          rcases h with rfl | rfl
          · exact quiet_swap_one hb hm htier (fun o ho => absurd ho List.not_mem_nil)
          · exact place_ne_store m.tier
        · rcases List.mem_cons.mp h with rfl | h
          · trivial
          · split at h
            · exact absurd h List.not_mem_nil
            · refine quiet_rewriteOps hb hm htier (fun x hx => ?_) h
              cases List.mem_singleton.mp hx
              exact place_ne_store m.tier
      · exact ih (fun x hx => hms x (List.mem_cons_of_mem m hx)) h

omit [Numeral ν] in
theorem quiet_migrateOps (hb : b.Sound) {files : Files ν} {op : Op ν} {ss : List (Segment ν)} :
    ∀ {n : Nat}, (∀ s ∈ ss, s ∈ b.segments) → op ∈ Engine.migrateOps files n ss →
      op.Quiet b.remotes := by
  induction ss with
  | nil => exact fun _ h => absurd h List.not_mem_nil
  | cons s ss ih =>
      intro n hss h
      have hrest : ∀ x ∈ ss, x ∈ b.segments := fun x hx => hss x (List.mem_cons_of_mem s hx)
      rw [Engine.migrateOps] at h
      split at h
      · exact ih hrest h
      · split at h
        · exact ih hrest h
        · dsimp only at h
          split at h
          · rcases List.mem_append.mp h with h | h
            · simp only [List.mem_cons, List.not_mem_nil, or_false] at h
              rcases h with rfl | rfl <;> trivial
            · exact ih hrest h
          · rename_i hlocal
            have htier : s.tier ≠ .remote := fun heq => hlocal heq
            rcases List.mem_cons.mp h with rfl | h
            · trivial
            · rcases List.mem_append.mp h with h | h
              · exact quiet_outputOps h
              · simp only [List.mem_cons, List.not_mem_nil, or_false] at h
                rcases h with rfl | rfl
                · refine quiet_swap_one hb (hss s List.mem_cons_self) htier fun o ho => ?_
                  cases List.mem_singleton.mp ho
                  exact htier
                · exact place_ne_store s.tier

end Scripts

/-! ## The move to the store -/

/-- One segment uploaded and listed as remote. -/
theorem Balanced.remoteMove (h : b.Balanced) (hids : (b.segments.map Segment.id).Nodup)
    (hs : s ∈ b.segments) (htier : s.tier = .cold) (data : FileData ν) {files : Files ν}
    (hfiles : ∀ f, files .store f = b.files.set .store s.file (some data) .store f) :
    ({ b.withManifest (b.engine.manifest.setTier s.id .remote) with files := files } :
      Bench ν).Balanced := by
  have hinj : ∀ x ∈ b.segments, x.id = s.id → x = s := fun x hx heq =>
    List.inj_on_of_nodup_map hids hx hs heq
  intro f
  dsimp only
  rw [hfiles f, Files.set_apply]
  constructor
  · intro hsome
    split at hsome
    · rename_i hsame
      exact ⟨{ s with tier := .remote }, Manifest.mem_setTier.mpr ⟨s, hs, (if_pos rfl).symm⟩, rfl,
        hsame.2.symm⟩
    · obtain ⟨x, hx, hremote, hfile⟩ := (h f).mp hsome
      refine ⟨x, Manifest.mem_setTier_of_ne hx fun heq => ?_, hremote, hfile⟩
      rw [hinj x hx heq, htier] at hremote
      cases hremote
  · rintro ⟨x, hx, hremote, hfile⟩
    obtain ⟨x₀, hx₀, rfl⟩ := Manifest.mem_setTier.mp hx
    split at hremote
    · rename_i hid
      rw [if_pos hid, hinj x₀ hx₀ hid] at hfile
      rw [if_pos ⟨rfl, hfile.symm⟩]
      rfl
    · rename_i hid
      rw [if_neg hid] at hfile
      split
      · rfl
      · exact (h f).mpr ⟨x₀, hx₀, hremote, hfile⟩

theorem balanced_remoteMoves {ss : List (Segment ν)} :
    ∀ {b : Bench ν}, b.Balanced → (b.segments.map Segment.id).Nodup →
      (∀ s ∈ ss, s ∈ b.segments ∧ s.tier = .cold) → (ss.map Segment.id).Nodup →
      (runOps (ss.flatMap Engine.remoteMove) b).1.Balanced := by
  induction ss with
  | nil => exact fun h _ _ _ => h
  | cons s ss ih =>
      intro b h hids hss hnodup
      obtain ⟨hs, htier⟩ := hss s List.mem_cons_self
      obtain ⟨hnot, hnodup⟩ := List.nodup_cons.mp hnodup
      rw [List.flatMap_cons]
      cases hput : b.perform (.put s) with
      | error e =>
          rw [Engine.remoteMove, List.cons_append, runOps_cons_error _ hput]
          exact h
      | ok b₁ =>
          obtain ⟨data, _, rfl⟩ := map_open?_eq_ok hput
          rw [Engine.remoteMove, List.cons_append, runOps_cons_ok _ hput]
          -- The flip and the removal of the local file.
          refine ih (b := { b.withManifest (b.engine.manifest.setTier s.id .remote) with
            files := (b.files.set .store s.file (some data)).set .cold s.file none })
            (h.remoteMove hids hs htier data fun f => ?_) ?_ (fun x hx => ?_) hnodup
          · exact Files.set_of_ne _ _ (Or.inl Place.noConfusion)
          · show ((b.engine.manifest.setTier s.id .remote).segments.map Segment.id).Nodup
            rw [Manifest.map_id_setTier]
            exact hids
          · obtain ⟨hx', hxtier⟩ := hss x (List.mem_cons_of_mem s hx)
            exact ⟨Manifest.mem_setTier_of_ne hx' fun heq => hnot (heq ▸ List.mem_map_of_mem hx),
              hxtier⟩

theorem balanced_tier (t : Tiering) (hb : b.Sound) (h : b.Balanced) (now : Int64) :
    (runOps (b.engine.tierOps t now) b).1.Balanced := by
  have hcold : ∀ s ∈ b.engine.toCold t now, s ∈ b.segments ∧ s.tier = .hot :=
    fun s hs => Engine.of_mem_toCold hs
  have hremote : ∀ s ∈ b.engine.toRemote t now, s ∈ b.segments ∧ s.tier = .cold :=
    fun s hs => Engine.of_mem_toRemote hs
  -- The moves to the cold directory meet no remote entry and no object.
  have hquiet : ∀ op ∈ (b.engine.toCold t now).flatMap (Engine.coldMove t),
      op.Quiet b.remotes := by
    intro op hop
    obtain ⟨s, hs, hop⟩ := List.mem_flatMap.mp hop
    have hlocal : s.tier ≠ .remote := by
      rw [(hcold s hs).2]
      exact Tier.noConfusion
    rcases Engine.cases_of_mem_coldMove hop with rfl | rfl | rfl | rfl
    · trivial
    · trivial
    · trivial
    · exact ⟨Tier.noConfusion, hb.remote_id_ne (hcold s hs).1 hlocal⟩
  have hmoved := h.quiet hquiet
  unfold Engine.tierOps
  cases hrun : runOps ((b.engine.toCold t now).flatMap (Engine.coldMove t)) b with
  | mk b₁ result =>
      rw [hrun] at hmoved
      cases result with
      | error e =>
          rw [runOps_append_error _ hrun]
          exact hmoved
      | ok u =>
          rw [runOps_append_ok _ hrun]
          split
          · -- What was cold at the start still is.
            have hfollows := (follows_of_append (follows_tier t hb now) hrun).1
            have hsound := sound_runOps hb hfollows
            rw [hrun] at hsound
            refine balanced_remoteMoves hmoved hsound.identity.ids_nodup (fun s hs => ?_)
              (nodup_map_filter hb.identity.ids_nodup _)
            obtain ⟨hmem, htier⟩ := hremote s hs
            have hspared : ∀ op ∈ (b.engine.toCold t now).flatMap (Engine.coldMove t),
                op.Spares s.id := by
              intro op hop
              obtain ⟨x, hx, hop⟩ := List.mem_flatMap.mp hop
              refine spares_of_mem_coldMove (fun heq => ?_) hop
              rw [hb.identity.id_inj hmem (hcold x hx).1 heq, (hcold x hx).2] at htier
              cases htier
            have hkept := mem_runOps hmem hspared
            rw [hrun] at hkept
            exact ⟨hkept, htier⟩
          · exact hmoved

/-! ## Purges -/

theorem exists_remove_of_mem_drops {t : Tiering} {run : List (Segment ν)} {op : Op ν}
    (h : op ∈ run.flatMap (dropFile t)) : ∃ p f, op = .remove p f := by
  obtain ⟨s, _, h⟩ := List.mem_flatMap.mp h
  obtain ⟨p, rfl⟩ := exists_of_mem_dropFile h
  exact ⟨p, s.file, rfl⟩

/-- With a store, the objects a run gives up are those of its remote segments. -/
theorem remove_store_mem_drops {t : Tiering} (hstore : t.hasStore = true) {run : List (Segment ν)}
    {f : Nat} :
    (.remove .store f : Op ν) ∈ run.flatMap (dropFile t) ↔
      ∃ s ∈ run, s.tier = .remote ∧ s.file = f := by
  rw [List.mem_flatMap]
  constructor
  · rintro ⟨s, hs, h⟩
    refine ⟨s, hs, ?_⟩
    unfold dropFile at h
    cases htier : s.tier with
    | remote =>
        rw [htier, if_pos hstore] at h
        simp only [List.mem_append, List.mem_singleton, Op.remove.injEq] at h
        rcases h with ⟨_, rfl⟩ | ⟨hplace, _⟩
        · exact ⟨rfl, rfl⟩
        · cases hplace
    | hot =>
        rw [htier] at h
        cases List.mem_singleton.mp h
    | cold =>
        rw [htier] at h
        cases List.mem_singleton.mp h
  · rintro ⟨s, hs, htier, rfl⟩
    refine ⟨s, hs, ?_⟩
    unfold dropFile
    rw [htier, if_pos hstore]
    exact List.mem_cons_self

section Duties

variable [Numeral ν] [SegmentFile ν]

/-- A rewrite of any run: the objects of its remote segments go with them. -/
theorem balanced_compactRun {t : Tiering} (hstore : t.hasStore = true) (hb : b.Sound)
    (h : b.Balanced) {run : List (Segment ν)} (hrun : RunOf b.segments run)
    (purge : Option String) (now : Int64) :
    (runOps (b.engine.compactRunOps t run purge now) b).1.Balanced := by
  rw [Engine.compactRunOps, List.append_assoc, List.append_assoc]
  obtain ⟨result, hread⟩ := runOps_reads (sortAsc Segment.id run) b
  cases result with
  | error e =>
      rw [runOps_append_error _ hread]
      exact h
  | ok u =>
      rw [runOps_append_ok _ hread]
      -- The outputs are written under fresh names.
      obtain ⟨b₁, hwritten, hseg⟩ :=
        runOps_outputs (b.engine.outputs run purge now) b.engine.manifest.nextSegmentId b
      have hwrites : ∀ op ∈ outputOps b.engine.manifest.nextSegmentId
          (b.engine.outputs run purge now), op.Quiet b.remotes := fun op hop => quiet_outputOps hop
      have hquiet := quiet_runOps hwrites
      rw [hwritten] at hquiet
      rw [runOps_append_ok _ hwritten, List.singleton_append]
      -- The swap and the drops.
      have hswap : b₁.perform (.swap (run.map Segment.id) (b.engine.outputs run purge now)) =
          .ok (b₁.withManifest (b₁.engine.manifest.swap (run.map Segment.id)
            (b.engine.outputs run purge now))) := rfl
      rw [runOps_cons_ok _ hswap]
      have hdrops : ∀ op ∈ run.flatMap (dropFile t), ∃ p f, op = .remove p f :=
        fun op hop => exists_remove_of_mem_drops hop
      obtain ⟨b₂, hdropped, hengine, hfiles⟩ :=
        runOps_removes (b := b₁.withManifest (b₁.engine.manifest.swap (run.map Segment.id)
          (b.engine.outputs run purge now))) hdrops
      rw [hdropped]
      intro f
      have hlisted : ∀ x, x ∈ b₂.segments ↔ (x ∈ b.segments ∧ x.id ∉ run.map Segment.id) ∨
          x ∈ b.engine.outputs run purge now := by
        intro x
        rw [segments, hengine, ← hseg]
        exact Manifest.mem_swap
      rw [hfiles .store f, remove_store_mem_drops hstore]
      show (b₁.files .store f).isSome = true ∧ _ ↔ _
      rw [hquiet.2 f, h f]
      constructor
      · rintro ⟨⟨s, hs, htier, hfile⟩, hnot⟩
        refine ⟨s, (hlisted s).mpr (Or.inl ⟨hs, fun hmem => ?_⟩), htier, hfile⟩
        obtain ⟨y, hy, heq⟩ := List.mem_map.mp hmem
        have hsame := hb.identity.id_inj (hrun.subset hy) hs heq
        exact hnot ⟨y, hy, hsame ▸ htier, hsame ▸ hfile⟩
      · rintro ⟨s, hs, htier, hfile⟩
        rcases (hlisted s).mp hs with ⟨hs, hnot⟩ | hs
        · refine ⟨⟨s, hs, htier, hfile⟩, ?_⟩
          rintro ⟨y, hy, _, hfile'⟩
          have hsame := hb.identity.file_inj (hrun.subset hy) hs (hfile'.trans hfile.symm)
          exact hnot (hsame ▸ List.mem_map_of_mem hy)
        · rw [writeOutputs_hot _ _ _ _ _ _ s hs] at htier
          cases htier

omit [Numeral ν] [SegmentFile ν] in
/-- The check of a purge changes nothing. -/
theorem runOps_purgeCheck (key : String) (run : List (Segment ν)) (b : Bench ν) :
    ∃ result, runOps (Engine.purgeCheckOps key run) b = (b, result) := by
  induction run with
  | nil => exact ⟨_, rfl⟩
  | cons m run ih =>
      rw [Engine.purgeCheckOps]
      cases hop : b.perform (.read m) with
      | error e => exact ⟨_, runOps_cons_error _ hop⟩
      | ok b' =>
          obtain ⟨_, _, rfl⟩ := map_open?_eq_ok hop
          rw [runOps_cons_ok _ hop]
          split
          · exact ⟨_, rfl⟩
          · exact ih

theorem balanced_purge {t : Tiering} (hstore : t.hasStore = true) (hb : b.Sound) (h : b.Balanced)
    (key : String) (now : Int64) : (runOps (b.engine.purgeOps t key now) b).1.Balanced := by
  have hrun : RunOf b.segments (b.engine.purgeRun key) :=
    ⟨fun hs => List.mem_of_mem_filter hs, nodup_map_filter hb.identity.ids_nodup _⟩
  unfold Engine.purgeOps
  dsimp only
  split
  · exact h
  · obtain ⟨result, hchecked⟩ := runOps_purgeCheck key (b.engine.purgeRun key) b
    cases result with
    | error e =>
        rw [runOps_append_error _ hchecked]
        exact h
    | ok u =>
        rw [runOps_append_ok _ hchecked]
        exact balanced_compactRun hstore hb h hrun (some key) now

/-! ## Duties -/

/-- The pass meets no remote segment that it would drop. -/
def PassClear (b : Bench ν) : Pass → Prop
  | .groom now => ∀ m ∈ b.engine.groomCandidates now, m.tier ≠ .remote
  | _ => True

/-- Each of the passes is clear where it starts. -/
def PassesClear (t : Tiering) : List Pass → Bench ν → Prop
  | [], _ => True
  | pass :: passes, b =>
      b.PassClear pass ∧ ∀ b', b.runPass t pass = (b', .ok ()) → PassesClear t passes b'

theorem sound_runPass (t : Tiering) (hb : b.Sound) (pass : Pass) : (b.runPass t pass).1.Sound :=
  sound_runOps hb (follows_pass t hb pass)

theorem balanced_runPass {t : Tiering} (hstore : t.hasStore = true) (hb : b.Sound) (h : b.Balanced)
    {pass : Pass} (hclear : b.PassClear pass) : (b.runPass t pass).1.Balanced := by
  unfold runPass
  cases pass with
  | flush clock => exact h.quiet fun op hop => quiet_flushOps hop
  | compact now =>
      simp only [Pass.ops, Engine.compactOps]
      split
      · exact h
      · rename_i run hchoose
        obtain ⟨hrun, _⟩ := chooseRun_contiguous hb.identity.ids_nodup hchoose
        exact balanced_compactRun hstore hb h hrun.toRunOf none now
  | purge key now => exact balanced_purge hstore hb h key now
  | reclaim => exact h.quiet fun op hop => quiet_reclaimOps hb hop
  | tier now => exact balanced_tier t hb h now
  | groom now =>
      simp only [Pass.ops, Engine.groomOps]
      split
      · exact h
      · refine h.quiet fun op hop => quiet_groomLoop hb (fun m hm => ⟨?_, hclear m hm⟩) hop
        exact List.mem_of_mem_filter (List.mem_of_mem_filter (List.mem_of_mem_filter hm))
  | migrate =>
      exact h.quiet fun op hop => quiet_migrateOps hb (fun s hs => (mem_sortAsc _).mp hs) hop

theorem balanced_runPasses {t : Tiering} (hstore : t.hasStore = true) {passes : List Pass} :
    ∀ {b : Bench ν}, b.Sound → b.Balanced → PassesClear t passes b →
      (runPasses t passes b).1.Sound ∧ (runPasses t passes b).1.Balanced := by
  induction passes with
  | nil => exact fun hb h _ => ⟨hb, h⟩
  | cons pass passes ih =>
      intro b hb h hclear
      have hsound := sound_runPass t hb pass
      have hbalanced := balanced_runPass hstore hb h hclear.1
      rw [runPasses]
      cases hrun : b.runPass t pass with
      | mk b' result =>
          rw [hrun] at hsound hbalanced
          cases result with
          | ok u => exact ih hsound hbalanced (hclear.2 b' hrun)
          | error e => exact ⟨hsound, hbalanced⟩

end Duties

end Bench

/-- What the maintenance actor is asked for, and the writes in between. -/
inductive Duty (ν : Type)
  | tick (c : Clocks)
  | purgeKey (key : String) (now : Int64)
  /-- Writes have filled and frozen memtables. -/
  | writes (memtable : MemTable ν) (frozen : List (Nat × MemTable ν))

namespace Bench

variable [Numeral ν] [SegmentFile ν]

/-- The state after a duty, whatever it returned. -/
def duty (t : Tiering) (b : Bench ν) : Duty ν → Bench ν
  | .tick c => (b.tick t c).1
  | .purgeKey key now => (b.runPass t (.purge key now)).1
  | .writes memtable frozen =>
      { b with engine := { b.engine with memtable := memtable, frozen := frozen } }

/-- Duties as a machine. -/
def dutyStep (t : Tiering) (b : Bench ν) (duty : Duty ν) : Option (Bench ν) := some (b.duty t duty)

/-- No groom pass of the duty meets a remote segment. -/
def DutyClear (t : Tiering) (b : Bench ν) : Duty ν → Prop
  | .tick c => PassesClear t (tickPasses c) b
  | _ => True

/-- The state after an open: objects that no remote entry names are gone. -/
def opened (t : Tiering) (objects : List Nat) (b : Bench ν) : Bench ν :=
  (runOps (Engine.reconcileOps t objects b.engine.manifest) b).1

omit [Numeral ν] [SegmentFile ν] in
theorem balanced_opened {t : Tiering} (hstore : t.hasStore = true) {b : Bench ν}
    (hstored : b.Stored) {objects : List Nat}
    (hobjects : ∀ f, f ∈ objects ↔ (b.files .store f).isSome = true) :
    (b.opened t objects).Balanced := by
  have hremoves : ∀ op ∈ Engine.reconcileOps t objects b.engine.manifest,
      ∃ p f, op = .remove p f := fun _ hop => exists_remove_of_mem_reconcileOps hop
  obtain ⟨b', hrun, hengine, hfiles⟩ := runOps_removes (b := b) hremoves
  rw [opened, hrun]
  intro f
  rw [hfiles .store f, segments, hengine]
  -- Which objects go.
  have hgone : (.remove .store f : Op ν) ∈ Engine.reconcileOps t objects b.engine.manifest ↔
      f ∈ objects ∧ ¬∃ s ∈ b.segments, s.tier = .remote ∧ s.file = f := by
    unfold Engine.reconcileOps
    rw [if_pos hstore]
    simp [Bench.segments]
  rw [hgone, hobjects f]
  constructor
  · rintro ⟨hsome, hnot⟩
    by_contra hnone
    exact hnot ⟨hsome, hnone⟩
  · rintro ⟨s, hs, htier, rfl⟩
    have hobject := (keeps_remote htier).mp (hstored s hs)
    exact ⟨by rw [hobject]; rfl, fun h => h.2 ⟨s, hs, htier, rfl⟩⟩

/-- After an open with an object store, and as long as no groom pass meets a remote segment, the
objects are those of the remote entries after every duty. -/
theorem objects_match {t : Tiering} (hstore : t.hasStore = true) {b : Bench ν} (hb : b.Sound)
    (hstored : b.Stored) {objects : List Nat}
    (hobjects : ∀ f, f ∈ objects ↔ (b.files .store f).isSome = true) {duties : List (Duty ν)}
    (hclear : EachStep (dutyStep t) (DutyClear t) (b.opened t objects) duties) :
    Throughout (dutyStep t) Balanced (b.opened t objects) duties := by
  have hstep : ∀ {b b' : Bench ν} {duty : Duty ν}, b.Sound ∧ b.Balanced → b.DutyClear t duty →
      b.dutyStep t duty = some b' → b'.Sound ∧ b'.Balanced := by
    rintro b b' duty ⟨hb, h⟩ hduty heq
    cases heq
    cases duty with
    | tick c => exact balanced_runPasses hstore hb h hduty
    | purgeKey key now => exact ⟨sound_runPass t hb _, balanced_runPass hstore hb h trivial⟩
    | writes memtable frozen => exact ⟨⟨hb.identity, hb.met_lt, hb.listed_met⟩, h⟩
  have hsound : (b.opened t objects).Sound := sound_runOps hb (follows_reconcile t hb objects)
  exact (throughout_of_step hstep ⟨hsound, balanced_opened hstore hstored hobjects⟩ hclear).mono
    fun _ h => h.2

end Bench

section Sample

local instance instObjectsUnicode : Unicode := asciiUnicode

local instance instObjectsFile : SegmentFile Int := footprintFile Int

/-- A remote segment with its object, and rows of ten nanoseconds' retention. -/
def remoteBench (stamp : Int64) : Bench Int where
  engine :=
    { config := { retentionNanos := some 10 }
      manifest :=
        { nextSegmentId := 1
          segments :=
            [{ Segment.ofRows 0 [Record.bare "a" stamp] with tier := .remote }] } }
  files := fun place file =>
    if place = .store ∧ file = 0 then some ⟨2, [Record.bare "a" stamp]⟩ else none
  met := [0]

def sampleClocks : Clocks := ⟨fun _ => 100, 100, 100, 100⟩

/-- The rows of a remote segment have expired: the tick drops its entry and leaves the object. -/
theorem groom_leaves_object :
    ((remoteBench 1).opened sampleTiering [0]).Balanced ∧
      ¬Throughout (Bench.dutyStep sampleTiering) Bench.Balanced
        ((remoteBench 1).opened sampleTiering [0]) [.tick sampleClocks] := by
  refine ⟨fun f => ?_, fun h => ?_⟩
  · by_cases hf : f = 0
    · subst hf
      exact ⟨fun _ => ⟨_, List.mem_singleton.mpr rfl, rfl, rfl⟩, fun _ => rfl⟩
    · have hnone : ((remoteBench 1).opened sampleTiering [0]).files .store f = none :=
        if_neg (fun h => hf h.2)
      rw [hnone]
      refine ⟨fun h => absurd h Bool.false_ne_true, ?_⟩
      rintro ⟨s, hs, -, rfl⟩
      cases List.mem_singleton.mp hs
      exact absurd rfl hf
  · have hlast : (((remoteBench 1).opened sampleTiering [0]).duty sampleTiering
        (.tick sampleClocks)).Balanced := h.last rfl
    obtain ⟨s, hs, -⟩ := (hlast 0).mp (by decide)
    have hnone : (((remoteBench 1).opened sampleTiering [0]).duty sampleTiering
        (.tick sampleClocks)).segments = [] := by decide
    rw [hnone] at hs
    exact absurd hs List.not_mem_nil

theorem remoteBench_sound (stamp : Int64) : (remoteBench stamp).Sound := by
  have hseg : ∀ {s : Segment Int}, s ∈ (remoteBench stamp).segments → s.id = 0 ∧ s.file = 0 := by
    intro s hs
    cases List.mem_singleton.mp hs
    exact ⟨rfl, rfl⟩
  refine ⟨⟨List.nodup_singleton _, List.nodup_singleton _, fun hs => ?_, fun hs => ?_⟩,
    fun {f} hf => ?_, fun hs => ?_⟩
  · rw [(hseg hs).1]
    exact Nat.zero_lt_one
  · rw [(hseg hs).2]
    exact Nat.zero_lt_one
  · cases List.mem_singleton.mp hf
    exact Nat.zero_lt_one
  · rw [(hseg hs).2]
    exact List.mem_singleton.mpr rfl

/-- A tick over a remote segment with live rows. -/
theorem objects_match_remoteBench :
    Throughout (Bench.dutyStep sampleTiering) Bench.Balanced
      ((remoteBench 95).opened sampleTiering [0]) [.tick sampleClocks] := by
  refine Bench.objects_match rfl (remoteBench_sound 95) (fun s hs => ?_) (fun f => ?_)
    fun b' hb' => ⟨?_, trivial⟩
  · cases List.mem_singleton.mp hs
    rfl
  · by_cases hf : f = 0
    · subst hf
      decide
    · have hnone : (remoteBench 95).files .store f = none := if_neg (fun h => hf h.2)
      simp [hnone, hf]
  · -- Only the groom pass asks for something.
    refine ⟨trivial, fun b₁ h₁ => ⟨trivial, fun b₂ h₂ => ⟨trivial, fun b₃ h₃ => ⟨trivial,
      fun b₄ h₄ => ⟨?_, fun b₅ h₅ => ⟨trivial, fun _ _ => trivial⟩⟩⟩⟩⟩⟩
    cases congrArg Prod.fst h₁
    cases congrArg Prod.fst h₂
    cases congrArg Prod.fst h₃
    cases congrArg Prod.fst h₄
    show ∀ m ∈ Engine.groomCandidates _ _, m.tier ≠ .remote
    decide

end Sample

end Girder
