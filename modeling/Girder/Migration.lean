import Girder.Quiet
import Girder.Restarts

/-!
# Migration — older formats go away

A migrate pass rewrites at most one segment.  Over a run this is enough: no operation of any pass
lists a segment in an older format anew, and a migrate pass that returns takes one such segment away
as long as the local tiers have one (`System.migration_converges`).  Passes that give up and crashes
cost nothing but their own pass; only a crash in the middle of a move strands an entry, whose file no
migrate pass finds.  Remote segments are passed over, in whatever format they went there.
-/

namespace Girder

open Lib

variable {ν : Type}

/-! ## Segments in an older format -/

/-- The segments of the local tiers whose file is in an older format. -/
def legacyOf (segments : List (Segment ν)) : List (Segment ν) :=
  segments.filter (fun s => decide (s.tier ≠ .remote) && decide (s.version < 2))

/-- What says of a listed segment which one it is, also when its tier changes. -/
def Segment.entry (s : Segment ν) : Nat × Nat := (s.id, s.file)

def Bench.legacy (b : Bench ν) : List (Segment ν) := legacyOf b.segments

theorem mem_legacyOf {segments : List (Segment ν)} {s : Segment ν} :
    s ∈ legacyOf segments ↔ s ∈ segments ∧ s.tier ≠ .remote ∧ s.version < 2 := by
  simp [legacyOf]

theorem legacyOf_append (xs ys : List (Segment ν)) :
    legacyOf (xs ++ ys) = legacyOf xs ++ legacyOf ys :=
  List.filter_append ..

theorem legacyOf_of_modern {segments : List (Segment ν)} (h : ∀ s ∈ segments, s.version = 2) :
    legacyOf segments = [] := by
  refine List.filter_eq_nil_iff.2 fun s hs => ?_
  simp [h s hs]

/-- The operation lists no segment in an older format. -/
def Op.Modern : Op ν → Prop
  | .swap _ outputs => ∀ o ∈ outputs, o.version = 2
  | _ => True

theorem Op.modern_of_not_stores {op : Op ν} (h : op.stores = false) : op.Modern := by
  cases op with
  | swap ids outputs => cases h
  | _ => trivial

namespace Bench

variable {b b' : Bench ν}

/-- A change of tier lists nothing else, and only a local segment changes its tier. -/
theorem legacyOf_setTier (hb : b.Sound) {id : Nat} {tier : Tier}
    (hallow : b.Allows (.setTier id tier)) :
    ((legacyOf ((Op.setTier id tier).listed b.segments)).map Segment.entry).Sublist
      (b.legacy.map Segment.entry) := by
  obtain ⟨x, hx, rfl, hcase⟩ := hallow
  refine map_filter_map_sublist (fun s _ => ?_) (fun s hs hlegacy => ?_)
  · split <;> rfl
  · rw [Bool.and_eq_true, decide_eq_true_iff, decide_eq_true_iff] at hlegacy ⊢
    split at hlegacy
    · rename_i hid
      obtain rfl := hb.identity.id_inj hs hx hid
      rcases hcase with ⟨-, hhot, -⟩ | ⟨rfl, -, -⟩
      · exact ⟨by rw [hhot]; exact Tier.noConfusion, hlegacy.2⟩
      · exact absurd rfl hlegacy.1
    · exact hlegacy

/-- A swap lists what it leaves and modern outputs. -/
theorem legacyOf_swap {ids : List Nat} {outputs segments : List (Segment ν)}
    (houtputs : ∀ o ∈ outputs, o.version = 2) :
    legacyOf ((Op.swap ids outputs).listed segments) =
      (legacyOf segments).filter (fun s => !ids.contains s.id) := by
  calc legacyOf (segments.filter (fun s => !ids.contains s.id) ++ outputs)
      = legacyOf (segments.filter (fun s => !ids.contains s.id)) := by
        rw [legacyOf_append, legacyOf_of_modern houtputs, List.append_nil]
    _ = (legacyOf segments).filter (fun s => !ids.contains s.id) := by
        unfold legacyOf
        rw [List.filter_filter, List.filter_filter]
        exact List.filter_congr fun s _ => Bool.and_comm _ _

/-- A modern operation adds nothing to the segments in an older format. -/
theorem legacy_sublist_of_exec (hb : b.Sound) {op : Op ν} (hallow : b.Allows op) (hop : op.Modern)
    (hexec : b.exec op = .ok b') :
    (b'.legacy.map Segment.entry).Sublist (b.legacy.map Segment.entry) := by
  obtain ⟨-, hlisted, -, -⟩ := exec_listed hexec
  show ((legacyOf b'.segments).map Segment.entry).Sublist _
  rw [hlisted]
  cases op with
  | swap ids outputs =>
      rw [legacyOf_swap hop]
      exact List.filter_sublist.map _
  | setTier id tier => exact legacyOf_setTier hb hallow
  | _ => exact List.Sublist.refl _

end Bench

/-! ## What the passes list -/

section Scripts

variable [SegmentFile ν]

theorem modern_flushOps {clock : Nat → Int64} {op : Op ν} {frozen : List (Nat × MemTable ν)} :
    ∀ {n : Nat}, op ∈ Engine.flushOps clock n frozen → op.Modern := by
  induction frozen with
  | nil => exact fun h => absurd h List.not_mem_nil
  | cons f frozen ih =>
      intro n h
      rw [Engine.flushOps] at h
      simp only [List.mem_append, List.mem_cons, List.not_mem_nil, or_false] at h
      rcases h with (h | rfl | rfl) | h
      · exact Op.modern_of_not_stores (stores_outputOps op h)
      · intro o ho
        rw [List.mem_singleton.1 ho]
        rfl
      · trivial
      · exact ih h

theorem modern_rewriteOps {e : Engine ν} {s : Segment ν} {rows : List (Record ν)}
    {drop : List (Op ν)} (hdrop : ∀ op ∈ drop, op.stores = false) {op : Op ν}
    (h : op ∈ e.rewriteOps s rows drop) : op.Modern := by
  unfold Engine.rewriteOps at h
  split at h
  · rcases List.mem_cons.1 h with rfl | h
    · exact fun o ho => absurd ho List.not_mem_nil
    · exact Op.modern_of_not_stores (hdrop op h)
  · simp only [List.mem_append, List.mem_cons, List.not_mem_nil, or_false] at h
    rcases h with h | rfl | rfl
    · exact Op.modern_of_not_stores (stores_outputOps op h)
    · intro o ho
      rw [List.mem_singleton.1 ho]
      rfl
    · trivial

theorem version_writeOutputs {reuseIds : List Nat} {idBase : Nat} {created : Int64} {o : Segment ν}
    {chunks : List (List (Record ν))} :
    ∀ {ci next : Nat}, o ∈ (writeOutputs reuseIds idBase created ci next chunks).1 →
      o.version = 2 := by
  induction chunks with
  | nil => exact fun h => absurd h List.not_mem_nil
  | cons chunk chunks ih =>
      intro ci next h
      rcases List.mem_cons.1 h with rfl | h
      · rfl
      · exact ih h

/-- The loop of a migration, oldest first. -/
theorem modern_migrateOps {files : Files ν} {op : Op ν} {ss : List (Segment ν)} :
    ∀ {n : Nat}, op ∈ Engine.migrateOps files n ss → op.Modern := by
  induction ss with
  | nil => exact fun h => absurd h List.not_mem_nil
  | cons s ss ih =>
      intro n h
      rw [Engine.migrateOps] at h
      split at h
      · exact ih h
      · split at h
        · exact ih h
        · dsimp only at h
          split at h
          · rcases List.mem_append.1 h with h | h
            · refine Op.modern_of_not_stores ?_
              rcases List.mem_cons.1 h with rfl | h
              · rfl
              · rw [List.mem_singleton.1 h]
                rfl
            · exact ih h
          · simp only [List.cons_append, List.mem_append, List.mem_cons, List.not_mem_nil,
              or_false] at h
            rcases h with rfl | h | rfl | rfl
            · trivial
            · exact Op.modern_of_not_stores (stores_outputOps op h)
            · intro o ho
              rw [List.mem_singleton.1 ho]
              rfl
            · trivial

variable [Numeral ν]

theorem modern_compactRunOps {t : Tiering} {e : Engine ν} {run : List (Segment ν)}
    {purge : Option String} {now : Int64} {op : Op ν} (h : op ∈ e.compactRunOps t run purge now) :
    op.Modern := by
  unfold Engine.compactRunOps at h
  simp only [List.mem_append, List.mem_singleton, List.mem_flatMap] at h
  rcases h with ((h | h) | rfl) | ⟨s, -, h⟩
  · exact Op.modern_of_not_stores (stores_reads op h)
  · exact Op.modern_of_not_stores (stores_outputOps op h)
  · exact fun o ho => version_writeOutputs ho
  · exact Op.modern_of_not_stores (stores_dropFile op h)

theorem modern_reclaimOps {t : Tiering} {e : Engine ν} {op : Op ν} (h : op ∈ e.reclaimOps t) :
    op.Modern := by
  cases hpick : e.reclaimPick with
  | none =>
      rw [Engine.reclaimOps, hpick] at h
      exact absurd h List.not_mem_nil
  | some cand =>
      rw [Bench.reclaimOps_some t hpick] at h
      rcases List.mem_append.1 h with h | h
      · simp only [List.mem_cons, List.not_mem_nil, or_false] at h
        rcases h with rfl | rfl <;> trivial
      · split at h
        · exact absurd h List.not_mem_nil
        · rcases List.mem_append.1 h with h | h
          · exact Op.modern_of_not_stores (stores_reads op h)
          · unfold Bench.reclaimRest at h
            dsimp only at h
            split at h
            · exact absurd h List.not_mem_nil
            · rcases List.mem_cons.1 h with rfl | h
              · trivial
              · exact modern_rewriteOps stores_dropFile h

theorem modern_groomLoopOps {now : Int64} {op : Op ν} {ms : List (Segment ν)} :
    ∀ {e : Engine ν}, op ∈ Engine.groomLoopOps now ms e → op.Modern := by
  induction ms with
  | nil => exact fun h => absurd h List.not_mem_nil
  | cons m ms ih =>
      intro e h
      rw [Engine.groomLoopOps] at h
      rcases List.mem_append.1 h with h | h
      · unfold Engine.groomOneOps at h
        split at h
        · -- an expired segment is dropped, and nothing listed for it
          simp only [List.mem_cons, List.not_mem_nil, or_false] at h
          rcases h with rfl | rfl
          · exact fun o ho => absurd ho List.not_mem_nil
          · trivial
        · rcases List.mem_cons.1 h with rfl | h
          · trivial
          · split at h
            · exact absurd h List.not_mem_nil
            · refine modern_rewriteOps (fun x hx => ?_) h
              rw [List.mem_singleton.1 hx]
              rfl
      · exact ih h

/-- What a pass writes is in the current format. -/
theorem Pass.modern (t : Tiering) (b : Bench ν) {op : Op ν} :
    ∀ {pass : Pass}, op ∈ pass.ops t b → op.Modern
  | .flush clock, h => modern_flushOps h
  | .compact now, h => by
      simp only [Pass.ops, Engine.compactOps] at h
      split at h
      · exact absurd h List.not_mem_nil
      · exact modern_compactRunOps h
  | .purge key now, h => by
      -- The check stores nothing.
      have hcheck : ∀ run : List (Segment ν), op ∈ Engine.purgeCheckOps key run → op.Modern := by
        intro run
        induction run with
        | nil => exact fun h => absurd h List.not_mem_nil
        | cons m run ih =>
            intro h
            rcases List.mem_cons.1 h with rfl | h
            · trivial
            · split at h
              · rw [List.mem_singleton.1 h]
                trivial
              · exact ih h
      simp only [Pass.ops, Engine.purgeOps] at h
      split at h
      · exact absurd h List.not_mem_nil
      · rcases List.mem_append.1 h with h | h
        · exact hcheck _ h
        · exact modern_compactRunOps h
  | .reclaim, h => modern_reclaimOps h
  | .tier now, h => by
      rcases Engine.cases_of_mem_tierOps h with ⟨s, -, h⟩ | ⟨-, s, -, h⟩
      · rcases Engine.cases_of_mem_coldMove h with rfl | rfl | rfl | rfl <;> trivial
      · rcases Engine.cases_of_mem_remoteMove h with rfl | rfl | rfl <;> trivial
  | .groom now, h => by
      simp only [Pass.ops, Engine.groomOps] at h
      split at h
      · exact absurd h List.not_mem_nil
      · exact modern_groomLoopOps h
  | .migrate, h => modern_migrateOps h

end Scripts

/-! ## What a migration finds -/

namespace Bench

variable {b b' : Bench ν}

/-- In a settled store a local file is at its path. -/
theorem Settled.at_path (h : b.Settled) {s : Segment ν} (hs : s ∈ b.segments)
    (htier : s.tier ≠ .remote) : b.files s.tier.place s.file = some s.data := by
  have hkept := h.stored s hs
  cases hplace : s.tier with
  | hot =>
      cases hfile : b.files .hot s.file with
      | none =>
          obtain ⟨_, hnil⟩ := h.tidy s ⟨hs, hplace, hfile⟩
          cases hnil
      | some data => exact hfile.trans (congrArg some (hkept.hot_eq hplace hfile))
  | cold => exact (keeps_cold hplace).1 hkept
  | remote => exact absurd hplace htier

/-- A script that lists, after operations that store nothing, the new file of a legacy segment. -/
def Renews (segments : List (Segment ν)) (ops : List (Op ν)) : Prop :=
  ∃ s ∈ legacyOf segments, ∃ pre outputs post, ops = pre ++ .swap [s.id] outputs :: post ∧
    (∀ op ∈ pre, op.stores = false) ∧ ∀ o ∈ outputs, o.version = 2

theorem Renews.after {segments : List (Segment ν)} {xs ops : List (Op ν)}
    (hxs : ∀ op ∈ xs, op.stores = false) (h : Renews segments ops) :
    Renews segments (xs ++ ops) := by
  obtain ⟨s, hs, pre, outputs, post, rfl, hpre, houtputs⟩ := h
  refine ⟨s, hs, xs ++ pre, outputs, post, (List.append_assoc ..).symm, fun op hop => ?_, houtputs⟩
  rcases List.mem_append.1 hop with hop | hop
  · exact hxs op hop
  · exact hpre op hop

/-- A migration that has a legacy segment among its candidates comes to one. -/
theorem renews_migrateOps [SegmentFile ν] (h : b.Settled) {ss : List (Segment ν)} :
    ∀ {n : Nat}, (∀ s ∈ ss, s ∈ b.segments) → (∃ s ∈ ss, s ∈ b.legacy) →
      Renews b.segments (Engine.migrateOps b.files n ss) := by
  induction ss with
  | nil => exact fun _ hex => absurd hex (by simp)
  | cons s ss ih =>
      intro n hss hex
      have hs := hss s List.mem_cons_self
      have hrest : s ∉ b.legacy → ∀ n, Renews b.segments (Engine.migrateOps b.files n ss) := by
        intro hnot n
        refine ih (fun x hx => hss x (List.mem_cons_of_mem s hx)) ?_
        obtain ⟨x, hx, hlegacy⟩ := hex
        rcases List.mem_cons.1 hx with rfl | hx
        · exact absurd hlegacy hnot
        · exact ⟨x, hx, hlegacy⟩
      rw [Engine.migrateOps]
      split
      · -- Only a remote segment can be missed.
        rename_i hnone
        refine hrest (fun hlegacy => ?_) n
        rw [h.at_path hs (mem_legacyOf.1 hlegacy).2.1] at hnone
        cases hnone
      · rename_i data hdata
        have hversion : s.tier ≠ .remote → data.version = s.version := by
          intro htier
          rw [h.at_path hs htier] at hdata
          exact (congrArg FileData.version (Option.some.inj hdata)).symm
        split
        · rename_i hcurrent
          refine hrest (fun hlegacy => ?_) n
          obtain ⟨-, htier, hold⟩ := mem_legacyOf.1 hlegacy
          rw [hversion htier] at hcurrent
          exact absurd hold (Nat.not_lt.2 hcurrent)
        · rename_i hold
          dsimp only
          split
          · rename_i hremote
            refine (hrest (fun hlegacy => (mem_legacyOf.1 hlegacy).2.1 hremote) (n + 1)).after ?_
            simp [Op.stores]
          · rename_i hlocal
            have htier : s.tier ≠ .remote := hlocal
            rw [hversion htier, Nat.not_le] at hold
            refine ⟨s, mem_legacyOf.2 ⟨hs, htier, hold⟩,
              .read s :: outputOps n [Engine.migratedSegment n s], _, _, rfl, fun op hop => ?_, ?_⟩
            · rcases List.mem_cons.1 hop with rfl | hop
              · rfl
              · exact stores_outputOps op hop
            · intro o ho
              rw [List.mem_singleton.1 ho]
              rfl

/-- The swap of a legacy segment leaves one less. -/
theorem length_legacy_swap {s : Segment ν} (hs : s ∈ b.legacy) {outputs : List (Segment ν)}
    (houtputs : ∀ o ∈ outputs, o.version = 2) (hexec : b.exec (.swap [s.id] outputs) = .ok b') :
    b'.legacy.length < b.legacy.length := by
  obtain ⟨-, hlisted, -, -⟩ := exec_listed hexec
  calc b'.legacy.length
      = (b.legacy.filter (fun x => !List.contains [s.id] x.id)).length := by
        show (legacyOf b'.segments).length = _
        rw [hlisted, legacyOf_swap houtputs]
        rfl
    _ < b.legacy.length := by
        refine List.length_filter_lt_length_iff_exists.2 ⟨s, hs, ?_⟩
        simp

end Bench

/-! ## Runs -/

namespace System

variable [Numeral ν] [SegmentFile ν] {t : Tiering} {sys sys' : System ν}

/-- A step of the pass the actor is in, or of the rest of the process. -/
def Undisturbed (t : Tiering) (sys sys' : System ν) : Prop :=
  ∃ ev, Step t sys ev sys' ∧ ev ≠ .crashed ∧ ((∃ op, ev = .did op) ∨ sys'.todo = sys.todo)

/-- The runs in which no crash comes in the middle of a move, with the number of migrate passes that
have returned. -/
inductive Migrating (t : Tiering) (start : System ν) : Nat → System ν → Prop
  | start : Migrating t start 0 start
  | step {n : Nat} {sys sys' : System ν} {ev : Event ν} : Migrating t start n sys →
      Step t sys ev sys' → (ev = .crashed → ¬sys.MidMove) → Migrating t start n sys'
  | migrated {n : Nat} {sys sys' : System ν} : Migrating t start n sys → sys.todo = [] →
      Relation.ReflTransGen (Undisturbed t) { sys with todo := Pass.migrate.ops t sys.bench } sys' →
      sys'.todo = [] → Migrating t start (n + 1) sys'

omit [Numeral ν] [SegmentFile ν] in
theorem Orderly.settled (h : sys.Orderly) (htodo : sys.todo = []) : sys.bench.Settled := by
  refine ⟨h.inOrder.sound, h.stored, ?_⟩
  rw [← htodo]
  exact h.tidy

/-- A crash outside a move leaves the store orderly. -/
theorem Orderly.crash (h : sys.Orderly) {config : Config} {objects : List Nat}
    (hobjects : ∀ f, f ∈ objects ↔ (sys.bench.files .store f).isSome = true)
    (hmove : ¬sys.MidMove) :
    ({ bench := sys.reopened config
       disk := sys.disk
       todo := Engine.reconcileOps t objects sys.disk } : System ν).Orderly := by
  have hstep : Step t sys .crashed _ := .crash config objects hobjects
  refine ⟨h.inOrder.step hstep, stored_of_step h.inOrder h.stored hstep, fun s hs => ?_, ?_⟩
  · have hseg : (sys.reopened config).segments = sys.bench.segments := h.inOrder.segments_eq
    obtain ⟨rest, htodo⟩ := h.tidy s ⟨hseg ▸ hs.1, hs.2⟩
    exact absurd ⟨s.id, rest, htodo⟩ hmove
  · have hremoves : ∀ op ∈ (Engine.reconcileOps t objects sys.disk : List (Op ν)),
        op.Within [] (fun _ => False) := by
      intro op hop
      obtain ⟨place, file, rfl⟩ := Bench.exists_remove_of_mem_reconcileOps hop
      trivial
    exact shaped_of_within hremoves

/-- What holds at every step: the rest of the script lists nothing in an older format. -/
structure Current (sys : System ν) : Prop where
  orderly : sys.Orderly
  modern : ∀ op ∈ sys.todo, op.Modern

/-- No step adds to the segments in an older format. -/
theorem Current.step {ev : Event ν} (h : sys.Current) (hstep : Step t sys ev sys')
    (hcrash : ev = .crashed → ¬sys.MidMove) :
    sys'.Current ∧
      (sys'.bench.legacy.map Segment.entry).Sublist (sys.bench.legacy.map Segment.entry) := by
  have horderly : sys'.Orderly := by
    by_cases hev : ev = .crashed
    · subst hev
      cases hstep with
      | crash config objects hobjects => exact h.orderly.crash hobjects (hcrash rfl)
    · exact h.orderly.step hstep hev
  cases hstep with
  | begin pass htodo => exact ⟨⟨horderly, fun op hop => Pass.modern t _ hop⟩, List.Sublist.refl _⟩
  | @perform op rest b htodo hperform =>
      have hmodern := h.modern
      have hfollows := h.orderly.inOrder.follows
      rw [htodo] at hmodern hfollows
      refine ⟨⟨horderly, fun x hx => hmodern x (List.mem_cons_of_mem op hx)⟩, ?_⟩
      exact Bench.legacy_sublist_of_exec h.orderly.inOrder.sound hfollows.1
        (hmodern op List.mem_cons_self) (Bench.exec_of_perform hperform)
  | abort htodo hperform =>
      exact ⟨⟨horderly, fun op hop => absurd hop List.not_mem_nil⟩, List.Sublist.refl _⟩
  | crash config objects hobjects =>
      refine ⟨⟨horderly, fun op hop => ?_⟩, ?_⟩
      · obtain ⟨place, file, rfl⟩ := Bench.exists_remove_of_mem_reconcileOps hop
        trivial
      · show ((legacyOf sys.disk.segments).map Segment.entry).Sublist _
        rw [h.orderly.inOrder.segments_eq]
        exact List.Sublist.refl _
  | _ => exact ⟨⟨horderly, h.modern⟩, List.Sublist.refl _⟩

/-- A migrate pass under way: it has taken its segment away, or has it still ahead. -/
def Owes (left : Nat) (sys : System ν) : Prop :=
  sys.bench.legacy.length ≤ left ∨
    sys.bench.legacy.length ≤ left + 1 ∧ Bench.Renews sys.bench.segments sys.todo

theorem Owes.step {left : Nat} (h : sys.Owes left) (hcurrent : sys.Current)
    (hstep : Undisturbed t sys sys') : sys'.Owes left := by
  obtain ⟨ev, hstep, hcrash, hdid⟩ := hstep
  have hless : sys'.bench.legacy.length ≤ sys.bench.legacy.length := by
    obtain ⟨-, hsublist⟩ := hcurrent.step hstep (fun heq => absurd heq hcrash)
    simpa only [List.length_map] using hsublist.length_le
  rcases h with hdone | ⟨hleft, hrenews⟩
  · exact .inl (hless.trans hdone)
  by_cases hdone : ∃ op, ev = .did op
  · obtain ⟨op, rfl⟩ := hdone
    obtain ⟨s, hs, pre, outputs, post, htodo, hpre, houtputs⟩ := hrenews
    cases hstep with
    | @perform _ rest b hnext hperform =>
        have hexec := Bench.exec_of_perform hperform
        rw [hnext] at htodo
        cases pre with
        | nil =>
            -- The swap itself.
            obtain ⟨rfl, rfl⟩ := List.cons.inj htodo
            have hlt := Bench.length_legacy_swap hs houtputs hexec
            exact .inl (Nat.le_of_lt_succ (hlt.trans_le hleft))
        | cons op' pre =>
            obtain ⟨rfl, rfl⟩ := List.cons.inj htodo
            refine .inr ⟨hless.trans hleft, s, ?_, pre, outputs, post, rfl,
              fun x hx => hpre x (List.mem_cons_of_mem _ hx), houtputs⟩
            rw [segments_of_exec hexec (hpre _ List.mem_cons_self)]
            exact hs
  · -- Nothing but an operation of the pass changes what is listed.
    have hsegments : sys'.bench.segments = sys.bench.segments := by
      cases hstep with
      | perform htodo hperform => exact absurd ⟨_, rfl⟩ hdone
      | crash config objects hobjects => exact absurd rfl hcrash
      | _ => rfl
    refine .inr ⟨hless.trans hleft, ?_⟩
    rw [hsegments, hdid.resolve_left hdone]
    exact hrenews

/-- A migrate pass that returns leaves one legacy segment less. -/
theorem Current.migrated (h : sys.Current) (htodo : sys.todo = [])
    (hpass : Relation.ReflTransGen (Undisturbed t)
      { sys with todo := Pass.migrate.ops t sys.bench } sys') (hdone : sys'.todo = []) :
    sys'.Current ∧
      (sys'.bench.legacy.map Segment.entry).Sublist (sys.bench.legacy.map Segment.entry) ∧
      sys'.bench.legacy.length ≤ sys.bench.legacy.length - 1 := by
  have hbegin : ({ sys with todo := Pass.migrate.ops t sys.bench } : System ν).Current :=
    (h.step (.begin .migrate htodo) nofun).1
  have howes : ({ sys with todo := Pass.migrate.ops t sys.bench } : System ν).Owes
      (sys.bench.legacy.length - 1) := by
    cases hlegacy : sys.bench.legacy with
    | nil => exact .inl (le_of_eq (congrArg List.length hlegacy))
    | cons s rest =>
        -- The script renews the first of them at least.
        have hmem : s ∈ sys.bench.legacy := hlegacy ▸ List.mem_cons_self
        refine .inr ⟨le_of_eq (congrArg List.length hlegacy), ?_⟩
        exact Bench.renews_migrateOps (h.orderly.settled htodo) (fun x hx => (mem_sortAsc _).1 hx)
          ⟨s, (mem_sortAsc _).2 (mem_legacyOf.1 hmem).1, hmem⟩
  have hrun : sys'.Current ∧
      (sys'.bench.legacy.map Segment.entry).Sublist (sys.bench.legacy.map Segment.entry) ∧
      sys'.Owes (sys.bench.legacy.length - 1) := by
    clear hdone
    induction hpass with
    | refl => exact ⟨hbegin, List.Sublist.refl _, howes⟩
    | tail _ hlast ih =>
        obtain ⟨hcurrent, hsublist, howes⟩ := ih
        obtain ⟨ev, hstep, hcrash, -⟩ := id hlast
        obtain ⟨hnext, hless⟩ := hcurrent.step hstep (fun heq => absurd heq hcrash)
        exact ⟨hnext, hless.trans hsublist, howes.step hcurrent hlast⟩
  obtain ⟨hcurrent, hsublist, howes⟩ := hrun
  refine ⟨hcurrent, hsublist, ?_⟩
  rcases howes with hless | ⟨-, s, -, pre, outputs, post, hnil, -⟩
  · exact hless
  · rw [hdone] at hnil
    exact absurd hnil.symm (by simp)

/-- A script that completes is a run of its own. -/
theorem undisturbed_of_runOps {ops : List (Op ν)} :
    ∀ {b b' : Bench ν} {disk : Manifest ν}, Bench.runOps ops b = (b', .ok ()) →
      ∃ disk', Relation.ReflTransGen (Undisturbed t)
        { bench := b, disk := disk, todo := ops } { bench := b', disk := disk', todo := [] } := by
  induction ops with
  | nil =>
      intro b b' disk hrun
      cases hrun
      exact ⟨disk, .refl⟩
  | cons op ops ih =>
      intro b b' disk hrun
      cases hop : b.perform op with
      | error e =>
          rw [Bench.runOps_cons_error _ hop] at hrun
          cases hrun
      | ok b₁ =>
          rw [Bench.runOps_cons_ok _ hop] at hrun
          obtain ⟨disk', hrest⟩ := @ih b₁ b' (if op.stores then b₁.engine.manifest else disk) hrun
          exact ⟨disk', .head ⟨_, .perform rfl hop, nofun, .inl ⟨op, rfl⟩⟩ hrest⟩

/-- The migrate pass of a tick. -/
theorem Migrating.runPass {start : System ν} {n : Nat} (h : Migrating t start n sys)
    (htodo : sys.todo = []) {b : Bench ν} (hpass : sys.bench.runPass t .migrate = (b, .ok ())) :
    ∃ disk, Migrating t start (n + 1) { bench := b, disk := disk, todo := [] } := by
  obtain ⟨disk, hrun⟩ := @undisturbed_of_runOps ν _ _ t _ _ _ sys.disk hpass
  exact ⟨disk, .migrated h htodo hrun rfl⟩

/-- From a settled store, with every other pass, the writer, reads, passes that give up and crashes
outside a move in between: no step lists a segment in an older format anew, and `n` migrate passes that
return take `n` of them away, or all there are. -/
theorem migration_converges {start : System ν} {n : Nat} (hstart : start.Opened)
    (hsettled : start.bench.Settled) (hrun : Migrating t start n sys) :
    (∀ ev sys', Step t sys ev sys' → (ev = .crashed → ¬sys.MidMove) →
      (sys'.bench.legacy.map Segment.entry).Sublist (sys.bench.legacy.map Segment.entry)) ∧
    (sys.bench.legacy.map Segment.entry).Sublist (start.bench.legacy.map Segment.entry) ∧
      sys.bench.legacy.length ≤ start.bench.legacy.length - n := by
  have hbegin : start.Current := by
    refine ⟨Reachable.orderly (t := t) hstart hsettled .start, fun op hop => ?_⟩
    rw [hstart.todo_eq] at hop
    exact absurd hop List.not_mem_nil
  have hinv : sys.Current ∧
      (sys.bench.legacy.map Segment.entry).Sublist (start.bench.legacy.map Segment.entry) ∧
      sys.bench.legacy.length ≤ start.bench.legacy.length - n := by
    induction hrun with
    | start => exact ⟨hbegin, List.Sublist.refl _, Nat.le_refl _⟩
    | @step n sys sys' ev _ hstep hcrash ih =>
        obtain ⟨hcurrent, hsublist, hleft⟩ := ih
        obtain ⟨hnext, hless⟩ := hcurrent.step hstep hcrash
        refine ⟨hnext, hless.trans hsublist, le_trans ?_ hleft⟩
        simpa only [List.length_map] using hless.length_le
    | @migrated n sys sys' _ htodo hpass hdone ih =>
        obtain ⟨hcurrent, hsublist, hleft⟩ := ih
        obtain ⟨hnext, hless, hone⟩ := hcurrent.migrated htodo hpass hdone
        refine ⟨hnext, hless.trans hsublist, ?_⟩
        calc sys'.bench.legacy.length
            ≤ sys.bench.legacy.length - 1 := hone
          _ ≤ start.bench.legacy.length - n - 1 := Nat.sub_le_sub_right hleft 1
          _ = start.bench.legacy.length - (n + 1) := Nat.sub_sub ..
  exact ⟨fun ev sys' hstep hcrash => (hinv.1.step hstep hcrash).2, hinv.2⟩

end System

section Sample

local instance instMigrationFile : SegmentFile Int := footprintFile Int

/-- A cold and a hot segment in the first format. -/
def legacySegments : List (Segment Int) :=
  [{ Segment.ofRows 0 [Record.bare "a" 1] with tier := .cold, version := 1 },
    { Segment.ofRows 1 [Record.bare "b" 2] with version := 1 }]

def legacyStore : System Int where
  bench :=
    { engine := { config := {}, manifest := { nextSegmentId := 2, segments := legacySegments } }
      files := filed legacySegments
      met := [0, 1] }
  disk := { nextSegmentId := 2, segments := legacySegments }

/-- The store after some migrate passes. -/
def migratedTo (k : Nat) : Bench Int :=
  (fun b => (b.runPass sampleTiering .migrate).1)^[k] legacyStore.bench

theorem legacyStore_opened : legacyStore.Opened :=
  ⟨⟨by decide, by decide, fun {s} => (by decide : ∀ s ∈ legacySegments, s.id < 2) s,
    fun {s} => (by decide : ∀ s ∈ legacySegments, s.file < 2) s⟩, rfl, rfl, rfl⟩

/-- Two passes migrate both segments, each in its tier. -/
theorem migration_converges_legacyStore :
    (migratedTo 2).segments.map (fun s => (s.id, s.file, s.tier)) =
        [(0, 2, .cold), (1, 3, .hot)] ∧
      (migratedTo 2).legacy.length ≤ legacyStore.bench.legacy.length - 2 := by
  have hplaced : ∀ s ∈ legacySegments, s.tier ≠ .remote ∧
      filed legacySegments s.tier.place s.file = some s.data := by
    intro s hs
    rcases List.mem_cons.1 hs with rfl | hs
    · exact ⟨Tier.noConfusion, rfl⟩
    · rw [List.mem_singleton.1 hs]
      exact ⟨Tier.noConfusion, rfl⟩
  have hsettled : legacyStore.bench.Settled :=
    Bench.settled_of_placed legacyStore_opened.inOrder.sound (fun s hs _ => (hplaced s hs).2)
      (fun s hs htier => absurd htier (hplaced s hs).1)
  have hfirst : legacyStore.bench.runPass sampleTiering .migrate = (migratedTo 1, .ok ()) := by rfl
  have hsecond : (migratedTo 1).runPass sampleTiering .migrate = (migratedTo 2, .ok ()) := by rfl
  obtain ⟨_, hone⟩ := System.Migrating.start.runPass rfl hfirst
  obtain ⟨_, htwo⟩ := hone.runPass rfl hsecond
  exact ⟨by decide, (System.migration_converges legacyStore_opened hsettled htwo).2.2⟩

end Sample

end Girder
