import Girder.Stranded

/-!
# Restarts — the tick after a crash

Between any two operations of a run the state is `Orderly`: the only stranded entry is the one the next
operation lists as cold.  A crash there strands it for good, since a reopen reads the manifest and
leaves the hot and cold files of local entries alone.  The tick after a crash therefore returns exactly
if the crash was not in the middle of a move and its audit finds its evidence
(`System.tick_after_crash`).
-/

namespace Girder

open Lib

variable {ν : Type}

namespace Bench

variable {b b' : Bench ν} {s : Segment ν}

/-! ## A stranded entry stays -/

theorem IsStranded.exec (h : b.IsStranded s) {op : Op ν} (hspares : op.Spares s.id)
    (hallow : b.Allows op) (hexec : b.exec op = .ok b') : b'.IsStranded s :=
  ⟨mem_of_spares h.1 hspares hexec, h.2.1, hot_none_of_exec hallow hexec h.1 h.2.2⟩

theorem IsStranded.runOps (h : b.IsStranded s) {ops : List (Op ν)} (hfollows : b.Follows ops)
    (hspares : ∀ op ∈ ops, op.Spares s.id) : (Bench.runOps ops b).1.IsStranded s := by
  have hstep : ∀ {b b' : Bench ν} {op : Op ν}, b.IsStranded s → op.Spares s.id → b.Allows op →
      b.exec op = .ok b' → b'.IsStranded s :=
    fun hb hop hallow hexec => hb.exec hop hallow hexec
  exact runOps_keeps hstep h hfollows hspares

/-- The same where a script has completed. -/
theorem IsStranded.completed (h : b.IsStranded s) {ops : List (Op ν)} (hfollows : b.Follows ops)
    (hspares : ∀ op ∈ ops, op.Spares s.id) (hrun : Bench.runOps ops b = (b', .ok ())) :
    b'.IsStranded s := by
  have hkept := h.runOps hfollows hspares
  rw [hrun] at hkept
  exact hkept

/-- Nothing that opens the hot file of a stranded entry completes. -/
theorem IsStranded.not_found (h : b.IsStranded s) : b.files s.tier.place s.file = none := by
  rw [h.2.1]
  exact h.2.2

section Passes

variable [Numeral ν] [SegmentFile ν] {t : Tiering}

theorem IsStranded.flush (h : b.IsStranded s) (hb : b.Sound) {clock : Nat → Int64}
    (hrun : b.runPass t (.flush clock) = (b', .ok ())) : b'.IsStranded s := by
  refine h.completed (follows_pass t hb (.flush clock)) (fun op hop => ?_) hrun
  have hwithin : op.Within [] (fun _ => False) := within_flushOps hop
  exact hwithin.spares List.not_mem_nil

/-- A compaction that completes has not had the stranded entry in its run. -/
theorem IsStranded.compact (h : b.IsStranded s) (hb : b.Sound) {now : Int64}
    (hrun : b.runPass t (.compact now) = (b', .ok ())) : b'.IsStranded s := by
  unfold runPass at hrun
  simp only [Pass.ops, Engine.compactOps] at hrun
  split at hrun
  · cases hrun
    exact h
  · rename_i run hchoose
    obtain ⟨hcontiguous, _⟩ := chooseRun_contiguous hb.identity.ids_nodup hchoose
    by_cases hmem : s ∈ run
    · rw [Engine.compactRunOps, List.append_assoc, List.append_assoc] at hrun
      obtain ⟨b₁, hreads, _⟩ := runOps_of_append_ok hrun
      exact absurd h.not_found (found_of_reads hreads s ((mem_sortAsc _).mpr hmem))
    · refine h.completed (follows_compactRun t hb hcontiguous.toRunOf none now)
        (fun op hop => (within_compactRunOps hop).spares fun hid => ?_) hrun
      obtain ⟨x, hx, heq⟩ := List.mem_map.mp hid
      exact hmem (hb.identity.id_inj (hcontiguous.toRunOf.subset hx) h.1 heq ▸ hx)

/-- A reclaim pass that completes has not picked the stranded entry. -/
theorem IsStranded.reclaim (h : b.IsStranded s) (hb : b.Sound)
    (hrun : b.runPass t .reclaim = (b', .ok ())) : b'.IsStranded s := by
  cases hpick : b.engine.reclaimPick with
  | none =>
      unfold runPass at hrun
      simp only [Pass.ops, Engine.reclaimOps, hpick] at hrun
      cases hrun
      exact h
  | some cand =>
      obtain ⟨hcand, _⟩ := mem_of_reclaimPick hpick
      by_cases hsame : cand = s
      · -- Its file is opened first.
        subst hsame
        unfold runPass at hrun
        simp only [Pass.ops] at hrun
        have hcursor : b.perform (.setCursor cand.id) =
            .ok { b with engine := { b.engine with reclaimCursor := cand.id } } := rfl
        rw [reclaimOps_some t hpick, List.cons_append, runOps_cons_ok _ hcursor] at hrun
        have hreads : Bench.runOps ([cand].map Op.read ++ _) _ = (b', .ok ()) := hrun
        obtain ⟨b₁, hread, _⟩ := runOps_of_append_ok hreads
        exact absurd h.not_found (found_of_reads hread cand List.mem_cons_self)
      · have hid : s.id ∉ [cand.id] := by
          intro hid
          exact hsame (hb.identity.id_inj hcand h.1 (List.mem_singleton.mp hid).symm)
        refine h.completed (follows_pass t hb .reclaim) (fun op hop => ?_) hrun
        simp only [Pass.ops] at hop
        rw [reclaimOps_some t hpick] at hop
        rcases List.mem_append.mp hop with hop | hop
        · simp only [List.mem_cons, List.not_mem_nil, or_false] at hop
          rcases hop with rfl | rfl <;> trivial
        · split at hop
          · exact absurd hop List.not_mem_nil
          · rcases List.mem_append.mp hop with hop | hop
            · obtain ⟨x, _, rfl⟩ := List.mem_map.mp hop
              trivial
            · exact (within_reclaimRest hop).spares hid

/-- A tier pass moves the stranded entry when it is past its time, and fails. -/
theorem IsStranded.tier (h : b.IsStranded s) (hb : b.Sound) {now : Int64}
    (hdue : s.createdUnixNanos < now - t.hotTtlNanos) :
    b.runPass t (.tier now) ≠ (b', .ok ()) := by
  intro hrun
  have hmem : s ∈ b.engine.toCold t now := by
    refine List.mem_filter.mpr ⟨h.1, ?_⟩
    rw [Bool.and_eq_true, decide_eq_true_iff, decide_eq_true_iff]
    exact ⟨h.2.1, hdue⟩
  have hnodup : ((b.engine.toCold t now).map Segment.id).Nodup :=
    nodup_map_filter hb.identity.ids_nodup _
  obtain ⟨front, back, hsplit⟩ := List.append_of_mem hmem
  unfold runPass at hrun
  have hfollows := follows_pass t hb (.tier now)
  simp only [Pass.ops, Engine.tierOps, hsplit, List.flatMap_append, List.flatMap_cons,
    List.append_assoc] at hrun hfollows
  obtain ⟨b₁, hfront, hrest⟩ := runOps_of_append_ok hrun
  -- The moves before it leave it stranded.
  have hstranded : b₁.IsStranded s := by
    refine h.completed (follows_of_append hfollows hfront).1 (fun op hop => ?_) hfront
    obtain ⟨x, hx, hop⟩ := List.mem_flatMap.mp hop
    refine spares_of_mem_coldMove (fun heq => ?_) hop
    rw [hsplit, List.map_append, List.nodup_append] at hnodup
    exact hnodup.2.2 x.id (List.mem_map_of_mem hx) s.id List.mem_cons_self heq.symm
  -- Its own begins with the file that is gone.
  have hnone : b₁.open? .hot s.file = .error (.io "NotFound") := by
    rw [open?, hstranded.2.2]
  rw [Engine.coldMove] at hrest
  split at hrest
  · have hfail : b₁.perform (.rename s) = .error (.io "NotFound") := by
      show (b₁.open? .hot s.file).map _ = _
      rw [hnone]
      rfl
    rw [List.append_assoc, List.singleton_append, runOps_cons_error _ hfail] at hrest
    cases hrest
  · have hfail : b₁.perform (.copy s) = .error (.io "NotFound") := by
      show (b₁.open? .hot s.file).map _ = _
      rw [hnone]
      rfl
    rw [List.append_assoc, List.cons_append, runOps_cons_error _ hfail] at hrest
    cases hrest

theorem runPasses_of_cons_ok {pass : Pass} {passes : List Pass}
    (h : (runPasses t (pass :: passes) b).2 = .ok ()) :
    ∃ b₁, b.runPass t pass = (b₁, .ok ()) ∧ (runPasses t passes b₁).2 = .ok () := by
  cases hpass : b.runPass t pass with
  | mk b₁ result =>
      cases result with
      | error e =>
          rw [runPasses_cons_error passes hpass] at h
          cases h
      | ok u =>
          rw [runPasses_cons_ok passes hpass] at h
          exact ⟨b₁, rfl, h⟩

theorem IsStranded.tick_fails (h : b.IsStranded s) (hb : b.Sound) {c : Clocks}
    (hdue : s.createdUnixNanos < c.tier - t.hotTtlNanos) : (b.tick t c).2 ≠ .ok () := by
  intro hok
  obtain ⟨b₁, hflush, hok⟩ := runPasses_of_cons_ok hok
  obtain ⟨b₂, hcompact, hok⟩ := runPasses_of_cons_ok hok
  obtain ⟨b₃, hreclaim, hok⟩ := runPasses_of_cons_ok hok
  obtain ⟨b₄, htier, _⟩ := runPasses_of_cons_ok hok
  have hsound : ∀ {b b' : Bench ν} {pass : Pass}, b.Sound → b.runPass t pass = (b', .ok ()) →
      b'.Sound := by
    intro b b' pass hb hrun
    have hsound := sound_runOps hb (follows_pass t hb pass)
    rw [← runPass, hrun] at hsound
    exact hsound
  have hb₁ := hsound hb hflush
  have hb₂ := hsound hb₁ hcompact
  have hstranded := ((h.flush hb hflush).compact hb₁ hcompact).reclaim hb₂ hreclaim
  exact hstranded.tier (hsound hb₂ hreclaim) hdue htier

end Passes

end Bench

/-! ## Runs -/

/-- A change that keeps the entries and the hot files. -/
theorem Bench.Tidy.congr {b b' : Bench ν} {todo : List (Op ν)} (h : b.Tidy todo)
    (hseg : b'.segments = b.segments) (hhot : ∀ f, b'.files .hot f = b.files .hot f) :
    b'.Tidy todo := by
  rintro s ⟨hs, htier, hnone⟩
  refine h s ⟨hseg ▸ hs, htier, ?_⟩
  rw [← hhot]
  exact hnone

namespace System

variable [Numeral ν] [SegmentFile ν]

/-- The actor has moved a hot file and not yet stored that. -/
def MidMove (sys : System ν) : Prop := ∃ id rest, sys.todo = .setTier id .cold :: rest

/-- What holds between any two operations. -/
structure Orderly (sys : System ν) : Prop where
  inOrder : sys.InOrder
  stored : sys.bench.Stored
  tidy : sys.bench.Tidy sys.todo
  shaped : Shaped sys.todo

theorem Orderly.step {t : Tiering} {sys sys' : System ν} {ev : Event ν} (h : sys.Orderly)
    (hstep : Step t sys ev sys') (hlive : ev ≠ .crashed) : sys'.Orderly := by
  have hin := h.inOrder.step hstep
  have hstored := stored_of_step h.inOrder h.stored hstep
  cases hstep with
  | begin pass htodo =>
      have htidy := h.tidy
      rw [htodo] at htidy
      exact ⟨hin, hstored, htidy.start _, Bench.shaped_pass t sys.bench pass⟩
  | perform htodo hperform =>
      have hfollows := h.inOrder.follows
      have htidy := h.tidy
      have hshaped := h.shaped
      rw [htodo] at hfollows htidy hshaped
      exact ⟨hin, hstored, htidy.exec h.inOrder.sound hshaped hfollows.1
        (Bench.exec_of_perform hperform), hshaped.tail⟩
  | abort htodo hperform =>
      -- A flip does not fail, so nothing is stranded.
      refine ⟨hin, hstored, fun s hs => ?_, trivial⟩
      obtain ⟨rest, heq⟩ := h.tidy s hs
      rw [htodo] at heq
      cases heq
      cases hperform
  | writer memtable frozen =>
      exact ⟨hin, hstored, h.tidy.congr rfl (fun _ => rfl), h.shaped⟩
  | blob => exact ⟨hin, hstored, h.tidy, h.shaped⟩
  | fetch hs htier =>
      refine ⟨hin, hstored, h.tidy.congr rfl fun f => ?_, h.shaped⟩
      dsimp only
      rw [Files.set_of_ne _ _ (Or.inl Place.noConfusion)]
  | evict file =>
      refine ⟨hin, hstored, h.tidy.congr rfl fun f => ?_, h.shaped⟩
      dsimp only
      rw [Files.set_of_ne _ _ (Or.inl Place.noConfusion)]
  | crash config objects hobjects => exact absurd rfl hlive

theorem Reachable.orderly {t : Tiering} {start sys : System ν} (hstart : start.Opened)
    (hsettled : start.bench.Settled) (h : Reachable t (· ≠ .crashed) start sys) : sys.Orderly := by
  induction h with
  | start =>
      refine ⟨hstart.inOrder, hsettled.stored, ?_, ?_⟩
      · rw [hstart.todo_eq]
        exact hsettled.tidy
      · rw [hstart.todo_eq]
        trivial
  | step _ hstep hlive ih => exact ih.step hstep hlive

omit [Numeral ν] [SegmentFile ν] in
/-- An entry is stranded exactly in the middle of a move. -/
theorem Orderly.midMove_iff {sys : System ν} (h : sys.Orderly) :
    sys.MidMove ↔ ∃ s, sys.bench.IsStranded s ∧ ∃ rest, sys.todo = .setTier s.id .cold :: rest := by
  constructor
  · rintro ⟨id, rest, htodo⟩
    have hfollows := h.inOrder.follows
    rw [htodo] at hfollows
    obtain ⟨s, hs, rfl, hcase⟩ := hfollows.1
    rcases hcase with ⟨_, htier, hnone⟩ | ⟨htier, _⟩
    · exact ⟨s, ⟨hs, htier, hnone⟩, rest, htodo⟩
    · cases htier
  · rintro ⟨s, _, rest, htodo⟩
    exact ⟨s.id, rest, htodo⟩

/-! ## Reopening -/

/-- The store opened again after a crash.  The log replay leaves memtables of its own. -/
def restarted (t : Tiering) (config : Config) (objects : List Nat) (memtable : MemTable ν)
    (frozen : List (Nat × MemTable ν)) (sys : System ν) : Bench ν :=
  let b := (Bench.runOps (Engine.reconcileOps t objects sys.disk) (sys.reopened config)).1
  { b with engine := { b.engine with memtable := memtable, frozen := frozen } }

section Restart

variable (t : Tiering) (config : Config) (objects : List Nat) (memtable : MemTable ν)
  (frozen : List (Nat × MemTable ν)) {sys : System ν}

omit [Numeral ν] [SegmentFile ν] in
theorem sound_reopened (h : sys.InOrder) : (sys.reopened config).Sound :=
  sound_of_identity h.disk_identity rfl

omit [Numeral ν] [SegmentFile ν] in
/-- Without a stranded entry the reopened store is settled. -/
theorem Orderly.settled_restarted (h : sys.Orderly) (hmove : ¬sys.MidMove) :
    (sys.restarted t config objects memtable frozen).Settled := by
  have hstep : ∀ {b b' : Bench ν} {op : Op ν}, b.Settled → (∃ p f, op = .remove p f) →
      b.Allows op → b.exec op = .ok b' → b'.Settled := by
    rintro b b' op hb ⟨p, f, rfl⟩ hallow hexec
    have hshaped : Shaped [(Op.remove p f : Op ν)] := trivial
    exact ⟨hb.sound.exec hallow hexec, hb.stored.exec hb.sound hallow hexec,
      (hb.tidy.start _).exec hb.sound hshaped hallow hexec⟩
  have hsound := sound_reopened config h.inOrder
  have hseg : (sys.reopened config).segments = sys.bench.segments := h.inOrder.segments_eq
  have hreopened : (sys.reopened config).Settled := by
    refine ⟨hsound, fun s hs => ?_, fun s hs => ?_⟩
    · rw [hseg] at hs
      exact (h.stored s hs).frame fun _ _ => rfl
    · obtain ⟨rest, htodo⟩ := h.tidy s ⟨hseg ▸ hs.1, hs.2⟩
      exact absurd ⟨s.id, rest, htodo⟩ hmove
  have hsettled := Bench.runOps_keeps hstep hreopened (Bench.follows_reconcile t hsound objects)
    (fun _ hop => Bench.exists_remove_of_mem_reconcileOps hop)
  exact ⟨⟨hsettled.sound.identity, hsettled.sound.met_lt, hsettled.sound.listed_met⟩,
    fun s hs => (hsettled.stored s hs).frame fun _ _ => rfl, hsettled.tidy⟩

omit [Numeral ν] [SegmentFile ν] in
/-- A reopen does not help a stranded entry. -/
theorem stranded_restarted (h : sys.InOrder) {s : Segment ν} (hs : sys.bench.IsStranded s) :
    (sys.restarted t config objects memtable frozen).Sound ∧
      (sys.restarted t config objects memtable frozen).IsStranded s := by
  have hsound := sound_reopened config h
  have hfollows := Bench.follows_reconcile t hsound objects
  have hseg : (sys.reopened config).segments = sys.bench.segments := h.segments_eq
  have hstranded : (sys.reopened config).IsStranded s := ⟨hseg ▸ hs.1, hs.2⟩
  have hkept := hstranded.runOps hfollows fun op hop => by
    obtain ⟨p, f, rfl⟩ := Bench.exists_remove_of_mem_reconcileOps hop
    trivial
  have hsound' := Bench.sound_runOps hsound hfollows
  exact ⟨⟨hsound'.identity, hsound'.met_lt, hsound'.listed_met⟩, hkept⟩

end Restart

/-- The tick after a crash between any two operations of a run returns exactly if the crash was not in
the middle of a move and the audit of its reclaim pass finds its evidence.  The segment of a move that
was cut short is past its time in the next tick as well. -/
theorem tick_after_crash {t : Tiering} {start sys : System ν} (hstart : start.Opened)
    (hsettled : start.bench.Settled) (h : Reachable t (· ≠ .crashed) start sys) (config : Config)
    (objects : List Nat) (memtable : MemTable ν) (frozen : List (Nat × MemTable ν)) (c : Clocks)
    (hdue : ∀ s ∈ sys.bench.segments, (∃ rest, sys.todo = .setTier s.id .cold :: rest) →
      s.createdUnixNanos < c.tier - t.hotTtlNanos) :
    ((sys.restarted t config objects memtable frozen).tick t c).2 = .ok () ↔
      ¬sys.MidMove ∧
        ((sys.restarted t config objects memtable frozen).compacted t c).AuditReadable := by
  have horderly := h.orderly hstart hsettled
  by_cases hmove : sys.MidMove
  · obtain ⟨s, hs, htodo⟩ := horderly.midMove_iff.mp hmove
    obtain ⟨hsound, hstranded⟩ :=
      stranded_restarted t config objects memtable frozen horderly.inOrder hs
    have hfails := hstranded.tick_fails hsound (hdue s hs.1 htodo)
    exact ⟨fun hok => absurd hok hfails, fun hcond => absurd hmove hcond.1⟩
  · rw [(horderly.settled_restarted t config objects memtable frozen hmove).tick_ok_iff]
    exact ⟨fun haudit => ⟨hmove, haudit⟩, fun hcond => hcond.2⟩

end System

section Sample

local instance instRestartsUnicode : Unicode := asciiUnicode

local instance instRestartsFile : SegmentFile Int := footprintFile Int

theorem agedStore_settled : agedStore.bench.Settled := by
  refine ⟨agedStore_opened.inOrder.sound, agedStore_readable.stored, ?_⟩
  rintro s ⟨hs, _, hnone⟩
  cases List.mem_singleton.mp hs
  cases hnone

def laterClocks : Clocks := ⟨fun _ => 200, 200, 200, 200⟩

/-- The process dies between the rename and the manifest store of a move: the next tick fails. -/
theorem crash_mid_move_fails_tick :
    agedStore.bench.Settled ∧
      System.Reachable sampleTiering (· ≠ .crashed) agedStore movingStore ∧
      ((movingStore.restarted sampleTiering {} [] {} []).tick sampleTiering laterClocks).2 =
        .error (.io "NotFound") :=
  ⟨agedStore_settled, movingStore_reachable nofun nofun,
    by rfl⟩

/-- It dies just before the rename: the next tick makes the move. -/
theorem tick_after_crash_agedTiering :
    ((agedTiering.restarted sampleTiering {} [] {} []).tick sampleTiering laterClocks).2 =
      .ok () := by
  refine (System.tick_after_crash agedStore_opened agedStore_settled
    (agedTiering_reachable nofun) {} [] {} [] laterClocks
    fun s _ hmove => ?_).mpr ⟨?_, fun cand hpick => ?_⟩
  · obtain ⟨rest, heq⟩ := hmove
    cases heq
  · rintro ⟨id, rest, heq⟩
    cases heq
  · have hnone : ((agedTiering.restarted sampleTiering {} [] {} []).compacted sampleTiering
        laterClocks).engine.reclaimPick = none := by rfl
    rw [hnone] at hpick
    cases hpick

end Sample

end Girder
