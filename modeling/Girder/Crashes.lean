import Girder.Compaction
import Girder.Reopen

/-!
# Crashes — whole runs with any number of crashes

`Store.Sound` joins the invariants of a closed, a recovering and a serving store.  Every clean
operation keeps it (`Sound.step`), hence every clean run does (`Sound.run`).

Two results follow.  `counted_once_on_clean_runs`: on a clean run a read folds every write of the
key exactly once.  `last_write_wins_across_crashes`: without increments every run is clean, so a
read returns the last write whatever the crashes.
-/

namespace Girder

open Lib

section Runs

variable {ν : Type} [Unicode] [Numeral ν] [FrameBody ν]

/-! ## Opening -/

omit [Unicode] in
theorem Closed.logRecords_eq {d : Disk ν} {history : List (Write ν)} (h : Closed d history) :
    d.logRecords = leftRecords d.wals := by
  rw [Disk.logRecords, h.ascending.sortedWals_eq]
  rfl

omit [Unicode] in
theorem leftRecords_eq_nil {left : List (Nat × List (Frame ν))} (h : recoveredRows left = []) :
    leftRecords left = [] := by
  refine List.eq_nil_iff_forall_not_mem.2 (fun r hr => ?_)
  have hreplay := rowOf_recoveredRows left r.key
  rw [h] at hreplay
  have hrows := Layering.replay_eq_none hreplay.symm
  have hmem : r ∈ keyRows r.key (leftRecords left) := List.mem_filter.2 ⟨hr, by simp⟩
  simp [hrows] at hmem

/-- The new log of a process that has just opened a directory. -/
theorem Closed.layout {d : Disk ν} {history : List (Write ν)} (h : Closed d history)
    {p : Process ν} (hseq : p.walSeq = d.nextWalSeq) (hlogged : p.writer.logged = [])
    (hmem : p.engine.memtable = {}) (hfrozen : p.engine.frozen = []) :
    p.Layout (d.openWal d.nextWalSeq) d.wals [] [] where
  wals := by
    rw [Disk.wals_openWal (Disk.lt_nextWalSeq h.ascending), hseq, hlogged]
    simp [logFile, Wal.frames]
  ascending := Disk.ascending_openWal h.ascending (Disk.lt_nextWalSeq h.ascending)
  memtable := hmem
  frozen := hfrozen
  fits := by simp [hlogged]

omit [Unicode] in
theorem Closed.filed {d : Disk ν} {history : List (Write ν)} (h : Closed d history)
    {p : Process ν} (hmanifest : p.engine.manifest = d.loadManifest) (hflush : p.flush = .idle)
    (seq : Nat) : p.Filed (d.openWal seq) := by
  have hopened : p.Filed d := by
    rw [h.stored.loadManifest_eq] at hmanifest
    refine ⟨h.stored, by rw [hmanifest], by rw [hmanifest], fun hseq => ?_, fun hbusy => ?_⟩
    · rw [hflush] at hseq
      cases hseq
    · exact absurd hflush hbusy
  exact hopened.congr (Disk.openWal_files d _) (Disk.openWal_manifest d _) rfl rfl (fun _ => rfl)

/-! ## Sound stores -/

/-- Closed, recovering or serving, with everything the client counts on. -/
inductive Store.Sound (s : Store ν) (history : List (Write ν)) (pending : Option (Request ν)) :
    Prop
  | closed (hprocess : s.process = none) (hpending : pending = none)
      (h : Closed s.disk history)
  | recovering {p : Process ν} {left : List (Nat × List (Frame ν))}
      {old : String → List (Record ν)} (hprocess : s.process = some p) (hpending : pending = none)
      (h : Recovering p s.disk history left old)
  | serving {p : Process ν} {base : List (Nat × List (Frame ν))}
      {logs : List (Nat × List (Write ν))} {cur : List (Write ν)} (hprocess : s.process = some p)
      (hserves : p.writer.Serves pending)
      (hpending : ∀ req, pending = some req → req.Unreserved)
      (h : Serving p s.disk history base logs cur)

/-- Opening a closed directory serves it at once, or starts a recovery. -/
theorem Closed.sound_openInner {d : Disk ν} {history : List (Write ν)} (h : Closed d history)
    (config : Config) : (Store.openInner config d).Sound history none := by
  have hrows : rowsOf d.recovered = recoveredRows d.wals := by
    rw [Disk.recovered, h.logRecords_eq]
    rfl
  by_cases hempty : recoveredRows d.wals = []
  · -- The logs hold nothing: the process serves at once.
    have hleft := leftRecords_eq_nil hempty
    have hserving : ∀ p : Process ν, (Store.openInner config d).process = some p →
        Serving p (d.openWal d.nextWalSeq) history d.wals [] [] := by
      intro p hp
      cases hp
      refine ⟨?_, h.layout rfl ?_ rfl rfl, h.filed rfl rfl _, hleft, by simp, fun key => ?_⟩
      · simp [hrows, hempty]
      · simp [hrows, hempty, Writer.logged]
      · have hdurable := h.durable key
        rw [h.logRecords_eq, hleft] at hdurable
        refine ⟨_, _, hdurable.tiles_of_nil, ?_, ?_⟩
        · show Engine.segVersions d.loadManifest.segments key = _
          rw [h.stored.loadManifest_eq]
          rfl
        · simp [hrows, hempty, Writer.visible]
    refine .serving rfl ?_ (by simp) (hserving _ rfl)
    simp [hrows, hempty, Writer.Serves]
  · -- They hold rows, which are flushed first.
    have hrecovering : ∀ p : Process ν, (Store.openInner config d).process = some p →
        Recovering p (d.openWal d.nextWalSeq) history d.wals
          (Engine.segVersions d.manifest.segments) := by
      intro p hp
      cases hp
      refine ⟨h.filed rfl rfl _, ?_, hempty, fun key => ?_, ?_⟩
      · rw [← h.logRecords_eq]
        exact h.plain
      · rw [← h.logRecords_eq]
        exact h.durable key
      · have hseqs : d.walSeqs = d.wals.map Prod.fst := by
          rw [Disk.walSeqs, h.ascending.sortedWals_eq]
        refine .appending 0 ?_ (h.layout rfl ?_ rfl rfl) ?_ (fun key => ?_)
        · simp [hrows, hempty, hseqs]
        · simp [hrows, hempty, Writer.logged]
        · simp [hrows, hempty]
        · show Engine.segVersions d.loadManifest.segments key = _
          rw [h.stored.loadManifest_eq]
    exact .recovering rfl rfl (hrecovering _ rfl)

namespace Store

variable [SegmentFile ν] {s s' : Store ν} {a : Action ν}

omit [SegmentFile ν] in
/-- A crash keeps what was acknowledged, and a prefix of the call in flight. -/
theorem sound_crash_serving {p : Process ν} {d : Disk ν} {history : List (Write ν)}
    {base : List (Nat × List (Frame ν))} {logs : List (Nat × List (Write ν))}
    {cur : List (Write ν)} (h : Serving p d history base logs cur) {pending : Option (Request ν)}
    (hserves : p.writer.Serves pending) (hpending : ∀ req, pending = some req → req.Unreserved)
    {torn : Bool} (hclean : p.cleanStep d (.crash torn) = true) :
    ∃ n, Closed (p.tear torn d) (history ++ (pending.elim [] Request.writes).take n) := by
  cases hwriter : p.writer with
  | idle =>
      rw [hwriter] at hserves
      have hnone : pending = none := hserves
      have hclosed := h.crash (by simp [hwriter, Writer.logged]) hclean
      refine ⟨0, ?_⟩
      simpa [hwriter, Writer.visible, Writer.logged] using hclosed
  | appending msg n =>
      rw [hwriter] at hserves
      obtain ⟨req, rfl, rfl⟩ := hserves
      have hok := Request.writes_ok (hpending req rfl)
      have hclosed := h.crash (fun w hw => hok w (by
        rw [hwriter] at hw
        exact List.mem_of_mem_take hw)) hclean
      refine ⟨n, ?_⟩
      simpa [hwriter, Writer.visible, Writer.logged, Request.writes] using hclosed
  | applied msg =>
      rw [hwriter] at hserves
      obtain ⟨req, rfl, rfl⟩ := hserves
      have hclosed := h.crash (by simp [hwriter, Writer.logged]) hclean
      refine ⟨req.writes.length, ?_⟩
      simpa [hwriter, Writer.visible, Writer.logged, Request.writes] using hclosed

/-- One clean operation. -/
theorem Sound.step {history : List (Write ν)} {pending : Option (Request ν)}
    (h : s.Sound history pending) (hcall : ∀ req, a = .call req → req.Unreserved)
    (hclean : s.clean a = true) (hstep : s.step a = some s') :
    ∃ history' pending', Answers history pending a history' pending' ∧
      s'.Sound history' pending' := by
  cases h with
  | closed hprocess hpending h =>
      subst hpending
      obtain ⟨config, rfl, rfl⟩ := step_closed hprocess hstep
      exact ⟨history, none, ⟨rfl, rfl⟩, h.sound_openInner config⟩
  | @recovering p left old hprocess hpending h =>
      subst hpending
      have hclean' : p.cleanStep s.disk a = true := by simpa [Store.clean, hprocess] using hclean
      rcases step_running hprocess hstep with ⟨torn, rfl, rfl⟩ | ⟨q, hq, rfl⟩
      · exact ⟨history, none, ⟨rfl, 0, by simp⟩, .closed rfl rfl (h.crash hclean')⟩
      · obtain ⟨hanswers, hnext | ⟨hidle, hnext⟩⟩ := h.step hclean' hq
        · exact ⟨history, none, hanswers, .recovering rfl rfl hnext⟩
        · refine ⟨history, none, hanswers, .serving rfl ?_ (by simp) hnext⟩
          rw [hidle]
          rfl
  | @serving p base logs cur hprocess hserves hpending h =>
      have hclean' : p.cleanStep s.disk a = true := by simpa [Store.clean, hprocess] using hclean
      rcases step_running hprocess hstep with ⟨torn, rfl, rfl⟩ | ⟨q, hq, rfl⟩
      · obtain ⟨n, hclosed⟩ := sound_crash_serving h hserves hpending hclean'
        exact ⟨_, none, ⟨rfl, n, rfl⟩, .closed rfl rfl hclosed⟩
      · obtain ⟨history', pending', logs', cur', hanswers, hserves', hnext⟩ :=
          h.step hserves hpending hclean' hq
        exact ⟨history', pending', hanswers,
          .serving rfl hserves' (hanswers.forall_pending hcall hpending) hnext⟩

/-- A clean run. -/
theorem Sound.run {actions : List (Action ν)} :
    ∀ {s s' : Store ν} {history : List (Write ν)} {pending : Option (Request ν)},
      s.Sound history pending → (∀ req, .call req ∈ actions → req.Unreserved) →
      s.cleanRun actions = true → s.run actions = some s' →
      ∃ history' pending', PromisedFrom history pending actions history' pending' ∧
        s'.Sound history' pending' := by
  induction actions with
  | nil =>
      intro s s' history pending h _ _ hrun
      cases hrun
      exact ⟨history, pending, ⟨rfl, rfl⟩, h⟩
  | cons a actions ih =>
      intro s s' history pending h hcalls hclean hrun
      obtain ⟨s₁, hstep, hrest⟩ := Option.bind_eq_some_iff.1 hrun
      simp only [cleanRun, hstep, Bool.and_eq_true] at hclean
      obtain ⟨history₁, pending₁, hanswers, hsound⟩ :=
        h.step (fun req hreq => hcalls req (by simp [hreq])) hclean.1 hstep
      obtain ⟨history', pending', hpromised, hsound'⟩ :=
        ih hsound (fun req hreq => hcalls req (by simp [hreq])) hclean.2 hrest
      exact ⟨history', pending', ⟨history₁, pending₁, hanswers, hpromised⟩, hsound'⟩

omit [SegmentFile ν] in
theorem sound_empty : ({} : Store ν).Sound [] none :=
  .closed rfl rfl closed_empty

omit [SegmentFile ν] in
/-- Once open, a store is past its recovery. -/
theorem Sound.serving_of_stage {history : List (Write ν)} {pending : Option (Request ν)}
    (h : s.Sound history pending) {p : Process ν} (hprocess : s.process = some p)
    (hstage : p.stage = .serving) :
    p.writer.Serves pending ∧ ∃ base logs cur, Serving p s.disk history base logs cur := by
  cases h with
  | closed hprocess' => simp [hprocess] at hprocess'
  | recovering hprocess' hpending h =>
      rw [hprocess] at hprocess'
      cases hprocess'
      cases h.position with
      | appending n hstage' => simp [hstage] at hstage'
      | buffered hstage' => simp [hstage] at hstage'
      | frozen seq hstage' => simp [hstage] at hstage'
      | flushed hstage' => simp [hstage] at hstage'
      | deleting gone rest hleft hstage' => simp [hstage] at hstage'
  | serving hprocess' hserves hpending h =>
      rw [hprocess] at hprocess'
      cases hprocess'
      exact ⟨hserves, _, _, _, h⟩

omit [SegmentFile ν] in
/-- What an open store holds. -/
theorem Sound.tiles {history : List (Write ν)} {pending : Option (Request ν)}
    (h : s.Sound history pending) {p : Process ν} (hprocess : s.process = some p)
    (hstage : p.stage = .serving) :
    p.engine.WF ∧ ∃ n, ∀ key, (∀ r, p.listedVersion key = some r → r.isDelta = false) →
      (recordLayers ν).Tiles (p.engine.versions key)
        (recordsOf key (history ++ (pending.elim [] Request.writes).take n)) := by
  obtain ⟨hserves, base, logs, cur, hserving⟩ := h.serving_of_stage hprocess hstage
  -- Of the call in flight a read sees all or nothing.
  have hvisible : ∃ n, (pending.elim [] Request.writes).take n = p.writer.visible := by
    cases hwriter : p.writer with
    | idle => exact ⟨0, by simp [Writer.visible]⟩
    | appending msg n => exact ⟨0, by simp [Writer.visible]⟩
    | applied msg =>
        rw [hwriter] at hserves
        obtain ⟨req, rfl, rfl⟩ := hserves
        exact ⟨req.writes.length, List.take_length⟩
  obtain ⟨n, hn⟩ := hvisible
  refine ⟨hserving.wf, n, fun key hlisted => ?_⟩
  rw [hn]
  exact hserving.tiles_versions hlisted

/-! ## Reads on clean runs -/

/-- On a clean run a read folds every write of the key exactly once, in consecutive groups; in exact
arithmetic that is one replay of them all. -/
theorem counted_once_on_clean_runs [LawfulNumeral ν] {actions : List (Action ν)} {s : Store ν}
    {p : Process ν} (hcalls : ∀ req, .call req ∈ actions → req.Unreserved)
    (hclean : ({} : Store ν).cleanRun actions = true)
    (hrun : ({} : Store ν).run actions = some s) (hprocess : s.process = some p)
    (hstage : p.stage = .serving) (hflush : p.flush ≠ .listed) :
    ∃ history pending n, Promised actions history pending ∧ ∀ key,
      (∃ pieces : List (List (Record ν)),
        pieces.flatten = recordsOf key (history ++ (pending.elim [] Request.writes).take n) ∧
          p.engine.getOnce key =
            Engine.readVersions (pieces.reverse.filterMap (recordLayers ν).replay)) ∧
      (ExactNumeral ν → p.engine.getOnce key =
        ((recordLayers ν).replay
          (recordsOf key (history ++ (pending.elim [] Request.writes).take n))).bind
            Record.surface) := by
  obtain ⟨history, pending, hpromised, hsound⟩ := sound_empty.run hcalls hclean hrun
  obtain ⟨hwf, n, htiles⟩ := hsound.tiles hprocess hstage
  have hnone : ∀ key, p.listedVersion key = none := by
    intro key
    cases hphase : p.flush with
    | idle => simp [Process.listedVersion, hphase]
    | written seq => simp [Process.listedVersion, hphase]
    | listed => exact absurd hphase hflush
  have hok : ∀ w ∈ history ++ (pending.elim [] Request.writes).take n, w.Ok :=
    Promised.writes hpromised (fun req hreq => Request.writes_ok (hcalls req hreq)) n
  refine ⟨history, pending, n, hpromised, fun key => ⟨?_, fun hexact => ?_⟩⟩
  · -- Each source has folded its own writes; the read folds the sources.
    obtain ⟨pieces, hflat, hread⟩ :=
      (htiles key (by simp [hnone key])).readNewest_eq mergeDelta_fullBase
    exact ⟨pieces, hflat, by
      rw [Engine.getOnce_eq hwf, Engine.valueOf, Engine.readVersions, hread]
      rfl⟩
  · have hplain : ∀ r ∈ recordsOf key (history ++ (pending.elim [] Request.writes).take n),
        r.PlainDelta :=
      keyRows_plain (plainDelta_of_ok hok) key
    have hread := (htiles key (by simp [hnone key])).readNewest_eq_replay mergeDelta_lawful
      mergeDelta_fullBase hplain
    rw [Engine.getOnce_eq hwf, Engine.valueOf, Engine.readVersions, hread]

end Store

/-! ## Without increments -/

section FullFrames

/-- A full record whose frame replay accepts. -/
def Record.FullFrame (r : Record ν) : Prop :=
  r.isDelta = false ∧ r.Fits

/-- Only full records are logged. -/
def Disk.FullFrames (d : Disk ν) : Prop :=
  ∀ w ∈ d.wals, ∀ r, Frame.whole r ∈ w.2 → r.FullFrame

/-- The writer appends full records only. -/
def Writer.FullFrames (writer : Writer ν) : Prop :=
  ∀ msg n, writer = .appending msg n → ∀ r ∈ msg.records, r.FullFrame

omit [Unicode] [Numeral ν] in
theorem Wal.mem_of_mem_replay {r : Record ν} :
    ∀ {fs : List (Frame ν)}, r ∈ Wal.replay fs → Frame.whole r ∈ fs := by
  intro fs
  induction fs with
  | nil => exact fun h => absurd h (by simp [Wal.replay])
  | cons f fs ih =>
      intro h
      cases f with
      | torn => simp [Wal.replay] at h
      | whole s =>
          unfold Wal.replay at h
          split at h
          · rcases List.mem_cons.1 h with rfl | h
            · simp
            · exact List.mem_cons_of_mem _ (ih h)
          · cases h

namespace Disk

omit [Unicode] [Numeral ν] in
theorem FullFrames.logRecords {d : Disk ν} (h : d.FullFrames) :
    ∀ r ∈ d.logRecords, r.FullFrame := by
  intro r hr
  obtain ⟨w, hw, hr⟩ := List.mem_flatMap.1 hr
  exact h w ((mem_sortAsc Prod.fst).1 hw) r (Wal.mem_of_mem_replay hr)

omit [Unicode] in
/-- What is recovered from full records are some of these records. -/
theorem FullFrames.recovered {d : Disk ν} (h : d.FullFrames) :
    ∀ r ∈ rowsOf d.recovered, r.FullFrame := by
  intro r hr
  have hget : d.recovered[r.key]? = some r := (keyed_mergeRows _).mem_rowsOf.1 hr
  have hfull : ∀ v ∈ keyRows r.key d.logRecords, (recordLayers ν).isPartial v = false :=
    fun v hv => (h.logRecords v (List.mem_filter.1 hv).1).1
  rw [Disk.recovered, getElem?_mergeRows] at hget
  have hlast := (Layering.replay_of_full hfull).symm.trans hget
  exact h.logRecords r (List.mem_filter.1 (List.mem_of_getLast? hlast)).1

omit [Unicode] [Numeral ν] in
theorem FullFrames.openWal {d : Disk ν} (h : d.FullFrames) (seq : Nat) :
    (d.openWal seq).FullFrames := by
  unfold Disk.openWal
  split
  · exact h
  · intro w hw r hr
    rcases List.mem_append.1 hw with hw | hw
    · exact h w hw r hr
    · rw [List.mem_singleton.1 hw] at hr
      cases hr

omit [Unicode] [Numeral ν] in
theorem FullFrames.appendFrame {d : Disk ν} (h : d.FullFrames) (seq : Nat) {frame : Frame ν}
    (hframe : ∀ r, frame = .whole r → r.FullFrame) : (d.appendFrame seq frame).FullFrames := by
  intro w hw r hr
  obtain ⟨v, hv, rfl⟩ := List.mem_map.1 hw
  split at hr
  · rcases List.mem_append.1 hr with hr | hr
    · exact h v hv r hr
    · exact hframe r (List.mem_singleton.1 hr).symm
  · exact h v hv r hr

omit [Unicode] [Numeral ν] in
theorem FullFrames.removeWal {d : Disk ν} (h : d.FullFrames) (seq : Nat) :
    (d.removeWal seq).FullFrames :=
  fun w hw => h w (List.mem_filter.1 hw).1

omit [Unicode] [Numeral ν] in
theorem FullFrames.tear {d : Disk ν} (h : d.FullFrames) (p : Process ν) (torn : Bool) :
    (p.tear torn d).FullFrames := by
  unfold Process.tear
  split
  · exact h.appendFrame _ (fun r hr => by cases hr)
  · exact h

end Disk

namespace Process

variable {p : Process ν} {d : Disk ν} {a : Action ν}

theorem fullFrames_step [SegmentFile ν] (hd : d.FullFrames) (hw : p.writer.FullFrames)
    (hcall : ∀ req, a = .call req → ∀ r ∈ req.msg.records, r.FullFrame) {q : Disk ν × Process ν}
    (hstep : p.step d a = some q) : q.1.FullFrames ∧ q.2.writer.FullFrames := by
  -- A writer that is not appending has nothing to show.
  have hidle : (Writer.idle : Writer ν).FullFrames := fun msg n h => by cases h
  cases a with
  | «open» config => simp [step] at hstep
  | crash torn => simp [step] at hstep
  | call req =>
      obtain ⟨-, -, rfl⟩ := step_call hstep
      refine ⟨hd, fun msg n hmsg => ?_⟩
      cases hmsg
      exact hcall req rfl
  | appendFrame =>
      obtain ⟨msg, n, r, hwriter, hr, rfl⟩ := step_appendFrame hstep
      have hmsg := hw msg n hwriter
      refine ⟨hd.appendFrame _ (fun s hs => ?_), fun msg' n' hmsg' => ?_⟩
      · cases hs
        exact hmsg r (List.mem_of_getElem? hr)
      · cases hmsg'
        exact hmsg
  | apply =>
      obtain ⟨msg, hwriter, rfl⟩ := step_apply hstep
      exact ⟨hd, fun msg n h => by cases h⟩
  | freeze =>
      obtain ⟨-, -, rfl⟩ := step_freeze hstep
      exact ⟨hd.openWal _, hw⟩
  | ack =>
      obtain ⟨-, msg, -, rfl⟩ := step_ack hstep
      exact ⟨hd, hidle⟩
  | writeSegment =>
      obtain ⟨-, f, rest, -, rfl⟩ := step_writeSegment hstep
      exact ⟨hd, hw⟩
  | storeManifest now =>
      obtain ⟨seq, f, rest, -, -, rfl⟩ := step_storeManifest hstep
      exact ⟨hd, hw⟩
  | removeWal =>
      obtain ⟨-, f, rest, -, rfl⟩ := step_removeWal hstep
      exact ⟨hd.removeWal _, hw⟩
  | reappended =>
      obtain ⟨seqs, msg, -, -, rfl⟩ := step_reappended hstep
      exact ⟨hd, hidle⟩
  | checkpointed =>
      obtain ⟨seqs, -, -, -, -, -, rfl⟩ := step_checkpointed hstep
      exact ⟨hd, hw⟩
  | removeLeftover =>
      obtain ⟨seq, rest, -, rfl⟩ := step_removeLeftover hstep
      exact ⟨hd.removeWal _, hw⟩
  | opened =>
      obtain ⟨-, rfl⟩ := step_opened hstep
      exact ⟨hd, hw⟩

omit [Unicode] [Numeral ν] in
/-- Full records can be replayed any number of times. -/
theorem cleanStep_of_fullFrames (hd : d.FullFrames) (hw : p.writer.FullFrames) :
    p.cleanStep d a = true := by
  cases a with
  | appendFrame =>
      show p.writer.next?.all _ = true
      cases hwriter : p.writer with
      | appending msg n =>
          cases hr : msg.records[n]? with
          | none => simp [Writer.next?, hr]
          | some r =>
              have hfits := (hw msg n hwriter r (List.mem_of_getElem? hr)).2
              simp [Writer.next?, hr, hfits]
      | idle => rfl
      | applied msg => rfl
  | crash torn =>
      refine List.all_eq_true.2 (fun r hr => ?_)
      have hany : (keyRows r.key d.logRecords).any (fun full => !full.isDelta) = true :=
        List.any_eq_true.2
          ⟨r, List.mem_filter.2 ⟨hr, by simp⟩, by simp [(hd.logRecords r hr).1]⟩
      simp [hany]
  | _ => rfl

end Process

/-- The store logs full records only. -/
def Store.FullFrames (s : Store ν) : Prop :=
  s.disk.FullFrames ∧ ∀ p, s.process = some p → p.writer.FullFrames

namespace Store

variable [SegmentFile ν] {s : Store ν}

theorem FullFrames.step (h : s.FullFrames) {a : Action ν}
    (hcall : ∀ req, a = .call req → ∀ r ∈ req.msg.records, r.FullFrame) {s' : Store ν}
    (hstep : s.step a = some s') : s'.FullFrames := by
  cases hprocess : s.process with
  | none =>
      obtain ⟨config, -, rfl⟩ := step_closed hprocess hstep
      refine ⟨h.1.openWal _, fun p hp msg n hmsg => ?_⟩
      cases hp
      dsimp only at hmsg
      split at hmsg
      · cases hmsg
      · cases hmsg
        exact h.1.recovered
  | some p =>
      rcases step_running hprocess hstep with ⟨torn, rfl, rfl⟩ | ⟨q, hq, rfl⟩
      · exact ⟨h.1.tear p torn, fun p' hp' => by cases hp'⟩
      · obtain ⟨hdisk, hwriter⟩ := Process.fullFrames_step h.1 (h.2 p hprocess) hcall hq
        exact ⟨hdisk, fun p' hp' => by cases hp'; exact hwriter⟩

/-- Without increments every run is clean. -/
theorem FullFrames.run {actions : List (Action ν)} :
    ∀ {s : Store ν}, s.FullFrames →
      (∀ req, .call req ∈ actions → ∀ r ∈ req.msg.records, r.FullFrame) →
      s.cleanRun actions = true ∧ ∀ s', s.run actions = some s' → s'.FullFrames := by
  induction actions with
  | nil => exact fun h _ => ⟨rfl, fun s' hs' => by cases hs'; exact h⟩
  | cons a actions ih =>
      intro s h hcalls
      have hcall : ∀ req, a = .call req → ∀ r ∈ req.msg.records, r.FullFrame :=
        fun req hreq => hcalls req (by simp [hreq])
      have hclean : s.clean a = true := by
        unfold clean
        split
        · rfl
        · rename_i p hprocess
          exact Process.cleanStep_of_fullFrames h.1 (h.2 p hprocess)
      cases hstep : s.step a with
      | none =>
          refine ⟨by simp [cleanRun, hclean, hstep], fun s' hs' => ?_⟩
          simp [Store.run, hstep] at hs'
      | some s₁ =>
          obtain ⟨hrest, hfull⟩ :=
            ih (h.step hcall hstep) (fun req hreq => hcalls req (by simp [hreq]))
          refine ⟨by simp [cleanRun, hclean, hstep, hrest], fun s' hs' => hfull s' ?_⟩
          simpa [Store.run, hstep] using hs'

omit [SegmentFile ν] in
/-- The segment a flush has listed holds full records. -/
theorem FullFrames.listedVersion (h : s.FullFrames) {history : List (Write ν)}
    {pending : Option (Request ν)} (hsound : s.Sound history pending) {p : Process ν}
    (hprocess : s.process = some p) (hstage : p.stage = .serving) {key : String} {r : Record ν}
    (hr : p.listedVersion key = some r) : r.isDelta = false := by
  obtain ⟨-, base, logs, cur, hserving⟩ := hsound.serving_of_stage hprocess hstage
  rcases hserving.listedVersion_cases key with hnone | ⟨log, rest, rfl, hlisted⟩
  · simp [hnone] at hr
  · have hwal : logFile log ∈ s.disk.wals := by
      rw [hserving.layout.wals]
      simp
    have hfull : ∀ v ∈ recordsOf key log.2, v.isDelta = false := by
      intro v hv
      have hv' : v ∈ log.2.map Write.record := (List.mem_filter.1 hv).1
      exact (h.1 _ hwal v (List.mem_map.2 ⟨v, hv', rfl⟩)).1
    have hlast := (Layering.replay_of_full (L := recordLayers ν) hfull).symm.trans
      (hlisted.symm.trans hr)
    exact hfull r (List.mem_of_getLast? hlast)

omit [Unicode] [Numeral ν] [FrameBody ν] [SegmentFile ν] in
theorem isDelta_of_request {req : Request ν} (hincr : req.isIncr = false) (h : req.Unreserved) :
    ∀ r ∈ req.msg.records, r.isDelta = false := by
  intro r hr
  rw [← req.msg.map_record_writes] at hr
  obtain ⟨w, hw, rfl⟩ := List.mem_map.1 hr
  have hok := Request.writes_ok h w hw
  cases req with
  | putBatch records =>
      obtain ⟨r, -, rfl⟩ := List.mem_map.1 hw
      exact hok
  | delete key timestamp =>
      rw [List.mem_singleton.1 hw] at hok ⊢
      exact hok
  | incr key timestamp deltas => cases hincr

/-- Without increments a crashed store can be reopened, and in an open store a read returns the last
write of the key: every acknowledged call counts, and of a call cut off by a crash some prefix. -/
theorem last_write_wins_across_crashes [LawfulNumeral ν] {actions : List (Action ν)} {s : Store ν}
    (hcalls : ∀ req, .call req ∈ actions →
      req.isIncr = false ∧ req.Unreserved ∧ ∀ r ∈ req.msg.records, r.Fits)
    (hrun : ({} : Store ν).run actions = some s) :
    (s.process = none → s.Reopens) ∧
      ∀ p, s.process = some p → p.stage = .serving →
        ∃ history pending n, Promised actions history pending ∧ ∀ key,
          p.engine.getOnce key =
            (recordsOf key (history ++ (pending.elim [] Request.writes).take n)).getLast?.bind
              Record.surface := by
  refine ⟨Store.reopens, fun p hprocess hstage => ?_⟩
  have hframes : ∀ req, .call req ∈ actions → ∀ r ∈ req.msg.records, r.FullFrame := by
    intro req hreq r hr
    obtain ⟨hincr, hlabels, hfits⟩ := hcalls req hreq
    exact ⟨isDelta_of_request hincr hlabels r hr, hfits r hr⟩
  have hempty : ({} : Store ν).FullFrames :=
    ⟨fun w hw => (by cases hw), fun p hp => (by cases hp)⟩
  obtain ⟨hclean, hfull⟩ := hempty.run hframes
  obtain ⟨history, pending, hpromised, hsound⟩ :=
    sound_empty.run (fun req hreq => (hcalls req hreq).2.1) hclean hrun
  obtain ⟨hwf, n, htiles⟩ := hsound.tiles hprocess hstage
  refine ⟨history, pending, n, hpromised, fun key => ?_⟩
  have hwrites : ∀ w ∈ history ++ (pending.elim [] Request.writes).take n,
      w.record.isDelta = false := by
    refine Promised.writes hpromised (fun req hreq w hw => (hframes req hreq w.record ?_).1) n
    rw [← req.msg.map_record_writes]
    exact List.mem_map.2 ⟨w, hw, rfl⟩
  have hrecords : ∀ r ∈ recordsOf key (history ++ (pending.elim [] Request.writes).take n),
      (recordLayers ν).isPartial r = false := by
    intro r hr
    obtain ⟨w, hw, rfl⟩ := List.mem_map.1 (List.mem_filter.1 hr).1
    exact hwrites w hw
  have hlisted : ∀ r, p.listedVersion key = some r → r.isDelta = false :=
    fun r hr => (hfull s hrun).listedVersion hsound hprocess hstage hr
  -- Full records only, so the last one of a key is its value.
  have hread := (htiles key hlisted).readNewest_eq_replay
    (Layering.lawful_of_full mergeDelta_fullBase) mergeDelta_fullBase hrecords
  rw [Engine.getOnce_eq hwf, Engine.valueOf, Engine.readVersions, hread,
    Layering.replay_of_full hrecords]

end Store

end FullFrames

end Runs

/-! Runs of a counter and of a pair of keys. -/

section Sample

local instance instCrashesUnicode : Unicode := asciiUnicode

local instance instCrashesFile : SegmentFile Int := footprintFile Int

/-- A frame body of short strings: one byte of header for each, nine for each number. -/
local instance instCrashesBody : FrameBody Int where
  bodyLen r :=
    16 + r.key.utf8ByteSize + r.payload.length + (r.text.getD "").utf8ByteSize +
      (r.labels.toList.map (fun l => 2 + l.1.utf8ByteSize + l.2.utf8ByteSize)).sum +
        (r.numerics.toList.map (fun n => 10 + n.1.utf8ByteSize)).sum

/-- One increment of the counter. -/
def oneHit : Request Int := .incr "n" 1 ((∅ : OrdMap String Int).insert "hits" 1)

/-- What `open_inner` does with one recovered record and the leftover logs `n` counts. -/
def recoverOne (n : Nat) : List (Action Int) :=
  [.open {}, .appendFrame, .apply, .reappended, .freeze, .writeSegment, .storeManifest 0,
    .removeWal, .checkpointed] ++ List.replicate n .removeLeftover ++ [.opened]

/-- A counter that is incremented and flushed, with a crash before the log is deleted. -/
def crashInFlush : List (Action Int) :=
  [.open {}, .call oneHit, .appendFrame, .apply, .ack, .freeze, .writeSegment, .storeManifest 0,
    .crash false] ++ recoverOne 2

/-- A counter that is incremented, with a crash before it is flushed. -/
def crashBeforeFlush : List (Action Int) :=
  [.open {}, .call oneHit, .appendFrame, .apply, .ack, .crash false] ++ recoverOne 1

/-- The client made one call, and it was acknowledged before the crash. -/
theorem promised_oneHit {actions : List (Action Int)} {history : List (Write Int)}
    {pending : Option (Request Int)}
    (hactions : actions = crashInFlush ∨ actions = crashBeforeFlush)
    (h : Promised actions history pending) : history = oneHit.writes ∧ pending = none := by
  rcases hactions with rfl | rfl
  · simpa [Promised, PromisedFrom, Answers, crashInFlush, recoverOne] using h
  · simpa [Promised, PromisedFrom, Answers, crashBeforeFlush, recoverOne] using h

def processAfter (actions : List (Action Int)) : Option (Process Int) :=
  (({} : Store Int).run actions).bind Store.process

theorem exists_store {actions : List (Action Int)} (h : (processAfter actions).isSome = true) :
    ∃ s, ({} : Store Int).run actions = some s ∧ s.process = some ((processAfter actions).get h) :=
  Option.bind_eq_some_iff.1 (Option.some_get h).symm

theorem crashInFlush_opens : (processAfter crashInFlush).isSome = true := by decide

/-- The increment was acknowledged once and is read twice. -/
theorem incr_counted_twice :
    ∃ s p, ({} : Store Int).run crashInFlush = some s ∧ s.process = some p ∧ p.stage = .serving ∧
      p.flush = .idle ∧ ¬ ∃ history pending n, Promised crashInFlush history pending ∧
        p.engine.getOnce "n" =
          ((recordLayers Int).replay
            (recordsOf "n" (history ++ (pending.elim [] Request.writes).take n))).bind
              Record.surface := by
  obtain ⟨s, hrun, hprocess⟩ := exists_store crashInFlush_opens
  refine ⟨s, (processAfter crashInFlush).get crashInFlush_opens, hrun, hprocess, by decide,
    by decide, ?_⟩
  rintro ⟨history, pending, n, hpromised, hget⟩
  obtain ⟨rfl, rfl⟩ := promised_oneHit (.inl rfl) hpromised
  simp only [Option.elim_none, List.take_nil, List.append_nil] at hget
  exact absurd hget (by decide)

theorem crashBeforeFlush_opens : (processAfter crashBeforeFlush).isSome = true := by decide

/-- Recovered from the log alone, the increment is counted once. -/
theorem incr_counted_once :
    ∃ s p, ({} : Store Int).run crashBeforeFlush = some s ∧ s.process = some p ∧
      p.engine.getOnce "n" =
        ((recordLayers Int).replay (recordsOf "n" oneHit.writes)).bind Record.surface := by
  obtain ⟨s, hrun, hprocess⟩ := exists_store crashBeforeFlush_opens
  refine ⟨s, (processAfter crashBeforeFlush).get crashBeforeFlush_opens, hrun, hprocess, ?_⟩
  have hcalls : ∀ req, .call req ∈ crashBeforeFlush → req.Unreserved := by
    intro req hreq
    have hreq' : req = oneHit := by simpa [crashBeforeFlush, recoverOne] using hreq
    rw [hreq']
    trivial
  obtain ⟨history, pending, n, hpromised, hreads⟩ :=
    Store.counted_once_on_clean_runs hcalls (by decide) hrun hprocess (by decide) (by decide)
  obtain ⟨rfl, rfl⟩ := promised_oneHit (.inr rfl) hpromised
  simpa using (hreads "n").2 inferInstance

/-- Two keys written in one batch; a crash in the flush, then one in the middle of the recovery's
own batch. -/
def crashTwice : List (Action Int) :=
  [.open {}, .call (.putBatch [Record.bare "a" 1, Record.bare "b" 1]), .appendFrame, .appendFrame,
    .apply, .ack, .freeze, .writeSegment, .storeManifest 0, .crash false,
    .open {}, .appendFrame, .crash true,
    .open {}, .appendFrame, .appendFrame, .apply, .reappended, .freeze, .writeSegment,
    .storeManifest 0, .removeWal, .checkpointed, .removeLeftover, .removeLeftover, .removeLeftover,
    .opened, .call (.delete "a" 2), .appendFrame, .apply]

theorem crashTwice_opens : (processAfter crashTwice).isSome = true := by decide

theorem last_write_wins_crashTwice :
    ∃ s p, ({} : Store Int).run crashTwice = some s ∧ s.process = some p ∧
      ∃ history pending n, Promised crashTwice history pending ∧ ∀ key,
        p.engine.getOnce key =
          (recordsOf key (history ++ (pending.elim [] Request.writes).take n)).getLast?.bind
            Record.surface := by
  obtain ⟨s, hrun, hprocess⟩ := exists_store crashTwice_opens
  refine ⟨s, (processAfter crashTwice).get crashTwice_opens, hrun, hprocess, ?_⟩
  refine (Store.last_write_wins_across_crashes (fun req hreq => ?_) hrun).2 _ hprocess (by decide)
  have hreq' : req = .putBatch [Record.bare "a" 1, Record.bare "b" 1] ∨ req = .delete "a" 2 := by
    simpa [crashTwice] using hreq
  rcases hreq' with rfl | rfl
  · refine ⟨rfl, fun r hr => ?_, by decide⟩
    simp only [List.mem_cons, List.not_mem_nil, or_false] at hr
    rcases hr with rfl | rfl <;> decide
  · exact ⟨rfl, trivial, by decide⟩

end Sample

end Girder
