import Girder.Recovery

/-!
# Reopen — every directory can be opened

Recovery never waits for anything but its own operations: from every closed store some sequence of
them leads to a serving one (`Store.reopens`).  Each position is followed backwards, from deleting
the leftover logs to appending the recovered batch.
-/

namespace Girder

open Lib

variable {ν : Type} [Unicode] [Numeral ν] [SegmentFile ν] [FrameBody ν]

/-- The program's own operations lead from here to a serving store. -/
def Store.Reopens (s : Store ν) : Prop :=
  ∃ more s' p, (∀ a ∈ more, Action.isInternal a = true) ∧ s.run more = some s' ∧
    s'.process = some p ∧ p.stage = .serving

namespace Process

variable {p : Process ν} {d : Disk ν}

/-- The running process can finish opening. -/
def Reopens (p : Process ν) (d : Disk ν) : Prop :=
  Store.Reopens { disk := d, process := some p }

theorem reopens_of_serving (h : p.stage = .serving) : p.Reopens d :=
  ⟨[], _, p, by simp, rfl, rfl, h⟩

/-- It is enough to find the next operation. -/
theorem reopens_of_step {a : Action ν} (ha : a.isInternal = true) {q : Disk ν × Process ν}
    (hstep : p.step d a = some q) (hq : q.2.Reopens q.1) : p.Reopens d := by
  obtain ⟨more, s', p', hmore, hrun, hprocess, hstage⟩ := hq
  refine ⟨a :: more, s', p', ?_, ?_, hprocess, hstage⟩
  · intro b hb
    rcases List.mem_cons.1 hb with rfl | hb
    · exact ha
    · exact hmore b hb
  · have hnext : ({ disk := d, process := some p } : Store ν).step a =
        some { disk := q.1, process := some q.2 } := by
      cases a with
      | crash torn => cases ha
      | _ => simp [Store.step, hstep]
    rw [Store.run, hnext]
    exact hrun

theorem reopens_deleting {seqs : List Nat} :
    ∀ {p : Process ν} {d : Disk ν}, p.stage = .deleting seqs → p.Reopens d := by
  induction seqs with
  | nil =>
      intro p d hstage
      refine reopens_of_step (a := .opened) rfl (q := (d, { p with stage := .serving })) ?_ ?_
      · simp [step, hstage]
      · exact reopens_of_serving rfl
  | cons seq seqs ih =>
      intro p d hstage
      refine reopens_of_step (a := .removeLeftover) rfl
        (q := (d.removeWal seq, { p with stage := .deleting seqs })) ?_ (ih rfl)
      simp [step, hstage]

theorem reopens_flushed {seqs : List Nat} (hstage : p.stage = .recovering seqs)
    (hwriter : p.writer = .idle) (hflush : p.flush = .idle) (hfrozen : p.engine.frozen = [])
    (hmem : p.engine.memtable.isEmpty = true) : p.Reopens d := by
  refine reopens_of_step (a := .checkpointed) rfl
    (q := (d, { p with stage := .deleting seqs })) ?_ (reopens_deleting rfl)
  simp [step, hstage, hwriter, hflush, hfrozen, hmem]

theorem reopens_frozen {seqs : List Nat} (hstage : p.stage = .recovering seqs)
    (hwriter : p.writer = .idle) (hflush : p.flush = .idle) {f : Nat × MemTable ν}
    (hfrozen : p.engine.frozen = [f]) (hmem : p.engine.memtable.isEmpty = true) : p.Reopens d := by
  -- Write the segment, list it, delete its log.
  apply reopens_of_step (a := .writeSegment) rfl
  · simp only [step, hflush, hfrozen]
    rfl
  apply reopens_of_step (a := .storeManifest 0) rfl
  · simp only [step]
    rfl
  apply reopens_of_step (a := .removeWal) rfl
  · simp only [step]
    rfl
  exact reopens_flushed hstage hwriter rfl rfl hmem

theorem reopens_buffered {seqs : List Nat} (hstage : p.stage = .recovering seqs) {msg : WriterMsg ν}
    (hwriter : p.writer = .applied msg) (hflush : p.flush = .idle) (hfrozen : p.engine.frozen = [])
    (hmem : p.engine.memtable.isEmpty = false) : p.Reopens d := by
  have hempty : ({} : MemTable ν).isEmpty = true := by simp [MemTable.isEmpty]
  have hqueued : p.engine.frozen ++ [(p.walSeq, p.engine.memtable)] =
      [(p.walSeq, p.engine.memtable)] := by simp [hfrozen]
  cases hfull : p.freezes with
  | true =>
      -- The batch filled the memtable: the writer freezes it before it answers.
      apply reopens_of_step (a := .freeze) rfl
      · simp only [step, mayFreeze, hwriter, hfull, if_true]
        rfl
      apply reopens_of_step (a := .reappended) rfl
        (q := (d.openWal (p.walSeq + 1), { p.frozen with writer := .idle }))
      · have hnot : p.frozen.freezes = false := by simp [freezes, frozen, hempty]
        have hstage' : p.frozen.stage = .recovering seqs := hstage
        have hwriter' : p.frozen.writer = .applied msg := hwriter
        simp [step, hstage', hwriter', hnot]
      exact reopens_frozen hstage rfl hflush hqueued hempty
  | false =>
      apply reopens_of_step (a := .reappended) rfl (q := (d, { p with writer := .idle }))
      · simp [step, hstage, hwriter, hfull]
      apply reopens_of_step (a := .freeze) rfl
      · simp only [step, mayFreeze, hmem, Bool.not_false, if_true]
        rfl
      exact reopens_frozen hstage rfl hflush hqueued hempty

/-- By induction on the number of frames still to be appended. -/
theorem reopens_appending {rows : List (Record ν)} (hrows : rows ≠ []) {seqs : List Nat} :
    ∀ (k n : Nat) {p : Process ν} {d : Disk ν}, n + k = rows.length →
      p.stage = .recovering seqs → p.writer = .appending (.append rows) n → p.flush = .idle →
      p.engine.frozen = [] → p.Reopens d := by
  intro k
  induction k with
  | zero =>
      intro n p d hn hstage hwriter hflush hfrozen
      apply reopens_of_step (a := .apply) rfl
      · have hlast : n = (WriterMsg.append rows).records.length := hn
        simp only [step, hwriter, if_pos hlast]
        rfl
      exact reopens_buffered hstage rfl hflush hfrozen (isEmpty_foldl_put hrows _)
  | succ k ih =>
      intro n p d hn hstage hwriter hflush hfrozen
      have hlt : n < rows.length := by omega
      apply reopens_of_step (a := .appendFrame) rfl
      · have hr : (WriterMsg.append rows).records[n]? = some rows[n] :=
          List.getElem?_eq_getElem hlt
        simp only [step, hwriter, hr, Option.map_some]
        rfl
      exact ih (n + 1) (by omega) hstage rfl hflush hfrozen

end Process

/-- A closed directory can always be opened. -/
theorem Store.reopens {s : Store ν} (h : s.process = none) : s.Reopens := by
  have hnext : ∀ config, s.step (.open config) = some (openInner config s.disk) := by
    intro config
    simp [Store.step, h]
  have hopened : (openInner {} s.disk).Reopens := by
    by_cases hrows : rowsOf s.disk.recovered = []
    · exact Process.reopens_of_serving (by simp [hrows])
    · have hstage : (if (rowsOf s.disk.recovered).isEmpty then Stage.serving
          else .recovering s.disk.walSeqs) = .recovering s.disk.walSeqs := by simp [hrows]
      refine Process.reopens_appending hrows _ 0 (Nat.zero_add _) hstage ?_ rfl rfl
      simp [hrows]
  obtain ⟨more, s', p, hmore, hrun, hprocess, hstage⟩ := hopened
  refine ⟨.open {} :: more, s', p, ?_, ?_, hprocess, hstage⟩
  · intro a ha
    rcases List.mem_cons.1 ha with rfl | ha
    · rfl
    · exact hmore a ha
  · rw [Store.run, hnext]
    exact hrun

end Girder
