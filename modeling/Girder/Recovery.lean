import Girder.Serving

/-!
# Recovery — from leftover logs to an open store

`open_inner` replays the leftover logs, puts what it recovered through the writer as one batch,
flushes it and deletes the leftover logs, oldest first.  `Recovering` follows it through these
positions.  Until the leftover logs are gone what was recovered is held twice, so a crash is
harmless only where the logs replay to full records (`Recovering.crash`).
-/

namespace Girder

open Lib

variable {ν : Type} [Unicode] [Numeral ν] [FrameBody ν]

/-! ## The recovered batch -/

/-- The records of some logs, in replay order. -/
def leftRecords (left : List (Nat × List (Frame ν))) : List (Record ν) :=
  left.flatMap (fun w => Wal.replay w.2)

/-- What is recovered from some logs. -/
def recoveredRows (left : List (Nat × List (Frame ν))) : List (Record ν) :=
  rowsOf (mergeRows (leftRecords left))

/-- The recovered batch as writes. -/
def reputs (left : List (Nat × List (Frame ν))) : List (Write ν) :=
  (recoveredRows left).map Write.put

omit [Unicode] [Numeral ν] in
theorem leftRecords_append (xs ys : List (Nat × List (Frame ν))) :
    leftRecords (xs ++ ys) = leftRecords xs ++ leftRecords ys :=
  List.flatMap_append

omit [Unicode] in
theorem recoveredRows_sorted (left : List (Nat × List (Frame ν))) :
    (recoveredRows left).Pairwise (fun a b => a.key < b.key) :=
  (keyed_mergeRows _).rowsOf_sorted

omit [Unicode] in
theorem rowOf_recoveredRows (left : List (Nat × List (Frame ν))) (key : String) :
    rowOf (recoveredRows left) key =
      (recordLayers ν).replay (keyRows key (leftRecords left)) := by
  rw [recoveredRows, rowOf_rowsOf (keyed_mergeRows _), getElem?_mergeRows]
  rfl

omit [Unicode] in
theorem map_record_reputs (left : List (Nat × List (Frame ν))) :
    (reputs left).map Write.record = recoveredRows left :=
  (WriterMsg.append (recoveredRows left)).map_record_writes

omit [FrameBody ν] in
theorem get_foldl_put (key : String) :
    ∀ (rows : List (Record ν)) (m : MemTable ν),
      ((rows.map Write.put).foldl MemTable.applyWrite m).get key =
        (keyRows key rows).getLast?.or (m.get key) := by
  intro rows
  induction rows with
  | nil => exact fun m => rfl
  | cons r rows ih =>
      intro m
      rw [List.map_cons, List.foldl_cons, ih, MemTable.applyWrite, MemTable.get_insert]
      by_cases hr : r.key = key
      · have hrows : keyRows key (r :: rows) = r :: keyRows key rows := by simp [keyRows, hr]
        rw [hrows, List.getLast?_cons, if_pos hr]
        cases (keyRows key rows).getLast? <;> rfl
      · have hrows : keyRows key (r :: rows) = keyRows key rows := by simp [keyRows, hr]
        rw [hrows, if_neg hr]

omit [FrameBody ν] in
theorem isEmpty_foldl_put {rows : List (Record ν)} (h : rows ≠ []) (m : MemTable ν) :
    ((rows.map Write.put).foldl MemTable.applyWrite m).isEmpty = false :=
  isEmpty_foldl_applyWrite (by simpa using h) m

/-- The memtable recovery fills holds the recovered rows as they are. -/
theorem get_reputs (left : List (Nat × List (Frame ν))) (key : String) :
    (memtableOf (reputs left)).get key = rowOf (recoveredRows left) key := by
  rw [memtableOf, reputs, get_foldl_put, keyRows, filter_key_eq (recoveredRows_sorted left)]
  cases rowOf (recoveredRows left) key <;> rfl

/-! ## Positions -/

/-- The writer has no frames left to append. -/
def Writer.Done (writer : Writer ν) : Prop :=
  writer = .idle ∨ ∃ msg, writer = .applied msg

omit [Unicode] [Numeral ν] [FrameBody ν] in
theorem Writer.Done.logged {writer : Writer ν} (h : writer.Done) : writer.logged = [] := by
  rcases h with rfl | ⟨msg, rfl⟩ <;> rfl

/-- Where the recovered batch is, with `left` the leftover logs and `old` the versions the segments
held at open. -/
inductive Position (p : Process ν) (d : Disk ν) (left : List (Nat × List (Frame ν)))
    (old : String → List (Record ν)) : Prop
  /-- On its way to the new log. -/
  | appending (n : Nat) (hstage : p.stage = .recovering (left.map Prod.fst))
      (hlayout : p.Layout d left [] [])
      (hwriter : p.writer = .appending (.append (recoveredRows left)) n)
      (hsegs : ∀ key, Engine.segVersions p.engine.manifest.segments key = old key)
  /-- In the memtable. -/
  | buffered (hstage : p.stage = .recovering (left.map Prod.fst))
      (hlayout : p.Layout d left [] (reputs left)) (hwriter : p.writer.Done)
      (hsegs : ∀ key, Engine.segVersions p.engine.manifest.segments key = old key)
  /-- In a frozen memtable. -/
  | frozen (seq : Nat) (hstage : p.stage = .recovering (left.map Prod.fst))
      (hlayout : p.Layout d left [(seq, reputs left)] []) (hwriter : p.writer.Done)
      (hsegs : ∀ key, Engine.segVersions p.engine.manifest.segments key =
        (p.listedVersion key).toList ++ old key)
  /-- In a segment, all leftover logs still there. -/
  | flushed (hstage : p.stage = .recovering (left.map Prod.fst)) (hlayout : p.Layout d left [] [])
      (hwriter : p.writer.Done)
      (hsegs : ∀ key, Engine.segVersions p.engine.manifest.segments key =
        (rowOf (recoveredRows left) key).toList ++ old key)
  /-- In a segment, the leftover logs `gone` deleted. -/
  | deleting (gone rest : List (Nat × List (Frame ν))) (hleft : left = gone ++ rest)
      (hstage : p.stage = .deleting (rest.map Prod.fst)) (hlayout : p.Layout d rest [] [])
      (hwriter : p.writer = .idle)
      (hsegs : ∀ key, Engine.segVersions p.engine.manifest.segments key =
        (rowOf (recoveredRows left) key).toList ++ old key)

/-- A store whose recovery is under way. -/
structure Recovering (p : Process ν) (d : Disk ν) (history : List (Write ν))
    (left : List (Nat × List (Frame ν))) (old : String → List (Record ν)) : Prop where
  filed : p.Filed d
  plain : ∀ r ∈ leftRecords left, r.PlainDelta
  nonempty : recoveredRows left ≠ []
  durable (key : String) : (recordLayers ν).Durable (old key) (keyRows key (leftRecords left))
    (recordsOf key history)
  position : Position p d left old

namespace Recovering

variable {p : Process ν} {d : Disk ν} {history : List (Write ν)}
  {left : List (Nat × List (Frame ν))} {old : String → List (Record ν)}

/-- Nothing frozen, nothing to flush. -/
theorem flush_idle (h : Recovering p d history left old) (hfrozen : p.engine.frozen = []) :
    p.flush = .idle := by
  by_contra hbusy
  exact h.filed.pending hbusy hfrozen

/-- The same recovery at another position. -/
theorem move (h : Recovering p d history left old) {p' : Process ν} {d' : Disk ν}
    (hfiled : p'.Filed d') (hposition : Position p' d' left old) :
    Recovering p' d' history left old :=
  ⟨hfiled, h.plain, h.nonempty, h.durable, hposition⟩

/-- Re-appended records are records of the leftover logs, folded: a clean crash finds them full. -/
theorem durable_reappend (h : Recovering p d history left old) (n : Nat) {key : String}
    (hclean : (rowOf ((recoveredRows left).take n) key).isSome = true →
      ∀ r, (recordLayers ν).replay
          (keyRows key (leftRecords left ++ (recoveredRows left).take n)) = some r →
        r.isDelta = false)
    {vs : List (Record ν)}
    (hvs : rowOf ((recoveredRows left).take n) key = none → vs = old key) :
    (recordLayers ν).Durable vs (keyRows key (leftRecords left ++ (recoveredRows left).take n))
      (recordsOf key history) := by
  have hsorted : ((recoveredRows left).take n).Pairwise (fun a b => a.key < b.key) :=
    (recoveredRows_sorted left).sublist (List.take_sublist _ _)
  have htake : keyRows key ((recoveredRows left).take n) =
      (rowOf ((recoveredRows left).take n) key).toList := filter_key_eq hsorted key
  rw [keyRows_append, htake] at hclean ⊢
  cases hrow : rowOf ((recoveredRows left).take n) key with
  | none =>
      rw [hvs hrow]
      simpa using h.durable key
  | some r =>
      rw [hrow] at hclean
      obtain ⟨hmem, hkey⟩ := rowOf_eq_some hrow
      have hreplay : (recordLayers ν).replay (keyRows key (leftRecords left)) = some r := by
        rw [← rowOf_recoveredRows, ← hkey]
        exact rowOf_of_mem (recoveredRows_sorted left) (List.mem_of_mem_take hmem)
      have hplain := keyRows_plain h.plain key
      have hfull : r.isDelta = false := by
        -- Laid on itself an increment would still be one.
        cases hd : r.isDelta with
        | false => rfl
        | true =>
            have hagain := Layering.replay_concat (L := recordLayers ν)
              (keyRows key (leftRecords left)) r
            have hr := mergeDelta_keepsPartial.ok_replay hplain hreplay
            have hpartial := mergeDelta_keepsPartial.isPartial_merge hr hr hd
            rw [hreplay, Layering.layerOpt_some, Layering.layer_of_isPartial _ hd] at hagain
            have hnot := hclean rfl _ hagain
            rw [show (recordLayers ν).isPartial _ = _ from hnot] at hpartial
            cases hpartial
      exact (h.durable key).reappend mergeDelta_keepsPartial hplain hreplay hfull vs

/-- Once the recovered batch is in a segment, the logs still there may hold full values only. -/
theorem durable_flushed (h : Recovering p d history left old)
    {gone rest : List (Nat × List (Frame ν))} (hleft : left = gone ++ rest) {key : String}
    (hclean : ∀ r, (recordLayers ν).replay (keyRows key (leftRecords rest)) = some r →
      r.isDelta = false) :
    (recordLayers ν).Durable ((rowOf (recoveredRows left) key).toList ++ old key)
      (keyRows key (leftRecords rest)) (recordsOf key history) := by
  have hdurable := h.durable key
  have hplain := keyRows_plain h.plain key
  rw [rowOf_recoveredRows]
  rw [hleft, leftRecords_append, keyRows_append] at hdurable hplain ⊢
  exact hdurable.of_suffix mergeDelta_keepsPartial hplain hclean

/-- A clean crash while the recovered batch is in the logs next to the logs it came from. -/
theorem closed_reappended (h : Recovering p d history left old)
    {logs : List (Nat × List (Write ν))} {cur : List (Write ν)} (hlayout : p.Layout d left logs cur)
    {n : Nat}
    (hwrites : logs.flatMap Prod.snd ++ (cur ++ p.writer.logged) = (reputs left).take n)
    (hover : ∀ key, (rowOf ((recoveredRows left).take n) key).isSome = true → p.overlaps key = true)
    (hsegs : ∀ key, rowOf ((recoveredRows left).take n) key = none →
      Engine.segVersions p.engine.manifest.segments key = old key)
    {torn : Bool} (hclean : p.cleanStep d (.crash torn) = true) :
    Closed (p.tear torn d) history := by
  have hrecords : d.logRecords = leftRecords left ++ (recoveredRows left).take n := by
    rw [hlayout.logRecords, hwrites, List.map_take, map_record_reputs]
    rfl
  refine closed_of_tear hlayout h.filed torn ?_ (fun key => ?_)
  · rw [hrecords]
    intro r hr
    rcases List.mem_append.1 hr with hr | hr
    · exact h.plain r hr
    · have hreplay := rowOf_of_mem (recoveredRows_sorted left) (List.mem_of_mem_take hr)
      rw [rowOf_recoveredRows] at hreplay
      exact mergeDelta_keepsPartial.ok_replay (keyRows_plain h.plain r.key) hreplay
  · rw [hrecords]
    refine h.durable_reappend n (fun hsome r hr => ?_) (hsegs key)
    exact Process.isDelta_of_clean hclean (hover key hsome) (by rw [hrecords]; exact hr)

/-- A clean crash once the recovered batch is in a segment. -/
theorem closed_flushed (h : Recovering p d history left old)
    {gone rest : List (Nat × List (Frame ν))} (hleft : left = gone ++ rest)
    (hlayout : p.Layout d rest [] []) (hlogged : p.writer.logged = [])
    (hover : ∀ key, p.overlaps key = true)
    (hsegs : ∀ key, Engine.segVersions p.engine.manifest.segments key =
      (rowOf (recoveredRows left) key).toList ++ old key)
    {torn : Bool} (hclean : p.cleanStep d (.crash torn) = true) :
    Closed (p.tear torn d) history := by
  have hrecords : d.logRecords = leftRecords rest := by
    rw [hlayout.logRecords, hlogged]
    exact List.append_nil _
  refine closed_of_tear hlayout h.filed torn ?_ (fun key => ?_)
  · rw [hrecords]
    exact fun r hr => h.plain r (by
      rw [hleft, leftRecords_append]
      exact List.mem_append_right _ hr)
  · rw [hsegs, hrecords]
    refine h.durable_flushed hleft (fun r hr => ?_)
    exact Process.isDelta_of_clean hclean (hover key) (by rw [hrecords]; exact hr)

/-- While the recovered batch is frozen, the listed segment can only hold that. -/
theorem listedVersion_cases {seq : Nat} (hlayout : p.Layout d left [(seq, reputs left)] [])
    (key : String) :
    p.listedVersion key = none ∨ p.listedVersion key = rowOf (recoveredRows left) key := by
  have hfrozen : p.engine.frozen = [(seq, memtableOf (reputs left))] := hlayout.frozen
  rw [← get_reputs]
  cases hflush : p.flush with
  | idle => exact .inl (by simp [Process.listedVersion, hflush])
  | written n => exact .inl (by simp [Process.listedVersion, hflush])
  | listed => exact .inr (by simp [Process.listedVersion, hflush, hfrozen])

/-- A clean crash during recovery loses nothing. -/
theorem crash (h : Recovering p d history left old) {torn : Bool}
    (hclean : p.cleanStep d (.crash torn) = true) : Closed (p.tear torn d) history := by
  -- With the batch fully appended and not yet deleted from the logs, every key overlaps.
  have hdone : ∀ {seqs : List Nat}, p.stage = .recovering seqs → p.writer.Done →
      ∀ key, p.overlaps key = true := by
    intro seqs hstage hwriter key
    rcases hwriter with hwriter | ⟨msg, hwriter⟩
    · simp [Process.overlaps, hstage, hwriter]
    · simp [Process.overlaps, hstage, hwriter]
  have hall : (reputs left).take (recoveredRows left).length = reputs left :=
    List.take_of_length_le (by simp [reputs])
  cases h.position with
  | appending n hstage hlayout hwriter hsegs =>
      refine h.closed_reappended (n := n) hlayout ?_ (fun key hsome => ?_) (fun key _ => hsegs key)
        hclean
      · rw [hwriter]
        rfl
      · simpa [Process.overlaps, hstage, hwriter, WriterMsg.records] using hsome
  | buffered hstage hlayout hwriter hsegs =>
      refine h.closed_reappended (n := (recoveredRows left).length) hlayout ?_
        (fun key _ => hdone hstage hwriter key) (fun key _ => hsegs key) hclean
      rw [hwriter.logged, hall]
      simp
  | frozen seq hstage hlayout hwriter hsegs =>
      refine h.closed_reappended (n := (recoveredRows left).length) hlayout ?_
        (fun key _ => hdone hstage hwriter key) (fun key hnone => ?_) hclean
      · rw [hwriter.logged, hall]
        simp
      · rw [List.take_length] at hnone
        rw [hsegs]
        rcases listedVersion_cases hlayout key with hlisted | hlisted
        · rw [hlisted]
          rfl
        · rw [hlisted, hnone]
          rfl
  | flushed hstage hlayout hwriter hsegs =>
      have hleft : left = [] ++ left := rfl
      exact h.closed_flushed hleft hlayout hwriter.logged (hdone hstage hwriter) hsegs hclean
  | deleting gone rest hleft hstage hlayout hwriter hsegs =>
      refine h.closed_flushed hleft hlayout (by rw [hwriter]; rfl) (fun key => ?_) hsegs hclean
      simp [Process.overlaps, hstage]

section Step

variable [SegmentFile ν] {a : Action ν} {q : Disk ν × Process ν}

omit [SegmentFile ν] in
/-- The batch of the recovery is acknowledged, wherever it is by then. -/
theorem position_reappended (h : Position p d left old) {msg : WriterMsg ν}
    (hwriter : p.writer = .applied msg) : Position { p with writer := .idle } d left old := by
  have hlogged : (Writer.idle : Writer ν).logged = p.writer.logged := by
    rw [hwriter]
    rfl
  cases h with
  | appending n hstage hlayout hwriter' =>
      rw [hwriter] at hwriter'
      cases hwriter'
  | buffered hstage hlayout _ hsegs =>
      exact .buffered hstage (hlayout.congr rfl rfl hlogged rfl rfl) (.inl rfl) hsegs
  | frozen seq hstage hlayout _ hsegs =>
      exact .frozen seq hstage (hlayout.congr rfl rfl hlogged rfl rfl) (.inl rfl) hsegs
  | flushed hstage hlayout _ hsegs =>
      exact .flushed hstage (hlayout.congr rfl rfl hlogged rfl rfl) (.inl rfl) hsegs
  | deleting gone rest hleft hstage hlayout hwriter' =>
      rw [hwriter] at hwriter'
      cases hwriter'

theorem step_reappended (h : Recovering p d history left old)
    (hstep : p.step d .reappended = some q) :
    Answers history none .reappended history none ∧ Recovering q.2 q.1 history left old := by
  obtain ⟨seqs, msg, -, hwriter, rfl⟩ := Process.step_reappended hstep
  refine ⟨⟨rfl, rfl⟩, ?_⟩
  have hposition := position_reappended h.position hwriter
  exact h.move (h.filed.congr rfl rfl rfl rfl (fun _ => rfl)) hposition

/-- Appending the recovered batch. -/
theorem step_appending (h : Recovering p d history left old) {n : Nat}
    (hstage : p.stage = .recovering (left.map Prod.fst)) (hlayout : p.Layout d left [] [])
    (hwriter : p.writer = .appending (.append (recoveredRows left)) n)
    (hsegs : ∀ key, Engine.segVersions p.engine.manifest.segments key = old key)
    (hclean : p.cleanStep d a = true) (hstep : p.step d a = some q) :
    Answers history none a history none ∧ Recovering q.2 q.1 history left old := by
  have hfrozen : p.engine.frozen = [] := hlayout.frozen
  have hflush := h.flush_idle hfrozen
  cases a with
  | appendFrame =>
      obtain ⟨msg, m, r, hwriter', hr, rfl⟩ := Process.step_appendFrame hstep
      rw [hwriter] at hwriter'
      cases hwriter'
      have hfits : r.Fits := by
        simpa [Process.cleanStep, hwriter, Writer.next?, hr] using hclean
      refine ⟨⟨rfl, rfl⟩, ?_⟩
      refine h.move (h.filed.congr rfl rfl rfl rfl (fun _ => rfl)) ?_
      exact .appending (n + 1) hstage (hlayout.appendFrame hwriter hr hfits) rfl hsegs
  | apply =>
      obtain ⟨msg, hwriter', rfl⟩ := Process.step_apply hstep
      have hmsg : msg = .append (recoveredRows left) := by
        rw [hwriter] at hwriter'
        cases hwriter'
        rfl
      subst hmsg
      refine ⟨⟨rfl, rfl⟩, ?_⟩
      refine h.move (h.filed.congr rfl rfl rfl rfl (fun _ => rfl)) ?_
      exact .buffered hstage (hlayout.apply hwriter') (.inr ⟨_, rfl⟩) hsegs
  | _ => simp [Process.step, Process.mayFreeze, hwriter, hstage, hflush, hfrozen] at hstep

/-- The recovered batch is in the memtable and waits for its freeze. -/
theorem step_buffered (h : Recovering p d history left old)
    (hstage : p.stage = .recovering (left.map Prod.fst))
    (hlayout : p.Layout d left [] (reputs left)) (hwriter : p.writer.Done)
    (hsegs : ∀ key, Engine.segVersions p.engine.manifest.segments key = old key)
    (hstep : p.step d a = some q) :
    Answers history none a history none ∧ Recovering q.2 q.1 history left old := by
  have hfrozen : p.engine.frozen = [] := hlayout.frozen
  have hflush := h.flush_idle hfrozen
  have hmem : p.engine.memtable.isEmpty = false := by
    rw [hlayout.memtable]
    exact isEmpty_foldl_put h.nonempty {}
  cases a with
  | freeze =>
      obtain ⟨-, hlogged, rfl⟩ := Process.step_freeze hstep
      refine ⟨⟨rfl, rfl⟩, ?_⟩
      refine h.move h.filed.freeze ?_
      refine .frozen p.walSeq hstage (hlayout.freeze hlogged) hwriter (fun key => ?_)
      have hnone : p.frozen.listedVersion key = none := by
        simp [Process.listedVersion, Process.frozen, hflush]
      rw [hnone]
      exact hsegs key
  | reappended => exact h.step_reappended hstep
  | _ =>
      rcases hwriter with hwriter | ⟨msg, hwriter⟩ <;>
        simp [Process.step, hwriter, hstage, hflush, hfrozen, hmem] at hstep

/-- Flushing the recovered batch. -/
theorem step_frozen (h : Recovering p d history left old) {seq : Nat}
    (hstage : p.stage = .recovering (left.map Prod.fst))
    (hlayout : p.Layout d left [(seq, reputs left)] []) (hwriter : p.writer.Done)
    (hsegs : ∀ key, Engine.segVersions p.engine.manifest.segments key =
      (p.listedVersion key).toList ++ old key)
    (hstep : p.step d a = some q) :
    Answers history none a history none ∧ Recovering q.2 q.1 history left old := by
  have hfrozen : p.engine.frozen = [(seq, memtableOf (reputs left))] := hlayout.frozen
  have hmem := hlayout.memtable_isEmpty
  cases a with
  | reappended => exact h.step_reappended hstep
  | writeSegment =>
      obtain ⟨hflush, f, rest, hfrozen', rfl⟩ := Process.step_writeSegment hstep
      refine ⟨⟨rfl, rfl⟩, ?_⟩
      refine h.move (h.filed.writeSegment hfrozen') ?_
      refine .frozen seq hstage (hlayout.congr rfl rfl rfl rfl rfl) hwriter (fun key => ?_)
      have hnone : p.listedVersion key = none := by simp [Process.listedVersion, hflush]
      have hold := hsegs key
      rw [hnone] at hold
      exact hold
  | storeManifest now =>
      obtain ⟨n, f, rest, hflush, hfrozen', rfl⟩ := Process.step_storeManifest hstep
      have hf : f = (seq, memtableOf (reputs left)) := by
        rw [hfrozen] at hfrozen'
        exact (List.cons.inj hfrozen').1.symm
      subst hf
      have hconsistent := memtableOf_consistent (reputs left)
      refine ⟨⟨rfl, rfl⟩, ?_⟩
      refine h.move
        (h.filed.storeManifest hfrozen' hflush (MemTable.values_sorted hconsistent) now) ?_
      refine .frozen seq hstage (hlayout.congr rfl rfl rfl rfl rfl) hwriter (fun key => ?_)
      -- The batch is listed in front of what the segments held.
      have hnone : p.listedVersion key = none := by simp [Process.listedVersion, hflush]
      have hold := hsegs key
      rw [hnone] at hold
      show Engine.segVersions (p.listing n now _).segments key = _
      rw [h.filed.segVersions_listing hflush, hold, ← Engine.get_eq_rowOf hconsistent]
      simp [Process.listedVersion, hfrozen]
  | removeWal =>
      obtain ⟨hflush, f, rest, hfrozen', rfl⟩ := Process.step_removeWal hstep
      rw [hfrozen] at hfrozen'
      obtain ⟨rfl, rfl⟩ := List.cons.inj hfrozen'
      refine ⟨⟨rfl, rfl⟩, ?_⟩
      refine h.move (h.filed.removeWal _ _) ?_
      refine .flushed hstage hlayout.removeWal hwriter (fun key => ?_)
      have hlisted : p.listedVersion key = rowOf (recoveredRows left) key := by
        rw [← get_reputs]
        simp [Process.listedVersion, hflush, hfrozen]
      rw [← hlisted]
      exact hsegs key
  | _ =>
      rcases hwriter with hwriter | ⟨msg, hwriter⟩ <;>
        simp [Process.step, Process.mayFreeze, Process.freezes, hwriter, hstage, hfrozen, hmem]
          at hstep

/-- The recovered batch is in a segment. -/
theorem step_flushed (h : Recovering p d history left old)
    (hstage : p.stage = .recovering (left.map Prod.fst)) (hlayout : p.Layout d left [] [])
    (hwriter : p.writer.Done)
    (hsegs : ∀ key, Engine.segVersions p.engine.manifest.segments key =
      (rowOf (recoveredRows left) key).toList ++ old key)
    (hstep : p.step d a = some q) :
    Answers history none a history none ∧ Recovering q.2 q.1 history left old := by
  have hfrozen : p.engine.frozen = [] := hlayout.frozen
  have hflush := h.flush_idle hfrozen
  have hmem := hlayout.memtable_isEmpty
  cases a with
  | reappended => exact h.step_reappended hstep
  | checkpointed =>
      obtain ⟨seqs, hstage', hwriter', -, -, -, rfl⟩ := Process.step_checkpointed hstep
      rw [hstage] at hstage'
      cases hstage'
      refine ⟨⟨rfl, rfl⟩, ?_⟩
      refine h.move (h.filed.congr rfl rfl rfl rfl (fun _ => rfl)) ?_
      exact .deleting [] left rfl rfl (hlayout.congr rfl rfl rfl rfl rfl) hwriter' hsegs
  | _ =>
      rcases hwriter with hwriter | ⟨msg, hwriter⟩ <;>
        simp [Process.step, Process.mayFreeze, Process.freezes, hwriter, hstage, hflush, hfrozen,
          hmem] at hstep

/-- Deleting the leftover logs; with the last one gone the store is open. -/
theorem step_deleting (h : Recovering p d history left old)
    {gone rest : List (Nat × List (Frame ν))} (hleft : left = gone ++ rest)
    (hstage : p.stage = .deleting (rest.map Prod.fst)) (hlayout : p.Layout d rest [] [])
    (hwriter : p.writer = .idle)
    (hsegs : ∀ key, Engine.segVersions p.engine.manifest.segments key =
      (rowOf (recoveredRows left) key).toList ++ old key)
    (hstep : p.step d a = some q) :
    Answers history none a history none ∧
      (Recovering q.2 q.1 history left old ∨
        (q.2.writer = .idle ∧ Serving q.2 q.1 history [] [] [])) := by
  have hfrozen : p.engine.frozen = [] := hlayout.frozen
  have hflush := h.flush_idle hfrozen
  have hmem := hlayout.memtable_isEmpty
  cases a with
  | removeLeftover =>
      obtain ⟨seq, seqs, hstage', rfl⟩ := Process.step_removeLeftover hstep
      rw [hstage] at hstage'
      cases rest with
      | nil => simp at hstage'
      | cons log rest =>
          simp only [List.map_cons, Stage.deleting.injEq, List.cons.injEq] at hstage'
          obtain ⟨rfl, rfl⟩ := hstage'
          refine ⟨⟨rfl, rfl⟩, .inl ?_⟩
          refine h.move (h.filed.congr rfl rfl rfl rfl (fun _ => rfl)) ?_
          exact .deleting (gone ++ [log]) rest (by simp [hleft]) rfl (hlayout.removeLeftover _)
            hwriter hsegs
  | opened =>
      obtain ⟨hstage', rfl⟩ := Process.step_opened hstep
      have hrest : rest = [] := by
        rw [hstage] at hstage'
        simpa using hstage'
      subst hrest
      -- The segments tile the history, and nothing is in memory yet.
      refine ⟨⟨rfl, rfl⟩, .inr ⟨hwriter, ?_⟩⟩
      refine ⟨rfl, hlayout.congr rfl rfl rfl rfl rfl,
        h.filed.congr rfl rfl rfl rfl (fun _ => rfl), rfl, by simp, fun key => ?_⟩
      refine ⟨_, recordsOf key history, (h.durable key).tiles, ?_, ?_⟩
      · rw [← rowOf_recoveredRows, ← hsegs key]
        simp [Process.listedVersion, hflush]
      · simp [hwriter, Writer.visible]
  | _ =>
      simp [Process.step, Process.mayFreeze, hwriter, hstage, hflush, hfrozen, hmem] at hstep

/-- One operation of a recovery. -/
theorem step (h : Recovering p d history left old) (hclean : p.cleanStep d a = true)
    (hstep : p.step d a = some q) :
    Answers history none a history none ∧
      (Recovering q.2 q.1 history left old ∨
        (q.2.writer = .idle ∧ Serving q.2 q.1 history [] [] [])) := by
  cases h.position with
  | appending n hstage hlayout hwriter hsegs =>
      exact (h.step_appending hstage hlayout hwriter hsegs hclean hstep).imp_right .inl
  | buffered hstage hlayout hwriter hsegs =>
      exact (h.step_buffered hstage hlayout hwriter hsegs hstep).imp_right .inl
  | frozen seq hstage hlayout hwriter hsegs =>
      exact (h.step_frozen hstage hlayout hwriter hsegs hstep).imp_right .inl
  | flushed hstage hlayout hwriter hsegs =>
      exact (h.step_flushed hstage hlayout hwriter hsegs hstep).imp_right .inl
  | deleting gone rest hleft hstage hlayout hwriter hsegs =>
      exact h.step_deleting hleft hstage hlayout hwriter hsegs hstep

end Step

end Recovering

end Girder
