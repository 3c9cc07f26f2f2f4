import Girder.Actors

/-!
# Traces — which memtable holds which writes

Memtables are numbered in the order they are filled.  `Traced.Tracks` says where each of them is: the
live one, the one a freeze has in hand, the frozen ones and the flushed ones each hold exactly the
writes the clients' calls put into them.  `Tracks.step` carries this through every move, whatever
fails on the way.
-/

namespace Girder

open Lib

variable {ν : Type}

namespace Traced

/-- The writes inserted into the memtable of number `g`, oldest first. -/
def writesOf (t : Traced ν) (g : Nat) : List (Write ν) :=
  (t.calls.reverse.filter (fun c => decide (c.epoch = some g))).flatMap Call.writes

/-- The call the writer is handling is the latest one. -/
def LatestOk (t : Traced ν) : Prop :=
  match t.now.writer with
  | .appended req => ∃ c cs, t.calls = c :: cs ∧ c.writes = req.writes ∧ c.epoch = none
  | .inserted _ => ∃ c cs, t.calls = c :: cs ∧ c.epoch = some t.epoch
  | .taken (some _) _ _ => ∃ c cs, t.calls = c :: cs ∧ c.epoch = some (t.epoch - 1)
  | .opened (some _) _ _ => ∃ c cs, t.calls = c :: cs ∧ c.epoch = some (t.epoch - 1)
  | .pushed (some _) =>
      (∃ c cs, t.calls = c :: cs ∧ c.epoch = some (t.epoch - 1)) ∧
        (t.epoch - 1 ∈ t.queue ∨ t.epoch - 1 ∈ t.flushed)
  | _ => True

/-- The entry `flush_pending` works on is the oldest frozen memtable. -/
def MaintOk (t : Traced ν) : Prop :=
  match t.now.maint with
  | .idle => True
  | .picked entry => t.now.engine.frozen.head? = some entry
  | .allotted entry _ => t.now.engine.frozen.head? = some entry
  | .written entry _ => t.now.engine.frozen.head? = some entry
  | .listed entry =>
      t.now.engine.frozen.head? = some entry ∧
        ∃ s ∈ t.now.engine.manifest.segments, s.rows = entry.2.values
  | .unlogged entry =>
      t.now.engine.frozen.head? = some entry ∧ (∀ g ∈ t.queue.head?, g ∈ t.flushed) ∧
        ∃ s ∈ t.now.engine.manifest.segments, s.rows = entry.2.values

/-- Moves of the flush leave the call in hand alone. -/
theorem LatestOk.congr {t t' : Traced ν} (h : t.LatestOk) (hwriter : t'.now.writer = t.now.writer)
    (hcalls : t'.calls = t.calls) (hepoch : t'.epoch = t.epoch)
    (hplace : t.epoch - 1 ∈ t.queue ∨ t.epoch - 1 ∈ t.flushed →
      t.epoch - 1 ∈ t'.queue ∨ t.epoch - 1 ∈ t'.flushed) : t'.LatestOk := by
  unfold LatestOk at h ⊢
  rw [hwriter, hcalls, hepoch]
  split
  · simpa only [*] using h
  · simpa only [*] using h
  · simpa only [*] using h
  · simpa only [*] using h
  · rename_i hphase
    simp only [hphase] at h
    exact ⟨h.1, hplace h.2⟩
  · trivial

section Tracks

variable [Unicode] [Numeral ν]

/-- Every memtable holds the writes the calls put into it. -/
structure Tracks (t : Traced ν) : Prop where
  current : t.now.engine.memtable = memtableOf (t.writesOf t.epoch)
  frozen : t.now.engine.frozen.map Prod.snd = t.queue.map (fun g => memtableOf (t.writesOf g))
  hand {map : MemTable ν} : t.now.hand = some map →
    0 < t.epoch ∧ map = memtableOf (t.writesOf (t.epoch - 1))
  epochs {c : Call ν} : c ∈ t.calls → ∀ g ∈ c.epoch, g ≤ t.epoch
  queued : ∀ g ∈ t.queue, g < t.epoch
  flushed : ∀ g ∈ t.flushed, g < t.epoch ∧
    ∃ s ∈ t.now.engine.manifest.segments, s.rows = (memtableOf (t.writesOf g)).values
  latest : t.LatestOk
  maint : t.MaintOk

omit [Unicode] [Numeral ν] in
theorem writesOf_eq_nil {t : Traced ν} {g : Nat}
    (h : ∀ c ∈ t.calls, c.epoch ≠ some g) : t.writesOf g = [] := by
  have hnil : t.calls.reverse.filter (fun c => decide (c.epoch = some g)) = [] := by
    refine List.filter_eq_nil_iff.2 (fun c hc => ?_)
    simpa using h c (List.mem_reverse.1 hc)
  simp [writesOf, hnil]

omit [Unicode] [Numeral ν] in
/-- Changes to the calls that leave their writes and memtables alone. -/
theorem writesOf_congr {t t' : Traced ν}
    (h : t'.calls.map (fun c => (c.writes, c.epoch)) = t.calls.map (fun c => (c.writes, c.epoch)))
    (g : Nat) : t'.writesOf g = t.writesOf g := by
  have heq : ∀ calls : List (Call ν),
      (calls.reverse.filter (fun c => decide (c.epoch = some g))).flatMap Call.writes =
        (((calls.map (fun c => (c.writes, c.epoch))).reverse.filter
          (fun p => decide (p.2 = some g))).flatMap Prod.fst) := by
    intro calls
    rw [← List.map_reverse, List.filter_map, List.flatMap_map]
    rfl
  rw [writesOf, writesOf, heq, heq, h]

theorem tracks_opened (config : Config) (manifest : Manifest ν) (disk : Disk ν) (seq : Nat) :
    (opened config manifest disk seq).Tracks where
  current := rfl
  frozen := rfl
  hand h := by cases h
  epochs hc := by cases hc
  queued g hg := by cases hg
  flushed g hg := by cases hg
  latest := trivial
  maint := trivial

namespace Tracks

variable {t t' : Traced ν}

/-- Moves that leave the memtables and their numbers alone. -/
theorem congr (h : t.Tracks) (hwrites : ∀ g, t'.writesOf g = t.writesOf g)
    (hepochs : ∀ c ∈ t'.calls, ∀ g ∈ c.epoch, g ≤ t.epoch)
    (hepoch : t'.epoch = t.epoch) (hqueue : t'.queue = t.queue) (hflushed : t'.flushed = t.flushed)
    (hmem : t'.now.engine.memtable = t.now.engine.memtable)
    (hfrozen : t'.now.engine.frozen = t.now.engine.frozen)
    (hsegs : ∀ s ∈ t.now.engine.manifest.segments, s ∈ t'.now.engine.manifest.segments)
    (hhand : ∀ map, t'.now.hand = some map → t.now.hand = some map)
    (hlatest : t'.LatestOk) (hmaint : t'.MaintOk) : t'.Tracks where
  current := by rw [hmem, hepoch, hwrites, h.current]
  frozen := by
    rw [hfrozen, hqueue, h.frozen]
    exact List.map_congr_left (fun g _ => by rw [hwrites])
  hand hmap := by
    rw [hepoch, hwrites]
    exact h.hand (hhand _ hmap)
  epochs hc := by
    rw [hepoch]
    exact hepochs _ hc
  queued := by
    rw [hqueue, hepoch]
    exact h.queued
  flushed g hg := by
    rw [hflushed] at hg
    obtain ⟨hlt, s, hs, hrows⟩ := h.flushed g hg
    exact ⟨hepoch ▸ hlt, s, hsegs s hs, by rw [hrows, hwrites]⟩
  latest := hlatest
  maint := hmaint

/-- A call that never reaches a memtable. -/
theorem logged (h : t.Tracks) {c : Call ν} (hc : c.epoch = none) :
    (∀ g, Traced.writesOf { t with calls := c :: t.calls } g = t.writesOf g) ∧
      ∀ c' ∈ c :: t.calls, ∀ g ∈ c'.epoch, g ≤ t.epoch := by
  constructor
  · intro g
    simp [Traced.writesOf, hc]
  · intro c' hc' g hg
    rcases List.mem_cons.1 hc' with rfl | hc'
    · simp [hc] at hg
    · exact h.epochs hc' g hg

/-- The flush phase depends on the frozen memtables through the oldest one only. -/
theorem maintOk_of_head (h : t.Tracks) (hmaint : t'.now.maint = t.now.maint)
    (hhead : ∀ f ∈ t.now.engine.frozen.head?, t'.now.engine.frozen.head? = some f)
    (hqueue : ∀ g ∈ t'.queue.head?, t.now.engine.frozen = [] ∨ g ∈ t.queue.head?)
    (hflushed : t'.flushed = t.flushed)
    (hsegs : t'.now.engine.manifest = t.now.engine.manifest) : t'.MaintOk := by
  have hok := h.maint
  unfold MaintOk at hok ⊢
  rw [hmaint, hsegs, hflushed]
  cases hphase : t.now.maint with
  | idle => trivial
  | picked entry =>
      simp only [hphase] at hok
      exact hhead _ hok
  | allotted entry seq =>
      simp only [hphase] at hok
      exact hhead _ hok
  | written entry seq =>
      simp only [hphase] at hok
      exact hhead _ hok
  | listed entry =>
      simp only [hphase] at hok
      exact ⟨hhead _ hok.1, hok.2⟩
  | unlogged entry =>
      simp only [hphase] at hok
      refine ⟨hhead _ hok.1, fun g hg => ?_, hok.2.2⟩
      rcases hqueue g hg with hnil | hg
      · simp [hnil] at hok
      · exact hok.2.1 g hg

theorem insert (h : t.Tracks) {req : Request ν} (hwriter : t.now.writer = .appended req) :
    Traced.Tracks
      { t with
        calls := amend (fun c => { c with epoch := some t.epoch }) t.calls
        now :=
          { t.now with
            engine :=
              { t.now.engine with
                memtable := req.writes.foldl MemTable.applyWrite t.now.engine.memtable }
            writer := .inserted req } } := by
  have hlatest := h.latest
  simp only [LatestOk, hwriter] at hlatest
  obtain ⟨c, cs, hcalls, hcw, hce⟩ := hlatest
  -- The call being inserted had no epoch, so it was in no epoch's writes.
  have hold : ∀ g, t.writesOf g =
      (cs.reverse.filter (fun c => decide (c.epoch = some g))).flatMap Call.writes := by
    intro g
    simp [writesOf, hcalls, hce]
  have hnew : ∀ t' : Traced ν, t'.calls = { c with epoch := some t.epoch } :: cs → ∀ g,
      t'.writesOf g = t.writesOf g ++ (if t.epoch = g then req.writes else []) := by
    intro t' ht' g
    rw [hold]
    by_cases hg : t.epoch = g
    · simp [writesOf, ht', hg, hcw]
    · simp [writesOf, ht', hg]
  have hamend : amend (fun c => { c with epoch := some t.epoch }) t.calls =
      { c with epoch := some t.epoch } :: cs := by
    rw [hcalls]
    rfl
  rw [hamend]
  refine ⟨?_, ?_, ?_, ?_, h.queued, ?_, ⟨_, cs, rfl, rfl⟩, ?_⟩
  · refine Eq.trans ?_ (congrArg memtableOf (hnew _ rfl t.epoch)).symm
    simp [memtableOf, h.current]
  · refine h.frozen.trans (List.map_congr_left (fun g hg => congrArg memtableOf ?_))
    refine Eq.trans ?_ (hnew _ rfl g).symm
    rw [if_neg (h.queued g hg).ne', List.append_nil]
  · intro map hmap
    cases hmap
  · intro c' hc' g hg
    rcases List.mem_cons.1 hc' with rfl | hc'
    · exact le_of_eq (by simpa using hg.symm)
    · exact h.epochs (by rw [hcalls]; exact List.mem_cons_of_mem _ hc') g hg
  · intro g hg
    obtain ⟨hlt, s, hs, hrows⟩ := h.flushed g hg
    refine ⟨hlt, s, hs, ?_⟩
    rw [hnew _ rfl, if_neg hlt.ne', List.append_nil]
    exact hrows
  · exact h.maintOk_of_head rfl (fun f hf => hf) (fun g hg => .inr hg) rfl rfl

theorem take (h : t.Tracks) {req : Option (Request ν)}
    (hwriter : t.now.writer = .idle ∧ req = none ∨ ∃ r, t.now.writer = .inserted r ∧ req = some r) :
    Traced.Tracks { t with epoch := t.epoch + 1, now := t.now.take req } where
  current := by
    have hnil : t.writesOf (t.epoch + 1) = [] := by
      refine writesOf_eq_nil (fun c hc heq => ?_)
      have hle := h.epochs hc (t.epoch + 1) heq
      omega
    exact (congrArg memtableOf hnil).symm
  frozen := h.frozen
  hand {map} hmap := by
    have hmap' : t.now.engine.memtable = map := by simpa [Actors.hand, Actors.take] using hmap
    exact ⟨Nat.succ_pos _, hmap' ▸ h.current⟩
  epochs hc g hg := (h.epochs hc g hg).trans (Nat.le_succ _)
  queued g hg := (h.queued g hg).trans (Nat.lt_succ_self _)
  flushed g hg := ⟨(h.flushed g hg).1.trans (Nat.lt_succ_self _), (h.flushed g hg).2⟩
  latest := by
    rcases hwriter with ⟨-, rfl⟩ | ⟨r, hwriter, rfl⟩
    · trivial
    · have hlatest := h.latest
      simp only [LatestOk, hwriter] at hlatest
      exact hlatest
  maint := h.maintOk_of_head rfl (fun f hf => hf) (fun g hg => .inr hg) rfl rfl

theorem push (h : t.Tracks) {req : Option (Request ν)} {map : MemTable ν} {seq : Nat}
    (hwriter : t.now.writer = .opened req map seq) :
    Traced.Tracks
      { t with
        queue := t.queue ++ [t.epoch - 1]
        now :=
          { t.now with
            engine := { t.now.engine with frozen := t.now.engine.frozen ++ [(seq, map)] }
            writer := .pushed req } } := by
  obtain ⟨hpos, hmap⟩ := h.hand (by simp [Actors.hand, hwriter] : t.now.hand = some map)
  refine ⟨h.current, ?_, fun hhand => (by cases hhand), h.epochs, ?_, h.flushed, ?_, ?_⟩
  · show (t.now.engine.frozen ++ [(seq, map)]).map Prod.snd = (t.queue ++ [t.epoch - 1]).map _
    rw [List.map_append, List.map_append, h.frozen, List.map_singleton, List.map_singleton, hmap]
    rfl
  · intro g hg
    rcases List.mem_append.1 hg with hg | hg
    · exact h.queued g hg
    · have hg' : g = t.epoch - 1 := by simpa using hg
      show g < t.epoch
      omega
  · cases req with
    | none => trivial
    | some r =>
        have hlatest := h.latest
        simp only [LatestOk, hwriter] at hlatest
        exact ⟨hlatest, .inl (by simp)⟩
  · -- The flush works on the oldest memtable, which stays in front.
    refine h.maintOk_of_head rfl ?_ ?_ rfl rfl
    · intro f hf
      obtain ⟨rest, hrest⟩ := List.head?_eq_some_iff.1 hf
      show (t.now.engine.frozen ++ [(seq, map)]).head? = some f
      simp [hrest]
    · intro g hg
      cases hqueue : t.queue with
      | nil =>
          have hlen := congrArg List.length h.frozen
          exact .inl (List.length_eq_zero_iff.1 (by simpa [hqueue] using hlen))
      | cons g' gs => exact .inr (by simpa [hqueue] using hg)

/-- The oldest frozen memtable and its number. -/
theorem head (h : t.Tracks) {f : Nat × MemTable ν} (hf : t.now.engine.frozen.head? = some f) :
    ∃ g gs rest, t.queue = g :: gs ∧ t.now.engine.frozen = f :: rest ∧
      f.2 = memtableOf (t.writesOf g) := by
  obtain ⟨rest, hrest⟩ := List.head?_eq_some_iff.1 hf
  have hfrozen := h.frozen
  rw [hrest] at hfrozen
  cases hqueue : t.queue with
  | nil => simp [hqueue] at hfrozen
  | cons g gs =>
      rw [hqueue, List.map_cons, List.map_cons, List.cons.injEq] at hfrozen
      exact ⟨g, gs, rest, rfl, hrest, hfrozen.1⟩

theorem flushed_next (h : t.Tracks) {entry : Nat × MemTable ν}
    (hmaint : t.now.maint = .listed entry) (disk : Disk ν) :
    Traced.Tracks
      { t with
        flushed := t.queue.take 1 ++ t.flushed
        now := { t.now with disk := disk, maint := .unlogged entry } } := by
  have hok := h.maint
  simp only [MaintOk, hmaint] at hok
  obtain ⟨hhead, s, hs, hrows⟩ := hok
  obtain ⟨g, gs, rest, hqueue, hfrozen, hmap⟩ := h.head hhead
  refine ⟨h.current, h.frozen, h.hand, h.epochs, h.queued, ?_, ?_, ?_⟩
  · intro g' hg'
    rcases List.mem_append.1 hg' with hg' | hg'
    · have hg'' : g' = g := by simpa [hqueue] using hg'
      subst hg''
      exact ⟨h.queued g' (by simp [hqueue]), s, hs, by rw [hrows, hmap]; rfl⟩
    · exact h.flushed g' hg'
  · exact h.latest.congr rfl rfl rfl (Or.imp_right (List.mem_append_right _))
  · refine ⟨hhead, fun g' hg' => List.mem_append_left _ ?_, s, hs, hrows⟩
    have hg'' : g = g' := by simpa [hqueue] using hg'
    simp [hqueue, hg'']

theorem dropFrozen (h : t.Tracks) {entry : Nat × MemTable ν}
    (hmaint : t.now.maint = .unlogged entry) :
    Traced.Tracks
      { t with
        queue := t.queue.tail
        now :=
          { t.now with
            engine := { t.now.engine with frozen := t.now.engine.frozen.tail }, maint := .idle } } := by
  have hok := h.maint
  simp only [MaintOk, hmaint] at hok
  obtain ⟨hhead, hgone, -⟩ := hok
  obtain ⟨g, gs, rest, hqueue, hfrozen, hmap⟩ := h.head hhead
  refine ⟨h.current, ?_, h.hand, h.epochs, fun g' hg' => h.queued g' (List.mem_of_mem_tail hg'),
    h.flushed, ?_, trivial⟩
  · show t.now.engine.frozen.tail.map Prod.snd = t.queue.tail.map _
    rw [List.map_tail, List.map_tail, h.frozen]
    rfl
  · refine h.latest.congr rfl rfl rfl (fun hin => ?_)
    -- The dropped memtable is a flushed one.
    rcases hin with hin | hin
    · rw [hqueue] at hin
      rcases List.mem_cons.1 hin with heq | hin
      · exact .inr (heq ▸ hgone g (by simp [hqueue]))
      · exact .inl (by simpa [hqueue] using hin)
    · exact .inr hin

/-- A move of the flush that leaves the frozen memtables alone. -/
theorem of_maint (h : t.Tracks) {s : Actors ν} (hwriter : s.writer = t.now.writer)
    (hmem : s.engine.memtable = t.now.engine.memtable)
    (hfrozen : s.engine.frozen = t.now.engine.frozen)
    (hsegs : ∀ m ∈ t.now.engine.manifest.segments, m ∈ s.engine.manifest.segments)
    (hmaint : Traced.MaintOk { t with now := s }) : Traced.Tracks { t with now := s } :=
  h.congr (fun _ => rfl) (fun _ hc => h.epochs hc) rfl rfl rfl hmem hfrozen hsegs
    (fun map hmap => by simpa [Actors.hand, hwriter] using hmap)
    (h.latest.congr hwriter rfl rfl id) hmaint

/-- A move of the writer that leaves memory alone. -/
theorem of_writer (h : t.Tracks) {s : Actors ν} {calls : List (Call ν)}
    (hwrites : ∀ g, Traced.writesOf { t with calls := calls } g = t.writesOf g)
    (hepochs : ∀ c ∈ calls, ∀ g ∈ c.epoch, g ≤ t.epoch) (hengine : s.engine = t.now.engine)
    (hmaint : s.maint = t.now.maint) (hhand : ∀ map, s.hand = some map → t.now.hand = some map)
    (hlatest : Traced.LatestOk { t with calls := calls, now := s }) :
    Traced.Tracks { t with calls := calls, now := s } := by
  refine h.congr hwrites hepochs rfl rfl rfl (by rw [hengine]) (by rw [hengine])
    (by rw [hengine]; exact fun _ => id) hhand hlatest ?_
  refine h.maintOk_of_head hmaint (fun f hf => ?_) (fun g hg => .inr hg) rfl (by rw [hengine])
  rw [hengine]
  exact hf

/-- Amending the latest call without touching its writes. -/
theorem acknowledged (h : t.Tracks) :
    (∀ g, Traced.writesOf
      { t with calls := amend (fun c => { c with acked := true }) t.calls } g = t.writesOf g) ∧
      ∀ c ∈ amend (fun c => { c with acked := true }) t.calls, ∀ g ∈ c.epoch, g ≤ t.epoch := by
  cases hcalls : t.calls with
  | nil =>
      refine ⟨fun g => ?_, fun c hc => by cases hc⟩
      exact writesOf_congr (by simp [amend, hcalls]) g
  | cons c cs =>
      refine ⟨fun g => writesOf_congr (by simp [amend, hcalls]) g, fun c' hc' g hg => ?_⟩
      rcases List.mem_cons.1 hc' with rfl | hc'
      · exact h.epochs (c := c) (by simp [hcalls]) g hg
      · exact h.epochs (by simp [hcalls, hc']) g hg

/-- Every move keeps track. -/
theorem step [SegmentFile ν] {a : Move ν} (h : t.Tracks) (hstep : t.step a = some t') :
    t'.Tracks := by
  obtain ⟨s, hs, rfl⟩ := step_cases hstep
  have hmaint := h.maint
  unfold MaintOk at hmaint
  cases hs with
  | append hwriter =>
      refine h.of_writer (h.logged rfl).1 (h.logged rfl).2 rfl rfl (fun map hmap => by cases hmap) ?_
      exact ⟨_, _, rfl, rfl, rfl⟩
  | appendFails hwriter =>
      refine h.of_writer (h.logged rfl).1 (h.logged rfl).2 rfl rfl (fun map hmap => hmap) ?_
      simp [LatestOk, hwriter]
  | insert hwriter => exact h.insert hwriter
  | takeIdle hwriter hfull => exact h.take (.inl ⟨hwriter, rfl⟩)
  | takeFull hwriter hfull => exact h.take (.inr ⟨_, hwriter, rfl⟩)
  | openWal hwriter =>
      -- The memtable stays in the writer's hand.
      refine h.of_writer (fun _ => rfl) (fun _ hc => h.epochs hc) rfl rfl ?_ ?_
      · intro map hmap
        simpa [Actors.hand, hwriter] using hmap
      · have hlatest := h.latest
        unfold LatestOk at hlatest ⊢
        rename_i req map seq
        cases req with
        | none => trivial
        | some r =>
            simp only [hwriter] at hlatest
            exact hlatest
  | openFails hwriter =>
      exact h.of_writer (fun _ => rfl) (fun _ hc => h.epochs hc) rfl rfl
        (fun map hmap => by cases hmap) trivial
  | push hwriter => exact h.push hwriter
  | replyInserted hwriter hroom =>
      rw [note_reply_inserted hwriter]
      exact h.of_writer h.acknowledged.1 h.acknowledged.2 rfl rfl (fun map hmap => by cases hmap)
        trivial
  | replyPushed hwriter =>
      rename_i req
      cases req with
      | none =>
          rw [note_reply_idle hwriter]
          exact h.of_writer (fun _ => rfl) (fun _ hc => h.epochs hc) rfl rfl
            (fun map hmap => by cases hmap) trivial
      | some r =>
          rw [note_reply_pushed hwriter]
          exact h.of_writer h.acknowledged.1 h.acknowledged.2 rfl rfl
            (fun map hmap => by cases hmap) trivial
  | pick hphase hfrozen =>
      refine h.of_maint rfl rfl rfl (fun _ => id) ?_
      show t.now.engine.frozen.head? = _
      simp [hfrozen]
  | alloc hphase =>
      simp only [hphase] at hmaint
      exact h.of_maint rfl rfl rfl (fun _ => id) hmaint
  | writeSegment hphase =>
      simp only [hphase] at hmaint
      exact h.of_maint rfl rfl rfl (fun _ => id) hmaint
  | writeFails hphase => exact h.of_maint rfl rfl rfl (fun _ => id) trivial
  | list hphase =>
      -- The new segment is the one the flush has just written.
      simp only [hphase] at hmaint
      refine h.of_maint rfl rfl rfl (fun m hm => List.mem_append_left _ hm) ⟨hmaint, ?_⟩
      exact ⟨_, List.mem_append_right _ (List.mem_singleton_self _), rfl⟩
  | listFails hphase =>
      exact h.of_maint rfl rfl rfl (fun m hm => List.mem_append_left _ hm) trivial
  | removeWal hphase => exact h.flushed_next hphase _
  | removeFails hphase => exact h.flushed_next hphase _
  | dropFrozen hphase => exact h.dropFrozen hphase

end Tracks

end Tracks

end Traced

end Girder
