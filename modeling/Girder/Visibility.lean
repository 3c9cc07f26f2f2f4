import Girder.Compaction
import Girder.Traces

/-!
# Visibility — where an acknowledged write can be found

A record is on its way from the memtable through a frozen memtable into a listed segment.  `Keeps`
says that a reader finds it in one of the three; `AckedVisible` that this is so for every
acknowledged put or delete that no later write of its key has replaced.

`freeze` empties the memtable before it opens the next log and pushes the frozen memtable, so what
only the memtable held is nowhere in between, and for good when the log cannot be opened.
`acked_visible_iff`: along a run everything acknowledged stays visible exactly when each memtable
that is taken holds nothing acknowledged that is not held below it as well.
-/

namespace Girder

open Lib

variable {ν : Type}

namespace Engine

/-- A frozen memtable or a listed segment holds the record. -/
def KeepsBelow (e : Engine ν) (r : Record ν) : Prop :=
  (∃ f ∈ e.frozen, r ∈ f.2.values) ∨ ∃ s ∈ e.manifest.segments, r ∈ s.rows

/-- The memtable, a frozen memtable or a listed segment holds the record. -/
def Keeps (e : Engine ν) (r : Record ν) : Prop :=
  r ∈ e.memtable.values ∨ e.KeepsBelow r

end Engine

namespace Traced

/-- The writes that have been inserted, newest first, with whether they are acknowledged. -/
def shown (t : Traced ν) : List (Write ν × Bool) :=
  t.calls.flatMap (fun c =>
    if c.epoch.isSome then c.writes.reverse.map (fun w => (w, c.acked)) else [])

/-- The latest inserted write of a key. -/
def newest (t : Traced ν) (key : String) : Option (Write ν × Bool) :=
  t.shown.find? (fun x => decide (x.1.key = key))

/-- Every acknowledged put or delete that no later write of its key has replaced can be found. -/
def AckedVisible (t : Traced ν) : Prop :=
  ∀ key r, t.newest key = some (.put r, true) → t.now.engine.Keeps r

/-- When the memtable is taken, everything acknowledged is held below it. -/
def Sheltered (t : Traced ν) : Move ν → Prop
  | .take => ∀ key r, t.newest key = some (.put r, true) → t.now.engine.KeepsBelow r
  | _ => True

end Traced

/-! ## The latest write of a key -/

section Newest

theorem newest_key {t : Traced ν} {key : String} {x : Write ν × Bool}
    (h : t.newest key = some x) : x.1.key = key := by
  have hx := List.find?_some h
  exact of_decide_eq_true hx

/-- A call that has not reached a memtable shows nothing. -/
theorem newest_logged {t : Traced ν} {c : Call ν} (hc : c.epoch = none) (key : String) :
    Traced.newest { t with calls := c :: t.calls } key = t.newest key := by
  simp [Traced.newest, Traced.shown, hc]

theorem newest_congr {t t' : Traced ν} (h : t'.calls = t.calls) (key : String) :
    t'.newest key = t.newest key := by
  simp [Traced.newest, Traced.shown, h]

/-- The writes of the latest call come before everything else. -/
theorem newest_cons {t : Traced ν} (c : Call ν) (cs : List (Call ν)) (hcalls : t.calls = c :: cs)
    {g : Nat} (hc : c.epoch = some g) (key : String) :
    t.newest key =
      ((c.writes.reverse.find? (fun w => decide (w.key = key))).map (fun w => (w, c.acked))).or
        (Traced.newest { t with calls := cs } key) := by
  simp only [Traced.newest, Traced.shown, hcalls, List.flatMap_cons, hc, Option.isSome_some,
    if_true, List.find?_append, List.find?_map]
  rfl

end Newest

namespace Engine

theorem Keeps.of_eq {e e' : Engine ν} {r : Record ν} (h : e.Keeps r)
    (hmem : e'.memtable = e.memtable) (hfrozen : ∀ f ∈ e.frozen, f ∈ e'.frozen)
    (hsegs : ∀ s ∈ e.manifest.segments, s ∈ e'.manifest.segments) : e'.Keeps r := by
  rcases h with h | ⟨f, hf, hr⟩ | ⟨s, hs, hr⟩
  · exact .inl (hmem ▸ h)
  · exact .inr (.inl ⟨f, hfrozen f hf, hr⟩)
  · exact .inr (.inr ⟨s, hsegs s hs, hr⟩)

end Engine

/-! ## One move -/

namespace Traced

variable {t t' : Traced ν}

/-- Moves that lose nothing and acknowledge nothing. -/
theorem AckedVisible.of_eq (h : t.AckedVisible) (hcalls : t'.calls = t.calls)
    (hmem : t'.now.engine.memtable = t.now.engine.memtable)
    (hfrozen : ∀ f ∈ t.now.engine.frozen, f ∈ t'.now.engine.frozen)
    (hsegs : ∀ s ∈ t.now.engine.manifest.segments, s ∈ t'.now.engine.manifest.segments) :
    t'.AckedVisible := by
  intro key r hr
  rw [newest_congr hcalls] at hr
  exact (h key r hr).of_eq hmem hfrozen hsegs

theorem AckedVisible.logged {s : Actors ν} (h : t.AckedVisible) {c : Call ν} (hc : c.epoch = none)
    (hengine : s.engine = t.now.engine) :
    Traced.AckedVisible { t with calls := c :: t.calls, now := s } := by
  intro key r hr
  have hold : t.newest key = some (.put r, true) := by
    rw [← newest_logged hc]
    exact hr
  show s.engine.Keeps r
  rw [hengine]
  exact h key r hold

section Moves

variable [Unicode] [Numeral ν]

/-- An insert replaces only what it supersedes. -/
theorem AckedVisible.insert (h : t.AckedVisible) (htracks : t.Tracks) {req : Request ν}
    (hwriter : t.now.writer = .appended req) :
    Traced.AckedVisible
      { t with
        calls := amend (fun c => { c with epoch := some t.epoch }) t.calls
        now :=
          { t.now with
            engine :=
              { t.now.engine with
                memtable := req.writes.foldl MemTable.applyWrite t.now.engine.memtable }
            writer := .inserted req } } := by
  have hlatest := htracks.latest
  simp only [LatestOk, hwriter] at hlatest
  obtain ⟨c, cs, hcalls, hcw, hce⟩ := hlatest
  have hmem : t.now.engine.memtable.Consistent := by
    rw [htracks.current]
    exact memtableOf_consistent _
  have hmem' := foldl_applyWrite_consistent hmem req.writes
  intro key r hr
  rw [newest_cons { c with epoch := some t.epoch } cs (by rw [hcalls]; rfl) rfl,
    hcw] at hr
  cases hfind : req.writes.reverse.find? (fun w => decide (w.key = key)) with
  | some w =>
      rw [hfind, Option.map_some, Option.some_or, Option.some.injEq, Prod.mk.injEq] at hr
      rw [hr.1] at hfind
      exact .inl (mem_values_of_get hmem' (get_foldl_of_put hmem hfind))
  | none =>
      rw [hfind, Option.map_none, Option.none_or] at hr
      have hold : t.newest key = some (.put r, true) := by
        have hskip : t.newest key = Traced.newest { t with calls := cs } key := by
          simp [newest, shown, hcalls, hce]
        exact hskip.trans hr
      rcases h key r hold with hlive | hbelow
      · -- The message leaves the key alone, so the memtable still has its record.
        have hother : ∀ w ∈ req.writes, w.key ≠ key := by
          intro w hw
          simpa using List.find?_eq_none.1 hfind w (List.mem_reverse.2 hw)
        have hkey : r.key = key := newest_key hold
        have hget := (MemTable.mem_values hmem).1 hlive
        rw [hkey, ← get_foldl_of_none hmem hother] at hget
        exact .inl (mem_values_of_get hmem' hget)
      · exact .inr hbelow

omit [Unicode] [Numeral ν] in
/-- The writes of the latest call end the writes of its memtable. -/
theorem writesOf_latest {c : Call ν} {cs : List (Call ν)} {g : Nat} (hcalls : t.calls = c :: cs)
    (hc : c.epoch = some g) :
    t.writesOf g = Traced.writesOf { t with calls := cs } g ++ c.writes := by
  simp [writesOf, hcalls, hc]

/-- A memtable with the writes of the latest call has the record of every key it put. -/
theorem mem_values_latest {c : Call ν} {cs : List (Call ν)} {g : Nat} {key : String} {r : Record ν}
    (hcalls : t.calls = c :: cs) (hc : c.epoch = some g)
    (h : c.writes.reverse.find? (fun w => decide (w.key = key)) = some (.put r)) :
    r ∈ (memtableOf (t.writesOf g)).values := by
  have hget : (memtableOf (t.writesOf g)).get key = some r := by
    refine get_foldl_of_put MemTable.empty_consistent ?_
    rw [writesOf_latest hcalls hc, List.reverse_append, List.find?_append, h, Option.some_or]
  exact mem_values_of_get (memtableOf_consistent _) hget

/-- What the latest call wrote can be found when its memtable is the live one, a frozen one or a
flushed one. -/
theorem AckedVisible.acknowledge (h : t.AckedVisible) (htracks : t.Tracks) {s : Actors ν}
    (hengine : s.engine = t.now.engine) {c : Call ν} {cs : List (Call ν)} {g : Nat}
    (hcalls : t.calls = c :: cs) (hc : c.epoch = some g)
    (hplace : g = t.epoch ∨ g ∈ t.queue ∨ g ∈ t.flushed) :
    Traced.AckedVisible
      { t with calls := amend (fun c => { c with acked := true }) t.calls, now := s } := by
  intro key r hr
  show s.engine.Keeps r
  rw [hengine]
  rw [newest_cons { c with acked := true } cs (by rw [hcalls]; rfl) hc] at hr
  cases hfind : c.writes.reverse.find? (fun w => decide (w.key = key)) with
  | none =>
      rw [hfind, Option.map_none, Option.none_or] at hr
      refine h key r ?_
      rw [newest_cons c cs hcalls hc, hfind]
      exact hr
  | some w =>
      rw [hfind, Option.map_some, Option.some_or, Option.some.injEq, Prod.mk.injEq] at hr
      rw [hr.1] at hfind
      have hmem := mem_values_latest hcalls hc hfind
      rcases hplace with rfl | hqueue | hflushed
      · exact .inl (by rw [htracks.current]; exact hmem)
      · have hin : memtableOf (t.writesOf g) ∈ t.now.engine.frozen.map Prod.snd := by
          rw [htracks.frozen]
          exact List.mem_map_of_mem hqueue
        obtain ⟨f, hf, heq⟩ := List.mem_map.1 hin
        exact .inr (.inl ⟨f, hf, by rw [heq]; exact hmem⟩)
      · obtain ⟨-, m, hm, hrows⟩ := htracks.flushed g hflushed
        exact .inr (.inr ⟨m, hm, by rw [hrows]; exact hmem⟩)

/-- A frozen memtable is dropped after its segment is listed. -/
theorem AckedVisible.dropFrozen (h : t.AckedVisible) (htracks : t.Tracks)
    {entry : Nat × MemTable ν} (hmaint : t.now.maint = .unlogged entry) :
    Traced.AckedVisible
      { t with
        queue := t.queue.tail
        now :=
          { t.now with
            engine := { t.now.engine with frozen := t.now.engine.frozen.tail }
            maint := .idle } } := by
  have hok := htracks.maint
  simp only [MaintOk, hmaint] at hok
  obtain ⟨hhead, -, m, hm, hrows⟩ := hok
  obtain ⟨rest, hrest⟩ := List.head?_eq_some_iff.1 hhead
  intro key r hr
  rcases h key r hr with hlive | ⟨f, hf, hmem⟩ | hsegs
  · exact .inl hlive
  · rw [hrest] at hf
    rcases List.mem_cons.1 hf with rfl | hf
    · exact .inr (.inr ⟨m, hm, by rw [hrows]; exact hmem⟩)
    · refine .inr (.inl ⟨f, ?_, hmem⟩)
      show f ∈ t.now.engine.frozen.tail
      rw [hrest]
      exact hf
  · exact .inr (.inr hsegs)

omit [Unicode] [Numeral ν] in
theorem AckedVisible.take (h : ∀ key r, t.newest key = some (.put r, true) →
      t.now.engine.KeepsBelow r) (req : Option (Request ν)) :
    Traced.AckedVisible { t with epoch := t.epoch + 1, now := t.now.take req } :=
  fun key r hr => .inr (h key r hr)

omit [Unicode] [Numeral ν] in
/-- A taken memtable leaves what is held below it, and nothing else. -/
theorem sheltered_of_take {req : Option (Request ν)}
    (h : Traced.AckedVisible { t with epoch := t.epoch + 1, now := t.now.take req }) :
    t.Sheltered .take := by
  intro key r hr
  rcases h key r hr with hlive | hbelow
  · cases hlive
  · exact hbelow

variable [SegmentFile ν]

/-- A move that meets the condition keeps everything acknowledged visible. -/
theorem AckedVisible.step {a : Move ν} (h : t.AckedVisible) (htracks : t.Tracks)
    (hcond : t.Sheltered a) (hstep : t.step a = some t') : t'.AckedVisible := by
  obtain ⟨s, hs, rfl⟩ := step_cases hstep
  have hlatest := htracks.latest
  unfold LatestOk at hlatest
  cases hs with
  | append hwriter => exact h.logged rfl rfl
  | appendFails hwriter => exact h.logged rfl rfl
  | insert hwriter => exact h.insert htracks hwriter
  -- The condition is about this move alone.
  | takeIdle hwriter hfull => exact AckedVisible.take hcond none
  | takeFull hwriter hfull => exact AckedVisible.take hcond _
  | push hwriter =>
      exact h.of_eq rfl rfl (fun f hf => List.mem_append_left _ hf) (fun _ => id)
  | replyInserted hwriter hroom =>
      simp only [hwriter] at hlatest
      obtain ⟨c, cs, hcalls, hc⟩ := hlatest
      rw [note_reply_inserted hwriter]
      exact h.acknowledge htracks rfl hcalls hc (.inl rfl)
  | @replyPushed req hwriter =>
      cases req with
      | none =>
          rw [note_reply_idle hwriter]
          exact h.of_eq rfl rfl (fun _ => id) (fun _ => id)
      | some r =>
          simp only [hwriter] at hlatest
          obtain ⟨⟨c, cs, hcalls, hc⟩, hplace⟩ := hlatest
          rw [note_reply_pushed hwriter]
          exact h.acknowledge htracks rfl hcalls hc (.inr hplace)
  | list hmaint => exact h.of_eq rfl rfl (fun _ => id) (fun m hm => List.mem_append_left _ hm)
  | listFails hmaint => exact h.of_eq rfl rfl (fun _ => id) (fun m hm => List.mem_append_left _ hm)
  | dropFrozen hmaint => exact h.dropFrozen htracks hmaint
  | openWal _ => exact h.of_eq rfl rfl (fun _ => id) (fun _ => id)
  | openFails _ => exact h.of_eq rfl rfl (fun _ => id) (fun _ => id)
  | pick _ _ => exact h.of_eq rfl rfl (fun _ => id) (fun _ => id)
  | alloc _ => exact h.of_eq rfl rfl (fun _ => id) (fun _ => id)
  | writeSegment _ => exact h.of_eq rfl rfl (fun _ => id) (fun _ => id)
  | writeFails _ => exact h.of_eq rfl rfl (fun _ => id) (fun _ => id)
  | removeWal _ => exact h.of_eq rfl rfl (fun _ => id) (fun _ => id)
  | removeFails _ => exact h.of_eq rfl rfl (fun _ => id) (fun _ => id)

/-- Only taking the memtable can hide what was acknowledged. -/
theorem sheltered_of_step {a : Move ν} (hstep : t.step a = some t') (h : t'.AckedVisible) :
    t.Sheltered a := by
  obtain ⟨s, hs, rfl⟩ := step_cases hstep
  cases hs with
  | takeIdle hwriter hfull => exact sheltered_of_take h
  | takeFull hwriter hfull => exact sheltered_of_take h
  | _ => trivial

end Moves

end Traced

section Main

variable [Unicode] [Numeral ν] [SegmentFile ν]

/-- Along a run of the writer and the flush, with whatever fails on the way, everything acknowledged
can be found in every state exactly when each memtable that is taken holds nothing acknowledged
that is not also in a frozen memtable or a listed segment. -/
theorem acked_visible_iff (config : Config) (manifest : Manifest ν) (disk : Disk ν) (seq : Nat)
    (moves : List (Move ν)) :
    Throughout Traced.step Traced.AckedVisible (Traced.opened config manifest disk seq) moves ↔
      EachStep Traced.step Traced.Sheltered (Traced.opened config manifest disk seq) moves := by
  refine throughout_iff_eachStep Traced.Tracks ?_ ?_ (Traced.tracks_opened _ _ _ _) ?_
  · exact fun htracks h hcond hstep => ⟨htracks.step hstep, h.step htracks hcond hstep⟩
  · exact fun _ _ hstep h => Traced.sheltered_of_step hstep h
  · intro key r hr
    cases hr

end Main

section Sample

local instance instVisibilityUnicode : Unicode := asciiUnicode

local instance instVisibilityFile : SegmentFile Int := footprintFile Int

/-- One acknowledged put, then a freeze that cannot open the next log. -/
def freezeFails : List (Move Int) :=
  [.append (.putBatch [Record.bare "a" 1]), .insert, .reply, .take, .openFails false]

theorem freezeFails_runs :
    (runFrom Traced.step (Traced.opened (ν := Int) {} {} {} 0) freezeFails).isSome = true := by
  decide

/-- The acknowledged record is nowhere after the freeze has returned its error. -/
theorem freezeFails_hides_acked :
    ¬ Throughout Traced.step Traced.AckedVisible
      (Traced.opened (ν := Int) {} {} {} 0) freezeFails := by
  intro h
  have hlast :=
    h.last (Option.some_get freezeFails_runs).symm "a" (Record.bare "a" 1) rfl
  rcases hlast with hlive | ⟨f, hf, -⟩ | ⟨s, hs, -⟩
  · exact absurd hlive (by decide)
  · cases hf
  · cases hs

end Sample

end Girder
