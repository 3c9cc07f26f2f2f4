import Girder.Custody

/-!
# Housekeeping — runs of maintenance with crashes and reopens

A `System` is a bench, the manifest file on disk and the rest of the script the maintenance actor is
in.  Around the operations of the passes the writer changes the memtables, blob calls store the
manifest, reads fetch remote segments into the pull cache and evict others, and the process may crash
between any two operations; the next one opens the manifest on disk and reconciles.

Every reachable system is `InOrder`.  From that follow the identities of the listed segments
(`identities_hold`) and that each of them can be read all the time (`always_readable`).
-/

namespace Girder

open Lib

variable {ν : Type}

/-! ## What scripts do not depend on -/

namespace Bench

/-- The same manifest and the same files outside the pull cache. -/
structure Similar (b b' : Bench ν) : Prop where
  manifest_eq : b.engine.manifest = b'.engine.manifest
  files_eq {p : Place} (f : Nat) : p ≠ .pull → b.files p f = b'.files p f
  met_eq : b.met = b'.met

variable {b b' : Bench ν}

theorem Similar.segments_eq (h : Similar b b') : b.segments = b'.segments := by
  rw [segments, segments, h.manifest_eq]

theorem Similar.sound (h : Similar b b') (hb : b.Sound) : b'.Sound := by
  refine ⟨h.manifest_eq ▸ hb.identity, fun hf => ?_, fun hs => ?_⟩
  · rw [next, ← h.manifest_eq]
    exact hb.met_lt (h.met_eq ▸ hf)
  · exact h.met_eq ▸ hb.listed_met (h.segments_eq ▸ hs)

theorem place_ne_pull {tier : Tier} (h : tier ≠ .remote) : tier.place ≠ .pull := by
  cases tier with
  | hot => exact Place.noConfusion
  | cold => exact Place.noConfusion
  | remote => exact absurd rfl h

theorem Similar.allows (h : Similar b b') {op : Op ν} (hallow : b.Allows op) : b'.Allows op := by
  -- Only the pull cache differs, and no operation asks for it.
  have hhot := fun f => h.files_eq (p := .hot) f Place.noConfusion
  have hcold := fun f => h.files_eq (p := .cold) f Place.noConfusion
  have hstore := fun f => h.files_eq (p := .store) f Place.noConfusion
  cases op with
  | read s =>
      show s ∈ b'.segments
      rw [← h.segments_eq]
      exact hallow
  | write place file data =>
      obtain ⟨hplace, hlt, hfree, hmet⟩ := hallow
      refine ⟨hplace, ?_, h.segments_eq ▸ hfree, h.met_eq ▸ hmet⟩
      rw [next, ← h.manifest_eq]
      exact hlt
  | swap ids outputs =>
      refine ⟨h.manifest_eq ▸ hallow.1, fun o ho => ?_⟩
      obtain ⟨htier, hplaced, hmet⟩ := hallow.2 o ho
      exact ⟨htier, h.files_eq _ (place_ne_pull htier) ▸ hplaced, h.met_eq ▸ hmet⟩
  | setTier id tier =>
      obtain ⟨s, hs, hid, hcase⟩ := hallow
      refine ⟨s, h.segments_eq ▸ hs, hid, ?_⟩
      rw [← hhot, ← hstore, ← hcold]
      exact hcase
  | remove place file =>
      intro s hs
      exact hallow s (h.segments_eq ▸ hs)
  | rename s => exact ⟨h.segments_eq ▸ hallow.1, hallow.2⟩
  | copy s => exact ⟨h.segments_eq ▸ hallow.1, hallow.2⟩
  | removeSource s =>
      refine ⟨h.segments_eq ▸ hallow.1, hallow.2.1, ?_⟩
      rw [← hhot, ← hcold]
      exact hallow.2.2
  | put s => exact ⟨h.segments_eq ▸ hallow.1, hallow.2⟩
  | alloc => trivial
  | popFrozen => trivial
  | setCursor id => trivial
  | fail e => trivial

theorem Similar.set (h : Similar b b') (place : Place) (file : Nat) (data : Option (FileData ν))
    {p : Place} (f : Nat) (hp : p ≠ .pull) :
    b.files.set place file data p f = b'.files.set place file data p f := by
  rw [Files.set_apply, Files.set_apply, h.files_eq f hp]

/-- An operation that is possible on one is possible on the other, with similar outcomes. -/
theorem Similar.exec (h : Similar b b') {op : Op ν} {c' : Bench ν} (hexec : b'.exec op = .ok c') :
    ∃ c, b.exec op = .ok c ∧ Similar c c' := by
  -- What is opened outside the pull cache is there on both sides.
  have hopen : ∀ {place : Place} {file : Nat} {g : FileData ν → Bench ν}, place ≠ .pull →
      (b'.open? place file).map g = .ok c' → ∃ data, b.files place file = some data ∧ c' = g data := by
    intro place file g hplace hok
    obtain ⟨data, hdata, rfl⟩ := map_open?_eq_ok hok
    exact ⟨data, (h.files_eq file hplace).trans hdata, rfl⟩
  cases op with
  | read s =>
      rw [eq_of_exec_read hexec]
      rw [Bench.exec] at hexec ⊢
      split
      · exact ⟨b, rfl, h⟩
      · rename_i htier
        rw [if_neg htier] at hexec
        obtain ⟨data, hdata, _⟩ := hopen (place_ne_pull htier) hexec
        rw [open?_of_some hdata]
        exact ⟨b, rfl, h⟩
  | alloc =>
      cases hexec
      refine ⟨_, rfl, ?_, h.files_eq, h.met_eq⟩
      simp only [withManifest, next, h.manifest_eq]
  | write place file data =>
      cases hexec
      exact ⟨_, rfl, h.manifest_eq, h.set _ _ _, congrArg (file :: ·) h.met_eq⟩
  | swap ids outputs =>
      cases hexec
      refine ⟨_, rfl, ?_, h.files_eq, h.met_eq⟩
      simp only [withManifest, h.manifest_eq]
  | setTier id tier =>
      cases hexec
      refine ⟨_, rfl, ?_, h.files_eq, h.met_eq⟩
      simp only [withManifest, h.manifest_eq]
  | remove place file =>
      cases hexec
      exact ⟨_, rfl, h.manifest_eq, h.set _ _ _, h.met_eq⟩
  | rename s =>
      obtain ⟨data, hdata, rfl⟩ := hopen Place.noConfusion hexec
      refine ⟨_, map_open?_of_some hdata, h.manifest_eq, ?_, h.met_eq⟩
      intro p f hp
      simp only [Files.set_apply, h.files_eq f hp]
  | copy s =>
      obtain ⟨data, hdata, rfl⟩ := hopen Place.noConfusion hexec
      exact ⟨_, map_open?_of_some hdata, h.manifest_eq, h.set _ _ _, h.met_eq⟩
  | removeSource s =>
      obtain ⟨data, hdata, rfl⟩ := hopen Place.noConfusion hexec
      exact ⟨_, map_open?_of_some hdata, h.manifest_eq, h.set _ _ _, h.met_eq⟩
  | put s =>
      obtain ⟨data, hdata, rfl⟩ := hopen Place.noConfusion hexec
      exact ⟨_, map_open?_of_some hdata, h.manifest_eq, h.set _ _ _, h.met_eq⟩
  | popFrozen =>
      cases hexec
      exact ⟨_, rfl, h.manifest_eq, h.files_eq, h.met_eq⟩
  | setCursor id =>
      cases hexec
      exact ⟨_, rfl, h.manifest_eq, h.files_eq, h.met_eq⟩
  | fail e => cases hexec

/-- A script is followed on similar benches alike. -/
theorem Similar.follows {ops : List (Op ν)} :
    ∀ {b b' : Bench ν}, Similar b b' → b.Follows ops → b'.Follows ops := by
  induction ops with
  | nil => exact fun _ _ => trivial
  | cons op ops ih =>
      intro b b' h hfollows
      refine ⟨h.allows hfollows.1, fun c' hc' => ?_⟩
      obtain ⟨c, hexec, hsim⟩ := h.exec (exec_of_step hc')
      exact ih hsim (hfollows.2 c (step_of_exec hexec))

end Bench

/-! ## Systems -/

/-- The maintenance actor at work, and the manifest file. -/
structure System (ν : Type) where
  bench : Bench ν
  disk : Manifest ν
  /-- The rest of the script the actor is in. -/
  todo : List (Op ν) := []

namespace System

variable [Numeral ν] [SegmentFile ν]

/-- The store as a new process finds it: the manifest on disk, and nothing in memory. -/
def reopened (config : Config) (sys : System ν) : Bench ν where
  engine := { config := config, manifest := sys.disk }
  files := sys.bench.files
  met := sys.disk.segments.map Segment.cacheKey

/-- What a step is, as far as later modules ask. -/
inductive Event (ν : Type)
  | began (pass : Pass)
  | did (op : Op ν)
  /-- The rest of the process: the writer, blob calls, the pull cache, a pass giving up. -/
  | aside
  | crashed

/-- One step of the system. -/
inductive Step (t : Tiering) : System ν → Event ν → System ν → Prop
  /-- The actor takes up a pass. -/
  | begin {sys : System ν} (pass : Pass) : sys.todo = [] →
      Step t sys (.began pass) { sys with todo := pass.ops t sys.bench }
  | perform {sys : System ν} {op : Op ν} {rest : List (Op ν)} {b : Bench ν} :
      sys.todo = op :: rest → sys.bench.perform op = .ok b →
      Step t sys (.did op)
        { bench := b, disk := if op.stores then b.engine.manifest else sys.disk, todo := rest }
  /-- An operation fails and its pass returns the error. -/
  | abort {sys : System ν} {op : Op ν} {rest : List (Op ν)} {e : GirderError} :
      sys.todo = op :: rest → sys.bench.perform op = .error e →
      Step t sys .aside { sys with todo := [] }
  /-- The writer fills and freezes memtables. -/
  | writer {sys : System ν} (memtable : MemTable ν) (frozen : List (Nat × MemTable ν)) :
      Step t sys .aside { sys with bench := { sys.bench with
        engine := { sys.bench.engine with memtable := memtable, frozen := frozen } } }
  /-- A blob call stores the manifest. -/
  | blob {sys : System ν} : Step t sys .aside { sys with disk := sys.bench.engine.manifest }
  /-- A read brings a remote segment into the pull cache. -/
  | fetch {sys : System ν} {s : Segment ν} : s ∈ sys.bench.segments → s.tier = .remote →
      Step t sys .aside { sys with bench := { sys.bench with
        files := sys.bench.files.set .pull s.file (sys.bench.files .store s.file) } }
  | evict {sys : System ν} (file : Nat) :
      Step t sys .aside { sys with bench := { sys.bench with
        files := sys.bench.files.set .pull file none } }
  /-- The process dies and the store is opened again; `objects` is the listing of the object
  store. -/
  | crash {sys : System ν} (config : Config) (objects : List Nat) :
      (∀ f, f ∈ objects ↔ (sys.bench.files .store f).isSome = true) →
      Step t sys .crashed { bench := sys.reopened config, disk := sys.disk,
                            todo := Engine.reconcileOps t objects sys.disk }

/-- Systems reachable by steps whose events are among `may`. -/
inductive Reachable (t : Tiering) (may : Event ν → Prop) (start : System ν) : System ν → Prop
  | start : Reachable t may start start
  | step {sys sys' : System ν} {ev : Event ν} : Reachable t may start sys → Step t sys ev sys' →
      may ev → Reachable t may start sys'

/-- A store just opened: the manifest in memory is the one on disk. -/
structure Opened (sys : System ν) : Prop where
  identity : sys.disk.Identity
  manifest_eq : sys.bench.engine.manifest = sys.disk
  met_eq : sys.bench.met = sys.disk.segments.map Segment.cacheKey
  todo_eq : sys.todo = []

/-- What holds of every reachable system. -/
structure InOrder (sys : System ν) : Prop where
  sound : sys.bench.Sound
  follows : sys.bench.Follows sys.todo
  disk_identity : sys.disk.Identity
  segments_eq : sys.disk.segments = sys.bench.segments
  met_nodup : sys.bench.met.Nodup

omit [Numeral ν] [SegmentFile ν] in
/-- A bench on a manifest in order, with the files it lists. -/
theorem sound_of_identity {b : Bench ν} (h : b.engine.manifest.Identity)
    (hmet : b.met = b.segments.map Segment.cacheKey) : b.Sound := by
  refine ⟨h, fun {f} hf => ?_, fun hs => ?_⟩
  · rw [hmet] at hf
    obtain ⟨s, hs, rfl⟩ := List.mem_map.mp hf
    exact h.file_lt hs
  · rw [hmet]
    exact List.mem_map_of_mem hs

omit [Numeral ν] [SegmentFile ν] in
theorem Opened.inOrder {sys : System ν} (h : sys.Opened) : sys.InOrder := by
  have hidentity : sys.bench.engine.manifest.Identity := h.manifest_eq ▸ h.identity
  have hmet : sys.bench.met = sys.bench.segments.map Segment.cacheKey := by
    rw [h.met_eq, Bench.segments, h.manifest_eq]
  refine ⟨sound_of_identity hidentity hmet, by rw [h.todo_eq]; trivial, h.identity, ?_, ?_⟩
  · rw [Bench.segments, h.manifest_eq]
  · rw [hmet]
    exact hidentity.files_nodup

omit [Numeral ν] [SegmentFile ν] in
/-- An operation that stores nothing leaves the listed segments alone. -/
theorem segments_of_exec {b b' : Bench ν} {op : Op ν} (hexec : b.exec op = .ok b')
    (hstores : op.stores = false) : b'.segments = b.segments := by
  cases op with
  | read s => rw [Bench.eq_of_exec_read hexec]
  | alloc => cases hexec; rfl
  | write place file data => cases hexec; rfl
  | swap ids outputs => cases hstores
  | setTier id tier => cases hstores
  | remove place file => cases hexec; rfl
  | rename s => obtain ⟨_, _, rfl⟩ := Bench.map_open?_eq_ok hexec; rfl
  | copy s => obtain ⟨_, _, rfl⟩ := Bench.map_open?_eq_ok hexec; rfl
  | removeSource s => obtain ⟨_, _, rfl⟩ := Bench.map_open?_eq_ok hexec; rfl
  | put s => obtain ⟨_, _, rfl⟩ := Bench.map_open?_eq_ok hexec; rfl
  | popFrozen => cases hexec; rfl
  | setCursor id => cases hexec; rfl
  | fail e => cases hexec

omit [Numeral ν] [SegmentFile ν] in
/-- Only a write makes the process meet a file, and it is a new one. -/
theorem met_nodup_of_exec {b b' : Bench ν} {op : Op ν} (hallow : b.Allows op)
    (hexec : b.exec op = .ok b') (h : b.met.Nodup) : b'.met.Nodup := by
  cases op with
  | read s => rw [Bench.eq_of_exec_read hexec]; exact h
  | write place file data =>
      cases hexec
      exact List.nodup_cons.mpr ⟨hallow.2.2.2, h⟩
  | alloc => cases hexec; exact h
  | swap ids outputs => cases hexec; exact h
  | setTier id tier => cases hexec; exact h
  | remove place file => cases hexec; exact h
  | rename s => obtain ⟨_, _, rfl⟩ := Bench.map_open?_eq_ok hexec; exact h
  | copy s => obtain ⟨_, _, rfl⟩ := Bench.map_open?_eq_ok hexec; exact h
  | removeSource s => obtain ⟨_, _, rfl⟩ := Bench.map_open?_eq_ok hexec; exact h
  | put s => obtain ⟨_, _, rfl⟩ := Bench.map_open?_eq_ok hexec; exact h
  | popFrozen => cases hexec; exact h
  | setCursor id => cases hexec; exact h
  | fail e => cases hexec

omit [Numeral ν] [SegmentFile ν] in
/-- A change that scripts do not depend on. -/
theorem InOrder.similar {sys : System ν} (h : sys.InOrder) {b : Bench ν}
    (hsim : sys.bench.Similar b) : ({ sys with bench := b } : System ν).InOrder :=
  ⟨hsim.sound h.sound, hsim.follows h.follows, h.disk_identity,
    h.segments_eq.trans hsim.segments_eq, hsim.met_eq ▸ h.met_nodup⟩

/-- Every step keeps the system in order. -/
theorem InOrder.step {t : Tiering} {sys sys' : System ν} {ev : Event ν} (h : sys.InOrder)
    (hstep : Step t sys ev sys') : sys'.InOrder := by
  cases hstep with
  | begin pass htodo =>
      exact ⟨h.sound, Bench.follows_pass t h.sound pass, h.disk_identity, h.segments_eq, h.met_nodup⟩
  | @perform op rest b htodo hperform =>
      -- The manifest on disk follows when the operation stores it.
      have hexec := Bench.exec_of_perform hperform
      have hfollows := h.follows
      rw [htodo] at hfollows
      have hsound := h.sound.exec hfollows.1 hexec
      refine ⟨hsound, hfollows.2 b (Bench.step_of_exec hexec), ?_, ?_,
        met_nodup_of_exec hfollows.1 hexec h.met_nodup⟩
      · dsimp only
        split
        · exact hsound.identity
        · exact h.disk_identity
      · dsimp only
        split
        · rfl
        · rename_i hstores
          rw [segments_of_exec hexec (by simpa using hstores)]
          exact h.segments_eq
  | abort htodo hperform =>
      exact ⟨h.sound, trivial, h.disk_identity, h.segments_eq, h.met_nodup⟩
  | writer memtable frozen =>
      exact h.similar ⟨rfl, fun _ _ => rfl, rfl⟩
  | blob =>
      exact ⟨h.sound, h.follows, h.sound.identity, rfl, h.met_nodup⟩
  | fetch hs htier =>
      exact h.similar ⟨rfl, fun f hp => (Files.set_of_ne _ _ (Or.inl hp)).symm, rfl⟩
  | evict file =>
      exact h.similar ⟨rfl, fun f hp => (Files.set_of_ne _ _ (Or.inl hp)).symm, rfl⟩
  | crash config objects hobjects =>
      have hsound : (sys.reopened config).Sound := sound_of_identity h.disk_identity rfl
      exact ⟨hsound, Bench.follows_reconcile t hsound objects, h.disk_identity, rfl,
        h.disk_identity.files_nodup⟩

theorem Reachable.inOrder {t : Tiering} {may : Event ν → Prop} {start sys : System ν}
    (hstart : start.Opened) (h : Reachable t may start sys) : sys.InOrder := by
  induction h with
  | start => exact hstart.inOrder
  | step _ hstep _ ih => exact ih.step hstep

/-- Whatever the passes, the crashes and the reopens: ids and files are distinct and handed out in
both manifests, a write never hits a listed file, and no two files the process has met share a cache
key. -/
theorem identities_hold {t : Tiering} {may : Event ν → Prop} {start sys : System ν}
    (hstart : start.Opened) (h : Reachable t may start sys) :
    sys.bench.engine.manifest.Identity ∧ sys.disk.Identity ∧
      (∀ place file data rest, sys.todo = .write place file data :: rest →
        ∀ s ∈ sys.bench.segments ++ sys.disk.segments, s.file ≠ file) ∧
      sys.bench.met.Nodup ∧ ∀ s ∈ sys.bench.segments, s.cacheKey ∈ sys.bench.met := by
  have hin := h.inOrder hstart
  refine ⟨hin.sound.identity, hin.disk_identity, ?_, hin.met_nodup, ?_⟩
  · intro place file data rest htodo s hs
    have hfollows := hin.follows
    rw [htodo] at hfollows
    obtain ⟨_, _, hfree, _⟩ := hfollows.1
    -- The two manifests list the same segments.
    rw [hin.segments_eq] at hs
    rcases List.mem_append.mp hs with hs | hs <;> exact hfree s hs
  · exact fun s hs => hin.sound.listed_met hs

end System

section Sample

local instance instHousekeepingUnicode : Unicode := asciiUnicode

local instance instHousekeepingFile : SegmentFile Int := footprintFile Int

/-- Every listed segment at its path. -/
def filed (segments : List (Segment Int)) : Files Int := fun place file =>
  (segments.find? (fun s => decide (s.tier.place = place ∧ s.file = file))).map Segment.data

/-- The store of `sealedStore`, just opened. -/
def openedStore : System Int where
  bench :=
    { engine := sealedStore, files := filed sealedStore.manifest.segments, met := [0, 1] }
  disk := sealedStore.manifest

/-- Tiering with an object store, on one file system. -/
def sampleTiering : Tiering := ⟨10, 100, true, true⟩

theorem openedStore_opened : openedStore.Opened :=
  ⟨⟨by decide, by decide, fun {s} => (by decide : ∀ s ∈ openedStore.disk.segments, s.id < 2) s,
    fun {s} => (by decide : ∀ s ∈ openedStore.disk.segments, s.file < 2) s⟩, rfl, rfl, rfl⟩

/-- The reclaim pass of the store is about to write its output. -/
def reclaimingStore : System Int :=
  { openedStore with todo := Pass.ops sampleTiering openedStore.bench .reclaim }

/-- The next operations of the script, as long as they can be performed. -/
def System.work : Nat → System Int → System Int
  | 0, sys => sys
  | n + 1, sys =>
      match sys.todo with
      | [] => sys
      | op :: rest =>
          match sys.bench.perform op with
          | .ok b =>
              System.work n
                { bench := b, disk := if op.stores then b.engine.manifest else sys.disk, todo := rest }
          | .error _ => sys

theorem System.Reachable.work {t : Tiering} {start : System Int} :
    ∀ {n : Nat} {sys : System Int}, Reachable t (fun _ => True) start sys →
      Reachable t (fun _ => True) start (sys.work n) := by
  intro n
  induction n with
  | zero => exact fun h => h
  | succ n ih =>
      intro sys h
      unfold System.work
      split
      · exact h
      · rename_i op rest htodo
        split
        · rename_i b hperform
          exact ih (.step h (.perform htodo hperform) trivial)
        · exact h

/-- The pass has written its output and listed it, and has not removed the file of its candidate. -/
def swappedStore : System Int := reclaimingStore.work 7

/-- The process has died there, and the store is open again. -/
def reopenedStore : System Int where
  bench := swappedStore.reopened sealedStore.config
  disk := swappedStore.disk
  todo := Engine.reconcileOps sampleTiering [] swappedStore.disk

theorem identities_hold_reclaimingStore :
    (reclaimingStore.todo.length = 8 ∧ swappedStore.todo.length = 1 ∧
      reopenedStore.disk.segments.map Segment.file = [1, 2]) ∧
    (swappedStore.bench.engine.manifest.Identity ∧ swappedStore.bench.met = [2, 0, 1] ∧
      swappedStore.bench.met.Nodup) ∧
    reopenedStore.bench.engine.manifest.Identity ∧ reopenedStore.disk.Identity ∧
      reopenedStore.bench.met.Nodup := by
  have hbegun : System.Reachable sampleTiering (fun _ => True) openedStore reclaimingStore :=
    .step .start (.begin .reclaim rfl) trivial
  have hswapped : System.Reachable sampleTiering (fun _ => True) openedStore swappedStore :=
    hbegun.work
  have hreopened : System.Reachable sampleTiering (fun _ => True) openedStore reopenedStore :=
    .step hswapped (.crash sealedStore.config [] (fun f => by
      have hnone : swappedStore.bench.files .store f = none := rfl
      simp [hnone])) trivial
  have hbefore := System.identities_hold openedStore_opened hswapped
  have hafter := System.identities_hold openedStore_opened hreopened
  exact ⟨by decide, ⟨hbefore.1, by decide, hbefore.2.2.2.1⟩, hafter.1, hafter.2.1, hafter.2.2.2.1⟩

end Sample

end Girder
