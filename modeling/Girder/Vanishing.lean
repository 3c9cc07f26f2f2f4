import Girder.Moves

/-!
# Vanishing — a read while the passes replace and move its files

A read takes a snapshot of the manifest and opens the files it lists one by one, first at the path of
the tier the snapshot gives and then in the other local directory.  When a file is in neither it starts
again with a new snapshot, four times at most.  Between any two of its looks the system takes steps.

A file a snapshot lists can only vanish after the manifest stopped listing it there, so every attempt
that fails is charged to a replacement of its own (`Reading.not_vanished`).
-/

namespace Girder

open Lib

variable {ν : Type}

/-- The local directory a segment may have been moved to or from. -/
def Tier.otherPlace : Tier → Place
  | hot => .cold
  | _ => .hot

/-- Does the operation take an entry out of the manifest, or change it? -/
def Op.replaces : Op ν → Bool
  | .swap ids _ => !ids.isEmpty
  | .setTier _ _ => true
  | _ => false

/-- The replacements of one step. -/
def System.Event.swaps : System.Event ν → Nat
  | .did op => if op.replaces then 1 else 0
  | _ => 0

/-! ## What stays while nothing is replaced -/

namespace Bench

variable {b b' : Bench ν} {s : Segment ν}

/-- Without a replacement what is listed stays listed. -/
theorem mem_of_exec {op : Op ν} (hexec : b.exec op = .ok b') (hsame : op.replaces = false)
    (hs : s ∈ b.segments) : s ∈ b'.segments := by
  refine mem_of_spares hs ?_ hexec
  cases op with
  | swap ids outputs =>
      have hids : ids = [] := by simpa [Op.replaces] using hsame
      rw [hids]
      exact List.not_mem_nil
  | setTier id tier => cases hsame
  | _ => trivial

/-- A listed file that is gone from the hot directory does not come back there. -/
theorem hot_none_of_exec {op : Op ν} (hallow : b.Allows op) (hexec : b.exec op = .ok b')
    (hs : s ∈ b.segments) (hnone : b.files .hot s.file = none) : b'.files .hot s.file = none := by
  cases op with
  | read x =>
      rw [eq_of_exec_read hexec]
      exact hnone
  | write place file data =>
      -- The files of listed segments are never written again.
      cases hexec
      obtain ⟨_, _, hfree, _⟩ := hallow
      dsimp only
      rw [Files.set_of_ne _ _ (Or.inr (hfree s hs))]
      exact hnone
  | remove place file =>
      cases hexec
      dsimp only
      rw [Files.set_apply]
      split
      · rfl
      · exact hnone
  | rename x =>
      obtain ⟨_, _, rfl⟩ := map_open?_eq_ok hexec
      dsimp only
      rw [Files.set_apply]
      split
      · rfl
      · rw [Files.set_of_ne _ _ (Or.inl Place.noConfusion)]
        exact hnone
  | copy x =>
      obtain ⟨_, _, rfl⟩ := map_open?_eq_ok hexec
      dsimp only
      rw [Files.set_of_ne _ _ (Or.inl Place.noConfusion)]
      exact hnone
  | removeSource x =>
      obtain ⟨_, _, rfl⟩ := map_open?_eq_ok hexec
      dsimp only
      rw [Files.set_apply]
      split
      · rfl
      · exact hnone
  | put x =>
      obtain ⟨_, _, rfl⟩ := map_open?_eq_ok hexec
      dsimp only
      rw [Files.set_of_ne _ _ (Or.inl Place.noConfusion)]
      exact hnone
  | alloc => cases hexec; exact hnone
  | swap ids outputs => cases hexec; exact hnone
  | setTier id tier => cases hexec; exact hnone
  | popFrozen => cases hexec; exact hnone
  | setCursor id => cases hexec; exact hnone
  | fail e => cases hexec

end Bench

namespace System

variable [Numeral ν] [SegmentFile ν] {t : Tiering} {sys sys' : System ν} {ev : Event ν}

theorem mem_of_step (hstep : Step t sys ev sys') (hlive : ev ≠ .crashed) (hsame : ev.swaps = 0)
    {s : Segment ν} (hs : s ∈ sys.bench.segments) : s ∈ sys'.bench.segments := by
  cases hstep with
  | perform htodo hperform =>
      refine Bench.mem_of_exec (Bench.exec_of_perform hperform) ?_ hs
      simpa [Event.swaps] using hsame
  | crash config objects hobjects => exact absurd rfl hlive
  | _ => exact hs

theorem hot_none_of_step (hin : sys.InOrder) (hstep : Step t sys ev sys') {s : Segment ν}
    (hs : s ∈ sys.bench.segments) (hnone : sys.bench.files .hot s.file = none) :
    sys'.bench.files .hot s.file = none := by
  cases hstep with
  | perform htodo hperform =>
      have hfollows := hin.follows
      rw [htodo] at hfollows
      exact Bench.hot_none_of_exec hfollows.1 (Bench.exec_of_perform hperform) hs hnone
  | fetch hx htier =>
      dsimp only
      rw [Files.set_of_ne _ _ (Or.inl Place.noConfusion)]
      exact hnone
  | evict file =>
      dsimp only
      rw [Files.set_of_ne _ _ (Or.inl Place.noConfusion)]
      exact hnone
  | _ => exact hnone

end System

/-! ## Reads -/

/-- Where a read is. -/
inductive Phase (ν : Type)
  /-- About to take a snapshot. -/
  | starting
  | reading (snapshot : List (Segment ν))
  /-- A file was not at its path; the other directory is next. -/
  | missed (snapshot : List (Segment ν)) (s : Segment ν)
  | returned
  | failed (e : GirderError)

/-- A read and the system around it. -/
structure Reading (ν : Type) where
  sys : System ν
  /-- The retries so far. -/
  attempt : Nat := 0
  phase : Phase ν := .starting
  /-- The replacements since the read began. -/
  swaps : Nat := 0

def vanishedSegmentRetries : Nat := 4

namespace Reading

/-- `retry_vanished` when an attempt ends with a missing file. -/
def vanished (r : Reading ν) : Reading ν :=
  if r.attempt < vanishedSegmentRetries then
    { r with attempt := r.attempt + 1, phase := .starting }
  else
    { r with phase := .failed (.io "NotFound") }

variable [Numeral ν] [SegmentFile ν]

/-- One step of the read or of the system.  Which files of its snapshot a read opens, in which order
and how often, depends on the call. -/
inductive Step (t : Tiering) : Reading ν → Reading ν → Prop
  | upkeep {r : Reading ν} {ev : System.Event ν} {sys : System ν} :
      System.Step t r.sys ev sys → ev ≠ .crashed →
      Step t r { r with sys := sys, swaps := r.swaps + ev.swaps }
  | snapshot {r : Reading ν} : r.phase = .starting →
      Step t r { r with phase := .reading r.sys.bench.segments }
  | opened {r : Reading ν} {snap : List (Segment ν)} {s : Segment ν} : r.phase = .reading snap →
      s ∈ snap → s.tier ≠ .remote → (r.sys.bench.files s.tier.place s.file).isSome = true → Step t r r
  | missed {r : Reading ν} {snap : List (Segment ν)} {s : Segment ν} : r.phase = .reading snap →
      s ∈ snap → s.tier ≠ .remote → r.sys.bench.files s.tier.place s.file = none →
      Step t r { r with phase := .missed snap s }
  /-- The file is in the other directory. -/
  | found {r : Reading ν} {snap : List (Segment ν)} {s : Segment ν} : r.phase = .missed snap s →
      (r.sys.bench.files s.tier.otherPlace s.file).isSome = true →
      Step t r { r with phase := .reading snap }
  | vanished {r : Reading ν} {snap : List (Segment ν)} {s : Segment ν} :
      r.phase = .missed snap s → r.sys.bench.files s.tier.otherPlace s.file = none →
      Step t r r.vanished
  /-- The call has what it needs; the memtables may have been enough. -/
  | returned {r : Reading ν} : r.phase = .starting ∨ (∃ snap, r.phase = .reading snap) →
      Step t r { r with phase := .returned }

/-- What a read can become. -/
inductive Run (t : Tiering) (start : Reading ν) : Reading ν → Prop
  | start : Run t start start
  | step {r r' : Reading ν} : Run t start r → Step t r r' → Run t start r'

/-- The attempts so far are paid for, and while the current one is not, its snapshot is still
listed. -/
def Charged (r : Reading ν) : Prop :=
  match r.phase with
  | .starting => r.attempt ≤ r.swaps
  | .reading snap =>
      r.attempt < r.swaps ∨ (r.attempt ≤ r.swaps ∧ ∀ s ∈ snap, s ∈ r.sys.bench.segments)
  | .missed snap s =>
      r.attempt < r.swaps ∨ (r.attempt ≤ r.swaps ∧ (∀ x ∈ snap, x ∈ r.sys.bench.segments) ∧
        s ∈ snap ∧ s.tier = .hot ∧ r.sys.bench.files .hot s.file = none)
  | .returned => True
  | .failed _ => vanishedSegmentRetries < r.swaps

/-- What holds throughout a read. -/
structure Fine (r : Reading ν) : Prop where
  inOrder : r.sys.InOrder
  stored : r.sys.bench.Stored
  charged : r.Charged

variable {t : Tiering} {r r' : Reading ν}

/-- A step of the system during a read. -/
theorem Charged.upkeep (h : r.Charged) (hin : r.sys.InOrder) {ev : System.Event ν}
    {sys : System ν} (hstep : System.Step t r.sys ev sys) (hlive : ev ≠ .crashed) :
    ({ r with sys := sys, swaps := r.swaps + ev.swaps } : Reading ν).Charged := by
  unfold Charged at h ⊢
  dsimp only
  -- A replacement pays for the current attempt; without one the snapshot stays listed.
  have hmore : r.attempt ≤ r.swaps → r.attempt < r.swaps + ev.swaps ∨
      (ev.swaps = 0 ∧ r.attempt ≤ r.swaps) := by
    intro hle
    rcases Nat.eq_zero_or_pos ev.swaps with hzero | hpos
    · exact Or.inr ⟨hzero, hle⟩
    · left
      omega
  cases hphase : r.phase with
  | starting =>
      rw [hphase] at h
      dsimp only at h ⊢
      omega
  | reading snap =>
      rw [hphase] at h
      dsimp only at h ⊢
      rcases h with hpaid | ⟨hle, hlisted⟩
      · left
        omega
      · rcases hmore hle with hpaid | ⟨hzero, _⟩
        · exact Or.inl hpaid
        · refine Or.inr ⟨by omega, fun s hs => ?_⟩
          exact System.mem_of_step hstep hlive hzero (hlisted s hs)
  | missed snap s =>
      rw [hphase] at h
      dsimp only at h ⊢
      rcases h with hpaid | ⟨hle, hlisted, hs, htier, hnone⟩
      · left
        omega
      · rcases hmore hle with hpaid | ⟨hzero, _⟩
        · exact Or.inl hpaid
        · refine Or.inr ⟨by omega, fun x hx => ?_, hs, htier, ?_⟩
          · exact System.mem_of_step hstep hlive hzero (hlisted x hx)
          · exact System.hot_none_of_step hin hstep (hlisted s hs) hnone
  | returned => trivial
  | failed e =>
      rw [hphase] at h
      dsimp only at h ⊢
      omega

omit [Numeral ν] [SegmentFile ν] in
/-- A file that a snapshot lists and that is not at its path. -/
theorem Fine.missed (h : r.Fine) {snap : List (Segment ν)} {s : Segment ν}
    (hphase : r.phase = .reading snap) (hs : s ∈ snap) (htier : s.tier ≠ .remote)
    (hnone : r.sys.bench.files s.tier.place s.file = none) :
    ({ r with phase := .missed snap s } : Reading ν).Charged := by
  have hcharged := h.charged
  unfold Charged at hcharged ⊢
  rw [hphase] at hcharged
  dsimp only at hcharged ⊢
  rcases hcharged with hpaid | ⟨hle, hlisted⟩
  · exact Or.inl hpaid
  · -- It is still listed, so it is a hot one on its way to the cold directory.
    have hkeep := h.stored s (hlisted s hs)
    cases hcase : s.tier with
    | hot =>
        rw [hcase] at hnone
        exact Or.inr ⟨hle, hlisted, hs, rfl, hnone⟩
    | cold =>
        rw [hcase] at hnone
        have hcold := (Bench.keeps_cold hcase).mp hkeep
        have hplace : r.sys.bench.files .cold s.file = none := hnone
        rw [hplace] at hcold
        cases hcold
    | remote => exact absurd hcase htier

omit [Numeral ν] [SegmentFile ν] in
/-- An attempt that fails has been paid for. -/
theorem Fine.vanished (h : r.Fine) {snap : List (Segment ν)} {s : Segment ν}
    (hphase : r.phase = .missed snap s)
    (hnone : r.sys.bench.files s.tier.otherPlace s.file = none) : r.vanished.Charged := by
  have hcharged := h.charged
  unfold Charged at hcharged
  rw [hphase] at hcharged
  dsimp only at hcharged
  have hpaid : r.attempt < r.swaps := by
    rcases hcharged with hpaid | ⟨_, hlisted, hs, htier, hgone⟩
    · exact hpaid
    · have hcold := (h.stored s (hlisted s hs)).cold_eq htier hgone
      rw [htier] at hnone
      have hplace : r.sys.bench.files .cold s.file = none := hnone
      rw [hplace] at hcold
      cases hcold
  unfold Reading.vanished
  split
  · exact hpaid
  · rename_i hlast
    exact lt_of_le_of_lt (Nat.not_lt.mp hlast) hpaid

theorem Fine.step (h : r.Fine) (hstep : Step t r r') : r'.Fine := by
  cases hstep with
  | upkeep hsys hlive =>
      exact ⟨h.inOrder.step hsys, System.stored_of_step h.inOrder h.stored hsys,
        h.charged.upkeep h.inOrder hsys hlive⟩
  | snapshot hphase =>
      have hcharged := h.charged
      unfold Charged at hcharged
      rw [hphase] at hcharged
      exact ⟨h.inOrder, h.stored, Or.inr ⟨hcharged, fun _ hs => hs⟩⟩
  | opened hphase hs htier hsome => exact h
  | missed hphase hs htier hnone =>
      exact ⟨h.inOrder, h.stored, h.missed hphase hs htier hnone⟩
  | found hphase hsome =>
      have hcharged := h.charged
      unfold Charged at hcharged
      rw [hphase] at hcharged
      refine ⟨h.inOrder, h.stored, ?_⟩
      rcases hcharged with hpaid | ⟨hle, hlisted, _⟩
      · exact Or.inl hpaid
      · exact Or.inr ⟨hle, hlisted⟩
  | vanished hphase hnone =>
      have hsame : r.vanished.sys = r.sys := by
        unfold Reading.vanished
        split <;> rfl
      exact ⟨hsame ▸ h.inOrder, hsame ▸ h.stored, h.vanished hphase hnone⟩
  | returned hphase => exact ⟨h.inOrder, h.stored, trivial⟩

/-- A read that begins in any reachable system returns no missing file while the passes around it make
at most four replacements. -/
theorem not_vanished {may : System.Event ν → Prop} {start sys : System ν} (hstart : start.Opened)
    (hstored : start.bench.Stored) (hreach : System.Reachable t may start sys)
    (hrun : Run t { sys := sys } r) (hswaps : r.swaps ≤ 4) :
    r.phase ≠ .failed (.io "NotFound") := by
  have hfine : r.Fine := by
    clear hswaps
    induction hrun with
    | start =>
        exact ⟨hreach.inOrder hstart, hreach.stored hstart hstored, Nat.le_refl 0⟩
    | step _ hstep ih => exact ih.step hstep
  intro hphase
  have hcharged := hfine.charged
  unfold Charged at hcharged
  rw [hphase] at hcharged
  exact absurd hcharged (Nat.not_lt.mpr hswaps)

end Reading

section Sample

local instance instVanishingUnicode : Unicode := asciiUnicode

local instance instVanishingFile : SegmentFile Int := footprintFile Int

/-- A read that finds the hot file of the store in the middle of its move gone. -/
def missedRead : Reading Int where
  sys := movingStore
  phase := .missed [Segment.ofRows 0 [Record.bare "a" 1]] (Segment.ofRows 0 [Record.bare "a" 1])

theorem missedRead_run : Reading.Run sampleTiering { sys := movingStore } missedRead := by
  have hsnap : Reading.Run sampleTiering { sys := movingStore }
      { sys := movingStore, phase := .reading movingStore.bench.segments } :=
    .step .start (.snapshot rfl)
  exact .step hsnap (.missed rfl List.mem_cons_self Tier.noConfusion rfl)

theorem not_vanished_missedRead :
    missedRead.swaps = 0 ∧ missedRead.vanished.phase = .starting ∧
      missedRead.phase ≠ .failed (.io "NotFound") :=
  ⟨rfl, rfl, Reading.not_vanished agedStore_opened agedStore_readable.stored
    (movingStore_reachable trivial trivial :
      System.Reachable sampleTiering (fun _ => True) agedStore movingStore)
    missedRead_run (Nat.zero_le 4)⟩

end Sample

end Girder
