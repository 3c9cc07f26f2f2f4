import Girder.Housekeeping

/-!
# Moves — a listed segment is readable throughout its moves

A move to the cold directory takes the file away first and changes the manifest afterwards; a move to
the object store changes the manifest first.  `Bench.Keeps` says where the content of an entry is in
either case.  Every operation that is allowed preserves it, so a segment can be opened with the
content it was written with between any two operations of the moves, crashes and reopens included
(`System.always_readable`).
-/

namespace Girder

open Lib

variable {ν : Type}

/-- The name of a segment file. -/
def segFile (seq : Nat) : String :=
  let digits := toString seq
  "seg-" ++ String.ofList (List.replicate (16 - digits.length) '0') ++ digits ++ ".gird"

namespace Bench

/-- `open_remote_segment`: the pull cache, or else the object store. -/
def openRemoteSegment (t : Tiering) (b : Bench ν) (s : Segment ν) :
    Except GirderError (FileData ν) :=
  match b.files .pull s.file with
  | some data => .ok data
  | none =>
      if t.hasStore then
        match b.files .store s.file with
        | some data => .ok data
        | none => .error (.corrupt "segment" ("remote object " ++ segFile s.file ++ " is missing"))
      else
        .error (.corrupt "manifest"
          ("remote segment " ++ segFile s.file ++ " but no object store injected"))

/-- `open_segment_file`: a local segment that is not at its path may be in the other directory. -/
def openSegmentFile (t : Tiering) (b : Bench ν) (s : Segment ν) : Except GirderError (FileData ν) :=
  match s.tier with
  | .remote => b.openRemoteSegment t s
  | .hot =>
      match b.files .hot s.file with
      | some data => .ok data
      | none => b.open? .cold s.file
  | .cold =>
      match b.files .cold s.file with
      | some data => .ok data
      | none => b.open? .hot s.file

/-! ## Where the content is -/

/-- The content of an entry is where its tier says, or on its way to the cold directory. -/
def Keeps (b : Bench ν) (s : Segment ν) : Prop :=
  match s.tier with
  | .hot =>
      b.files .hot s.file = some s.data ∨
        (b.files .hot s.file = none ∧ b.files .cold s.file = some s.data)
  | .cold => b.files .cold s.file = some s.data
  | .remote => b.files .store s.file = some s.data

/-- The content of every listed segment is kept. -/
def Stored (b : Bench ν) : Prop := ∀ s ∈ b.segments, b.Keeps s

/-- The pull cache holds nothing else under the name of a listed segment. -/
def Mirrored (b : Bench ν) : Prop :=
  ∀ s ∈ b.segments, b.files .pull s.file = none ∨ b.files .pull s.file = some s.data

variable {b b' : Bench ν} {s : Segment ν}

theorem keeps_hot (h : s.tier = .hot) : b.Keeps s ↔
    b.files .hot s.file = some s.data ∨
      (b.files .hot s.file = none ∧ b.files .cold s.file = some s.data) := by
  unfold Keeps
  rw [h]

theorem keeps_cold (h : s.tier = .cold) : b.Keeps s ↔ b.files .cold s.file = some s.data := by
  unfold Keeps
  rw [h]

theorem keeps_remote (h : s.tier = .remote) :
    b.Keeps s ↔ b.files .store s.file = some s.data := by
  unfold Keeps
  rw [h]

/-- Only the files of the segment outside the pull cache matter. -/
theorem Keeps.frame (h : b.Keeps s)
    (hfiles : ∀ p, p ≠ .pull → b'.files p s.file = b.files p s.file) : b'.Keeps s := by
  cases htier : s.tier with
  | hot =>
      rw [keeps_hot htier] at h ⊢
      rw [hfiles .hot Place.noConfusion, hfiles .cold Place.noConfusion]
      exact h
  | cold =>
      rw [keeps_cold htier] at h ⊢
      rw [hfiles .cold Place.noConfusion]
      exact h
  | remote =>
      rw [keeps_remote htier] at h ⊢
      rw [hfiles .store Place.noConfusion]
      exact h

/-- A hot file that is there has the content. -/
theorem Keeps.hot_eq (h : b.Keeps s) (htier : s.tier = .hot) {data : FileData ν}
    (hdata : b.files .hot s.file = some data) : data = s.data := by
  rcases (keeps_hot htier).mp h with hhot | ⟨hnone, _⟩
  · exact Option.some.inj (hdata.symm.trans hhot)
  · rw [hnone] at hdata
    cases hdata

/-- A hot file that is gone is in the cold directory. -/
theorem Keeps.cold_eq (h : b.Keeps s) (htier : s.tier = .hot) (hnone : b.files .hot s.file = none) :
    b.files .cold s.file = some s.data := by
  rcases (keeps_hot htier).mp h with hhot | ⟨_, hcold⟩
  · rw [hnone] at hhot
    cases hhot
  · exact hcold

/-- Writing or removing a file that is not sought. -/
theorem Keeps.set (h : b.Keeps s) {place : Place} {file : Nat} (data : Option (FileData ν))
    (hfree : s.file = file → (s.tier = .remote ∧ place ≠ .store) ∨
      (s.tier ≠ .remote ∧ (place = .pull ∨ place = .store))) :
    ({ b with files := b.files.set place file data } : Bench ν).Keeps s := by
  by_cases hfile : s.file = file
  · rcases hfree hfile with ⟨htier, hplace⟩ | ⟨htier, hplace⟩
    · rw [keeps_remote htier] at h ⊢
      dsimp only
      rw [Files.set_of_ne _ _ (Or.inl hplace.symm)]
      exact h
    · -- Neither the hot nor the cold file changes.
      have hlocal : ∀ p, p = .hot ∨ p = .cold →
          b.files.set place file data p s.file = b.files p s.file := by
        intro p hp
        refine Files.set_of_ne _ _ (Or.inl ?_)
        rcases hp with rfl | rfl <;> rcases hplace with rfl | rfl <;> exact Place.noConfusion
      cases hcase : s.tier with
      | hot =>
          rw [keeps_hot hcase] at h ⊢
          dsimp only
          rw [hlocal .hot (Or.inl rfl), hlocal .cold (Or.inr rfl)]
          exact h
      | cold =>
          rw [keeps_cold hcase] at h ⊢
          dsimp only
          rw [hlocal .cold (Or.inr rfl)]
          exact h
      | remote => exact absurd hcase htier
  · exact h.frame fun p _ => Files.set_of_ne _ _ (Or.inr hfile)

/-- An operation on the file of one segment that it survives. -/
theorem Stored.on_one (h : b.Stored) (hb : b.Sound) (hs : s ∈ b.segments) (hseg : b'.segments = b.segments)
    (hothers : ∀ p f, f ≠ s.file → b'.files p f = b.files p f) (hkeep : b'.Keeps s) : b'.Stored := by
  intro x hx
  rw [hseg] at hx
  by_cases hfile : x.file = s.file
  · rw [hb.identity.file_inj hx hs hfile]
    exact hkeep
  · exact (h x hx).frame fun p _ => hothers p _ hfile

/-- Every allowed operation keeps the content of the listed segments. -/
theorem Stored.exec (h : b.Stored) (hb : b.Sound) {op : Op ν} (hallow : b.Allows op)
    (hexec : b.exec op = .ok b') : b'.Stored := by
  cases op with
  | read s =>
      rw [eq_of_exec_read hexec]
      exact h
  | alloc =>
      cases hexec
      exact fun x hx => (h x hx).frame fun _ _ => rfl
  | write place file data =>
      cases hexec
      obtain ⟨_, _, hfree, _⟩ := hallow
      exact fun x hx => (h x hx).frame fun _ _ => Files.set_of_ne _ _ (Or.inr (hfree x hx))
  | swap ids outputs =>
      cases hexec
      intro x hx
      rcases Manifest.mem_swap.mp hx with ⟨hx, _⟩ | hx
      · exact (h x hx).frame fun _ _ => rfl
      · obtain ⟨htier, hplaced, _⟩ := hallow.2 x hx
        cases hcase : x.tier with
        | hot =>
            rw [hcase] at hplaced
            exact (keeps_hot hcase).mpr (Or.inl hplaced)
        | cold =>
            rw [hcase] at hplaced
            exact (keeps_cold hcase).mpr hplaced
        | remote => exact absurd hcase htier
  | setTier id tier =>
      cases hexec
      obtain ⟨s, hs, rfl, hcase⟩ := hallow
      intro x hx
      obtain ⟨x₀, hx₀, rfl⟩ := Manifest.mem_setTier.mp hx
      split
      · rename_i hid
        rw [hb.identity.id_inj hx₀ hs hid]
        have hkeep := h s hs
        -- The new tier is that of the place where the content is by now.
        rcases hcase with ⟨rfl, htier, hgone⟩ | ⟨rfl, htier, hobject⟩
        · exact hkeep.cold_eq htier hgone
        · exact hobject.trans ((keeps_cold htier).mp hkeep)
      · exact (h x₀ hx₀).frame fun _ _ => rfl
  | remove place file =>
      cases hexec
      exact fun x hx => (h x hx).set none (hallow x hx)
  | rename s =>
      obtain ⟨hs, htier⟩ := hallow
      obtain ⟨data, hdata, rfl⟩ := map_open?_eq_ok hexec
      refine h.on_one hb hs rfl (fun p f hf => ?_) ((keeps_hot htier).mpr (Or.inr ⟨?_, ?_⟩))
      · dsimp only
        rw [Files.set_of_ne _ _ (Or.inr hf), Files.set_of_ne _ _ (Or.inr hf)]
      · exact Files.set_same _ _ _ _
      · dsimp only
        rw [Files.set_of_ne _ _ (Or.inl Place.noConfusion), Files.set_same,
          (h s hs).hot_eq htier hdata]
  | copy s =>
      obtain ⟨hs, htier⟩ := hallow
      obtain ⟨data, hdata, rfl⟩ := map_open?_eq_ok hexec
      refine h.on_one hb hs rfl (fun p f hf => Files.set_of_ne _ _ (Or.inr hf))
        ((keeps_hot htier).mpr (Or.inl ?_))
      dsimp only
      rw [Files.set_of_ne _ _ (Or.inl Place.noConfusion), hdata, (h s hs).hot_eq htier hdata]
  | removeSource s =>
      obtain ⟨hs, htier, hcopied⟩ := hallow
      obtain ⟨data, hdata, rfl⟩ := map_open?_eq_ok hexec
      refine h.on_one hb hs rfl (fun p f hf => Files.set_of_ne _ _ (Or.inr hf))
        ((keeps_hot htier).mpr (Or.inr ⟨Files.set_same _ _ _ _, ?_⟩))
      dsimp only
      rw [Files.set_of_ne _ _ (Or.inl Place.noConfusion), hcopied, hdata,
        (h s hs).hot_eq htier hdata]
  | put s =>
      obtain ⟨hs, htier⟩ := hallow
      obtain ⟨data, hdata, rfl⟩ := map_open?_eq_ok hexec
      refine h.on_one hb hs rfl (fun p f hf => Files.set_of_ne _ _ (Or.inr hf))
        ((keeps_cold htier).mpr ?_)
      dsimp only
      rw [Files.set_of_ne _ _ (Or.inl Place.noConfusion)]
      exact (keeps_cold htier).mp (h s hs)
  | popFrozen =>
      cases hexec
      exact fun x hx => (h x hx).frame fun _ _ => rfl
  | setCursor id =>
      cases hexec
      exact fun x hx => (h x hx).frame fun _ _ => rfl
  | fail e => cases hexec

/-! ## Operations of the moves -/

/-- What a listed segment is, whatever its tier. -/
def identified (b : Bench ν) : List (Nat × Nat × FileData ν) :=
  b.segments.map (fun s => (s.id, s.file, s.data))

end Bench

/-- The operation moves segments: it lists no new ones, and makes one remote only if there is a
store. -/
def Op.Moves (t : Tiering) : Op ν → Prop
  | .swap _ _ => False
  | .setTier _ tier => tier = .remote → t.hasStore = true
  | _ => True

namespace Bench

variable {b b' : Bench ν} {s : Segment ν}

theorem identified_setTier (b : Bench ν) (id : Nat) (tier : Tier) :
    (b.withManifest (b.engine.manifest.setTier id tier)).identified = b.identified := by
  show List.map _ (List.map _ b.segments) = List.map _ b.segments
  rw [List.map_map]
  refine List.map_congr_left fun s _ => ?_
  simp only [Function.comp_apply]
  split <;> rfl

/-- The only change a move makes to the manifest is a tier. -/
theorem identified_of_exec {t : Tiering} {op : Op ν} (hmoves : op.Moves t)
    (hexec : b.exec op = .ok b') : b'.identified = b.identified := by
  cases hstores : op.stores with
  | false => rw [identified, System.segments_of_exec hexec hstores, identified]
  | true =>
      cases op with
      | swap ids outputs => exact hmoves.elim
      | setTier id tier =>
          cases hexec
          exact identified_setTier b id tier
      | _ => cases hstores

/-- An operation leaves the pull cache alone or removes a file from it. -/
theorem pull_of_exec {op : Op ν} (hallow : b.Allows op) (hexec : b.exec op = .ok b') (f : Nat) :
    b'.files .pull f = b.files .pull f ∨ b'.files .pull f = none := by
  cases op with
  | read s =>
      rw [eq_of_exec_read hexec]
      exact Or.inl rfl
  | write place file data =>
      cases hexec
      obtain ⟨hplace, _⟩ := hallow
      refine Or.inl (Files.set_of_ne _ _ (Or.inl ?_))
      rcases hplace with rfl | rfl <;> exact Place.noConfusion
  | remove place file =>
      cases hexec
      dsimp only
      rw [Files.set_apply]
      split
      · exact Or.inr rfl
      · exact Or.inl rfl
  -- The moves write to the other three places.
  | rename s =>
      obtain ⟨_, _, rfl⟩ := map_open?_eq_ok hexec
      dsimp only
      rw [Files.set_of_ne _ _ (Or.inl Place.noConfusion),
        Files.set_of_ne _ _ (Or.inl Place.noConfusion)]
      exact Or.inl rfl
  | copy s =>
      obtain ⟨_, _, rfl⟩ := map_open?_eq_ok hexec
      left
      dsimp only
      rw [Files.set_of_ne _ _ (Or.inl Place.noConfusion)]
  | removeSource s =>
      obtain ⟨_, _, rfl⟩ := map_open?_eq_ok hexec
      left
      dsimp only
      rw [Files.set_of_ne _ _ (Or.inl Place.noConfusion)]
  | put s =>
      obtain ⟨_, _, rfl⟩ := map_open?_eq_ok hexec
      left
      dsimp only
      rw [Files.set_of_ne _ _ (Or.inl Place.noConfusion)]
  | alloc => cases hexec; exact Or.inl rfl
  | swap ids outputs => cases hexec; exact Or.inl rfl
  | setTier id tier => cases hexec; exact Or.inl rfl
  | popFrozen => cases hexec; exact Or.inl rfl
  | setCursor id => cases hexec; exact Or.inl rfl
  | fail e => cases hexec

/-- The identity of a listed segment is one of those listed. -/
theorem mem_identified (hs : s ∈ b.segments) : (s.id, s.file, s.data) ∈ b.identified :=
  List.mem_map_of_mem (f := fun s : Segment ν => (s.id, s.file, s.data)) hs

theorem exists_of_identified (h : b'.identified = b.identified) (hs : s ∈ b'.segments) :
    ∃ s₀ ∈ b.segments, s₀.id = s.id ∧ s₀.file = s.file ∧ s₀.data = s.data := by
  have hmem := mem_identified hs
  rw [h] at hmem
  obtain ⟨s₀, hs₀, heq⟩ := List.mem_map.mp hmem
  simp only [Prod.mk.injEq] at heq
  exact ⟨s₀, hs₀, heq⟩

theorem Mirrored.exec {t : Tiering} (h : b.Mirrored) {op : Op ν} (hallow : b.Allows op)
    (hmoves : op.Moves t) (hexec : b.exec op = .ok b') : b'.Mirrored := by
  intro x hx
  obtain ⟨x₀, hx₀, _, hfile, hdata⟩ := exists_of_identified (identified_of_exec hmoves hexec) hx
  rw [← hfile, ← hdata]
  rcases pull_of_exec hallow hexec x₀.file with hsame | hnone
  · rw [hsame]
    exact h x₀ hx₀
  · exact Or.inl hnone

/-- Remote segments only where there is a store. -/
def Backed (t : Tiering) (b : Bench ν) : Prop :=
  ∀ s ∈ b.segments, s.tier = .remote → t.hasStore = true

theorem Backed.exec {t : Tiering} (h : b.Backed t) {op : Op ν} (hmoves : op.Moves t)
    (hexec : b.exec op = .ok b') : b'.Backed t := by
  cases hstores : op.stores with
  | false =>
      intro x hx
      rw [System.segments_of_exec hexec hstores] at hx
      exact h x hx
  | true =>
      cases op with
      | swap ids outputs => exact hmoves.elim
      | setTier id tier =>
          cases hexec
          intro x hx htier
          obtain ⟨x₀, hx₀, rfl⟩ := Manifest.mem_setTier.mp hx
          split at htier
          · exact hmoves htier
          · exact h x₀ hx₀ htier
      | _ => cases hstores

/-- Every listed segment can be read. -/
structure Readable (t : Tiering) (b : Bench ν) : Prop where
  stored : b.Stored
  mirrored : b.Mirrored
  backed : b.Backed t

/-- Opening a listed segment gives the content it was written with. -/
theorem Readable.openSegmentFile_eq {t : Tiering} (h : b.Readable t) (hs : s ∈ b.segments) :
    b.openSegmentFile t s = .ok s.data := by
  have hkeep := h.stored s hs
  unfold openSegmentFile
  cases htier : s.tier with
  | hot =>
      rcases (keeps_hot htier).mp hkeep with hhot | ⟨hnone, hcold⟩
      · simp only [hhot]
      · simp only [hnone]
        exact open?_of_some hcold
  | cold => simp only [(keeps_cold htier).mp hkeep]
  | remote =>
      simp only [openRemoteSegment]
      rcases h.mirrored s hs with hnone | hsome
      · simp only [hnone, h.backed s hs htier, if_true, (keeps_remote htier).mp hkeep]
      · simp only [hsome]

end Bench

/-! ## Operations that spare an entry -/

/-- The operation neither replaces nor changes the entry of this id. -/
def Op.Spares (id : Nat) : Op ν → Prop
  | .swap ids _ => id ∉ ids
  | .setTier other _ => id ≠ other
  | _ => True

namespace Bench

theorem mem_of_spares {b b' : Bench ν} {s : Segment ν} {op : Op ν} (hs : s ∈ b.segments)
    (hspares : op.Spares s.id) (hexec : b.exec op = .ok b') : s ∈ b'.segments := by
  cases hstores : op.stores with
  | false =>
      rw [System.segments_of_exec hexec hstores]
      exact hs
  | true =>
      cases op with
      | swap ids outputs =>
          cases hexec
          exact Manifest.mem_swap.mpr (Or.inl ⟨hs, hspares⟩)
      | setTier id tier =>
          cases hexec
          exact Manifest.mem_setTier_of_ne hs hspares
      | _ => cases hstores

/-- A reconciliation only removes. -/
theorem exists_remove_of_mem_reconcileOps {t : Tiering} {objects : List Nat} {m : Manifest ν}
    {op : Op ν} (h : op ∈ Engine.reconcileOps t objects m) : ∃ p f, op = .remove p f := by
  unfold Engine.reconcileOps at h
  split at h
  · rcases List.mem_append.mp h with h | h
    · obtain ⟨f, _, rfl⟩ := List.mem_map.mp h
      exact ⟨_, _, rfl⟩
    · obtain ⟨s, _, h⟩ := List.mem_flatMap.mp h
      simp only [List.mem_cons, List.not_mem_nil, or_false] at h
      rcases h with rfl | rfl <;> exact ⟨_, _, rfl⟩
  · exact absurd h List.not_mem_nil

end Bench

/-! ## Scripts of the moves -/

theorem moves_of_mem_tierOps {t : Tiering} {e : Engine ν} {now : Int64} {op : Op ν}
    (h : op ∈ e.tierOps t now) : op.Moves t := by
  rcases Engine.cases_of_mem_tierOps h with ⟨s, _, h⟩ | ⟨hstore, s, _, h⟩
  · -- To the cold directory.
    rcases Engine.cases_of_mem_coldMove h with rfl | rfl | rfl | rfl
    · trivial
    · trivial
    · trivial
    · exact fun hremote => Tier.noConfusion hremote
  · -- To the object store.
    rcases Engine.cases_of_mem_remoteMove h with rfl | rfl | rfl
    · trivial
    · exact fun _ => hstore
    · trivial

theorem moves_of_mem_reconcileOps {t : Tiering} {objects : List Nat} {m : Manifest ν} {op : Op ν}
    (h : op ∈ Engine.reconcileOps t objects m) : op.Moves t := by
  obtain ⟨p, f, rfl⟩ := Bench.exists_remove_of_mem_reconcileOps h
  trivial

namespace System

variable [Numeral ν] [SegmentFile ν]

/-- The only passes begun are those of `tier`. -/
def Event.Tiers : Event ν → Prop
  | .began pass => ∃ now, pass = .tier now
  | _ => True

/-- Whatever the pass, every step keeps the content of the listed segments. -/
theorem stored_of_step {t : Tiering} {sys sys' : System ν} {ev : Event ν} (hin : sys.InOrder)
    (h : sys.bench.Stored) (hstep : Step t sys ev sys') : sys'.bench.Stored := by
  cases hstep with
  | begin pass htodo => exact h
  | perform htodo hperform =>
      have hfollows := hin.follows
      rw [htodo] at hfollows
      exact h.exec hin.sound hfollows.1 (Bench.exec_of_perform hperform)
  | abort htodo hperform => exact h
  | writer memtable frozen => exact fun x hx => (h x hx).frame fun _ _ => rfl
  | blob => exact h
  | fetch hs htier =>
      exact fun x hx => (h x hx).frame fun p hp => Files.set_of_ne _ _ (Or.inl hp)
  | evict file =>
      exact fun x hx => (h x hx).frame fun p hp => Files.set_of_ne _ _ (Or.inl hp)
  | crash config objects hobjects =>
      -- The new process finds the same entries and the same files.
      intro x hx
      have hx' : x ∈ sys.bench.segments := hin.segments_eq ▸ hx
      exact (h x hx').frame fun _ _ => rfl

theorem Reachable.stored {t : Tiering} {may : Event ν → Prop} {start sys : System ν}
    (hstart : start.Opened) (hstored : start.bench.Stored) (h : Reachable t may start sys) :
    sys.bench.Stored := by
  induction h with
  | start => exact hstored
  | step hreach hstep _ ih => exact stored_of_step (hreach.inOrder hstart) ih hstep

/-- What holds throughout a run of moves. -/
structure Moving (t : Tiering) (start sys : System ν) : Prop where
  inOrder : sys.InOrder
  readable : sys.bench.Readable t
  moves {op : Op ν} : op ∈ sys.todo → op.Moves t
  identified_eq : sys.bench.identified = start.bench.identified

theorem Moving.step {t : Tiering} {start sys sys' : System ν} {ev : Event ν}
    (h : Moving t start sys) (hstep : Step t sys ev sys') (hev : ev.Tiers) : Moving t start sys' := by
  have hin := h.inOrder.step hstep
  have hstored := stored_of_step h.inOrder h.readable.stored hstep
  have hmirrored := h.readable.mirrored
  have hbacked := h.readable.backed
  cases hstep with
  | begin pass htodo =>
      obtain ⟨now, rfl⟩ := hev
      exact ⟨hin, h.readable, fun hop => moves_of_mem_tierOps hop, h.identified_eq⟩
  | @perform op rest b htodo hperform =>
      have hexec := Bench.exec_of_perform hperform
      have hfollows := h.inOrder.follows
      have hmoves : op.Moves t := h.moves (by rw [htodo]; exact List.mem_cons_self)
      rw [htodo] at hfollows
      refine ⟨hin, ⟨hstored, hmirrored.exec hfollows.1 hmoves hexec, hbacked.exec hmoves hexec⟩,
        fun hop => ?_, ?_⟩
      · exact h.moves (by rw [htodo]; exact List.mem_cons_of_mem _ hop)
      · exact (Bench.identified_of_exec hmoves hexec).trans h.identified_eq
  | abort htodo hperform =>
      exact ⟨hin, h.readable, fun hop => absurd hop List.not_mem_nil, h.identified_eq⟩
  | writer memtable frozen =>
      exact ⟨hin, ⟨hstored, hmirrored, hbacked⟩, h.moves, h.identified_eq⟩
  | blob => exact ⟨hin, h.readable, h.moves, h.identified_eq⟩
  | @fetch s hs htier =>
      -- What is fetched is the object, and that has the content.
      have hobject := (Bench.keeps_remote htier).mp (h.readable.stored s hs)
      refine ⟨hin, ⟨hstored, fun x hx => ?_, hbacked⟩, h.moves, h.identified_eq⟩
      by_cases hfile : x.file = s.file
      · rw [h.inOrder.sound.identity.file_inj hx hs hfile]
        dsimp only
        rw [Files.set_same]
        exact Or.inr hobject
      · dsimp only
        rw [Files.set_of_ne _ _ (Or.inr hfile)]
        exact hmirrored x hx
  | evict file =>
      refine ⟨hin, ⟨hstored, fun x hx => ?_, hbacked⟩, h.moves, h.identified_eq⟩
      dsimp only
      rw [Files.set_apply]
      split
      · exact Or.inl rfl
      · exact hmirrored x hx
  | crash config objects hobjects =>
      -- The manifest on disk is the one in memory, and the files are as they were.
      have hseg : (sys.reopened config).segments = sys.bench.segments := h.inOrder.segments_eq
      refine ⟨hin, ⟨hstored, fun x hx => ?_, fun x hx => ?_⟩,
        fun hop => moves_of_mem_reconcileOps hop, ?_⟩
      · rw [hseg] at hx
        exact hmirrored x hx
      · rw [hseg] at hx
        exact hbacked x hx
      · rw [← h.identified_eq, Bench.identified, hseg, Bench.identified]

/-- Through any run of the moves, with crashes between any two operations and reopens, the segments
listed are those of the start, and each can be opened with its content. -/
theorem always_readable {t : Tiering} {start sys : System ν} (hstart : start.Opened)
    (hreadable : start.bench.Readable t) (h : Reachable t Event.Tiers start sys) :
    sys.bench.identified = start.bench.identified ∧ sys.disk.segments = sys.bench.segments ∧
      ∀ s ∈ sys.bench.segments, sys.bench.openSegmentFile t s = .ok s.data := by
  have hmoving : Moving t start sys := by
    induction h with
    | start =>
        refine ⟨hstart.inOrder, hreadable, fun hop => ?_, rfl⟩
        rw [hstart.todo_eq] at hop
        exact absurd hop List.not_mem_nil
    | step _ hstep hev ih => exact ih.step hstep hev
  exact ⟨hmoving.identified_eq, hmoving.inOrder.segments_eq,
    fun s hs => hmoving.readable.openSegmentFile_eq hs⟩

end System

section Sample

local instance instMovesUnicode : Unicode := asciiUnicode

local instance instMovesFile : SegmentFile Int := footprintFile Int

/-- One hot segment, past its time in the hot directory. -/
def agedStore : System Int where
  bench :=
    { engine :=
        { manifest := { nextSegmentId := 1, segments := [Segment.ofRows 0 [Record.bare "a" 1]] } }
      files := filed [Segment.ofRows 0 [Record.bare "a" 1]]
      met := [0] }
  disk := { nextSegmentId := 1, segments := [Segment.ofRows 0 [Record.bare "a" 1]] }

/-- Its move to the cold directory. -/
def agedMove : Op Int := .rename (Segment.ofRows 0 [Record.bare "a" 1])

/-- The same store in the middle of the move. -/
def movingStore : System Int where
  bench := (Bench.runOps [agedMove] agedStore.bench).1
  disk := agedStore.disk
  todo := [.setTier 0 .cold]

/-- The process died there, and the store was opened again. -/
def strandedStore : System Int where
  bench := movingStore.reopened {}
  disk := agedStore.disk

theorem agedStore_opened : agedStore.Opened :=
  ⟨⟨by decide, by decide, fun {s} => (by decide : ∀ s ∈ agedStore.disk.segments, s.id < 1) s,
    fun {s} => (by decide : ∀ s ∈ agedStore.disk.segments, s.file < 1) s⟩, rfl, rfl, rfl⟩

theorem agedStore_readable : agedStore.bench.Readable sampleTiering := by
  refine ⟨fun s hs => ?_, fun s hs => ?_, fun s hs _ => rfl⟩
  · cases List.mem_singleton.mp hs
    exact Or.inl rfl
  · cases List.mem_singleton.mp hs
    exact Or.inl rfl

/-- The same store when the tier pass has begun. -/
def agedTiering : System Int :=
  { agedStore with todo := Pass.ops sampleTiering agedStore.bench (.tier 100) }

theorem agedTiering_reachable {may : System.Event Int → Prop} (hbegan : may (.began (.tier 100))) :
    System.Reachable sampleTiering may agedStore agedTiering :=
  .step .start (.begin (.tier 100) rfl) hbegan

theorem movingStore_reachable {may : System.Event Int → Prop} (hbegan : may (.began (.tier 100)))
    (hdid : may (.did agedMove)) : System.Reachable sampleTiering may agedStore movingStore := by
  have hmove : System.Step sampleTiering agedTiering (.did agedMove) movingStore := by
    refine System.Step.perform (b := movingStore.bench) ?_ ?_ <;> rfl
  exact .step (agedTiering_reachable hbegan) hmove hdid

theorem strandedStore_reachable :
    System.Reachable sampleTiering System.Event.Tiers agedStore strandedStore := by
  refine .step (movingStore_reachable ⟨100, rfl⟩ trivial) (.crash {} [] fun f => ?_) trivial
  simp [movingStore, agedStore, agedMove, Bench.runOps, Bench.perform, Bench.exec, Bench.open?,
    filed, Except.map, Files.set_apply, Segment.ofRows, Tier.place]

/-- A segment whose file is in the other directory is still read. -/
theorem always_readable_strandedStore :
    (strandedStore.bench.files .hot 0).isNone = true ∧
      ∀ s ∈ strandedStore.bench.segments, s.tier = .hot ∧
        strandedStore.bench.openSegmentFile sampleTiering s = .ok s.data :=
  ⟨rfl, fun s hs => ⟨by cases List.mem_singleton.mp hs; rfl,
    (System.always_readable agedStore_opened agedStore_readable strandedStore_reachable).2.2 s hs⟩⟩

end Sample

end Girder
