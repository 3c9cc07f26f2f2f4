import Girder.Upkeep

/-!
# Custody — what the maintenance passes may do to the manifest and the files

`Bench.Allows` says in which state an operation is harmless: a file is written under a name nobody
lists, a swap lists files that are there under ids that are free, a file is removed where no entry
looks for it.  The main result of this module is `Bench.follows_pass`: in a sound state every operation of
every pass is allowed when its turn comes.
-/

namespace Girder

open Lib

variable {ν : Type}

/-! ## The identity of segments -/

/-- Ids and file names are distinct and have been handed out. -/
structure Manifest.Identity (m : Manifest ν) : Prop where
  ids_nodup : (m.segments.map Segment.id).Nodup
  files_nodup : (m.segments.map Segment.file).Nodup
  id_lt {s : Segment ν} : s ∈ m.segments → s.id < m.nextSegmentId
  file_lt {s : Segment ν} : s ∈ m.segments → s.file < m.nextSegmentId

namespace Bench

/-- The manifest is in order and the process knows the files it lists. -/
structure Sound (b : Bench ν) : Prop where
  identity : b.engine.manifest.Identity
  met_lt {f : Nat} : f ∈ b.met → f < b.next
  listed_met {s : Segment ν} : s ∈ b.segments → s.file ∈ b.met

/-- No entry looks for the file in this place. -/
def Unsought (b : Bench ν) (place : Place) (file : Nat) : Prop :=
  ∀ s ∈ b.segments, s.file = file →
    (s.tier = .remote ∧ place ≠ .store) ∨ (s.tier ≠ .remote ∧ (place = .pull ∨ place = .store))

/-- The operation is harmless here. -/
def Allows (b : Bench ν) : Op ν → Prop
  | .read s => s ∈ b.segments
  | .write place file _ =>
      (place = .hot ∨ place = .cold) ∧ file < b.next ∧ (∀ s ∈ b.segments, s.file ≠ file) ∧
        file ∉ b.met
  | .swap ids outputs =>
      (b.engine.manifest.swap ids outputs).Identity ∧
        ∀ o ∈ outputs, o.tier ≠ .remote ∧ b.files o.tier.place o.file = some o.data ∧
          o.file ∈ b.met
  | .setTier id tier =>
      ∃ s ∈ b.segments, s.id = id ∧
        (tier = .cold ∧ s.tier = .hot ∧ b.files .hot s.file = none ∨
          tier = .remote ∧ s.tier = .cold ∧ b.files .store s.file = b.files .cold s.file)
  | .remove place file => b.Unsought place file
  | .rename s => s ∈ b.segments ∧ s.tier = .hot
  | .copy s => s ∈ b.segments ∧ s.tier = .hot
  | .removeSource s =>
      s ∈ b.segments ∧ s.tier = .hot ∧ b.files .cold s.file = b.files .hot s.file
  | .put s => s ∈ b.segments ∧ s.tier = .cold
  | .alloc => True
  | .popFrozen => True
  | .setCursor _ => True
  | .fail _ => True

/-- Every operation of a script is allowed when its turn comes. -/
abbrev Follows (b : Bench ν) (ops : List (Op ν)) : Prop := Meets step Allows b ops

variable {b b' : Bench ν} {ops : List (Op ν)}

@[simp] theorem withManifest_segments (b : Bench ν) (m : Manifest ν) :
    (b.withManifest m).segments = m.segments := rfl

@[simp] theorem withManifest_next (b : Bench ν) (m : Manifest ν) :
    (b.withManifest m).next = m.nextSegmentId := rfl

theorem exec_of_step {op : Op ν} (h : b' ∈ b.step op) : b.exec op = .ok b' := by
  unfold step at h
  cases hexec : b.exec op with
  | error e => rw [hexec] at h; cases h
  | ok b₁ => rw [hexec] at h; cases h; rfl

theorem step_of_exec {op : Op ν} (h : b.exec op = .ok b') : b.step op = some b' := by
  rw [step, h]
  rfl

theorem open?_eq_ok {place : Place} {file : Nat} {data : FileData ν}
    (h : b.open? place file = .ok data) : b.files place file = some data := by
  unfold open? at h
  split at h
  · rename_i found hfound
    cases h
    exact hfound
  · cases h

theorem open?_of_some {place : Place} {file : Nat} {data : FileData ν}
    (h : b.files place file = some data) : b.open? place file = .ok data := by
  rw [open?, h]

theorem map_open?_of_some {place : Place} {file : Nat} {data : FileData ν} {f : FileData ν → Bench ν}
    (h : b.files place file = some data) : (b.open? place file).map f = .ok (f data) := by
  rw [open?_of_some h]
  rfl

/-- What an operation on an existing file comes to. -/
theorem map_open?_eq_ok {place : Place} {file : Nat} {f : FileData ν → Bench ν}
    (h : (b.open? place file).map f = .ok b') :
    ∃ data, b.files place file = some data ∧ b' = f data := by
  cases hopen : b.open? place file with
  | error e => rw [hopen] at h; cases h
  | ok data => rw [hopen] at h; cases h; exact ⟨data, open?_eq_ok hopen, rfl⟩

/-- A read changes nothing. -/
theorem eq_of_exec_read {s : Segment ν} (h : b.exec (.read s) = .ok b') : b' = b := by
  rw [exec] at h
  split at h
  · cases h
    rfl
  · obtain ⟨_, _, rfl⟩ := map_open?_eq_ok h
    rfl

theorem exec_of_perform {op : Op ν} (h : b.perform op = .ok b') : b.exec op = .ok b' := by
  cases op with
  | read s =>
      obtain ⟨data, hdata, rfl⟩ := map_open?_eq_ok h
      rw [exec]
      split
      · rfl
      · rw [open?_of_some hdata]
        rfl
  | _ => exact h

/-! ## Scripts piece by piece -/

/-- A read leaves everything as it is. -/
theorem follows_read {s : Segment ν} (hs : s ∈ b.segments) (h : b.Follows ops) :
    b.Follows (.read s :: ops) := by
  refine ⟨hs, fun b₁ hb₁ => ?_⟩
  rw [eq_of_exec_read (exec_of_step hb₁)]
  exact h

theorem follows_reads {ss : List (Segment ν)} (hss : ∀ s ∈ ss, s ∈ b.segments)
    (h : b.Follows ops) : b.Follows (ss.map Op.read ++ ops) := by
  induction ss with
  | nil => exact h
  | cons s ss ih =>
      refine follows_read (hss s List.mem_cons_self) ?_
      exact ih (fun x hx => hss x (List.mem_cons_of_mem s hx))

/-- The counter moved on. -/
def advance (b : Bench ν) (n : Nat) : Bench ν :=
  b.withManifest { b.engine.manifest with nextSegmentId := n }

theorem follows_allocs :
    ∀ {k : Nat} {b : Bench ν}, (b.advance (b.next + k)).Follows ops →
      b.Follows (List.replicate k .alloc ++ ops) := by
  intro k
  induction k with
  | zero => exact fun h => h
  | succ k ih =>
      intro b h
      have hnext : (b.advance (b.next + 1)).next + k = b.next + (k + 1) := by
        show b.next + 1 + k = b.next + (k + 1)
        omega
      have halloc : b.step .alloc = some (b.advance (b.next + 1)) := rfl
      refine Meets.cons trivial halloc (ih ?_)
      rw [hnext]
      exact h

end Bench

/-- The outputs have files handed out in order from `n` on, the counter ending at `n'`. -/
def NamedFrom : Nat → List (Segment ν) → Nat → Prop
  | n, [], n' => n = n'
  | n, o :: outputs, n' => n ≤ o.file ∧ NamedFrom (o.file + 1) outputs n'

namespace NamedFrom

theorem le :
    ∀ {outputs : List (Segment ν)} {n n' : Nat}, NamedFrom n outputs n' → n ≤ n' := by
  intro outputs
  induction outputs with
  | nil => exact fun h => le_of_eq h
  | cons o outputs ih =>
      rintro n n' ⟨hle, hrest⟩
      have := ih hrest
      omega

theorem file_ge :
    ∀ {outputs : List (Segment ν)} {n n' : Nat}, NamedFrom n outputs n' →
      ∀ o ∈ outputs, n ≤ o.file ∧ o.file < n' := by
  intro outputs
  induction outputs with
  | nil => exact fun _ o ho => absurd ho List.not_mem_nil
  | cons o outputs ih =>
      rintro n n' ⟨hle, hrest⟩ x hx
      rcases List.mem_cons.mp hx with rfl | hx
      · have := hrest.le
        omega
      · obtain ⟨hlo, hhi⟩ := ih hrest x hx
        omega

theorem files_nodup :
    ∀ {outputs : List (Segment ν)} {n n' : Nat}, NamedFrom n outputs n' →
      (outputs.map Segment.file).Nodup := by
  intro outputs
  induction outputs with
  | nil => exact fun _ => List.nodup_nil
  | cons o outputs ih =>
      rintro n n' ⟨_, hrest⟩
      refine List.nodup_cons.mpr ⟨fun hmem => ?_, ih hrest⟩
      obtain ⟨x, hx, hfile⟩ := List.mem_map.mp hmem
      have := (hrest.file_ge x hx).1
      omega

/-- One output under the counter's own value. -/
theorem one {o : Segment ν} {n : Nat} (h : o.file = n) : NamedFrom n [o] (n + 1) :=
  ⟨le_of_eq h.symm, by rw [h]; rfl⟩

end NamedFrom

/-- The files of a rewrite are handed out in order. -/
theorem namedFrom_writeOutputs [SegmentFile ν] (reuseIds : List Nat) (idBase : Nat)
    (created : Int64) :
    ∀ (chunks : List (List (Record ν))) (ci next : Nat),
      NamedFrom next (writeOutputs reuseIds idBase created ci next chunks).1
        (writeOutputs reuseIds idBase created ci next chunks).2 := by
  intro chunks
  induction chunks with
  | nil => exact fun _ _ => rfl
  | cons chunk chunks ih =>
      intro ci next
      refine ⟨?_, ih _ _⟩
      show next ≤ if idBase + ci < reuseIds.length then next else next + 1
      split <;> omega

theorem writeOutputs_hot [SegmentFile ν] (reuseIds : List Nat) (idBase : Nat) (created : Int64) :
    ∀ (chunks : List (List (Record ν))) (ci next : Nat),
      ∀ o ∈ (writeOutputs reuseIds idBase created ci next chunks).1, o.tier = .hot := by
  intro chunks
  induction chunks with
  | nil => exact fun _ _ o ho => absurd ho List.not_mem_nil
  | cons chunk chunks ih =>
      intro ci next o ho
      rcases List.mem_cons.mp ho with rfl | ho
      · rfl
      · exact ih _ _ o ho

/-! ## Manifests after a swap -/

namespace Manifest

variable {m : Manifest ν}

theorem mem_swap {ids : List Nat} {outputs : List (Segment ν)} {s : Segment ν} :
    s ∈ (m.swap ids outputs).segments ↔ (s ∈ m.segments ∧ s.id ∉ ids) ∨ s ∈ outputs := by
  simp [swap]

theorem mem_setTier {id : Nat} {tier : Tier} {s : Segment ν} :
    s ∈ (m.setTier id tier).segments ↔
      ∃ s₀ ∈ m.segments, s = if s₀.id = id then { s₀ with tier := tier } else s₀ := by
  simp [setTier, eq_comm]

/-- Another entry is not touched. -/
theorem mem_setTier_of_ne {id : Nat} {tier : Tier} {s : Segment ν} (hs : s ∈ m.segments)
    (hne : s.id ≠ id) : s ∈ (m.setTier id tier).segments :=
  mem_setTier.mpr ⟨s, hs, (if_neg hne).symm⟩

theorem Identity.file_inj (h : m.Identity) {s s' : Segment ν} (hs : s ∈ m.segments)
    (hs' : s' ∈ m.segments) (heq : s.file = s'.file) : s = s' :=
  List.inj_on_of_nodup_map h.files_nodup hs hs' heq

theorem Identity.id_inj (h : m.Identity) {s s' : Segment ν} (hs : s ∈ m.segments)
    (hs' : s' ∈ m.segments) (heq : s.id = s'.id) : s = s' :=
  List.inj_on_of_nodup_map h.ids_nodup hs hs' heq

/-- Moving the counter on. -/
theorem Identity.advance (h : m.Identity) {n : Nat} (hn : m.nextSegmentId ≤ n) :
    ({ m with nextSegmentId := n } : Manifest ν).Identity :=
  ⟨h.ids_nodup, h.files_nodup, fun hs => lt_of_lt_of_le (h.id_lt hs) hn,
    fun hs => lt_of_lt_of_le (h.file_lt hs) hn⟩

theorem map_id_setTier (id : Nat) (tier : Tier) :
    (m.setTier id tier).segments.map Segment.id = m.segments.map Segment.id := by
  rw [setTier, List.map_map]
  refine List.map_congr_left fun s _ => ?_
  simp only [Function.comp_apply]
  split <;> rfl

theorem map_file_setTier (id : Nat) (tier : Tier) :
    (m.setTier id tier).segments.map Segment.file = m.segments.map Segment.file := by
  rw [setTier, List.map_map]
  refine List.map_congr_left fun s _ => ?_
  simp only [Function.comp_apply]
  split <;> rfl

theorem Identity.setTier (h : m.Identity) (id : Nat) (tier : Tier) :
    (m.setTier id tier).Identity := by
  refine ⟨?_, ?_, fun {s} hs => ?_, fun {s} hs => ?_⟩
  · rw [map_id_setTier]
    exact h.ids_nodup
  · rw [map_file_setTier]
    exact h.files_nodup
  · have hmem := List.mem_map_of_mem (f := Segment.id) hs
    rw [map_id_setTier] at hmem
    obtain ⟨s₀, hs₀, heq⟩ := List.mem_map.mp hmem
    exact heq ▸ h.id_lt hs₀
  · have hmem := List.mem_map_of_mem (f := Segment.file) hs
    rw [map_file_setTier] at hmem
    obtain ⟨s₀, hs₀, heq⟩ := List.mem_map.mp hmem
    exact heq ▸ h.file_lt hs₀

/-- A swap keeps the identities when the outputs take fresh files and ids that are free. -/
theorem Identity.swap (h : m.Identity) {ids : List Nat} {outputs : List (Segment ν)} {n : Nat}
    (hnamed : NamedFrom m.nextSegmentId outputs n)
    (hids : ((m.swap ids outputs).segments.map Segment.id).Nodup)
    (hlt : ∀ o ∈ outputs, o.id < n) :
    (({ m with nextSegmentId := n } : Manifest ν).swap ids outputs).Identity := by
  have hle := hnamed.le
  refine ⟨hids, ?_, fun {s} hs => ?_, fun {s} hs => ?_⟩
  · show ((m.segments.filter _ ++ outputs).map Segment.file).Nodup
    rw [List.map_append]
    refine List.nodup_append.mpr ⟨nodup_map_filter h.files_nodup _, hnamed.files_nodup, ?_⟩
    rintro _ hf _ ho rfl
    obtain ⟨s, hs, hfile⟩ := List.mem_map.mp hf
    obtain ⟨o, ho, hfile'⟩ := List.mem_map.mp ho
    have hlo := (hnamed.file_ge o ho).1
    have hhi := h.file_lt (List.mem_filter.mp hs).1
    omega
  · rcases mem_swap.mp hs with ⟨hs, _⟩ | hs
    · exact lt_of_lt_of_le (h.id_lt hs) hle
    · exact hlt s hs
  · rcases mem_swap.mp hs with ⟨hs, _⟩ | hs
    · exact lt_of_lt_of_le (h.file_lt hs) hle
    · exact (hnamed.file_ge s hs).2

end Manifest

namespace Bench

variable {b b' : Bench ν} {ops : List (Op ν)}

/-! ## An allowed operation keeps the state sound -/

theorem Sound.exec (h : b.Sound) {op : Op ν} (hallow : b.Allows op) (hexec : b.exec op = .ok b') :
    b'.Sound := by
  cases op with
  | read s =>
      rw [eq_of_exec_read hexec]
      exact h
  | alloc =>
      cases hexec
      exact ⟨h.identity.advance (Nat.le_succ _), fun hf => Nat.lt_succ_of_lt (h.met_lt hf),
        h.listed_met⟩
  | write place file data =>
      cases hexec
      refine ⟨h.identity, fun {f} hf => ?_, fun hs => List.mem_cons_of_mem _ (h.listed_met hs)⟩
      rcases List.mem_cons.mp hf with rfl | hf
      · exact hallow.2.1
      · exact h.met_lt hf
  | swap ids outputs =>
      cases hexec
      refine ⟨hallow.1, h.met_lt, fun {s} hs => ?_⟩
      rcases Manifest.mem_swap.mp hs with ⟨hs, _⟩ | hs
      · exact h.listed_met hs
      · exact (hallow.2 s hs).2.2
  | setTier id tier =>
      -- The entry keeps its id and its file.
      cases hexec
      refine ⟨h.identity.setTier id tier, h.met_lt, fun {s} hs => ?_⟩
      obtain ⟨s₀, hs₀, rfl⟩ := Manifest.mem_setTier.mp hs
      have hmet := h.listed_met hs₀
      split <;> exact hmet
  | remove place file =>
      cases hexec
      exact ⟨h.identity, h.met_lt, h.listed_met⟩
  | rename s =>
      obtain ⟨_, _, rfl⟩ := map_open?_eq_ok hexec
      exact ⟨h.identity, h.met_lt, h.listed_met⟩
  | copy s =>
      obtain ⟨_, _, rfl⟩ := map_open?_eq_ok hexec
      exact ⟨h.identity, h.met_lt, h.listed_met⟩
  | removeSource s =>
      obtain ⟨_, _, rfl⟩ := map_open?_eq_ok hexec
      exact ⟨h.identity, h.met_lt, h.listed_met⟩
  | put s =>
      obtain ⟨_, _, rfl⟩ := map_open?_eq_ok hexec
      exact ⟨h.identity, h.met_lt, h.listed_met⟩
  | popFrozen =>
      cases hexec
      exact ⟨h.identity, h.met_lt, h.listed_met⟩
  | setCursor id =>
      cases hexec
      exact ⟨h.identity, h.met_lt, h.listed_met⟩
  | fail e => cases hexec

/-! ## Writing outputs and swapping them in -/

theorem Sound.advance (h : b.Sound) {n : Nat} (hn : b.next ≤ n) : (b.advance n).Sound :=
  ⟨h.identity.advance hn, fun hf => lt_of_lt_of_le (h.met_lt hf) hn, h.listed_met⟩

/-- The outputs are written, the counter is at `n`, and no other file has changed. -/
structure Wrote (b b' : Bench ν) (outputs : List (Segment ν)) (n : Nat) : Prop where
  engine_eq : b'.engine = (b.advance n).engine
  placed {o : Segment ν} : o ∈ outputs → b'.files o.tier.place o.file = some o.data
  known {o : Segment ν} : o ∈ outputs → o.file ∈ b'.met
  met_of {f : Nat} : f ∈ b.met → f ∈ b'.met
  frame {p : Place} {f : Nat} : (∀ o ∈ outputs, o.file ≠ f) → b'.files p f = b.files p f

theorem follows_outputs :
    ∀ {outputs : List (Segment ν)} {b : Bench ν} {n : Nat}, b.Sound →
      NamedFrom b.next outputs n → (∀ o ∈ outputs, o.tier ≠ .remote) →
      (∀ b' : Bench ν, b'.Sound → Wrote b b' outputs n → b'.Follows ops) →
      b.Follows (outputOps b.next outputs ++ ops) := by
  intro outputs
  induction outputs with
  | nil =>
      rintro b n hb rfl - hrest
      refine hrest b hb ⟨rfl, fun ho => ?_, fun ho => ?_, fun hf => hf, fun _ => rfl⟩
      all_goals exact absurd ho List.not_mem_nil
  | cons o outputs ih =>
      rintro b n hb ⟨hle, hnamed⟩ htier hrest
      have hsucc : b.next + (o.file + 1 - b.next) = o.file + 1 := by omega
      rw [outputOps, List.append_assoc]
      refine follows_allocs ?_
      rw [hsucc]
      -- The name is new: everything listed or met before is below the old counter.
      have hplace : o.tier.place = .hot ∨ o.tier.place = .cold := by
        have hnot := htier o List.mem_cons_self
        cases htiero : o.tier with
        | hot => exact Or.inl rfl
        | cold => exact Or.inr rfl
        | remote => exact absurd htiero hnot
      have hallow : (b.advance (o.file + 1)).Allows (.write o.tier.place o.file o.data) := by
        refine ⟨hplace, Nat.lt_succ_self _, fun s hs => ?_, fun hmet => ?_⟩
        · have := hb.identity.file_lt hs
          exact ne_of_lt (lt_of_lt_of_le this hle)
        · exact absurd (hb.met_lt hmet) (Nat.not_lt.mpr hle)
      have hexec : (b.advance (o.file + 1)).exec (.write o.tier.place o.file o.data) =
          .ok { b.advance (o.file + 1) with
            files := b.files.set o.tier.place o.file (some o.data), met := o.file :: b.met } := rfl
      have hb₁ := (hb.advance (by omega : b.next ≤ o.file + 1)).exec hallow hexec
      refine Meets.cons hallow (step_of_exec hexec) ?_
      refine ih hb₁ hnamed (fun x hx => htier x (List.mem_cons_of_mem o hx)) fun b' hb' hw => ?_
      have hlater : ∀ x ∈ outputs, x.file ≠ o.file := by
        intro x hx
        have := (hnamed.file_ge x hx).1
        omega
      refine hrest b' hb' ⟨hw.engine_eq, fun {x} hx => ?_, fun {x} hx => ?_,
        fun hf => hw.met_of (List.mem_cons_of_mem _ hf), fun {p f} hf => ?_⟩
      · rcases List.mem_cons.mp hx with rfl | hx
        · rw [hw.frame hlater]
          exact Files.set_same _ _ _ _
        · exact hw.placed hx
      · rcases List.mem_cons.mp hx with rfl | hx
        · exact hw.met_of List.mem_cons_self
        · exact hw.known hx
      · rw [hw.frame (fun x hx => hf x (List.mem_cons_of_mem o hx))]
        exact Files.set_of_ne _ _ (Or.inr (hf o List.mem_cons_self).symm)

/-- Files no entry lists are removed. -/
theorem follows_removes {drops : List (Op ν)} :
    ∀ {b : Bench ν}, b.Sound →
      (∀ op ∈ drops, ∃ p f, op = .remove p f ∧ ∀ s ∈ b.segments, s.file ≠ f) →
      (∀ b' : Bench ν, b'.Sound → b'.engine = b.engine → b'.Follows ops) → b.Follows (drops ++ ops) := by
  induction drops with
  | nil => exact fun hb _ hrest => hrest _ hb rfl
  | cons op drops ih =>
      intro b hb hdrops hrest
      obtain ⟨p, f, rfl, hfree⟩ := hdrops op List.mem_cons_self
      have hallow : b.Allows (.remove p f) := fun s hs heq => absurd heq (hfree s hs)
      have hexec : b.exec (.remove p f) = .ok { b with files := b.files.set p f none } := rfl
      refine Meets.cons hallow (step_of_exec hexec) ?_
      exact ih (hb.exec hallow hexec) (fun x hx => hdrops x (List.mem_cons_of_mem _ hx)) hrest

/-- The engine with outputs swapped in. -/
def replaced (b : Bench ν) (ids : List Nat) (outputs : List (Segment ν)) (n : Nat) : Engine ν :=
  { b.engine with
    manifest := ({ b.engine.manifest with nextSegmentId := n } : Manifest ν).swap ids outputs }

/-- A block that writes outputs, swaps them in for some ids and removes the files of the segments
they replace. -/
theorem follows_replace (outputs : List (Segment ν)) (ids : List Nat) (drops : List (Op ν)) {n : Nat}
    (hb : b.Sound) (hnamed : NamedFrom b.next outputs n)
    (htier : ∀ o ∈ outputs, o.tier ≠ .remote)
    (hids : ((b.engine.manifest.swap ids outputs).segments.map Segment.id).Nodup)
    (hlt : ∀ o ∈ outputs, o.id < n)
    (hdrops : ∀ op ∈ drops, ∃ p, ∃ s ∈ b.segments, op = .remove p s.file ∧ s.id ∈ ids)
    (hrest : ∀ b' : Bench ν, b'.Sound → b'.engine = b.replaced ids outputs n → b'.Follows ops) :
    b.Follows (outputOps b.next outputs ++ (.swap ids outputs :: (drops ++ ops))) := by
  refine follows_outputs hb hnamed htier fun b₁ hb₁ hw => ?_
  have hmanifest : b₁.engine.manifest = { b.engine.manifest with nextSegmentId := n } := by
    rw [hw.engine_eq]
    rfl
  have hallow : b₁.Allows (.swap ids outputs) := by
    refine ⟨?_, fun o ho => ⟨htier o ho, hw.placed ho, hw.known ho⟩⟩
    rw [hmanifest]
    exact hb.identity.swap hnamed hids hlt
  have hexec : b₁.exec (.swap ids outputs) =
      .ok (b₁.withManifest (b₁.engine.manifest.swap ids outputs)) := rfl
  refine Meets.cons hallow (step_of_exec hexec) ?_
  -- After the swap no entry has one of the old files: the others never had, the outputs are newer.
  refine follows_removes (hb₁.exec hallow hexec) ?_ fun b' hb' heng => hrest b' hb' ?_
  · intro op hop
    obtain ⟨p, s, hs, rfl, hid⟩ := hdrops op hop
    refine ⟨p, s.file, rfl, fun x hx heq => ?_⟩
    rw [withManifest_segments, hmanifest] at hx
    rcases Manifest.mem_swap.mp hx with ⟨hx, hnot⟩ | hx
    · rw [hb.identity.file_inj hx hs heq] at hnot
      exact hnot hid
    · have hge := (hnamed.file_ge x hx).1
      have hlt := hb.identity.file_lt hs
      rw [heq] at hge
      exact absurd hlt (Nat.not_lt.mpr hge)
  · rw [heng, withManifest, hmanifest, hw.engine_eq]
    rfl

/-! ## The passes -/

theorem exists_of_mem_dropFile {t : Tiering} {s : Segment ν} {op : Op ν} (h : op ∈ dropFile t s) :
    ∃ p, op = .remove p s.file := by
  unfold dropFile at h
  split at h
  · rcases List.mem_append.mp h with h | h
    · split at h
      · exact ⟨.store, List.mem_singleton.mp h⟩
      · exact absurd h List.not_mem_nil
    · exact ⟨.pull, List.mem_singleton.mp h⟩
  · exact ⟨s.tier.place, List.mem_singleton.mp h⟩

/-- One output keeps the ids distinct when its id is given up or new. -/
theorem ids_nodup_swap_one (hb : b.Sound) {ids : List Nat} {o : Segment ν}
    (hid : o.id ∈ ids ∨ b.next ≤ o.id) :
    ((b.engine.manifest.swap ids [o]).segments.map Segment.id).Nodup := by
  show ((b.segments.filter _ ++ [o]).map Segment.id).Nodup
  rw [List.map_append]
  refine List.nodup_append.mpr
    ⟨nodup_map_filter hb.identity.ids_nodup _, List.nodup_singleton _, ?_⟩
  rintro _ hs _ ho rfl
  obtain ⟨s, hs, heq⟩ := List.mem_map.mp hs
  obtain ⟨hs, hnot⟩ := List.mem_filter.mp hs
  have hso : s.id = o.id := heq.trans (List.mem_singleton.mp ho)
  rcases hid with hid | hid
  · rw [hso] at hnot
    simp [hid] at hnot
  · have := hb.identity.id_lt hs
    have hlt : s.id < b.next := this
    omega

theorem ids_nodup_swap_none (hb : b.Sound) (ids : List Nat) :
    ((b.engine.manifest.swap ids []).segments.map Segment.id).Nodup := by
  show ((b.segments.filter _ ++ []).map Segment.id).Nodup
  rw [List.append_nil]
  exact nodup_map_filter hb.identity.ids_nodup _

section Passes

variable [SegmentFile ν]

theorem follows_flush (clock : Nat → Int64) :
    ∀ {frozen : List (Nat × MemTable ν)} {b : Bench ν}, b.Sound →
      b.Follows (Engine.flushOps clock b.next frozen) := by
  intro frozen
  induction frozen with
  | nil => exact fun _ => trivial
  | cons f frozen ih =>
      intro b hb
      rw [Engine.flushOps, List.append_assoc]
      refine follows_replace _ _ [] hb (NamedFrom.one rfl) (fun o ho => ?_)
        (ids_nodup_swap_one hb (Or.inr le_rfl)) (fun o ho => ?_)
        (fun op hop => absurd hop List.not_mem_nil) fun b' hb' heng => ?_
      · rw [List.mem_singleton.mp ho]
        exact Tier.noConfusion
      · rw [List.mem_singleton.mp ho]
        exact Nat.lt_succ_self _
      · have hpop : b'.exec .popFrozen =
            .ok { b' with engine := { b'.engine with frozen := b'.engine.frozen.tail } } := rfl
        have hnext : b'.next = b.next + 1 := by rw [next, heng]; rfl
        refine Meets.cons trivial (step_of_exec hpop) ?_
        have hpopped : Bench.Sound _ := hb'.exec (show b'.Allows .popFrozen from trivial) hpop
        have hrest := ih hpopped
        rw [← hnext]
        exact hrest

/-- A segment is rewritten in its slot, or dropped. -/
theorem follows_rewriteOps {e : Engine ν} (hb : b.Sound)
    (he : e.manifest.nextSegmentId = b.next) {s : Segment ν} (hs : s ∈ b.segments)
    {rows : List (Record ν)} {drop : List (Op ν)}
    (hdrop : ∀ op ∈ drop, ∃ p, op = .remove p s.file)
    (hrest : ∀ b' : Bench ν, b'.Sound → b'.engine.config = b.engine.config →
      b'.next = (if rows.isEmpty then b.next else b.next + 1) →
      (∀ x ∈ b.segments, x.id ≠ s.id → x ∈ b'.segments) → b'.Follows ops) :
    b.Follows (e.rewriteOps s rows drop ++ ops) := by
  -- Only the entry that is rewritten goes.
  have hkept : ∀ (outputs : List (Segment ν)) (n : Nat) (b' : Bench ν),
      b'.engine = b.replaced [s.id] outputs n →
      ∀ x ∈ b.segments, x.id ≠ s.id → x ∈ b'.segments := by
    intro outputs n b' heng x hx hne
    rw [segments, heng]
    exact Manifest.mem_swap.mpr (Or.inl ⟨hx, by simpa using hne⟩)
  unfold Engine.rewriteOps
  cases hrows : rows.isEmpty with
  | true =>
      rw [if_pos rfl]
      refine follows_replace [] _ _ hb (rfl : NamedFrom b.next [] b.next)
        (fun o ho => absurd ho List.not_mem_nil) (ids_nodup_swap_none hb _)
        (fun o ho => absurd ho List.not_mem_nil) (fun op hop => ?_) fun b' hb' heng => ?_
      · obtain ⟨p, rfl⟩ := hdrop op hop
        exact ⟨p, s, hs, rfl, List.mem_singleton.mpr rfl⟩
      · refine hrest b' hb' (by rw [heng]; rfl) ?_ (hkept _ _ b' heng)
        rw [next, heng, hrows]
        rfl
  | false =>
      rw [if_neg Bool.false_ne_true, he]
      dsimp only
      rw [List.append_assoc]
      refine follows_replace _ _ [.remove s.tier.place s.file] hb (NamedFrom.one he) (fun o ho => ?_)
        (ids_nodup_swap_one hb (Or.inl ?_)) (fun o ho => ?_) (fun op hop => ?_)
        fun b' hb' heng => ?_
      · rw [List.mem_singleton.mp ho]
        exact Tier.noConfusion
      · exact List.mem_singleton.mpr rfl
      · rw [List.mem_singleton.mp ho]
        have hlt : s.id < b.next := hb.identity.id_lt hs
        exact Nat.lt_succ_of_lt hlt
      · exact ⟨_, s, hs, List.mem_singleton.mp hop, List.mem_singleton.mpr rfl⟩
      · refine hrest b' hb' (by rw [heng]; rfl) ?_ (hkept _ _ b' heng)
        rw [next, heng, hrows]
        rfl

variable [Numeral ν]

theorem follows_compactRun (t : Tiering) (hb : b.Sound) {run : List (Segment ν)}
    (hrun : RunOf b.segments run) (purge : Option String) (now : Int64) :
    b.Follows (b.engine.compactRunOps t run purge now) := by
  have hnum : b.engine.Numbered := fun s hs => hb.identity.id_lt hs
  have hdrops : ∀ op ∈ run.flatMap (dropFile t),
      ∃ p, ∃ s ∈ b.segments, op = .remove p s.file ∧ s.id ∈ run.map Segment.id := by
    intro op hop
    obtain ⟨s, hs, hop⟩ := List.mem_flatMap.mp hop
    obtain ⟨p, rfl⟩ := exists_of_mem_dropFile hop
    exact ⟨p, s, hrun.subset hs, rfl, List.mem_map_of_mem hs⟩
  rw [Engine.compactRunOps, List.append_assoc, List.append_assoc]
  refine follows_reads (fun s hs => hrun.subset ((mem_sortAsc _).mp hs)) ?_
  rw [← List.append_nil (run.flatMap (dropFile t))]
  exact follows_replace (b.engine.outputs run purge now) (run.map Segment.id)
    (run.flatMap (dropFile t)) hb (namedFrom_writeOutputs _ _ _ _ _ _)
    (fun o ho => by rw [writeOutputs_hot _ _ _ _ _ _ o ho]; exact Tier.noConfusion)
    (Engine.rewritten_ids_nodup hb.identity.ids_nodup hrun (Or.inl hnum))
    (fun o ho => Engine.rewritten_numbered hnum hrun purge now o (List.mem_append_right _ ho))
    hdrops (fun _ _ _ => trivial)

theorem follows_compact (t : Tiering) (hb : b.Sound) (now : Int64) :
    b.Follows (b.engine.compactOps t now) := by
  unfold Engine.compactOps
  cases hchoose : chooseRun b.engine.config b.engine.manifest.segments with
  | none => trivial
  | some run =>
      obtain ⟨hrun, _⟩ := chooseRun_contiguous hb.identity.ids_nodup hchoose
      exact follows_compactRun t hb hrun.toRunOf none now

omit [SegmentFile ν] [Numeral ν] in
theorem follows_purgeCheck {key : String} :
    ∀ {run : List (Segment ν)}, (∀ s ∈ run, s ∈ b.segments) → b.Follows ops →
      b.Follows (Engine.purgeCheckOps key run ++ ops) := by
  intro run
  induction run with
  | nil => exact fun _ h => h
  | cons m rest ih =>
      intro hrun h
      refine follows_read (hrun m List.mem_cons_self) ?_
      split
      · exact Meets.stop trivial rfl
      · exact ih (fun s hs => hrun s (List.mem_cons_of_mem m hs)) h

theorem follows_purge (t : Tiering) (hb : b.Sound) (key : String) (now : Int64) :
    b.Follows (b.engine.purgeOps t key now) := by
  have hrun : RunOf b.segments (b.engine.purgeRun key) :=
    ⟨fun hs => List.mem_of_mem_filter hs, nodup_map_filter hb.identity.ids_nodup _⟩
  unfold Engine.purgeOps
  dsimp only
  split
  · trivial
  · exact follows_purgeCheck (fun s hs => hrun.subset hs)
      (follows_compactRun t hb hrun (some key) now)

omit [SegmentFile ν] in
theorem mem_olderReads {older : List (Segment ν)} {m : Segment ν} :
    ∀ {rows : List AuditRow}, m ∈ (Engine.olderReads older rows).1 → m ∈ older := by
  induction older with
  | nil => exact fun h => h
  | cons x older ih =>
      intro rows h
      unfold Engine.olderReads at h
      split at h
      · rcases List.mem_cons.mp h with rfl | h
        · exact List.mem_cons_self
        · exact List.mem_cons_of_mem x (ih h)
      · exact List.mem_cons_of_mem x (ih h)

omit [SegmentFile ν] in
theorem mem_evidence {e : Engine ν} {cand m : Segment ν} (h : m ∈ (e.evidence cand).1) :
    m ∈ e.manifest.segments := by
  have hnewer : ∀ x ∈ e.newerEvidence cand, x ∈ e.manifest.segments := by
    intro x hx
    exact List.mem_of_mem_filter (List.mem_of_mem_filter hx)
  have holder : ∀ x ∈ e.olderEvidence cand, x ∈ e.manifest.segments := by
    intro x hx
    unfold Engine.olderEvidence at hx
    split at hx
    · exact List.mem_of_mem_filter (List.mem_of_mem_filter hx)
    · exact absurd hx List.not_mem_nil
  unfold Engine.evidence at h
  dsimp only at h
  split at h
  · rcases List.mem_append.mp h with h | h
    · exact hnewer m h
    · exact holder m (mem_olderReads h)
  · exact hnewer m h

omit [SegmentFile ν] in
theorem mem_of_reclaimPick {e : Engine ν} {cand : Segment ν} (h : e.reclaimPick = some cand) :
    cand ∈ e.manifest.segments ∧ cand.tier = .hot := by
  obtain ⟨hcand, hseal⟩ := Engine.sealed_of_reclaimPick h
  simp only [Engine.isSealed, Bool.and_eq_true, decide_eq_true_eq] at hseal
  exact ⟨hcand, hseal.1⟩

theorem follows_reclaim (t : Tiering) (hb : b.Sound) : b.Follows (b.engine.reclaimOps t) := by
  unfold Engine.reclaimOps
  cases hpick : b.engine.reclaimPick with
  | none => trivial
  | some cand =>
      obtain ⟨hcand, _⟩ := mem_of_reclaimPick hpick
      have hcursor : b.exec (.setCursor cand.id) =
          .ok { b with engine := { b.engine with reclaimCursor := cand.id } } := rfl
      have hb₁ : Bench.Sound _ := hb.exec (show b.Allows (.setCursor cand.id) from trivial) hcursor
      refine Meets.cons trivial (step_of_exec hcursor) (follows_read hcand ?_)
      split
      · trivial
      · refine follows_reads (fun s hs => mem_evidence hs) ?_
        split
        · trivial
        · refine follows_read hcand ?_
          rw [← List.append_nil (Engine.rewriteOps _ _ _ _)]
          exact follows_rewriteOps hb₁ rfl hcand (fun op hop => exists_of_mem_dropFile hop)
            (fun _ _ _ _ _ => trivial)

theorem follows_groomOne {e : Engine ν} (hb : b.Sound) (he : e.manifest.nextSegmentId = b.next)
    (now : Int64) {m : Segment ν} (hm : m ∈ b.segments)
    (hrest : ∀ b' : Bench ν, b'.Sound →
      b'.next = (if e.groomWrites now m then b.next + 1 else b.next) →
      (∀ x ∈ b.segments, x.id ≠ m.id → x ∈ b'.segments) → b'.Follows ops) :
    b.Follows (e.groomOneOps now m ++ ops) := by
  have hremove : ∀ op ∈ [(Op.remove m.tier.place m.file : Op ν)],
      ∃ p, op = .remove p m.file := fun op hop => ⟨_, List.mem_singleton.mp hop⟩
  unfold Engine.groomOneOps
  by_cases hall : Engine.allExpired e.config.retentionPolicy now m = true
  · -- The whole segment has expired.
    rw [if_pos hall]
    refine follows_replace [] [m.id] [.remove m.tier.place m.file] hb
      (rfl : NamedFrom b.next [] b.next) (fun o ho => absurd ho List.not_mem_nil)
      (ids_nodup_swap_none hb _) (fun o ho => absurd ho List.not_mem_nil) (fun op hop => ?_)
      fun b' hb' heng => hrest b' hb' ?_ (fun x hx hne => ?_)
    · exact ⟨_, m, hm, List.mem_singleton.mp hop, List.mem_singleton.mpr rfl⟩
    · rw [next, heng, Engine.groomWrites, hall]
      rfl
    · rw [segments, heng]
      exact Manifest.mem_swap.mpr (Or.inl ⟨hx, by simpa using hne⟩)
  · rw [if_neg hall]
    refine follows_read hm ?_
    by_cases hcount : (e.groomedRows now m).length = m.zone.count
    · rw [if_pos hcount]
      refine hrest b hb ?_ (fun x hx _ => hx)
      simp [Engine.groomWrites, hcount]
    · rw [if_neg hcount]
      refine follows_rewriteOps hb he hm hremove fun b' hb' _ hnext hkept =>
        hrest b' hb' ?_ hkept
      rw [hnext, Engine.groomWrites]
      cases (e.groomedRows now m).isEmpty <;> simp [hall, hcount]

theorem follows_groomLoop (now : Int64) :
    ∀ {ms : List (Segment ν)} {e : Engine ν} {b : Bench ν}, b.Sound →
      e.manifest.nextSegmentId = b.next → (∀ m ∈ ms, m ∈ b.segments) →
      (ms.map Segment.id).Nodup → b.Follows (Engine.groomLoopOps now ms e) := by
  intro ms
  induction ms with
  | nil => exact fun _ _ _ _ => trivial
  | cons m rest ih =>
      intro e b hb hnext hms hnodup
      obtain ⟨hnot, hnodup⟩ := List.nodup_cons.mp hnodup
      rw [Engine.groomLoopOps]
      refine follows_groomOne hb hnext now (hms m List.mem_cons_self) fun b' hb' hnext' hkept =>
        ih hb' ?_ (fun x hx => hkept x (hms x (List.mem_cons_of_mem m hx)) ?_) hnodup
      · rw [hnext', ← hnext]
      · exact fun heq => hnot (heq ▸ List.mem_map_of_mem hx)

theorem follows_groom (hb : b.Sound) (now : Int64) : b.Follows (b.engine.groomOps now) := by
  unfold Engine.groomOps
  split
  · trivial
  · refine follows_groomLoop now hb rfl (fun m hm => ?_) ?_
    · exact List.mem_of_mem_filter (List.mem_of_mem_filter (List.mem_of_mem_filter hm))
    · exact nodup_map_filter (nodup_map_filter (nodup_map_filter hb.identity.ids_nodup _) _) _

omit [Numeral ν] in
theorem follows_migrate {files : Files ν} :
    ∀ {ss : List (Segment ν)} {b : Bench ν}, b.Sound → (∀ s ∈ ss, s ∈ b.segments) →
      b.Follows (Engine.migrateOps files b.next ss) := by
  intro ss
  induction ss with
  | nil => exact fun _ _ => trivial
  | cons s rest ih =>
      intro b hb hss
      have hs := hss s List.mem_cons_self
      have htail : ∀ x ∈ rest, x ∈ b.segments := fun x hx => hss x (List.mem_cons_of_mem s hx)
      -- Rewriting a local segment in its slot.
      have hlocal : s.tier ≠ .remote → b.Follows (.read s ::
          (outputOps b.next [Engine.migratedSegment b.next s] ++
            [.swap [s.id] [Engine.migratedSegment b.next s], .remove s.tier.place s.file])) := by
        intro htier
        refine follows_read hs (follows_replace _ _ [.remove s.tier.place s.file] hb
          (NamedFrom.one rfl) (fun o ho => ?_) (ids_nodup_swap_one hb (Or.inl ?_)) (fun o ho => ?_)
          (fun op hop => ?_) fun _ _ _ => trivial)
        · rw [List.mem_singleton.mp ho]
          exact htier
        · exact List.mem_singleton.mpr rfl
        · rw [List.mem_singleton.mp ho]
          have hlt : s.id < b.next := hb.identity.id_lt hs
          exact Nat.lt_succ_of_lt hlt
        · exact ⟨_, s, hs, List.mem_singleton.mp hop, List.mem_singleton.mpr rfl⟩
      rw [Engine.migrateOps]
      split
      · exact ih hb htail
      · split
        · exact ih hb htail
        · dsimp only
          split
          · refine follows_read hs ?_
            have halloc : b.exec .alloc = .ok (b.advance (b.next + 1)) := rfl
            refine Meets.cons trivial (step_of_exec halloc) ?_
            exact ih (hb.advance (Nat.le_succ _)) htail
          · rename_i hnot
            exact hlocal (fun heq => hnot heq)

omit [Numeral ν] [SegmentFile ν] in
/-- A move leaves the other entries alone. -/
theorem follows_moves {move : Segment ν → List (Op ν)} {tier : Tier}
    (hmove : ∀ {b : Bench ν} {ops : List (Op ν)} {s : Segment ν}, b.Sound → s ∈ b.segments →
      s.tier = tier → (∀ b' : Bench ν, b'.Sound →
        (∀ x ∈ b.segments, x.id ≠ s.id → x ∈ b'.segments) → b'.Follows ops) →
      b.Follows (move s ++ ops)) :
    ∀ {ss keep : List (Segment ν)} {b : Bench ν}, b.Sound →
      (∀ s ∈ ss, s ∈ b.segments ∧ s.tier = tier) → (ss.map Segment.id).Nodup →
      (∀ x ∈ keep, x ∈ b.segments ∧ ∀ s ∈ ss, x.id ≠ s.id) →
      (∀ b' : Bench ν, b'.Sound → (∀ x ∈ keep, x ∈ b'.segments) → b'.Follows ops) →
      b.Follows (ss.flatMap move ++ ops) := by
  intro ss
  induction ss with
  | nil => exact fun hb _ _ hkeep hrest => hrest _ hb (fun x hx => (hkeep x hx).1)
  | cons s rest ih =>
      intro keep b hb hss hnodup hkeep hrest
      obtain ⟨hnot, hnodup⟩ := List.nodup_cons.mp hnodup
      obtain ⟨hs, htier⟩ := hss s List.mem_cons_self
      rw [List.flatMap_cons, List.append_assoc]
      refine hmove hb hs htier fun b' hb' hothers => ?_
      refine ih hb' (fun x hx => ?_) hnodup (fun x hx => ?_) hrest
      · obtain ⟨hx', hxtier⟩ := hss x (List.mem_cons_of_mem s hx)
        refine ⟨hothers x hx' fun heq => hnot (heq ▸ List.mem_map_of_mem hx), hxtier⟩
      · obtain ⟨hx', hne⟩ := hkeep x hx
        exact ⟨hothers x hx' (hne s List.mem_cons_self),
          fun y hy => hne y (List.mem_cons_of_mem s hy)⟩

end Passes

/-! ## Moves -/

/-- The entry is listed under its new tier once the hot file is gone. -/
theorem follows_setCold {s : Segment ν} (hb : b.Sound) (hs : s ∈ b.segments) (htier : s.tier = .hot)
    (hgone : b.files .hot s.file = none)
    (hrest : ∀ b' : Bench ν, b'.Sound →
      (∀ x ∈ b.segments, x.id ≠ s.id → x ∈ b'.segments) → b'.Follows ops) :
    b.Follows (.setTier s.id .cold :: ops) := by
  have hallow : b.Allows (.setTier s.id .cold) :=
    ⟨s, hs, rfl, Or.inl ⟨rfl, htier, hgone⟩⟩
  have hexec : b.exec (.setTier s.id .cold) =
      .ok (b.withManifest (b.engine.manifest.setTier s.id .cold)) := rfl
  refine Meets.cons hallow (step_of_exec hexec) (hrest _ (hb.exec hallow hexec) ?_)
  exact fun x hx hne => Manifest.mem_setTier_of_ne hx hne

theorem follows_coldMove (t : Tiering) {s : Segment ν} (hb : b.Sound) (hs : s ∈ b.segments)
    (htier : s.tier = .hot)
    (hrest : ∀ b' : Bench ν, b'.Sound →
      (∀ x ∈ b.segments, x.id ≠ s.id → x ∈ b'.segments) → b'.Follows ops) :
    b.Follows (Engine.coldMove t s ++ ops) := by
  unfold Engine.coldMove
  cases t.sameFs with
  | true =>
      have hallow : b.Allows (.rename s) := ⟨hs, htier⟩
      refine ⟨hallow, fun b₁ hb₁ => ?_⟩
      have hsound := hb.exec hallow (exec_of_step hb₁)
      obtain ⟨data, _, rfl⟩ := map_open?_eq_ok (exec_of_step hb₁)
      exact follows_setCold hsound hs htier (Files.set_same _ _ _ _) hrest
  | false =>
      have hcopy : b.Allows (.copy s) := ⟨hs, htier⟩
      refine ⟨hcopy, fun b₁ hb₁ => ?_⟩
      have hsound₁ := hb.exec hcopy (exec_of_step hb₁)
      obtain ⟨data, hdata, rfl⟩ := map_open?_eq_ok (exec_of_step hb₁)
      -- The copy is there, so the source may go.
      have hremove : Allows { b with files := b.files.set .cold s.file (some data) }
          (.removeSource s) := by
        refine ⟨hs, htier, ?_⟩
        dsimp only
        rw [Files.set_same, Files.set_of_ne _ _ (Or.inl Place.noConfusion), hdata]
      refine ⟨hremove, fun b₂ hb₂ => ?_⟩
      have hsound₂ := hsound₁.exec hremove (exec_of_step hb₂)
      obtain ⟨_, _, rfl⟩ := map_open?_eq_ok (exec_of_step hb₂)
      exact follows_setCold hsound₂ hs htier (Files.set_same _ _ _ _) hrest

theorem follows_remoteMove {s : Segment ν} (hb : b.Sound) (hs : s ∈ b.segments)
    (htier : s.tier = .cold)
    (hrest : ∀ b' : Bench ν, b'.Sound →
      (∀ x ∈ b.segments, x.id ≠ s.id → x ∈ b'.segments) → b'.Follows ops) :
    b.Follows (Engine.remoteMove s ++ ops) := by
  have hput : b.Allows (.put s) := ⟨hs, htier⟩
  refine ⟨hput, fun b₁ hb₁ => ?_⟩
  have hsound₁ := hb.exec hput (exec_of_step hb₁)
  obtain ⟨data, hdata, rfl⟩ := map_open?_eq_ok (exec_of_step hb₁)
  -- The object is the cold file, so the entry may say so.
  have hset : Allows { b with files := b.files.set .store s.file (some data) }
      (.setTier s.id .remote) := by
    refine ⟨s, hs, rfl, Or.inr ⟨rfl, htier, ?_⟩⟩
    dsimp only
    rw [Files.set_same, Files.set_of_ne _ _ (Or.inl Place.noConfusion), hdata]
  refine ⟨hset, fun b₂ hb₂ => ?_⟩
  have hsound₂ := hsound₁.exec hset (exec_of_step hb₂)
  cases exec_of_step hb₂
  -- The local file is no longer looked for.
  have hremove : Allows (({ b with files := b.files.set .store s.file (some data) } :
      Bench ν).withManifest (b.engine.manifest.setTier s.id .remote)) (.remove .cold s.file) := by
    intro x hx heq
    obtain ⟨x₀, hx₀, rfl⟩ := Manifest.mem_setTier.mp hx
    have hfile : x₀.file = s.file := by
      split at heq <;> exact heq
    have hsame := hb.identity.file_inj hx₀ hs hfile
    left
    rw [hsame, if_pos rfl]
    exact ⟨rfl, Place.noConfusion⟩
  refine Meets.cons hremove (step_of_exec rfl) (hrest _ (hsound₂.exec hremove rfl) ?_)
  exact fun x hx hne => Manifest.mem_setTier_of_ne hx hne

theorem follows_tier (t : Tiering) (hb : b.Sound) (now : Int64) :
    b.Follows (b.engine.tierOps t now) := by
  have hcold : ∀ s ∈ b.engine.toCold t now, s ∈ b.segments ∧ s.tier = .hot :=
    fun s hs => Engine.of_mem_toCold hs
  have hremote : ∀ s ∈ b.engine.toRemote t now, s ∈ b.segments ∧ s.tier = .cold :=
    fun s hs => Engine.of_mem_toRemote hs
  refine follows_moves (fun hb hs htier => follows_coldMove t hb hs htier) hb hcold
    (nodup_map_filter hb.identity.ids_nodup _)
    (fun x (hx : x ∈ b.engine.toRemote t now) => ⟨(hremote x hx).1, fun s hs heq => ?_⟩)
    fun b' hb' hkeep => ?_
  · have hsame := hb.identity.id_inj (hremote x hx).1 (hcold s hs).1 heq
    have htier := (hremote x hx).2
    rw [hsame, (hcold s hs).2] at htier
    cases htier
  · split
    · rw [← List.append_nil (List.flatMap _ _)]
      exact follows_moves follows_remoteMove hb'
        (fun s hs => ⟨hkeep s hs, (hremote s hs).2⟩) (nodup_map_filter hb.identity.ids_nodup _)
        (fun x (hx : x ∈ ([] : List (Segment ν))) => absurd hx List.not_mem_nil)
        (fun _ _ _ => trivial)
    · trivial

/-- Removing what is not sought leaves the rest unsought. -/
theorem follows_unsought {drops : List (Op ν)} :
    ∀ {b : Bench ν}, (∀ op ∈ drops, ∃ p f, op = .remove p f ∧ b.Unsought p f) →
      b.Follows drops := by
  induction drops with
  | nil => exact fun _ => trivial
  | cons op drops ih =>
      intro b hdrops
      obtain ⟨p, f, rfl, hfree⟩ := hdrops op List.mem_cons_self
      exact Meets.cons hfree (step_of_exec rfl)
        (ih (fun x hx => hdrops x (List.mem_cons_of_mem _ hx)))

/-- The reconciliation removes nothing that is sought. -/
theorem follows_reconcile (t : Tiering) (hb : b.Sound) (objects : List Nat) :
    b.Follows (Engine.reconcileOps t objects b.engine.manifest) := by
  unfold Engine.reconcileOps
  split
  · refine follows_unsought fun op hop => ?_
    dsimp only at hop
    rcases List.mem_append.mp hop with hop | hop
    · -- An object that no remote entry names.
      obtain ⟨f, hf, rfl⟩ := List.mem_map.mp hop
      refine ⟨.store, f, rfl, fun s hs heq => Or.inr ⟨fun htier => ?_, Or.inr rfl⟩⟩
      have hnot := (List.mem_filter.mp hf).2
      have hmem : f ∈ (b.engine.manifest.segments.filter
          (fun s => decide (s.tier = .remote))).map Segment.file := by
        rw [← heq]
        exact List.mem_map_of_mem (List.mem_filter.mpr ⟨hs, by simpa using htier⟩)
      rw [Bool.not_eq_true', ← Bool.not_eq_true, List.contains_iff_mem] at hnot
      exact hnot hmem
    · -- A local copy of a remote segment.
      obtain ⟨s, hs, hop⟩ := List.mem_flatMap.mp hop
      obtain ⟨hs, htier⟩ := List.mem_filter.mp hs
      have hunsought : ∀ p, p ≠ .store → b.Unsought p s.file := by
        intro p hp x hx heq
        rw [hb.identity.file_inj hx hs heq]
        exact Or.inl ⟨by simpa using htier, hp⟩
      rcases List.mem_cons.mp hop with rfl | hop
      · exact ⟨.hot, s.file, rfl, hunsought _ Place.noConfusion⟩
      · rw [List.mem_singleton.mp hop]
        exact ⟨.cold, s.file, rfl, hunsought _ Place.noConfusion⟩
  · trivial

/-- In a sound state every operation of every pass is allowed when its turn comes. -/
theorem follows_pass [Numeral ν] [SegmentFile ν] (t : Tiering) (hb : b.Sound) :
    ∀ pass : Pass, b.Follows (pass.ops t b)
  | .flush clock => follows_flush clock hb
  | .compact now => follows_compact t hb now
  | .purge key now => follows_purge t hb key now
  | .reclaim => follows_reclaim t hb
  | .tier now => follows_tier t hb now
  | .groom now => follows_groom hb now
  | .migrate => follows_migrate hb (fun _ hs => (mem_sortAsc _).mp hs)

end Bench

end Girder
