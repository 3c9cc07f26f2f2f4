import Girder.Moves

/-!
# Rounds — maintenance ticks

A tick runs the passes one after the other and returns the first error.  This module has what the
results about ticks share: how scripts compose, which operations leave an entry or the remote segments
alone, and that every pass keeps the state sound and the content of the listed segments.
-/

namespace Girder

open Lib

variable {ν : Type}

/-- The clock readings of one tick. -/
structure Clocks where
  flush : Nat → Int64
  compact : Int64
  tier : Int64
  groom : Int64

/-- The passes of a tick. -/
def tickPasses (c : Clocks) : List Pass :=
  [.flush c.flush, .compact c.compact, .reclaim, .tier c.tier, .groom c.groom, .migrate]

namespace Bench

section Passes

variable [Numeral ν] [SegmentFile ν]

/-- One pass. -/
def runPass (t : Tiering) (pass : Pass) (b : Bench ν) : Bench ν × Except GirderError Unit :=
  runOps (pass.ops t b) b

/-- Passes one after the other, up to the first that fails. -/
def runPasses (t : Tiering) : List Pass → Bench ν → Bench ν × Except GirderError Unit
  | [], b => (b, .ok ())
  | pass :: passes, b =>
      match b.runPass t pass with
      | (b', .ok ()) => runPasses t passes b'
      | (b', .error e) => (b', .error e)

/-- `MaintCall::Tick`.  The sweep of blob files at its end returns nothing. -/
def tick (t : Tiering) (c : Clocks) (b : Bench ν) : Bench ν × Except GirderError Unit :=
  runPasses t (tickPasses c) b

end Passes

/-! ## Scripts one after the other -/

theorem runOps_cons_ok {b b' : Bench ν} {op : Op ν} (ops : List (Op ν))
    (h : b.perform op = .ok b') : runOps (op :: ops) b = runOps ops b' := by
  rw [runOps, h]

theorem runOps_cons_error {b : Bench ν} {op : Op ν} {e : GirderError} (ops : List (Op ν))
    (h : b.perform op = .error e) : runOps (op :: ops) b = (b, .error e) := by
  rw [runOps, h]

/-- The first script completes. -/
theorem runOps_append_ok {xs : List (Op ν)} (ys : List (Op ν)) :
    ∀ {b b' : Bench ν}, runOps xs b = (b', .ok ()) → runOps (xs ++ ys) b = runOps ys b' := by
  induction xs with
  | nil =>
      intro b b' h
      cases h
      rfl
  | cons op xs ih =>
      intro b b' h
      cases hop : b.perform op with
      | ok b₁ =>
          rw [runOps_cons_ok xs hop] at h
          rw [List.cons_append, runOps_cons_ok _ hop, ih h]
      | error e =>
          rw [runOps_cons_error xs hop] at h
          cases h

/-- The first script fails. -/
theorem runOps_append_error {xs : List (Op ν)} (ys : List (Op ν)) :
    ∀ {b b' : Bench ν} {e : GirderError}, runOps xs b = (b', .error e) →
      runOps (xs ++ ys) b = (b', .error e) := by
  induction xs with
  | nil =>
      intro b b' e h
      cases h
  | cons op xs ih =>
      intro b b' e h
      cases hop : b.perform op with
      | ok b₁ =>
          rw [runOps_cons_ok xs hop] at h
          rw [List.cons_append, runOps_cons_ok _ hop, ih h]
      | error e' =>
          rw [runOps_cons_error xs hop] at h
          rw [List.cons_append, runOps_cons_error _ hop, h]

/-- Reads change nothing, whether they succeed or not. -/
theorem runOps_reads (ss : List (Segment ν)) (b : Bench ν) :
    ∃ result, runOps (ss.map Op.read) b = (b, result) := by
  induction ss with
  | nil => exact ⟨_, rfl⟩
  | cons s ss ih =>
      rw [List.map_cons]
      cases hop : b.perform (.read s) with
      | ok b' =>
          obtain ⟨_, _, rfl⟩ := map_open?_eq_ok hop
          rw [runOps_cons_ok _ hop]
          exact ih
      | error e => exact ⟨_, runOps_cons_error _ hop⟩

/-- Reads succeed only if their files are there. -/
theorem found_of_reads {ss : List (Segment ν)} :
    ∀ {b b' : Bench ν}, runOps (ss.map Op.read) b = (b', .ok ()) →
      ∀ s ∈ ss, b.files s.tier.place s.file ≠ none := by
  induction ss with
  | nil => exact fun _ s hs => absurd hs List.not_mem_nil
  | cons x ss ih =>
      intro b b' hrun s hs
      rw [List.map_cons] at hrun
      cases hop : b.perform (.read x) with
      | error e =>
          rw [runOps_cons_error _ hop] at hrun
          cases hrun
      | ok b₁ =>
          obtain ⟨data, hdata, rfl⟩ := map_open?_eq_ok hop
          rw [runOps_cons_ok _ hop] at hrun
          rcases List.mem_cons.mp hs with rfl | hs
          · rw [hdata]
            exact Option.some_ne_none data
          · exact ih hrun s hs

/-- The first part of a script that completes. -/
theorem runOps_of_append_ok {xs ys : List (Op ν)} {b b' : Bench ν}
    (h : runOps (xs ++ ys) b = (b', .ok ())) :
    ∃ b₁, runOps xs b = (b₁, .ok ()) ∧ runOps ys b₁ = (b', .ok ()) := by
  cases hxs : runOps xs b with
  | mk b₁ result =>
      cases result with
      | error e =>
          rw [runOps_append_error ys hxs] at h
          cases h
      | ok u =>
          rw [runOps_append_ok ys hxs] at h
          exact ⟨b₁, rfl, h⟩

/-- The invariant rule for scripts. -/
theorem runOps_keeps {Inv : Bench ν → Prop} {P : Op ν → Prop}
    (hstep : ∀ {b b' : Bench ν} {op : Op ν}, Inv b → P op → b.Allows op → b.exec op = .ok b' →
      Inv b') {ops : List (Op ν)} :
    ∀ {b : Bench ν}, Inv b → b.Follows ops → (∀ op ∈ ops, P op) → Inv (runOps ops b).1 := by
  induction ops with
  | nil => exact fun hb _ _ => hb
  | cons op ops ih =>
      intro b hb hfollows hP
      cases hop : b.perform op with
      | ok b' =>
          have hexec := exec_of_perform hop
          rw [runOps_cons_ok _ hop]
          refine ih (hstep hb (hP op List.mem_cons_self) hfollows.1 hexec) ?_
            (fun x hx => hP x (List.mem_cons_of_mem op hx))
          exact hfollows.2 b' (step_of_exec hexec)
      | error e =>
          rw [runOps_cons_error _ hop]
          exact hb

/-- The rest of a script is followed where the first part leaves it. -/
theorem follows_of_append {xs ys : List (Op ν)} :
    ∀ {b b' : Bench ν}, b.Follows (xs ++ ys) → runOps xs b = (b', .ok ()) →
      b.Follows xs ∧ b'.Follows ys := by
  induction xs with
  | nil =>
      intro b b' h hrun
      cases hrun
      exact ⟨trivial, h⟩
  | cons op xs ih =>
      intro b b' h hrun
      cases hop : b.perform op with
      | ok b₁ =>
          have hstep := step_of_exec (exec_of_perform hop)
          rw [runOps_cons_ok _ hop] at hrun
          obtain ⟨hxs, hys⟩ := ih (h.2 b₁ hstep) hrun
          exact ⟨Meets.cons h.1 hstep hxs, hys⟩
      | error e =>
          rw [runOps_cons_error _ hop] at hrun
          cases hrun

theorem sound_runOps {b : Bench ν} {ops : List (Op ν)} (hb : b.Sound) (hfollows : b.Follows ops) :
    (runOps ops b).1.Sound :=
  runOps_keeps (P := fun _ => True) (fun hb _ hallow hexec => hb.exec hallow hexec) hb hfollows
    (fun _ _ => trivial)

theorem mem_runOps {s : Segment ν} {ops : List (Op ν)} :
    ∀ {b : Bench ν}, s ∈ b.segments → (∀ op ∈ ops, op.Spares s.id) →
      s ∈ (runOps ops b).1.segments := by
  induction ops with
  | nil => exact fun hs _ => hs
  | cons op ops ih =>
      intro b hs hspares
      cases hop : b.perform op with
      | ok b' =>
          rw [runOps_cons_ok _ hop]
          exact ih (mem_of_spares hs (hspares op List.mem_cons_self) (exec_of_perform hop))
            (fun x hx => hspares x (List.mem_cons_of_mem op hx))
      | error e =>
          rw [runOps_cons_error _ hop]
          exact hs

/-- The operations of a cold move change one entry. -/
theorem spares_of_mem_coldMove {t : Tiering} {s : Segment ν} {id : Nat} (hne : id ≠ s.id) {op : Op ν}
    (h : op ∈ Engine.coldMove t s) : op.Spares id := by
  rcases Engine.cases_of_mem_coldMove h with rfl | rfl | rfl | rfl
  · trivial
  · trivial
  · trivial
  · exact hne

/-- Naming and writing outputs. -/
theorem mem_outputOps {outputs : List (Segment ν)} {op : Op ν} :
    ∀ {n : Nat}, op ∈ outputOps n outputs →
      op = .alloc ∨ ∃ o ∈ outputs, op = .write o.tier.place o.file o.data := by
  induction outputs with
  | nil => exact fun h => absurd h List.not_mem_nil
  | cons o outputs ih =>
      intro n h
      rw [outputOps] at h
      rcases List.mem_append.mp h with h | h
      · exact Or.inl (List.eq_of_mem_replicate h)
      · rcases List.mem_cons.mp h with rfl | h
        · exact Or.inr ⟨o, List.mem_cons_self, rfl⟩
        · rcases ih h with h | ⟨x, hx, h⟩
          · exact Or.inl h
          · exact Or.inr ⟨x, List.mem_cons_of_mem o hx, h⟩

/-- Removals always succeed, leave the engine alone and take away exactly the files they name. -/
theorem runOps_removes {ops : List (Op ν)} :
    ∀ {b : Bench ν}, (∀ op ∈ ops, ∃ p f, op = .remove p f) →
      ∃ b', runOps ops b = (b', .ok ()) ∧ b'.engine = b.engine ∧
        ∀ p f, (b'.files p f).isSome = true ↔ (b.files p f).isSome = true ∧ .remove p f ∉ ops := by
  induction ops with
  | nil => exact fun {b} _ => ⟨b, rfl, rfl, fun p f => by simp⟩
  | cons op ops ih =>
      intro b hops
      obtain ⟨place, file, rfl⟩ := hops op List.mem_cons_self
      have hop : b.perform (.remove place file) =
          .ok { b with files := b.files.set place file none } := rfl
      obtain ⟨b', hrun, hengine, hfiles⟩ :=
        ih (b := { b with files := b.files.set place file none })
          (fun x hx => hops x (List.mem_cons_of_mem _ hx))
      refine ⟨b', (runOps_cons_ok _ hop).trans hrun, hengine, fun p f => ?_⟩
      rw [hfiles p f, List.mem_cons, not_or]
      dsimp only
      rw [Files.set_apply]
      by_cases hsame : p = place ∧ f = file
      · obtain ⟨rfl, rfl⟩ := hsame
        simp
      · rw [if_neg hsame]
        have hne : (Op.remove p f : Op ν) ≠ .remove place file := by
          intro heq
          cases heq
          exact hsame ⟨rfl, rfl⟩
        simp [hne]

/-- Naming and writing outputs succeeds and changes no entry. -/
theorem runOps_outputs (outputs : List (Segment ν)) (n : Nat) (b : Bench ν) :
    ∃ b', runOps (outputOps n outputs) b = (b', .ok ()) ∧ b'.segments = b.segments := by
  have hall : ∀ (ops : List (Op ν)) (b : Bench ν),
      (∀ op ∈ ops, op = .alloc ∨ ∃ p f d, op = .write p f d) →
      ∃ b', runOps ops b = (b', .ok ()) ∧ b'.segments = b.segments := by
    intro ops
    induction ops with
    | nil => exact fun b _ => ⟨b, rfl, rfl⟩
    | cons op ops ih =>
        intro b hops
        have hrest := fun x hx => hops x (List.mem_cons_of_mem op hx)
        rcases hops op List.mem_cons_self with rfl | ⟨p, f, d, rfl⟩
        · obtain ⟨b', hrun, hseg⟩ := ih (b.advance (b.next + 1)) hrest
          exact ⟨b', hrun, hseg⟩
        · obtain ⟨b', hrun, hseg⟩ :=
            ih { b with files := b.files.set p f (some d), met := f :: b.met } hrest
          exact ⟨b', hrun, hseg⟩
  refine hall _ b fun op hop => ?_
  rcases mem_outputOps hop with h | ⟨o, _, h⟩
  · exact Or.inl h
  · exact Or.inr ⟨_, _, _, h⟩

/-- A compaction run is made of hot segments. -/
theorem hot_of_chooseRun [Numeral ν] {b : Bench ν} (hb : b.Sound) {run : List (Segment ν)}
    (h : chooseRun b.engine.config b.engine.manifest.segments = some run) :
    ∀ s ∈ run, s ∈ b.segments ∧ s.tier = .hot := by
  obtain ⟨hrun, hmergeable⟩ := chooseRun_contiguous hb.identity.ids_nodup h
  intro s hs
  have hm := hmergeable s hs
  simp only [mergeable, Bool.and_eq_true, decide_eq_true_eq] at hm
  exact ⟨hrun.toRunOf.subset hs, hm.1.1⟩

end Bench

end Girder
