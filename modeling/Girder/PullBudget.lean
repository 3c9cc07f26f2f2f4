import Girder.PullCache
import Mathlib.Algebra.Order.BigOperators.Group.Finset

/-!
# Pull budget — how much the pull directory holds while readers race

One reader prunes before it writes, so alone it keeps the directory within `pull_cache_bytes`, or
down to the one object that is larger.  Readers that race prune against lengths that others are
about to change, and each may write one more object.

The audit below (`PullLog`) remembers who touched an inode last, and who was fetching when a reader
missed.  The reader that last found room (`base`) accounts for the directory: what was untouched
since its miss fits the budget with its own object, and everything else was written by one of those
who were fetching at that time, one file each (`Logged`).  With `k` readers that leaves at most
`k - 1` objects beyond (`pull_cache_bounded`).
-/

namespace Girder

open Lib

/-- A record of the run.  A ticket is the time of a miss and the object. -/
structure PullLog (k : Nat) where
  clock : Nat := 0
  /-- When an inode was last created, written to or renamed. -/
  touched : Nat → Nat := fun _ => 0
  /-- By which pull. -/
  owner : Nat → Nat × Nat := fun _ => (0, 0)
  ticket : Fin k → Nat × Nat := fun _ => (0, 0)
  /-- The tickets there were when the reader missed. -/
  known : Fin k → Finset (Nat × Nat) := fun _ => ∅
  /-- The miss of the latest reader that has found room. -/
  base : Nat := 0
  baseKnown : Finset (Nat × Nat) := ∅

namespace PullLog

variable {k : Nat}

/-- A reader misses. -/
def miss (g : PullLog k) (i : Fin k) (file : Nat) : PullLog k :=
  { g with
    clock := g.clock + 1
    ticket := Function.update g.ticket i (g.clock + 1, file)
    known := Function.update g.known i
      (Finset.univ.image (Function.update g.ticket i (g.clock + 1, file))) }

/-- A reader finds room. -/
def clearTicket (g : PullLog k) (i : Fin k) : PullLog k :=
  if g.base < (g.ticket i).1 then { g with base := (g.ticket i).1, baseKnown := g.known i } else g

/-- A reader changes an inode. -/
def touch (g : PullLog k) (i : Fin k) (inode : Nat) : PullLog k :=
  { g with
    clock := g.clock + 1
    touched := Function.update g.touched inode (g.clock + 1)
    owner := Function.update g.owner inode (g.ticket i) }

end PullLog

namespace Pull

/-- Between the prune and the rename. -/
def admitted : Pull → Bool
  | pruned _ _ => true
  | filling _ _ _ _ => true
  | written _ => true
  | _ => false

/-- The files of interest are still to be read, or among the entries. -/
def Covers (old : PullFile → Prop) (d : PullDir) : Pull → Prop
  | listing _ _ names entries => ∀ f ∈ d.files, old f → f ∈ entries ∨ f.name ∈ names
  | pruning _ _ resident freed entries =>
      (∀ f ∈ d.files, old f → f ∈ entries) ∧
        freed + (entries.map DirFile.len).sum = resident
  | _ => True

theorem Covers.mono {old old' : PullFile → Prop} {d d' : PullDir} {p : Pull}
    (h : p.Covers old d) (hsub : ∀ f ∈ d'.files, old' f → f ∈ d.files ∧ old f) :
    p.Covers old' d' := by
  cases p with
  | listing file bytes names entries =>
      exact fun f hf hold => h f (hsub f hf hold).1 (hsub f hf hold).2
  | pruning file bytes resident freed entries =>
      exact ⟨fun f hf hold => h.1 f (hsub f hf hold).1 (hsub f hf hold).2, h.2⟩
  | _ => trivial

end Pull

namespace PullCache

variable {k : Nat}

/-- What the log knows of a reader that has not found room yet. -/
structure Waiting (d : PullDir) (g : PullLog k) (i : Fin k) (p : Pull) : Prop where
  split : ∀ f ∈ d.files, g.touched f.inode ≤ (g.ticket i).1 ∨ g.owner f.inode ∈ g.known i
  absent : ∀ f ∈ d.files, g.touched f.inode ≤ (g.ticket i).1 → f.name ≠ .object (g.ticket i).2
  card : (g.known i).card ≤ k
  covers : p.Covers (fun f => g.touched f.inode ≤ (g.ticket i).1) d

/-- The log describes the directory and the readers. -/
structure Logged (objects : Nat → Bytes) (limit : Nat) (g : PullLog k) (s : PullCache k) :
    Prop where
  size : ∀ f ∈ s.dir.files, f.len ≤ (objects f.name.file).length
  named : ∀ f ∈ s.dir.files, (g.owner f.inode).2 = f.name.file
  past : ∀ f ∈ s.dir.files, g.touched f.inode ≤ g.clock ∧ (g.owner f.inode).1 ≤ g.clock
  owners : ∀ f ∈ s.dir.files, ∀ f' ∈ s.dir.files,
    g.owner f.inode = g.owner f'.inode → f = f'
  basePast : g.base ≤ g.clock
  bound : ((s.dir.files.filter (fun f => decide (g.touched f.inode ≤ g.base))).map
      DirFile.len).sum + ∑ t ∈ g.baseKnown, (objects t.2).length ≤ limit
  split : ∀ f ∈ s.dir.files, g.touched f.inode ≤ g.base ∨ g.owner f.inode ∈ g.baseKnown
  tickets : ∀ i file, (s.pulls i).fetching = some file →
    (g.ticket i).2 = file ∧ (g.ticket i).1 ≤ g.clock
  distinct : ∀ i j, (s.pulls i).fetching.isSome → (s.pulls j).fetching.isSome →
    g.ticket i = g.ticket j → i = j
  known : ∀ i j, (s.pulls i).fetching.isSome → (s.pulls j).fetching.isSome →
    g.base < (g.ticket i).1 → (g.ticket j).1 ≤ (g.ticket i).1 → g.ticket j ∈ g.known i
  baseKnown : ∀ i, (s.pulls i).fetching.isSome → (g.ticket i).1 ≤ g.base →
    g.ticket i ∈ g.baseKnown
  admitted : ∀ i, (s.pulls i).admitted → (g.ticket i).1 ≤ g.base
  unmade : ∀ i, (s.pulls i).fetching.isSome → (s.pulls i).writing = none →
    ∀ f ∈ s.dir.files, g.owner f.inode ≠ g.ticket i
  made : ∀ i file bytes inode offset, s.pulls i = .filling file bytes inode offset →
    ∀ f ∈ s.dir.files, g.owner f.inode = g.ticket i → f.inode = inode
  waiting : ∀ i, (s.pulls i).fetching.isSome → g.base < (g.ticket i).1 →
    Waiting s.dir g i (s.pulls i)

variable {objects : Nat → Bytes} {budget limit : Nat} {s s' : PullCache k} {g : PullLog k}

theorem logged_start (objects : Nat → Bytes) (limit : Nat) :
    Logged objects limit {} ({} : PullCache k) := by
  have hnone : ∀ f : PullFile, f ∉ ({} : PullCache k).dir.files := fun _ => List.not_mem_nil
  exact
    { size := fun f hf => absurd hf (hnone f)
      named := fun f hf => absurd hf (hnone f)
      past := fun f hf => absurd hf (hnone f)
      owners := fun f hf => absurd hf (hnone f)
      basePast := Nat.le_refl _
      bound := Nat.zero_le _
      split := fun f hf => absurd hf (hnone f)
      tickets := fun i file h => by cases h
      distinct := fun i j h => by cases h
      known := fun i j h => by cases h
      baseKnown := fun i h => by cases h
      admitted := fun i h => by cases h
      unmade := fun i h => by cases h
      made := fun i file bytes inode offset h => by cases h
      waiting := fun i h => by cases h }

namespace Logged

/-! ## Readers that leave the directory alone -/

/-- One reader goes on without a new ticket. -/
theorem set (h : s.Logged objects limit g) {i : Fin k} {p : Pull}
    (hfetching : p.fetching.isSome → p.fetching = (s.pulls i).fetching)
    (hadmitted : p.admitted → (g.ticket i).1 ≤ g.base)
    (hwriting : p.fetching.isSome → p.writing = none → (s.pulls i).writing = none)
    (hfilling : ∀ file bytes inode offset, p ≠ .filling file bytes inode offset)
    (hcovers : p.fetching.isSome → g.base < (g.ticket i).1 →
      p.Covers (fun f => g.touched f.inode ≤ (g.ticket i).1) s.dir) :
    (s.set i p).Logged objects limit g := by
  -- Whoever fetches has fetched the same object before.
  have hold : ∀ j, ((s.set i p).pulls j).fetching.isSome →
      ((s.set i p).pulls j).fetching = (s.pulls j).fetching ∧ (s.pulls j).fetching.isSome := by
    intro j hj
    by_cases hij : j = i
    · subst hij
      rw [PullCache.set, put_pulls_self] at hj ⊢
      have heq := hfetching hj
      exact ⟨heq, heq ▸ hj⟩
    · rw [PullCache.set, put_pulls_of_ne s hij] at hj ⊢
      exact ⟨rfl, hj⟩
  exact
    { size := h.size
      named := h.named
      past := h.past
      owners := h.owners
      basePast := h.basePast
      bound := h.bound
      split := h.split
      tickets := by
        intro j file hj
        obtain ⟨heq, -⟩ := hold j (by rw [hj]; rfl)
        exact h.tickets j file (heq ▸ hj)
      distinct := fun a b ha hb => h.distinct a b (hold a ha).2 (hold b hb).2
      known := fun a b ha hb => h.known a b (hold a ha).2 (hold b hb).2
      baseKnown := fun a ha => h.baseKnown a (hold a ha).2
      admitted := by
        intro j hj
        by_cases hij : j = i
        · subst hij
          rw [PullCache.set, put_pulls_self] at hj
          exact hadmitted hj
        · rw [PullCache.set, put_pulls_of_ne s hij] at hj
          exact h.admitted j hj
      unmade := by
        intro j hj hw
        refine h.unmade j (hold j hj).2 ?_
        by_cases hij : j = i
        · subst hij
          rw [PullCache.set, put_pulls_self] at hj hw
          exact hwriting hj hw
        · rwa [PullCache.set, put_pulls_of_ne s hij] at hw
      made := by
        intro j file bytes inode offset hj
        by_cases hij : j = i
        · subst hij
          rw [PullCache.set, put_pulls_self] at hj
          exact absurd hj (hfilling _ _ _ _)
        · rw [PullCache.set, put_pulls_of_ne s hij] at hj
          exact h.made j file bytes inode offset hj
      waiting := by
        intro j hj hbase
        have hwaiting := h.waiting j (hold j hj).2 hbase
        refine ⟨hwaiting.split, hwaiting.absent, hwaiting.card, ?_⟩
        by_cases hij : j = i
        · subst hij
          rw [PullCache.set, put_pulls_self] at hj ⊢
          exact hcovers hj hbase
        · rw [PullCache.set, put_pulls_of_ne s hij]
          exact hwaiting.covers }

/-- A call that is over. -/
theorem set_over (h : s.Logged objects limit g) {i : Fin k} {p : Pull}
    (hp : p.fetching = none) (hadmitted : p.admitted = false) :
    (s.set i p).Logged objects limit g := by
  refine h.set ?_ ?_ ?_ ?_ ?_
  · exact fun hf => absurd hf (by simp [hp])
  · exact fun ha => absurd ha (by simp [hadmitted])
  · exact fun hf => absurd hf (by simp [hp])
  · rintro file bytes inode offset rfl
    cases hp
  · exact fun hf => absurd hf (by simp [hp])

/-- Files that are gone account for nothing. -/
theorem shrink (h : s.Logged objects limit g) {d : PullDir} (hwf : d.WF)
    (hsub : d.files ⊆ s.dir.files) :
    ({ s with dir := d } : PullCache k).Logged objects limit g where
  size := fun f hf => h.size f (hsub hf)
  named := fun f hf => h.named f (hsub hf)
  past := fun f hf => h.past f (hsub hf)
  owners := fun f hf f' hf' => h.owners f (hsub hf) f' (hsub hf')
  basePast := h.basePast
  bound := by
    refine le_trans (Nat.add_le_add_right ?_ _) h.bound
    exact Directory.sum_len_le_of_subset (hwf.nodup.filter _)
      (fun f hf => List.mem_filter.2 ⟨hsub (List.mem_filter.1 hf).1, (List.mem_filter.1 hf).2⟩)
  split := fun f hf => h.split f (hsub hf)
  tickets := h.tickets
  distinct := h.distinct
  known := h.known
  baseKnown := h.baseKnown
  admitted := h.admitted
  unmade := fun i hi hw f hf => h.unmade i hi hw f (hsub hf)
  made := fun i file bytes inode offset hi f hf => h.made i file bytes inode offset hi f (hsub hf)
  waiting := fun i hi hbase =>
    let hw := h.waiting i hi hbase
    ⟨fun f hf => hw.split f (hsub hf), fun f hf => hw.absent f (hsub hf), hw.card,
      hw.covers.mono (fun _ hf hold => ⟨hsub hf, hold⟩)⟩

/-! ## A miss -/

/-- A miss gives the reader a new ticket. -/
theorem miss (h : s.Logged objects limit g) {i : Fin k} {file : Nat}
    (habsent : s.dir.find? (.object file) = none) :
    (s.set i (.missed file)).Logged objects limit (g.miss i file) := by
  have hnew : ∀ t : Nat × Nat, t.1 ≤ g.clock → t ≠ (g.clock + 1, file) := by
    rintro t ht rfl
    exact absurd ht (Nat.not_succ_le_self _)
  -- the others keep their tickets
  have hself : (g.miss i file).ticket i = (g.clock + 1, file) := Function.update_self _ _ _
  have hother : ∀ {j}, j ≠ i → (g.miss i file).ticket j = g.ticket j :=
    fun hij => Function.update_of_ne hij _ _
  have hknown : ∀ {j}, j ≠ i → (g.miss i file).known j = g.known j :=
    fun hij => Function.update_of_ne hij _ _
  have hpulls : ∀ {j}, j ≠ i → (s.set i (.missed file)).pulls j = s.pulls j :=
    fun hij => put_pulls_of_ne s hij _ _
  have hmissed : (s.set i (.missed file)).pulls i = .missed file := put_pulls_self _ _ _ _
  have hpast : ∀ {j}, j ≠ i → ((s.set i (.missed file)).pulls j).fetching.isSome →
      ((g.miss i file).ticket j).1 ≤ g.clock := by
    intro j hij hj
    rw [hpulls hij] at hj
    obtain ⟨file', hfile'⟩ := Option.isSome_iff_exists.1 hj
    rw [hother hij]
    exact (h.tickets j file' hfile').2
  exact
    { size := h.size
      named := h.named
      past := fun f hf => ⟨Nat.le_succ_of_le (h.past f hf).1, Nat.le_succ_of_le (h.past f hf).2⟩
      owners := h.owners
      basePast := Nat.le_succ_of_le h.basePast
      bound := h.bound
      split := h.split
      tickets := by
        intro j file' hj
        by_cases hij : j = i
        · subst hij
          rw [hmissed] at hj
          cases hj
          rw [hself]
          exact ⟨rfl, Nat.le_refl _⟩
        · rw [hpulls hij] at hj
          rw [hother hij]
          exact ⟨(h.tickets j file' hj).1, Nat.le_succ_of_le (h.tickets j file' hj).2⟩
      distinct := by
        intro a b ha hb heq
        by_cases hai : a = i
        · subst hai
          by_contra hne
          have hb' := hpast (Ne.symm hne) hb
          rw [← heq, hself] at hb'
          exact absurd hb' (Nat.not_succ_le_self _)
        · by_cases hbi : b = i
          · subst hbi
            have ha' := hpast hai ha
            rw [heq, hself] at ha'
            exact absurd ha' (Nat.not_succ_le_self _)
          · rw [hpulls hai] at ha
            rw [hpulls hbi] at hb
            rw [hother hai, hother hbi] at heq
            exact h.distinct a b ha hb heq
      known := by
        intro a b ha hb hbase hle
        by_cases hai : a = i
        · -- everyone's ticket is known to the new one
          subst hai
          have hall : (g.miss a file).known a =
              Finset.univ.image (Function.update g.ticket a (g.clock + 1, file)) :=
            Function.update_self _ _ _
          rw [hall]
          exact Finset.mem_image_of_mem _ (Finset.mem_univ b)
        · by_cases hbi : b = i
          · subst hbi
            rw [hself] at hle
            exact absurd (hle.trans (hpast hai ha)) (Nat.not_succ_le_self _)
          · rw [hpulls hai] at ha
            rw [hpulls hbi] at hb
            rw [hother hai] at hbase hle
            rw [hother hbi] at hle ⊢
            rw [hknown hai]
            exact h.known a b ha hb hbase hle
      baseKnown := by
        intro j hj hbase
        by_cases hij : j = i
        · subst hij
          rw [hself] at hbase
          exact absurd (hbase.trans h.basePast) (Nat.not_succ_le_self _)
        · rw [hpulls hij] at hj
          rw [hother hij] at hbase ⊢
          exact h.baseKnown j hj hbase
      admitted := by
        intro j hj
        by_cases hij : j = i
        · subst hij
          rw [hmissed] at hj
          cases hj
        · rw [hpulls hij] at hj
          rw [hother hij]
          exact h.admitted j hj
      unmade := by
        intro j hj hw f hf
        by_cases hij : j = i
        · subst hij
          rw [hself]
          exact hnew _ (h.past f hf).2
        · rw [hpulls hij] at hj hw
          rw [hother hij]
          exact h.unmade j hj hw f hf
      made := by
        intro j file' bytes inode offset hj f hf
        by_cases hij : j = i
        · subst hij
          rw [hmissed] at hj
          cases hj
        · rw [hpulls hij] at hj
          rw [hother hij]
          exact h.made j file' bytes inode offset hj f hf
      waiting := by
        intro j hj hbase
        by_cases hij : j = i
        · subst hij
          rw [hmissed]
          have hall : (g.miss j file).known j =
              Finset.univ.image (Function.update g.ticket j (g.clock + 1, file)) :=
            Function.update_self _ _ _
          refine ⟨fun f hf => .inl ?_, fun f hf _ => ?_, ?_, trivial⟩
          · rw [hself]
            exact Nat.le_succ_of_le (h.past f hf).1
          · rw [hself]
            exact Directory.ne_of_find?_none habsent f hf
          · rw [hall]
            calc (Finset.univ.image (Function.update g.ticket j (g.clock + 1, file))).card
                ≤ (Finset.univ : Finset (Fin k)).card := Finset.card_image_le
              _ = k := by simp
        · rw [hpulls hij] at hj ⊢
          rw [hother hij] at hbase
          obtain ⟨hsplit, habs, hcard, hcovers⟩ := h.waiting j hj hbase
          refine ⟨?_, ?_, ?_, ?_⟩
          · rw [hother hij, hknown hij]
            exact hsplit
          · rw [hother hij]
            exact habs
          · rw [hknown hij]
            exact hcard
          · rw [hother hij]
            exact hcovers }

/-! ## Room -/

/-- The objects of at most `k` tickets: one's own, and `k - 1` others. -/
theorem sum_known_le {known : Finset (Nat × Nat)} {own : Nat × Nat} {most : Nat}
    (hmost : ∀ file, (objects file).length ≤ most) (hcard : known.card ≤ k)
    (hown : own ∈ known) :
    ∑ t ∈ known, (objects t.2).length ≤ (objects own.2).length + (k - 1) * most := by
  rw [← Finset.add_sum_erase known (fun t => (objects t.2).length) hown]
  refine Nat.add_le_add_left ?_ _
  calc ∑ t ∈ known.erase own, (objects t.2).length
      ≤ ∑ _t ∈ known.erase own, most := Finset.sum_le_sum (fun t _ => hmost t.2)
    _ = (known.erase own).card * most := by rw [Finset.sum_const, Nat.nsmul_eq_mul]
    _ ≤ (k - 1) * most := by
        refine Nat.mul_le_mul_right _ ?_
        rw [Finset.card_erase_of_mem hown]
        omega

/-- The entries that are left fit the budget with the reader's own object, or none is left. -/
theorem room {budget resident freed incoming : Nat} {entries : List PullFile}
    (hbudget : budget < 2 ^ 64 - 1) (hsum : freed + (entries.map DirFile.len).sum = resident)
    (hroom : entries = [] ∨ Pull.HasRoom budget resident freed incoming) :
    (entries.map DirFile.len).sum + incoming ≤ max budget incoming := by
  rcases hroom with rfl | hroom
  · simp
  · unfold Pull.HasRoom at hroom
    have hsub : resident - freed = (entries.map DirFile.len).sum := by omega
    omega

/-- The reader that finds room accounts for the directory from now on. -/
theorem clearTicket {most : Nat} (h : s.Logged objects (max budget most + (k - 1) * most) g)
    {i : Fin k} {file resident freed : Nat} {bytes : Bytes} {entries : List PullFile}
    (hwf : s.WF objects) (hbudget : budget < 2 ^ 64 - 1)
    (hmost : ∀ file, (objects file).length ≤ most)
    (hp : s.pulls i = .pruning file bytes resident freed entries)
    (hroom : entries = [] ∨ Pull.HasRoom budget resident freed bytes.length) :
    s.Logged objects (max budget most + (k - 1) * most) (g.clearTicket i) ∧
      (g.ticket i).1 ≤ (g.clearTicket i).base := by
  by_cases hbase : g.base < (g.ticket i).1
  · have hclear : g.clearTicket i = { g with base := (g.ticket i).1, baseKnown := g.known i } :=
      if_pos hbase
    rw [hclear]
    refine ⟨?_, Nat.le_refl _⟩
    have hfetching : (s.pulls i).fetching = some file := by rw [hp]; rfl
    have hi : (s.pulls i).fetching.isSome := by rw [hfetching]; rfl
    obtain ⟨hfile, hpast⟩ := h.tickets i file hfetching
    have hwaiting := h.waiting i hi hbase
    have hcovers := hwaiting.covers
    rw [hp] at hcovers
    obtain ⟨hentries, hsum⟩ := hcovers
    have hbytes : bytes = objects file := by
      have hok := hwf.pulls i
      rw [hp] at hok
      exact hok
    exact
      { size := h.size
        named := h.named
        past := h.past
        owners := h.owners
        basePast := hpast
        bound := by
          -- what is untouched since the miss is among the entries
          have hold : ((s.dir.files.filter (fun f =>
              decide (g.touched f.inode ≤ (g.ticket i).1))).map DirFile.len).sum ≤
              (entries.map DirFile.len).sum := by
            refine Directory.sum_len_le_of_subset (hwf.dir.nodup.filter _) (fun f hf => ?_)
            obtain ⟨hf, htouched⟩ := List.mem_filter.1 hf
            exact hentries f hf (of_decide_eq_true htouched)
          have hothers := sum_known_le hmost hwaiting.card
            (h.known i i hi hi hbase (Nat.le_refl _))
          have hfits := room hbudget hsum hroom
          rw [hfile, ← hbytes] at hothers
          have hown := hmost file
          rw [← hbytes] at hown
          refine (Nat.add_le_add hold hothers).trans ?_
          calc (entries.map DirFile.len).sum + (bytes.length + (k - 1) * most)
              = (entries.map DirFile.len).sum + bytes.length + (k - 1) * most := by omega
            _ ≤ max budget most + (k - 1) * most := by omega
        split := hwaiting.split
        tickets := h.tickets
        distinct := h.distinct
        known := fun a b ha hb hlt => h.known a b ha hb (hbase.trans hlt)
        baseKnown := fun j hj hle => h.known i j hi hj hbase hle
        admitted := fun j hj => (h.admitted j hj).trans hbase.le
        unmade := h.unmade
        made := h.made
        waiting := by
          intro j hj hlt
          have hw := h.waiting j hj (hbase.trans hlt)
          exact ⟨hw.split, hw.absent, hw.card, hw.covers⟩ }
  · have hclear : g.clearTicket i = g := if_neg hbase
    rw [hclear]
    exact ⟨h, Nat.not_lt.1 hbase⟩

/-! ## A change of an inode -/

/-- A reader that has found room changes one inode of its object. -/
theorem touch (h : s.Logged objects limit g) {i : Fin k} {file inode : Nat} {d : PullDir} {p : Pull}
    (hfetching : (s.pulls i).fetching = some file) (hadmitted : (s.pulls i).admitted)
    (hwf : d.WF)
    (hmem : ∀ f ∈ d.files,
      (f.inode ≠ inode ∧ f ∈ s.dir.files ∧ g.owner f.inode ≠ g.ticket i) ∨
      (f.inode = inode ∧ f.name.file = file ∧ f.len ≤ (objects file).length))
    (hp : p.fetching = none ∧ p.admitted = false ∨
      ∃ bytes offset, p = .filling file bytes inode offset) :
    (s.put i d p).Logged objects limit (g.touch i inode) := by
  have hi : (s.pulls i).fetching.isSome := by rw [hfetching]; rfl
  obtain ⟨hticket, hpast⟩ := h.tickets i file hfetching
  have hbase := h.admitted i hadmitted
  -- the inode is the reader's now, and the others are as they were
  have hnew : (g.touch i inode).owner inode = g.ticket i := Function.update_self _ _ _
  have hnewTime : (g.touch i inode).touched inode = g.clock + 1 := Function.update_self _ _ _
  have hold : ∀ {n}, n ≠ inode → (g.touch i inode).owner n = g.owner n :=
    fun hne => Function.update_of_ne hne _ _
  have holdTime : ∀ {n}, n ≠ inode → (g.touch i inode).touched n = g.touched n :=
    fun hne => Function.update_of_ne hne _ _
  have huntouched : ∀ {time}, time ≤ g.clock → ∀ f ∈ d.files,
      (g.touch i inode).touched f.inode ≤ time → f ∈ s.dir.files ∧ g.touched f.inode ≤ time := by
    intro time htime f hf hle
    rcases hmem f hf with ⟨hne, hf', -⟩ | ⟨heq, -⟩
    · rw [holdTime hne] at hle
      exact ⟨hf', hle⟩
    · rw [heq, hnewTime] at hle
      exact absurd (hle.trans htime) (Nat.not_succ_le_self _)
  have hfetch : ∀ j, ((s.put i d p).pulls j).fetching.isSome →
      ((s.put i d p).pulls j).fetching = (s.pulls j).fetching ∧ (s.pulls j).fetching.isSome := by
    intro j hj
    by_cases hij : j = i
    · subst hij
      rw [put_pulls_self] at hj ⊢
      rcases hp with ⟨hnone, -⟩ | ⟨bytes, offset, rfl⟩
      · rw [hnone] at hj
        cases hj
      · exact ⟨hfetching.symm, hi⟩
    · rw [put_pulls_of_ne s hij] at hj ⊢
      exact ⟨rfl, hj⟩
  exact
    { size := by
        intro f hf
        rcases hmem f hf with ⟨-, hf', -⟩ | ⟨-, hname, hlen⟩
        · exact h.size f hf'
        · rw [hname]
          exact hlen
      named := by
        intro f hf
        rcases hmem f hf with ⟨hne, hf', -⟩ | ⟨heq, hname, -⟩
        · rw [hold hne]
          exact h.named f hf'
        · rw [heq, hnew, hticket, hname]
      past := by
        intro f hf
        rcases hmem f hf with ⟨hne, hf', -⟩ | ⟨heq, -, -⟩
        · rw [hold hne, holdTime hne]
          exact ⟨Nat.le_succ_of_le (h.past f hf').1, Nat.le_succ_of_le (h.past f hf').2⟩
        · rw [heq, hnew, hnewTime]
          exact ⟨Nat.le_refl _, Nat.le_succ_of_le hpast⟩
      owners := by
        intro f hf f' hf' howner
        rcases hmem f hf with ⟨hne, hfold, hnot⟩ | ⟨heq, -, -⟩ <;>
          rcases hmem f' hf' with ⟨hne', hfold', hnot'⟩ | ⟨heq', -, -⟩
        · rw [hold hne, hold hne'] at howner
          exact h.owners f hfold f' hfold' howner
        · rw [hold hne, heq', hnew] at howner
          exact absurd howner hnot
        · rw [hold hne', heq, hnew] at howner
          exact absurd howner.symm hnot'
        · exact hwf.eq_of_inode hf hf' (heq.trans heq'.symm)
      basePast := Nat.le_succ_of_le h.basePast
      bound := by
        refine le_trans (Nat.add_le_add_right ?_ _) h.bound
        refine Directory.sum_len_le_of_subset (hwf.nodup.filter _) (fun f hf => ?_)
        obtain ⟨hf, hle⟩ := List.mem_filter.1 hf
        obtain ⟨hf', hle'⟩ := huntouched h.basePast f hf (of_decide_eq_true hle)
        exact List.mem_filter.2 ⟨hf', decide_eq_true hle'⟩
      split := by
        intro f hf
        rcases hmem f hf with ⟨hne, hf', -⟩ | ⟨heq, -, -⟩
        · rw [hold hne, holdTime hne]
          exact h.split f hf'
        · rw [heq, hnew]
          exact .inr (h.baseKnown i hi hbase)
      tickets := by
        intro j file' hj
        obtain ⟨heq, -⟩ := hfetch j (by rw [hj]; rfl)
        have htickets := h.tickets j file' (heq ▸ hj)
        exact ⟨htickets.1, Nat.le_succ_of_le htickets.2⟩
      distinct := fun a b ha hb => h.distinct a b (hfetch a ha).2 (hfetch b hb).2
      known := fun a b ha hb => h.known a b (hfetch a ha).2 (hfetch b hb).2
      baseKnown := fun a ha => h.baseKnown a (hfetch a ha).2
      admitted := by
        intro j hj
        by_cases hij : j = i
        · subst hij
          exact hbase
        · rw [put_pulls_of_ne s hij] at hj
          exact h.admitted j hj
      unmade := by
        intro j hj hw f hf
        by_cases hij : j = i
        · subst hij
          rw [put_pulls_self] at hj hw
          rcases hp with ⟨hnone, -⟩ | ⟨bytes, offset, rfl⟩
          · rw [hnone] at hj
            cases hj
          · cases hw
        · rw [put_pulls_of_ne s hij] at hj hw
          rcases hmem f hf with ⟨hne, hf', -⟩ | ⟨heq, -, -⟩
          · rw [hold hne]
            exact h.unmade j hj hw f hf'
          · rw [heq, hnew]
            exact fun hsame => hij (h.distinct j i hj hi hsame.symm)
      made := by
        intro j file' bytes' inode' offset' hj f hf howner
        by_cases hij : j = i
        · subst hij
          rw [put_pulls_self] at hj
          rcases hp with ⟨hnone, -⟩ | ⟨bytes, offset, rfl⟩
          · rw [hj] at hnone
            cases hnone
          · cases hj
            rcases hmem f hf with ⟨hne, -, hnot⟩ | ⟨heq, -, -⟩
            · rw [hold hne] at howner
              exact absurd howner hnot
            · exact heq
        · rw [put_pulls_of_ne s hij] at hj
          rcases hmem f hf with ⟨hne, hf', -⟩ | ⟨heq, -, -⟩
          · rw [hold hne] at howner
            exact h.made j file' bytes' inode' offset' hj f hf' howner
          · rw [heq, hnew] at howner
            have hjf : (s.pulls j).fetching.isSome := by rw [hj]; rfl
            exact absurd (h.distinct j i hjf hi howner.symm) hij
      waiting := by
        intro j hj hlt
        have hij : j ≠ i := by
          rintro rfl
          exact absurd hbase (Nat.not_le.2 hlt)
        have hjf := (hfetch j hj).2
        obtain ⟨file', hfile'⟩ := Option.isSome_iff_exists.1 hjf
        have hjpast := (h.tickets j file' hfile').2
        have hw := h.waiting j hjf hlt
        rw [put_pulls_of_ne s hij]
        refine ⟨fun f hf => ?_, fun f hf hle => ?_, hw.card, ?_⟩
        · rcases hmem f hf with ⟨hne, hf', -⟩ | ⟨heq, -, -⟩
          · rw [hold hne, holdTime hne]
            exact hw.split f hf'
          · -- the reader was fetching when the other one missed
            rw [heq, hnew]
            exact .inr (h.known j i hjf hi hlt (hbase.trans hlt.le))
        · obtain ⟨hf', hle'⟩ := huntouched hjpast f hf hle
          exact hw.absent f hf' hle'
        · exact hw.covers.mono (fun f hf hle => huntouched hjpast f hf hle) }

/-! ## Runs -/

/-- One reader goes on before it finds room. -/
theorem forward (h : s.Logged objects limit g) {i : Fin k} {p p' : Pull} {file : Nat}
    (hp : s.pulls i = p) (hfetching : p.fetching = some file) (hfetching' : p'.fetching = some file)
    (hwriting : p.writing = none) (hwriting' : p'.writing = none) (hadmitted : p'.admitted = false)
    (hcovers : (g.ticket i).2 = file → Waiting s.dir g i p →
      p'.Covers (fun f => g.touched f.inode ≤ (g.ticket i).1) s.dir) :
    (s.set i p').Logged objects limit g := by
  have hold : (s.pulls i).fetching = some file := hp ▸ hfetching
  refine h.set (fun _ => hfetching'.trans hold.symm) ?_ (fun _ _ => hp ▸ hwriting) ?_ ?_
  · exact fun ha => absurd ha (by simp [hadmitted])
  · rintro file' bytes inode offset rfl
    cases hwriting'
  · intro _ hbase
    refine hcovers (h.tickets i file hold).1 ?_
    rw [← hp]
    exact h.waiting i (by rw [hold]; rfl) hbase

theorem readDir (h : s.Logged objects limit g) {i : Fin k} {file : Nat} {bytes : Bytes}
    {names : List PullName} (hp : s.pulls i = .fetched file bytes)
    (hnames : names.Perm (s.dir.files.map DirFile.name)) :
    (s.set i (.listing file bytes (names.filter (fun n => decide (n ≠ .object file)))
      [])).Logged objects limit g := by
  refine h.forward hp rfl rfl rfl rfl rfl (fun hticket hw f hf hold => .inr ?_)
  have habsent := hw.absent f hf hold
  rw [hticket] at habsent
  exact List.mem_filter.2
    ⟨hnames.mem_iff.2 (List.mem_map_of_mem hf), decide_eq_true habsent⟩

theorem metadata (h : s.Logged objects limit g) (hwf : s.WF objects) {i : Fin k} {file : Nat}
    {bytes : Bytes} {name : PullName} {names : List PullName} {entries : List PullFile}
    (hp : s.pulls i = .listing file bytes (name :: names) entries) :
    (s.set i (.listing file bytes names (entries ++ (s.dir.find? name).toList))).Logged
      objects limit g := by
  refine h.forward hp rfl rfl rfl rfl rfl (fun _ hw f hf hold => ?_)
  rcases hw.covers f hf hold with hread | hleft
  · exact .inl (List.mem_append_left _ hread)
  · rcases List.mem_cons.1 hleft with rfl | hleft
    · refine .inl (List.mem_append_right _ ?_)
      rw [hwf.dir.find?_eq hf]
      exact List.mem_singleton_self f
    · exact .inr hleft

theorem sort (h : s.Logged objects limit g) {i : Fin k} {file : Nat} {bytes : Bytes}
    {entries : List PullFile} (hp : s.pulls i = .listing file bytes [] entries) :
    (s.set i (.pruning file bytes (entries.map DirFile.len).sum 0
      (sortAsc DirFile.mtime entries))).Logged objects limit g := by
  refine h.forward hp rfl rfl rfl rfl rfl (fun _ hw => ⟨fun f hf hold => ?_, ?_⟩)
  · rcases hw.covers f hf hold with hread | hleft
    · exact (mem_sortAsc DirFile.mtime).2 hread
    · exact absurd hleft List.not_mem_nil
  · rw [Nat.zero_add]
    exact ((sortAsc_perm DirFile.mtime entries).map DirFile.len).sum_eq

theorem evict (h : s.Logged objects limit g) (hwf : s.WF objects) {i : Fin k} {file : Nat}
    {bytes : Bytes} {resident freed : Nat} {entry : PullFile} {entries : List PullFile}
    (hp : s.pulls i = .pruning file bytes resident freed (entry :: entries)) :
    (s.put i (s.dir.remove entry.name)
      (.pruning file bytes resident (freed + entry.len) entries)).Logged objects limit g := by
  have hshrunk := h.shrink (hwf.dir.remove entry.name)
    (fun f hf => (Directory.mem_remove.1 hf).1)
  refine hshrunk.forward hp rfl rfl rfl rfl rfl (fun _ hw => ?_)
  obtain ⟨hentries, hsum⟩ := hw.covers
  refine ⟨fun f hf hold => ?_, ?_⟩
  · rcases List.mem_cons.1 (hentries f hf hold) with rfl | hleft
    · exact absurd rfl (Directory.mem_remove.1 hf).2
    · exact hleft
  · rw [← hsum, List.map_cons, List.sum_cons, Nat.add_assoc]

theorem create (h : s.Logged objects limit g) (hwf : s.WF objects) {i : Fin k} {file now : Nat}
    {bytes : Bytes} (hp : s.pulls i = .pruned file bytes) :
    (s.put i (s.dir.create (.tmp file) now).1
      (.filling file bytes (s.dir.create (.tmp file) now).2 0)).Logged objects limit
        (g.touch i (s.dir.create (.tmp file) now).2) := by
  have hfetching : (s.pulls i).fetching = some file := by rw [hp]; rfl
  refine h.touch hfetching (by rw [hp]; rfl) (hwf.dir.create _ _) (fun f hf => ?_)
    (.inr ⟨bytes, 0, rfl⟩)
  rcases Directory.mem_create hwf.dir hf with ⟨hne, -, hold⟩ | ⟨heq, hname, hempty⟩
  · exact .inl ⟨hne, hold, h.unmade i (by rw [hfetching]; rfl) (by rw [hp]; rfl) f hold⟩
  · refine .inr ⟨heq, by rw [hname]; rfl, ?_⟩
    rw [DirFile.len, hempty]
    exact Nat.zero_le _

theorem write (h : s.Logged objects limit g) (hwf : s.WF objects) {i : Fin k}
    {file inode offset now n : Nat} {bytes : Bytes}
    (hp : s.pulls i = .filling file bytes inode offset) :
    (s.put i (s.dir.writeAt inode offset ((bytes.drop offset).take n) now)
      (.filling file bytes inode (offset + ((bytes.drop offset).take n).length))).Logged
        objects limit (g.touch i inode) := by
  have hok := hwf.pulls i
  rw [hp] at hok
  obtain ⟨hbytes, hoffset, -, hfile⟩ := hok
  refine h.touch (by rw [hp]; rfl) (by rw [hp]; rfl) (hwf.dir.writeAt _ _ _ _) (fun f hf => ?_)
    (.inr ⟨bytes, _, rfl⟩)
  rcases Directory.mem_writeAt hf with ⟨hne, hold⟩ | ⟨heq, old, hmem, hinode, hname, hcontent⟩
  · exact .inl ⟨hne, hold, fun howner => hne (h.made i file bytes inode offset hp f hold howner)⟩
  · have hnamed := hfile old hmem hinode
    refine .inr ⟨heq, by rw [hname, hnamed], ?_⟩
    have hlen := h.size old hmem
    rw [hnamed] at hlen
    calc f.len
        = max old.len (offset + ((bytes.drop offset).take n).length) := by
          rw [DirFile.len, hcontent, DirFile.length_overwrite]
          rfl
      _ ≤ (objects file).length := by
          rw [← hbytes] at hlen ⊢
          rw [List.length_take, List.length_drop]
          omega

theorem rename (h : s.Logged objects limit g) (hwf : s.WF objects) {i : Fin k} {file : Nat}
    {d : PullDir} (hp : s.pulls i = .written file)
    (hr : s.dir.rename (.tmp file) (.object file) = some d) :
    ∃ inode, (s.put i d (.renamed file)).Logged objects limit (g.touch i inode) := by
  have hfetching : (s.pulls i).fetching = some file := by rw [hp]; rfl
  obtain ⟨moved, hmoved, hname, -, hmem⟩ := Directory.mem_rename hwf.dir hr
  refine ⟨moved.inode, h.touch hfetching (by rw [hp]; rfl) (hwf.dir.rename hr) (fun f hf => ?_)
    (.inl ⟨rfl, rfl⟩)⟩
  rcases (hmem f).1 hf with rfl | ⟨hold, htmp, hobject, hne⟩
  · have hlen := h.size moved hmoved
    rw [hname] at hlen
    exact .inr ⟨rfl, rfl, hlen⟩
  · -- a file of the reader's is at one of the two names, and both are the moved file's now
    refine .inl ⟨hne, hold, fun howner => ?_⟩
    have hfile := h.named f hold
    rw [howner, (h.tickets i file hfetching).1] at hfile
    cases hname' : f.name with
    | object file' =>
        rw [hname'] at hfile hobject
        exact hobject (congrArg PullName.object hfile.symm)
    | tmp file' =>
        rw [hname'] at hfile htmp
        exact htmp (congrArg PullName.tmp hfile.symm)

theorem crash (h : s.Logged objects limit g) :
    ({ s with pulls := fun _ => .idle } : PullCache k).Logged objects limit g where
  size := h.size
  named := h.named
  past := h.past
  owners := h.owners
  basePast := h.basePast
  bound := h.bound
  split := h.split
  tickets := fun _ _ hi => by cases hi
  distinct := fun _ _ hi => by cases hi
  known := fun _ _ hi => by cases hi
  baseKnown := fun _ hi => by cases hi
  admitted := fun _ hi => by cases hi
  unmade := fun _ hi => by cases hi
  made := fun _ _ _ _ _ hi => by cases hi
  waiting := fun _ hi => by cases hi

theorem step {most : Nat} (h : s.Logged objects (max budget most + (k - 1) * most) g)
    (hwf : s.WF objects) (hbudget : budget < 2 ^ 64 - 1)
    (hmost : ∀ file, (objects file).length ≤ most) (hstep : Step budget objects s s') :
    ∃ g', s'.Logged objects (max budget most + (k - 1) * most) g' := by
  cases hstep with
  | call i file _ => exact ⟨g, h.set_over rfl rfl⟩
  | @openFirst i file hp =>
      unfold Pull.opened
      -- Only a miss takes a ticket.
      cases hfind : s.dir.find? (.object file) with
      | none => exact ⟨g.miss i file, h.miss hfind⟩
      | some f => exact ⟨g, h.set_over rfl rfl⟩
  | @get i file store hp _ =>
      refine ⟨g, ?_⟩
      unfold Pull.fetch
      cases store with
      | none => exact h.set_over rfl rfl
      | some get =>
          cases hget : get file with
          | error e =>
              simp only [hget]
              exact h.set_over rfl rfl
          | ok found =>
              simp only [hget]
              cases found with
              | none => exact h.set_over rfl rfl
              | some bytes => exact h.forward hp rfl rfl rfl rfl rfl (fun _ _ => trivial)
  | readDir i names hp hnames => exact ⟨g, h.readDir hp hnames⟩
  | metadata i hp => exact ⟨g, h.metadata hwf hp⟩
  | sort i hp => exact ⟨g, h.sort hp⟩
  | evict i hp _ => exact ⟨g, h.evict hwf hp⟩
  | fits i hp hroom =>
      -- What was resident at its ticket has been counted, so the base moves up to the ticket.
      obtain ⟨hlogged, hbase⟩ := h.clearTicket hwf hbudget hmost hp hroom
      refine ⟨g.clearTicket i, hlogged.set ?_ (fun _ => ?_) ?_ ?_ (fun _ _ => trivial)⟩
      · exact fun _ => by rw [hp]; rfl
      · unfold PullLog.clearTicket at hbase ⊢
        split at hbase <;> rename_i hlt
        · rw [if_pos hlt]
        · rw [if_neg hlt]
          exact hbase
      · exact fun _ _ => by rw [hp]; rfl
      · exact fun _ _ _ _ hne => by cases hne
  | create i now hp => exact ⟨_, h.create hwf hp⟩
  | write i now n hp => exact ⟨_, h.write hwf hp⟩
  | @close i file bytes inode offset hp _ =>
      refine ⟨g, h.set ?_ (fun _ => ?_) ?_ ?_ (fun _ _ => trivial)⟩
      · exact fun _ => by rw [hp]; rfl
      · exact h.admitted i (by rw [hp]; rfl)
      · exact fun _ hw => by cases hw
      · exact fun _ _ _ _ hne => by cases hne
  | rename i hp =>
      -- The tmp file may have been renamed by another reader.
      rcases rename_cases s i _ with ⟨d, hr, heq⟩ | heq
      · rw [heq]
        obtain ⟨inode, hlogged⟩ := h.rename hwf hp hr
        exact ⟨_, hlogged⟩
      · rw [heq]
        exact ⟨g, h.set_over rfl rfl⟩
  | @openLast i file hp =>
      refine ⟨g, ?_⟩
      unfold Pull.reopened
      split
      · exact h.set_over rfl rfl
      · exact h.set_over rfl rfl
  | fail i e hp => exact ⟨g, h.set_over rfl rfl⟩
  | crash => exact ⟨g, h.crash⟩
  | drop file =>
      exact ⟨g, h.shrink (hwf.dir.remove _) (fun f hf => (Directory.mem_remove.1 hf).1)⟩

/-- Every file is untouched since the base, or one of those that the base knew of wrote it. -/
theorem total_le (h : s.Logged objects limit g) (hwf : s.dir.WF) : s.dir.total ≤ limit := by
  let old : PullFile → Bool := fun f => decide (g.touched f.inode ≤ g.base)
  let new := s.dir.files.filter (fun f => !old f)
  -- The new files have owners of their own, whom the base knew.
  have hnodup : (new.map (fun f => g.owner f.inode)).Nodup := by
    refine List.Nodup.map_on (fun f hf f' hf' heq => ?_) (hwf.nodup.filter _)
    exact h.owners f (List.mem_of_mem_filter hf) f' (List.mem_of_mem_filter hf') heq
  have hknown : (new.map (fun f => g.owner f.inode)).toFinset ⊆ g.baseKnown := by
    intro t ht
    obtain ⟨f, hf, rfl⟩ := List.mem_map.1 (List.mem_toFinset.1 ht)
    obtain ⟨hf, hnew⟩ := List.mem_filter.1 hf
    rcases h.split f hf with hle | hin
    · simp [old, hle] at hnew
    · exact hin
  have hnew : (new.map DirFile.len).sum ≤ ∑ t ∈ g.baseKnown, (objects t.2).length := by
    calc (new.map DirFile.len).sum
        ≤ (new.map (fun f => (objects (g.owner f.inode).2).length)).sum := by
          refine List.sum_le_sum (fun f hf => ?_)
          have hmem := List.mem_of_mem_filter hf
          rw [h.named f hmem]
          exact h.size f hmem
      _ = ∑ t ∈ (new.map (fun f => g.owner f.inode)).toFinset, (objects t.2).length := by
          rw [List.sum_toFinset _ hnodup, List.map_map]
          rfl
      _ ≤ ∑ t ∈ g.baseKnown, (objects t.2).length :=
          Finset.sum_le_sum_of_subset hknown
  calc s.dir.total
      = ((s.dir.files.filter old).map DirFile.len).sum + (new.map DirFile.len).sum := by
        have hperm := (List.filter_append_perm old s.dir.files).map DirFile.len
        rw [List.map_append] at hperm
        rw [Directory.total, ← hperm.sum_eq, List.sum_append]
    _ ≤ ((s.dir.files.filter old).map DirFile.len).sum +
          ∑ t ∈ g.baseKnown, (objects t.2).length := Nat.add_le_add_left hnew _
    _ ≤ limit := h.bound

end Logged

/-- `k` readers pull, are evicted from under each other, fail and die at any time: the pull
directory never holds more than the budget, or the largest object where that is larger, and one
object for each reader but one. -/
theorem pull_cache_bounded {most : Nat} (hbudget : budget < 2 ^ 64 - 1)
    (hmost : ∀ file, (objects file).length ≤ most)
    (hrun : Relation.ReflTransGen (Step budget objects) ({} : PullCache k) s) :
    s.dir.total ≤ max budget most + (k - 1) * most := by
  have hinv : s.WF objects ∧ ∃ g, s.Logged objects (max budget most + (k - 1) * most) g := by
    induction hrun with
    | refl => exact ⟨wf_start objects, {}, logged_start _ _⟩
    | tail _ hstep ih =>
        obtain ⟨hwf, g, hlogged⟩ := ih
        exact ⟨hwf.step hstep, hlogged.step hwf hbudget hmost hstep⟩
  obtain ⟨hwf, g, hlogged⟩ := hinv
  exact hlogged.total_le hwf.dir

/-- The second reader makes room for its object, dies and comes back. -/
theorem pull_cache_bounded_evicted :
    (acts 4 sampleObjects 8 (twoReaders.take 16)).dir.total = 3 ∧
      (acts 4 sampleObjects 8 twoReaders).dir.total ≤ max 4 3 + (2 - 1) * 3 := by
  have hmost : ∀ file, (sampleObjects file).length ≤ 3 := by
    intro file
    unfold sampleObjects
    split <;> decide
  exact ⟨by decide +kernel,
    pull_cache_bounded (by decide) hmost (apartRun_acts 8 twoReaders).steps⟩

end PullCache
end Girder
