import Girder.Rounds
import Girder.Vanishing

/-!
# Stranded — which ticks fail

A move takes the hot file away before its entry says so.  In between the entry is stranded: its file is
not at its path, and every pass but the reads of clients looks there only.  Within a run the next
operation puts that right (`Bench.Tidy`); a crash at that point does not, and every later tick fails.

The other way a tick fails is an audit that opens a remote segment as evidence: its path is in the pull
cache, where it may not be.  The two main results say that there is no third way: `Bench.tick_ok_iff`
for a tick with every local file at its path, and `System.tick_after_crash` for the tick after a crash.
-/

namespace Girder

open Lib

variable {ν : Type}

/-- The operation takes no entry out but those of these ids, reads only such segments, and moves
nothing. -/
def Op.Within (ids : List Nat) (reads : Segment ν → Prop) : Op ν → Prop
  | .read s => reads s
  | .swap out _ => ∀ id ∈ out, id ∈ ids
  | .alloc => True
  | .write _ _ _ => True
  | .remove _ _ => True
  | .popFrozen => True
  | .setCursor _ => True
  | _ => False

theorem Op.Within.spares {ids : List Nat} {reads : Segment ν → Prop} {op : Op ν}
    (h : op.Within ids reads) {id : Nat} (hid : id ∉ ids) : op.Spares id := by
  cases op with
  | swap out outputs => exact fun hmem => hid (h id hmem)
  | setTier other tier => exact h.elim
  | _ => trivial

/-! ## What the scripts may do -/

namespace Bench

theorem within_outputOps {ids : List Nat} {reads : Segment ν → Prop} {outputs : List (Segment ν)}
    {n : Nat} {op : Op ν} (h : op ∈ outputOps n outputs) : op.Within ids reads := by
  rcases mem_outputOps h with rfl | ⟨o, _, rfl⟩ <;> trivial

theorem within_dropFile {ids : List Nat} {reads : Segment ν → Prop} {t : Tiering} {s : Segment ν}
    {op : Op ν} (h : op ∈ dropFile t s) : op.Within ids reads := by
  obtain ⟨p, rfl⟩ := exists_of_mem_dropFile h
  trivial

section Scripts

variable [SegmentFile ν]

theorem within_flushOps {reads : Segment ν → Prop} {clock : Nat → Int64} {op : Op ν}
    {frozen : List (Nat × MemTable ν)} :
    ∀ {n : Nat}, op ∈ Engine.flushOps clock n frozen → op.Within [] reads := by
  induction frozen with
  | nil => exact fun h => absurd h List.not_mem_nil
  | cons f frozen ih =>
      intro n h
      rw [Engine.flushOps] at h
      simp only [List.mem_append, List.mem_cons, List.not_mem_nil, or_false] at h
      rcases h with (h | rfl | rfl) | h
      · exact within_outputOps h
      · exact fun _ hid => hid
      · trivial
      · exact ih h

theorem within_rewriteOps {reads : Segment ν → Prop} {e : Engine ν} {s : Segment ν}
    {rows : List (Record ν)} {drop : List (Op ν)}
    (hdrop : ∀ op ∈ drop, op.Within [s.id] reads) {op : Op ν} (h : op ∈ e.rewriteOps s rows drop) :
    op.Within [s.id] reads := by
  unfold Engine.rewriteOps at h
  split at h
  · rcases List.mem_cons.mp h with rfl | h
    · exact fun _ hid => hid
    · exact hdrop op h
  · simp only [List.mem_append, List.mem_cons, List.not_mem_nil, or_false] at h
    rcases h with h | rfl | rfl
    · exact within_outputOps h
    · exact fun _ hid => hid
    · trivial

variable [Numeral ν]

theorem within_compactRunOps {t : Tiering} {e : Engine ν} {run : List (Segment ν)}
    {purge : Option String} {now : Int64} {op : Op ν} (h : op ∈ e.compactRunOps t run purge now) :
    op.Within (run.map Segment.id) (· ∈ run) := by
  unfold Engine.compactRunOps at h
  simp only [List.mem_append, List.mem_singleton, List.mem_map, List.mem_flatMap] at h
  rcases h with ((⟨s, hs, rfl⟩ | h) | rfl) | ⟨s, hs, h⟩
  · exact (mem_sortAsc _).mp hs
  · exact within_outputOps h
  · exact fun _ hid => hid
  · exact within_dropFile h

/-- What a reclaim pass does after it has read its evidence. -/
def reclaimRest (t : Tiering) (e : Engine ν) (cand : Segment ν) : List (Op ν) :=
  let audited := e.evidence cand
  if audited.2.countP AuditRow.dead * 2 < audited.2.length then []
  else
    let deadKeys := (audited.2.filter AuditRow.dead).map AuditRow.key
    .read cand ::
      e.rewriteOps cand (cand.rows.filter (fun r => !deadKeys.contains r.key)) (dropFile t cand)

theorem within_reclaimRest {t : Tiering} {e : Engine ν} {cand : Segment ν} {op : Op ν}
    (h : op ∈ reclaimRest t e cand) : op.Within [cand.id] (· = cand) := by
  unfold reclaimRest at h
  dsimp only at h
  split at h
  · exact absurd h List.not_mem_nil
  · rcases List.mem_cons.mp h with rfl | h
    · rfl
    · exact within_rewriteOps (fun op hop => within_dropFile hop) h

/-- The candidates a groom pass opens are hot. -/
theorem within_groomLoopOps {policy : RetentionPolicy} {now : Int64} {op : Op ν}
    {ms : List (Segment ν)} :
    ∀ {e : Engine ν}, op ∈ Engine.groomLoopOps now ms e → e.config.retentionPolicy = policy →
      (∀ m ∈ ms, Engine.allExpired policy now m = true ∨ m.tier = .hot) →
      op.Within (ms.map Segment.id) (·.tier = .hot) := by
  induction ms with
  | nil => exact fun h => absurd h List.not_mem_nil
  | cons m ms ih =>
      intro e h hpolicy hms
      have hmono : ∀ {op : Op ν}, op.Within [m.id] (·.tier = .hot) →
          op.Within ((m :: ms).map Segment.id) (·.tier = .hot) := by
        intro op hop
        cases op with
        | swap out outputs =>
            intro id hid
            rw [List.mem_singleton.mp (hop id hid)]
            exact List.mem_cons_self
        | _ => exact hop
      rw [Engine.groomLoopOps] at h
      rcases List.mem_append.mp h with h | h
      · unfold Engine.groomOneOps at h
        rw [hpolicy] at h
        split at h
        · -- The whole segment has expired and is dropped unread.
          simp only [List.mem_cons, List.not_mem_nil, or_false] at h
          rcases h with rfl | rfl
          · exact hmono (fun _ hid => hid)
          · trivial
        · rename_i hlive
          rcases List.mem_cons.mp h with rfl | h
          · exact (hms m List.mem_cons_self).resolve_left hlive
          · split at h
            · exact absurd h List.not_mem_nil
            · refine hmono (within_rewriteOps (fun x hx => ?_) h)
              cases List.mem_singleton.mp hx
              trivial
      · have hrest := ih h hpolicy (fun x hx => hms x (List.mem_cons_of_mem m hx))
        cases op with
        | swap out outputs => exact fun id hid => List.mem_cons_of_mem _ (hrest id hid)
        | _ => exact hrest

omit [SegmentFile ν] in
/-- A candidate has expired as a whole, or is hot. -/
theorem expired_or_hot {e : Engine ν} {now : Int64} {m : Segment ν}
    (h : m ∈ e.groomCandidates now) :
    Engine.allExpired e.config.retentionPolicy now m = true ∨ m.tier = .hot := by
  have hgroomable := (List.mem_filter.mp h).2
  unfold Engine.groomable at hgroomable
  unfold Engine.allExpired
  split at hgroomable
  · rcases Bool.or_eq_true_iff.mp hgroomable with hall | hpart
    · exact Or.inl hall
    · exact Or.inr (of_decide_eq_true (Bool.and_eq_true_iff.mp hpart).1)
  · cases hgroomable

end Scripts

/-! ## Stranded entries -/

/-- A hot entry whose file has left the hot directory. -/
def IsStranded (b : Bench ν) (s : Segment ν) : Prop :=
  s ∈ b.segments ∧ s.tier = .hot ∧ b.files .hot s.file = none

/-- The only stranded entry is the one that the next operation lists as cold. -/
def Tidy (b : Bench ν) (todo : List (Op ν)) : Prop :=
  ∀ s, b.IsStranded s → ∃ rest, todo = .setTier s.id .cold :: rest

end Bench

/-- A hot file goes just before its entry changes. -/
def Shaped : List (Op ν) → Prop
  | [] => True
  | .rename s :: rest => (∃ ops, rest = .setTier s.id .cold :: ops) ∧ Shaped rest
  | .removeSource s :: rest => (∃ ops, rest = .setTier s.id .cold :: ops) ∧ Shaped rest
  | _ :: rest => Shaped rest

theorem Shaped.tail {op : Op ν} {ops : List (Op ν)} (h : Shaped (op :: ops)) : Shaped ops := by
  cases op with
  | rename s => exact h.2
  | removeSource s => exact h.2
  | _ => exact h

theorem shaped_of_within {ids : List Nat} {reads : Segment ν → Prop} {ops : List (Op ν)}
    (h : ∀ op ∈ ops, op.Within ids reads) : Shaped ops := by
  induction ops with
  | nil => trivial
  | cons op ops ih =>
      have hrest := ih (fun x hx => h x (List.mem_cons_of_mem op hx))
      have hop := h op List.mem_cons_self
      cases op with
      | rename s => exact hop.elim
      | removeSource s => exact hop.elim
      | _ => exact hrest

theorem Shaped.append {xs ys : List (Op ν)} (hxs : Shaped xs) (hys : Shaped ys) :
    Shaped (xs ++ ys) := by
  induction xs with
  | nil => exact hys
  | cons op xs ih =>
      have hrest := ih hxs.tail
      cases op with
      | rename s =>
          obtain ⟨ops, rfl⟩ := hxs.1
          exact ⟨⟨ops ++ ys, rfl⟩, hrest⟩
      | removeSource s =>
          obtain ⟨ops, rfl⟩ := hxs.1
          exact ⟨⟨ops ++ ys, rfl⟩, hrest⟩
      | _ => exact hrest

theorem shaped_tierOps (t : Tiering) (e : Engine ν) (now : Int64) : Shaped (e.tierOps t now) := by
  have hcold : ∀ ss : List (Segment ν), Shaped (ss.flatMap (Engine.coldMove t)) := by
    intro ss
    induction ss with
    | nil => trivial
    | cons s ss ih =>
        rw [List.flatMap_cons, Engine.coldMove]
        cases t.sameFs with
        | true => exact ⟨⟨_, rfl⟩, ih⟩
        | false => exact ⟨⟨_, rfl⟩, ih⟩
  have hremote : ∀ ss : List (Segment ν), Shaped (ss.flatMap Engine.remoteMove) := by
    intro ss
    induction ss with
    | nil => trivial
    | cons s ss ih => exact ih
  unfold Engine.tierOps
  refine (hcold _).append ?_
  split
  · exact hremote _
  · trivial

namespace Bench

variable {b b' : Bench ν}

/-- Where nothing is stranded, any script may start. -/
theorem Tidy.start (h : b.Tidy []) (ops : List (Op ν)) : b.Tidy ops := by
  intro s hs
  obtain ⟨_, hnil⟩ := h s hs
  cases hnil

/-- An operation that leaves the entries and their hot files alone. -/
theorem Tidy.frame {op : Op ν} {ops : List (Op ν)} (h : b.Tidy (op :: ops))
    (hop : ∀ id tier, op ≠ .setTier id tier) (hstranded : ∀ s, b'.IsStranded s → b.IsStranded s) :
    b'.Tidy ops := by
  intro s hs
  obtain ⟨_, heq⟩ := h s (hstranded s hs)
  cases heq
  exact absurd rfl (hop s.id .cold)

/-- An operation that takes at most one hot file away, just before its entry changes. -/
theorem Tidy.unlink {op : Op ν} {ops : List (Op ν)} {x : Segment ν} (h : b.Tidy (op :: ops))
    (hb : b.Sound) (hx : x ∈ b.segments) (hop : ∀ id tier, op ≠ .setTier id tier)
    (hnext : ∃ rest, ops = .setTier x.id .cold :: rest)
    (hstranded : ∀ s, b'.IsStranded s →
      s ∈ b.segments ∧ (s.file ≠ x.file → b.IsStranded s)) : b'.Tidy ops := by
  intro s hs
  obtain ⟨hmem, hbefore⟩ := hstranded s hs
  by_cases hfile : s.file = x.file
  · rw [hb.identity.file_inj hmem hx hfile]
    exact hnext
  · obtain ⟨_, heq⟩ := h s (hbefore hfile)
    cases heq
    exact absurd rfl (hop s.id .cold)

/-- Each operation leaves at most the entry stranded that the next one lists as cold. -/
theorem Tidy.exec {op : Op ν} {ops : List (Op ν)} (h : b.Tidy (op :: ops)) (hb : b.Sound)
    (hshaped : Shaped (op :: ops)) (hallow : b.Allows op) (hexec : b.exec op = .ok b') :
    b'.Tidy ops := by
  cases op with
  | read s =>
      rw [eq_of_exec_read hexec]
      exact h.frame (fun _ _ => nofun) (fun _ hs => hs)
  | write place file data =>
      cases hexec
      obtain ⟨_, _, hfree, _⟩ := hallow
      refine h.frame (fun _ _ => nofun) fun s hs => ⟨hs.1, hs.2.1, ?_⟩
      have hnone := hs.2.2
      dsimp only at hnone
      rwa [Files.set_of_ne _ _ (Or.inr (hfree s hs.1))] at hnone
  | swap ids outputs =>
      cases hexec
      refine h.frame (fun _ _ => nofun) fun s hs => ?_
      rcases Manifest.mem_swap.mp hs.1 with ⟨hmem, _⟩ | hmem
      · exact ⟨hmem, hs.2⟩
      · -- An output is at its path.
        obtain ⟨_, hplaced, _⟩ := hallow.2 s hmem
        rw [hs.2.1] at hplaced
        have hnone : b.files .hot s.file = none := hs.2.2
        cases hplaced.symm.trans hnone
  | setTier id tier =>
      cases hexec
      obtain ⟨x, hx, rfl, hcase⟩ := hallow
      rintro s ⟨hmem, hhot, hnone⟩
      obtain ⟨s₀, hs₀, rfl⟩ := Manifest.mem_setTier.mp hmem
      split at hhot
      · rcases hcase with ⟨rfl, _⟩ | ⟨rfl, _⟩ <;> cases hhot
      · rename_i hne
        rw [if_neg hne] at hnone
        obtain ⟨_, heq⟩ := h s₀ ⟨hs₀, hhot, hnone⟩
        obtain ⟨hhead, _⟩ := List.cons.inj heq
        exact absurd (Op.setTier.inj hhead).1.symm hne
  | remove place file =>
      cases hexec
      refine h.frame (fun _ _ => nofun) fun s hs => ⟨hs.1, hs.2.1, ?_⟩
      have hnone := hs.2.2
      dsimp only at hnone
      rw [Files.set_apply] at hnone
      split at hnone
      · rename_i hsame
        obtain ⟨rfl, rfl⟩ := hsame
        rcases hallow s hs.1 rfl with ⟨hremote, _⟩ | ⟨_, hplace⟩
        · rw [hs.2.1] at hremote
          cases hremote
        · rcases hplace with hplace | hplace <;> cases hplace
      · exact hnone
  | rename x =>
      obtain ⟨hx, htier⟩ := hallow
      obtain ⟨data, _, rfl⟩ := map_open?_eq_ok hexec
      refine h.unlink hb hx (fun _ _ => nofun) hshaped.1
        fun s hs => ⟨hs.1, fun hne => ⟨hs.1, hs.2.1, ?_⟩⟩
      have hnone := hs.2.2
      dsimp only at hnone
      rwa [Files.set_of_ne _ _ (Or.inr hne), Files.set_of_ne _ _ (Or.inr hne)] at hnone
  | copy x =>
      obtain ⟨data, _, rfl⟩ := map_open?_eq_ok hexec
      refine h.frame (fun _ _ => nofun) fun s hs => ⟨hs.1, hs.2.1, ?_⟩
      have hnone := hs.2.2
      dsimp only at hnone
      rwa [Files.set_of_ne _ _ (Or.inl Place.noConfusion)] at hnone
  | removeSource x =>
      obtain ⟨hx, htier, _⟩ := hallow
      obtain ⟨data, _, rfl⟩ := map_open?_eq_ok hexec
      refine h.unlink hb hx (fun _ _ => nofun) hshaped.1
        fun s hs => ⟨hs.1, fun hne => ⟨hs.1, hs.2.1, ?_⟩⟩
      have hnone := hs.2.2
      dsimp only at hnone
      rwa [Files.set_of_ne _ _ (Or.inr hne)] at hnone
  | put x =>
      obtain ⟨data, _, rfl⟩ := map_open?_eq_ok hexec
      refine h.frame (fun _ _ => nofun) fun s hs => ⟨hs.1, hs.2.1, ?_⟩
      have hnone := hs.2.2
      dsimp only at hnone
      rwa [Files.set_of_ne _ _ (Or.inl Place.noConfusion)] at hnone
  | alloc => cases hexec; exact h.frame (fun _ _ => nofun) (fun _ hs => hs)
  | popFrozen => cases hexec; exact h.frame (fun _ _ => nofun) (fun _ hs => hs)
  | setCursor id => cases hexec; exact h.frame (fun _ _ => nofun) (fun _ hs => hs)
  | fail e => cases hexec

/-! ## Scripts that complete -/

/-- The operation meets no remote segment outside the pull cache, and is no failure of its own. -/
def Clear (b : Bench ν) : Op ν → Prop
  | .read s => s.tier = .remote → b.files .pull s.file ≠ none
  | .fail _ => False
  | _ => True

/-- With nothing stranded, a clear operation succeeds. -/
theorem exists_perform {op : Op ν} {ops : List (Op ν)} (hstored : b.Stored)
    (htidy : b.Tidy (op :: ops)) (hallow : b.Allows op) (hclear : b.Clear op) :
    ∃ b', b.perform op = .ok b' := by
  -- A hot file is at its path unless the next operation is a flip.
  have hhot : ∀ s ∈ b.segments, s.tier = .hot → (∀ id tier, op ≠ .setTier id tier) →
      ∃ data, b.files .hot s.file = some data := by
    intro s hs htier hop
    cases hfile : b.files .hot s.file with
    | some data => exact ⟨data, rfl⟩
    | none =>
        obtain ⟨_, heq⟩ := htidy s ⟨hs, htier, hfile⟩
        cases heq
        exact absurd rfl (hop s.id .cold)
  cases op with
  | read s =>
      have hfound : ∃ data, b.files s.tier.place s.file = some data := by
        cases htier : s.tier with
        | hot => exact hhot s hallow htier (fun _ _ => nofun)
        | cold => exact ⟨_, (keeps_cold htier).mp (hstored s hallow)⟩
        | remote => exact Option.ne_none_iff_exists'.mp (hclear htier)
      obtain ⟨data, hdata⟩ := hfound
      exact ⟨_, map_open?_of_some hdata⟩
  | rename s =>
      obtain ⟨data, hdata⟩ := hhot s hallow.1 hallow.2 (fun _ _ => nofun)
      exact ⟨_, map_open?_of_some hdata⟩
  | copy s =>
      obtain ⟨data, hdata⟩ := hhot s hallow.1 hallow.2 (fun _ _ => nofun)
      exact ⟨_, map_open?_of_some hdata⟩
  | removeSource s =>
      obtain ⟨data, hdata⟩ := hhot s hallow.1 hallow.2.1 (fun _ _ => nofun)
      exact ⟨_, map_open?_of_some hdata⟩
  | put s =>
      have hcold := (keeps_cold hallow.2).mp (hstored s hallow.1)
      exact ⟨_, map_open?_of_some hcold⟩
  | fail e => exact hclear.elim
  | _ => exact ⟨_, rfl⟩

/-- The state between two passes. -/
structure Settled (b : Bench ν) : Prop where
  sound : b.Sound
  stored : b.Stored
  tidy : b.Tidy []

/-- A clear script runs to its end and leaves nothing stranded. -/
theorem runOps_ok {ops : List (Op ν)} :
    ∀ {b : Bench ν}, b.Sound → b.Stored → b.Tidy ops → Shaped ops → b.Follows ops →
      Meets step Clear b ops → ∃ b', runOps ops b = (b', .ok ()) ∧ b'.Settled := by
  induction ops with
  | nil => exact fun {b} hb hs ht _ _ _ => ⟨b, rfl, hb, hs, ht⟩
  | cons op ops ih =>
      intro b hb hs ht hshaped hfollows hclear
      obtain ⟨b₁, hop⟩ := exists_perform hs ht hfollows.1 hclear.1
      have hexec := exec_of_perform hop
      have hstep := step_of_exec hexec
      obtain ⟨b', hrun, hsettled⟩ := ih (hb.exec hfollows.1 hexec)
        (hs.exec hb hfollows.1 hexec) (ht.exec hb hshaped hfollows.1 hexec) hshaped.tail
        (hfollows.2 b₁ hstep) (hclear.2 b₁ hstep)
      exact ⟨b', (runOps_cons_ok _ hop).trans hrun, hsettled⟩

theorem clear_of_within {ids : List Nat} {reads : Segment ν → Prop} {ops : List (Op ν)}
    (h : ∀ op ∈ ops, op.Within ids reads) (hreads : ∀ s, reads s → s.tier ≠ .remote) :
    Meets step Clear b ops := by
  refine Meets.of_forall fun op hop b => ?_
  have hwithin := h op hop
  cases op with
  | read s => exact fun htier => absurd htier (hreads s hwithin)
  | fail e => exact hwithin.elim
  | _ => trivial

theorem clear_tierOps (t : Tiering) (e : Engine ν) (now : Int64) :
    Meets step Clear b (e.tierOps t now) := by
  refine Meets.of_forall fun op hop b => ?_
  rcases Engine.cases_of_mem_tierOps hop with ⟨s, _, hop⟩ | ⟨_, s, _, hop⟩
  · rcases Engine.cases_of_mem_coldMove hop with rfl | rfl | rfl | rfl <;> trivial
  · rcases Engine.cases_of_mem_remoteMove hop with rfl | rfl | rfl <;> trivial

/-- Reads of files that are there. -/
theorem clear_reads {ss : List (Segment ν)} {ops : List (Op ν)}
    (hss : ∀ s ∈ ss, s.tier = .remote → b.files .pull s.file ≠ none)
    (h : Meets step Clear b ops) : Meets step Clear b (ss.map Op.read ++ ops) := by
  induction ss with
  | nil => exact h
  | cons s ss ih =>
      refine ⟨hss s List.mem_cons_self, fun b₁ hb₁ => ?_⟩
      rw [eq_of_exec_read (exec_of_step hb₁)]
      exact ih (fun x hx => hss x (List.mem_cons_of_mem s hx))

section Passes

variable [Numeral ν] [SegmentFile ν]

omit [Numeral ν] in
/-- A migration opens a remote segment only if it is in the pull cache. -/
theorem clear_migrateOps {ss : List (Segment ν)} :
    ∀ {b : Bench ν} {n : Nat}, Meets step Clear b (Engine.migrateOps b.files n ss) := by
  induction ss with
  | nil => exact fun {_ _} => trivial
  | cons s ss ih =>
      intro b n
      rw [Engine.migrateOps]
      split
      · exact ih
      · rename_i data hdata
        split
        · exact ih
        · dsimp only
          have hread : b.Clear (.read s) := by
            intro htier
            rw [htier] at hdata
            have hpull : b.files .pull s.file = some data := hdata
            rw [hpull]
            exact Option.some_ne_none data
          split
          · refine ⟨hread, fun b₁ hb₁ => ?_⟩
            rw [eq_of_exec_read (exec_of_step hb₁)]
            exact Meets.cons trivial (step_of_exec rfl) (ih (b := b.advance (b.next + 1)))
          · refine ⟨hread, fun b₁ _ => Meets.of_forall fun op hop b => ?_⟩
            rcases List.mem_append.mp hop with hop | hop
            · rcases mem_outputOps hop with rfl | ⟨o, _, rfl⟩ <;> trivial
            · simp only [List.mem_cons, List.not_mem_nil, or_false] at hop
              rcases hop with rfl | rfl <;> trivial

/-- The audit of a reclaim pass finds the remote segments it opens in the pull cache. -/
def AuditReadable (b : Bench ν) : Prop :=
  ∀ cand, b.engine.reclaimPick = some cand → cand.version = 2 → cand.rows.length ≠ 0 →
    ∀ s ∈ (b.engine.evidence cand).1, s.tier = .remote → b.files .pull s.file ≠ none

theorem reclaimOps_some (t : Tiering) {e : Engine ν} {cand : Segment ν}
    (h : e.reclaimPick = some cand) :
    e.reclaimOps t = [.setCursor cand.id, .read cand] ++
      if cand.version ≠ 2 ∨ cand.rows.length = 0 then []
      else (e.evidence cand).1.map Op.read ++ reclaimRest t e cand := by
  rw [Engine.reclaimOps, h]
  rfl

theorem clear_reclaimOps (t : Tiering) (h : b.AuditReadable) :
    Meets step Clear b (b.engine.reclaimOps t) := by
  cases hpick : b.engine.reclaimPick with
  | none =>
      rw [Engine.reclaimOps, hpick]
      trivial
  | some cand =>
      obtain ⟨_, hhot⟩ := mem_of_reclaimPick hpick
      have hlocal : ∀ s : Segment ν, s = cand → s.tier ≠ .remote := by
        rintro s rfl
        rw [hhot]
        exact Tier.noConfusion
      rw [reclaimOps_some t hpick]
      refine Meets.cons trivial (step_of_exec rfl) ⟨fun htier => ?_, fun b₁ hb₁ => ?_⟩
      · exact absurd htier (hlocal cand rfl)
      · rw [eq_of_exec_read (exec_of_step hb₁)]
        split
        · trivial
        · rename_i hcase
          rw [not_or, not_not] at hcase
          exact clear_reads (h cand hpick hcase.1 hcase.2)
            (clear_of_within (fun op hop => within_reclaimRest hop) hlocal)

/-- The hot file of a move goes just before its entry changes, in every pass. -/
theorem shaped_pass (t : Tiering) (b : Bench ν) : ∀ pass : Pass, Shaped (pass.ops t b)
  | .flush clock =>
      shaped_of_within (fun _ hop => (within_flushOps hop : Op.Within [] (fun _ => False) _))
  | .compact now => by
      simp only [Pass.ops, Engine.compactOps]
      split
      · trivial
      · exact shaped_of_within (fun _ hop => within_compactRunOps hop)
  | .purge key now => by
      -- The check only reads, and fails at the first increment of the key.
      have hcheck : ∀ run : List (Segment ν), Shaped (Engine.purgeCheckOps key run) := by
        intro run
        induction run with
        | nil => trivial
        | cons m run ih =>
            rw [Engine.purgeCheckOps]
            split
            · trivial
            · exact ih
      simp only [Pass.ops, Engine.purgeOps]
      split
      · trivial
      · exact (hcheck _).append (shaped_of_within (fun _ hop => within_compactRunOps hop))
  | .reclaim => by
      simp only [Pass.ops]
      cases hpick : b.engine.reclaimPick with
      | none =>
          rw [Engine.reclaimOps, hpick]
          trivial
      | some cand =>
          rw [reclaimOps_some t hpick]
          have hreads : ∀ ss : List (Segment ν), Shaped (ss.map Op.read) := by
            intro ss
            induction ss with
            | nil => trivial
            | cons s ss ih => exact ih
          show Shaped (if _ then _ else _)
          split
          · trivial
          · exact (hreads _).append (shaped_of_within (fun _ hop => within_reclaimRest hop))
  | .tier now => shaped_tierOps t b.engine now
  | .groom now => by
      simp only [Pass.ops, Engine.groomOps]
      split
      · trivial
      · exact shaped_of_within (fun _ hop => within_groomLoopOps hop rfl
          (fun m hm => expired_or_hot hm))
  | .migrate => by
      have hloop : ∀ (ss : List (Segment ν)) (n : Nat),
          Shaped (Engine.migrateOps b.files n ss) := by
        intro ss
        induction ss with
        | nil => exact fun _ => trivial
        | cons s ss ih =>
            intro n
            rw [Engine.migrateOps]
            split
            · exact ih n
            · split
              · exact ih n
              · dsimp only
                split
                · exact ih (n + 1)
                · have hwithin : ∀ op ∈ .read s :: outputOps n [Engine.migratedSegment n s] ++
                      [.swap [s.id] [Engine.migratedSegment n s], .remove s.tier.place s.file],
                      op.Within [s.id] (fun _ => True) := by
                    intro op hop
                    simp only [List.mem_cons, List.mem_append, List.not_mem_nil, or_false] at hop
                    rcases hop with (rfl | hop) | rfl | rfl
                    · trivial
                    · exact within_outputOps hop
                    · exact fun _ hid => hid
                    · trivial
                  exact shaped_of_within hwithin
      exact hloop _ _

/-- A clear pass returns and leaves a settled state. -/
theorem Settled.runPass (h : b.Settled) (t : Tiering) (pass : Pass)
    (hclear : Meets step Clear b (pass.ops t b)) :
    ∃ b', b.runPass t pass = (b', .ok ()) ∧ b'.Settled :=
  runOps_ok h.sound h.stored (h.tidy.start _) (shaped_pass t b pass) (follows_pass t h.sound pass)
    hclear

theorem clear_flush (t : Tiering) (b : Bench ν) (clock : Nat → Int64) :
    Meets step Clear b (Pass.ops t b (.flush clock)) :=
  clear_of_within (fun _ hop => (within_flushOps hop : Op.Within [] (fun _ => False) _))
    (fun _ h => h.elim)

theorem clear_compact (t : Tiering) (hb : b.Sound) (now : Int64) :
    Meets step Clear b (Pass.ops t b (.compact now)) := by
  simp only [Pass.ops, Engine.compactOps]
  split
  · trivial
  · rename_i run hchoose
    refine clear_of_within (fun _ hop => within_compactRunOps hop) fun s hs => ?_
    rw [(hot_of_chooseRun hb hchoose s hs).2]
    exact Tier.noConfusion

theorem clear_groom (t : Tiering) (b : Bench ν) (now : Int64) :
    Meets step Clear b (Pass.ops t b (.groom now)) := by
  simp only [Pass.ops, Engine.groomOps]
  split
  · trivial
  · refine clear_of_within (fun _ hop => within_groomLoopOps hop rfl
      (fun m hm => expired_or_hot hm)) fun s hs => ?_
    rw [hs]
    exact Tier.noConfusion

/-- A reclaim pass that returns has found its evidence. -/
theorem auditReadable_of_ok {t : Tiering} (h : b.runPass t .reclaim = (b', .ok ())) :
    b.AuditReadable := by
  intro cand hpick hversion hrows s hs htier
  unfold runPass at h
  simp only [Pass.ops] at h
  rw [reclaimOps_some t hpick, if_neg (by rw [not_or, not_not]; exact ⟨hversion, hrows⟩)] at h
  obtain ⟨b₁, hfirst, hrest⟩ := runOps_of_append_ok h
  obtain ⟨b₂, hreads, _⟩ := runOps_of_append_ok hrest
  -- Up to here no file has changed.
  have hsame : b₁.files = b.files := by
    have hcursor : b.perform (.setCursor cand.id) =
        .ok { b with engine := { b.engine with reclaimCursor := cand.id } } := rfl
    rw [runOps_cons_ok _ hcursor] at hfirst
    obtain ⟨result, hread⟩ := runOps_reads [cand]
      { b with engine := { b.engine with reclaimCursor := cand.id } }
    have heq := hread.symm.trans hfirst
    cases heq
    rfl
  have hfound := found_of_reads hreads s hs
  rw [htier, hsame] at hfound
  exact hfound

/-! ## Ticks -/

theorem runPasses_cons_ok {t : Tiering} {pass : Pass} (passes : List Pass)
    (h : b.runPass t pass = (b', .ok ())) :
    runPasses t (pass :: passes) b = runPasses t passes b' := by
  rw [runPasses, h]

theorem runPasses_cons_error {t : Tiering} {pass : Pass} {e : GirderError} (passes : List Pass)
    (h : b.runPass t pass = (b', .error e)) :
    runPasses t (pass :: passes) b = (b', .error e) := by
  rw [runPasses, h]

/-- The state in which the reclaim pass of a tick starts. -/
def compacted (t : Tiering) (c : Clocks) (b : Bench ν) : Bench ν :=
  (runPasses t [.flush c.flush, .compact c.compact] b).1

/-- A tick in a settled state returns exactly if the audit of its reclaim pass finds its evidence. -/
theorem Settled.tick_ok_iff (h : b.Settled) (t : Tiering) (c : Clocks) :
    (b.tick t c).2 = .ok () ↔ (b.compacted t c).AuditReadable := by
  obtain ⟨b₁, hflush, h₁⟩ := h.runPass t (.flush c.flush) (clear_flush t b c.flush)
  obtain ⟨b₂, hcompact, h₂⟩ := h₁.runPass t (.compact c.compact) (clear_compact t h₁.sound c.compact)
  have hcompacted : b.compacted t c = b₂ := by
    rw [compacted, runPasses_cons_ok _ hflush, runPasses_cons_ok _ hcompact]
    rfl
  rw [tick, tickPasses, runPasses_cons_ok _ hflush, runPasses_cons_ok _ hcompact, hcompacted]
  constructor
  · intro hok
    cases hreclaim : b₂.runPass t .reclaim with
    | mk b₃ result =>
        cases result with
        | error e =>
            rw [runPasses_cons_error _ hreclaim] at hok
            cases hok
        | ok u => exact auditReadable_of_ok hreclaim
  · intro haudit
    obtain ⟨b₃, hreclaim, h₃⟩ := h₂.runPass t .reclaim (clear_reclaimOps t haudit)
    obtain ⟨b₄, htier, h₄⟩ := h₃.runPass t (.tier c.tier) (clear_tierOps t b₃.engine c.tier)
    obtain ⟨b₅, hgroom, h₅⟩ := h₄.runPass t (.groom c.groom) (clear_groom t b₄ c.groom)
    obtain ⟨b₆, hmigrate, _⟩ := h₅.runPass t .migrate clear_migrateOps
    rw [runPasses_cons_ok _ hreclaim, runPasses_cons_ok _ htier, runPasses_cons_ok _ hgroom,
      runPasses_cons_ok _ hmigrate]
    rfl

/-! ## Remote evidence -/

/-- No remote segment has a copy in the pull cache. -/
def Unpulled (b : Bench ν) : Prop :=
  ∀ s ∈ b.segments, s.tier = .remote → b.files .pull s.file = none

/-- The audit of a reclaim pass opens no remote segment. -/
def AuditLocal (b : Bench ν) : Prop :=
  ∀ cand, b.engine.reclaimPick = some cand → cand.version = 2 → cand.rows.length ≠ 0 →
    ∀ s ∈ (b.engine.evidence cand).1, s.tier ≠ .remote

omit [Numeral ν] [SegmentFile ν] in
theorem Unpulled.exec (h : b.Unpulled) {ids : List Nat} {reads : Segment ν → Prop} {op : Op ν}
    (hwithin : op.Within ids reads) (hallow : b.Allows op) (hexec : b.exec op = .ok b') :
    b'.Unpulled := by
  intro s hs htier
  have hmem : s ∈ b.segments := by
    cases hstores : op.stores with
    | false => exact System.segments_of_exec hexec hstores ▸ hs
    | true =>
        cases op with
        | swap out outputs =>
            cases hexec
            rcases Manifest.mem_swap.mp hs with ⟨hs, _⟩ | hs
            · exact hs
            · exact absurd htier (hallow.2 s hs).1
        | setTier id tier => exact hwithin.elim
        | _ => cases hstores
  rcases pull_of_exec hallow hexec s.file with hsame | hnone
  · rw [hsame]
    exact h s hmem htier
  · exact hnone

theorem unpulled_compacted (h : b.Settled) (hpull : b.Unpulled) (t : Tiering) (c : Clocks) :
    (b.compacted t c).Unpulled := by
  obtain ⟨b₁, hflush, h₁⟩ := h.runPass t (.flush c.flush) (clear_flush t b c.flush)
  obtain ⟨b₂, hcompact, h₂⟩ :=
    h₁.runPass t (.compact c.compact) (clear_compact t h₁.sound c.compact)
  have hpull₁ : b₁.Unpulled := by
    have hkeep := runOps_keeps (fun hb hwithin hallow hexec => Unpulled.exec hb hwithin hallow hexec)
      hpull (follows_pass t h.sound (.flush c.flush))
      (fun _ hop => (within_flushOps hop : Op.Within [] (fun _ => False) _))
    rw [← runPass, hflush] at hkeep
    exact hkeep
  have hpull₂ : b₂.Unpulled := by
    unfold runPass at hcompact
    simp only [Pass.ops, Engine.compactOps] at hcompact
    split at hcompact
    · cases hcompact
      exact hpull₁
    · rename_i run hchoose
      obtain ⟨hrun, _⟩ := chooseRun_contiguous h₁.sound.identity.ids_nodup hchoose
      have hkeep := runOps_keeps
        (fun hb hwithin hallow hexec => Unpulled.exec hb hwithin hallow hexec)
        hpull₁ (follows_compactRun t h₁.sound hrun.toRunOf none c.compact)
        (fun _ hop => within_compactRunOps hop)
      rw [hcompact] at hkeep
      exact hkeep
  rw [compacted, runPasses_cons_ok _ hflush, runPasses_cons_ok _ hcompact]
  exact hpull₂

omit [Numeral ν] [SegmentFile ν] in
/-- Every local file at its path and every remote one in the store. -/
theorem settled_of_placed (hb : b.Sound)
    (hlocal : ∀ s ∈ b.segments, s.tier ≠ .remote →
      b.files s.tier.place s.file = some s.data)
    (hremote : ∀ s ∈ b.segments, s.tier = .remote → b.files .store s.file = some s.data) :
    b.Settled := by
  refine ⟨hb, fun s hs => ?_, ?_⟩
  · cases htier : s.tier with
    | hot =>
        have hplaced := hlocal s hs (by rw [htier]; exact Tier.noConfusion)
        rw [htier] at hplaced
        exact (keeps_hot htier).mpr (Or.inl hplaced)
    | cold =>
        have hplaced := hlocal s hs (by rw [htier]; exact Tier.noConfusion)
        rw [htier] at hplaced
        exact (keeps_cold htier).mpr hplaced
    | remote => exact (keeps_remote htier).mpr (hremote s hs htier)
  · rintro s ⟨hs, htier, hnone⟩
    have hplaced := hlocal s hs (by rw [htier]; exact Tier.noConfusion)
    rw [htier] at hplaced
    have hhot : b.files .hot s.file = some s.data := hplaced
    rw [hnone] at hhot
    cases hhot

/-- With every local file at its path and no remote segment in the pull cache, a tick returns exactly
if the audit of its reclaim pass opens no remote segment. -/
theorem tick_ok_iff_auditLocal (t : Tiering) (c : Clocks) (hb : b.Sound)
    (hlocal : ∀ s ∈ b.segments, s.tier ≠ .remote →
      b.files s.tier.place s.file = some s.data)
    (hremote : ∀ s ∈ b.segments, s.tier = .remote →
      b.files .store s.file = some s.data ∧ b.files .pull s.file = none) :
    (b.tick t c).2 = .ok () ↔ (b.compacted t c).AuditLocal := by
  have hsettled := settled_of_placed hb hlocal (fun s hs htier => (hremote s hs htier).1)
  have hpull := unpulled_compacted hsettled (fun s hs htier => (hremote s hs htier).2) t c
  rw [hsettled.tick_ok_iff]
  constructor
  · intro haudit cand hpick hversion hrows s hs htier
    exact haudit cand hpick hversion hrows s hs htier (hpull s (mem_evidence hs) htier)
  · intro haudit cand hpick hversion hrows s hs htier
    exact absurd htier (haudit cand hpick hversion hrows s hs)

end Passes

end Bench

section Sample

local instance instStrandedUnicode : Unicode := asciiUnicode

local instance instStrandedFile : SegmentFile Int := footprintFile Int

/-- A sealed hot segment with one row over an older remote one of the same key. -/
def evidenceBench (row : Record Int) : Bench Int where
  engine :=
    { config := { maxSegmentRecords := 1 }
      manifest :=
        { nextSegmentId := 2
          segments :=
            [{ Segment.ofRows 0 [Record.bare "a" 1] with tier := .remote },
              Segment.ofRows 1 [row]] } }
  files := fun place file =>
    if place = .store ∧ file = 0 then some ⟨2, [Record.bare "a" 1]⟩
    else if place = .hot ∧ file = 1 then some ⟨2, [row]⟩ else none
  met := [0, 1]

def evidenceClocks : Clocks := ⟨fun _ => 5, 5, 5, 5⟩

theorem evidenceBench_sound (row : Record Int) : (evidenceBench row).Sound := by
  have hseg : ∀ {s : Segment Int}, s ∈ (evidenceBench row).segments →
      s.id < 2 ∧ s.file < 2 ∧ s.file ∈ [0, 1] := by
    intro s hs
    rcases List.mem_cons.mp hs with rfl | hs
    · decide
    · cases List.mem_singleton.mp hs
      exact ⟨Nat.one_lt_two, Nat.one_lt_two, List.mem_cons_of_mem 0 List.mem_cons_self⟩
  refine ⟨⟨?_, ?_, fun hs => (hseg hs).1, fun hs => (hseg hs).2.1⟩, fun {f} hf => ?_,
    fun hs => (hseg hs).2.2⟩
  · show [0, 1].Nodup
    decide
  · show [0, 1].Nodup
    decide
  · exact (by decide : ∀ f ∈ [0, 1], f < 2) f hf

theorem evidenceBench_local (row : Record Int) :
    ∀ s ∈ (evidenceBench row).segments, s.tier ≠ .remote →
      (evidenceBench row).files s.tier.place s.file = some s.data := by
  intro s hs htier
  rcases List.mem_cons.mp hs with rfl | hs
  · exact absurd rfl htier
  · cases List.mem_singleton.mp hs
    rfl

theorem evidenceBench_remote (row : Record Int) :
    ∀ s ∈ (evidenceBench row).segments, s.tier = .remote →
      (evidenceBench row).files .store s.file = some s.data ∧
        (evidenceBench row).files .pull s.file = none := by
  intro s hs htier
  rcases List.mem_cons.mp hs with rfl | hs
  · exact ⟨rfl, rfl⟩
  · cases List.mem_singleton.mp hs
    cases htier

/-- A tombstone over a remote segment: its audit looks for the older rows in the pull cache, and the
tick fails. -/
theorem remote_evidence_fails_tick :
    (∀ s ∈ (evidenceBench (Record.tombstone "a" 2)).segments,
      (s.tier ≠ .remote →
        (evidenceBench (Record.tombstone "a" 2)).files s.tier.place s.file = some s.data) ∧
      (s.tier = .remote →
        (evidenceBench (Record.tombstone "a" 2)).files .store s.file = some s.data ∧
          (evidenceBench (Record.tombstone "a" 2)).files .pull s.file = none)) ∧
      ((evidenceBench (Record.tombstone "a" 2)).tick sampleTiering evidenceClocks).2 =
        .error (.io "NotFound") :=
  ⟨fun s hs => ⟨evidenceBench_local _ s hs, evidenceBench_remote _ s hs⟩, by rfl⟩

/-- Without the tombstone nothing older is opened. -/
theorem tick_ok_evidenceBench :
    ((evidenceBench (Record.bare "a" 2)).tick sampleTiering evidenceClocks).2 = .ok () := by
  refine (Bench.tick_ok_iff_auditLocal _ _ (evidenceBench_sound _) (evidenceBench_local _)
    (evidenceBench_remote _)).mpr fun cand hpick => ?_
  have hnone : ((evidenceBench (Record.bare "a" 2)).compacted sampleTiering
      evidenceClocks).engine.reclaimPick = none := by rfl
  rw [hnone] at hpick
  cases hpick

end Sample

end Girder
