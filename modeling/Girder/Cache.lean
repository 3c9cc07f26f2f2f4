import Mathlib.Data.List.MinMax
import Girder.Lib.Lru
import Girder.Lib.Sorting

/-!
# Cache — the byte-bounded store of decoded sections

The key of an entry is a segment and one of its sections.  Every use stamps the entry with the next
tick of a clock, and a put removes the entries with the lowest stamps until the rest fit, but never
the last one.  Sizes are footprints of sections held in memory, so their sum does not overflow.

`queue` reads a cache as its items by stamp, and `queue_step` shows that the operations are those of
a least-recently-used queue.  `lru_cache` is the law over whole histories.
-/

namespace Girder

open Lib

/-- Which section of a segment an entry holds. -/
inductive SectionId where
  | dir
  | keys
  | timestamps
  | blocks
  | payloadIndex
  | label (name : String)
  | numeric (name : String)
  | textIndex
  | tokens
  | v1Whole
  deriving DecidableEq

structure CacheEntry (σ : Type) where
  «section» : σ
  bytes : Nat
  /-- Monotonic recency stamp. -/
  used : Nat

/-- The map of a cache, in no particular order. -/
abbrev CacheMap (σ : Type) := List ((Nat × SectionId) × CacheEntry σ)

structure SegmentCache (σ : Type) where
  capacityBytes : Nat
  inner : CacheMap σ := []
  clock : Nat := 0

/-- The calls on a cache; a put comes with the footprint of its section. -/
inductive CacheOp (σ : Type) where
  | get (id : Nat) (sectionId : SectionId)
  | put (id : Nat) (sectionId : SectionId) («section» : σ) (bytes : Nat)
  | invalidate (id : Nat)

namespace CacheMap

variable {σ : Type}

def lookup (entries : CacheMap σ) (key : Nat × SectionId) : Option (CacheEntry σ) :=
  (entries.find? (fun e => decide (e.1 = key))).map Prod.snd

def remove (entries : CacheMap σ) (key : Nat × SectionId) : CacheMap σ :=
  entries.filter (fun e => decide (e.1 ≠ key))

def insert (entries : CacheMap σ) (key : Nat × SectionId) (entry : CacheEntry σ) : CacheMap σ :=
  (key, entry) :: entries.remove key

def totalBytes (entries : CacheMap σ) : Nat := (entries.map (fun e => e.2.bytes)).sum

/-- The eviction loop of a put, with the running total. -/
def evict (capacityBytes : Nat) : Nat → CacheMap σ → Nat → CacheMap σ
  | 0, entries, _ => entries
  | fuel + 1, entries, total =>
      if capacityBytes < total ∧ 1 < entries.length then
        match entries.argmin (fun e => e.2.used) with
        | some victim => evict capacityBytes fuel (remove entries victim.1) (total - victim.2.bytes)
        | none => entries
      else
        entries

end CacheMap

namespace SegmentCache

variable {σ : Type}

/-- Fetch a section; a hit bumps its recency. -/
def get (c : SegmentCache σ) (id : Nat) (sectionId : SectionId) : SegmentCache σ × Option σ :=
  match CacheMap.lookup c.inner (id, sectionId) with
  | some entry =>
      ({ c with
          inner := CacheMap.insert c.inner (id, sectionId) { entry with used := c.clock }
          clock := c.clock + 1 },
        some entry.«section»)
  | none => (c, none)

/-- The entries of a put before anything is evicted. -/
def inserted (c : SegmentCache σ) (id : Nat) (sectionId : SectionId) («section» : σ)
    (bytes : Nat) : CacheMap σ :=
  CacheMap.insert c.inner (id, sectionId) ⟨«section», bytes, c.clock⟩

def put (c : SegmentCache σ) (id : Nat) (sectionId : SectionId) («section» : σ) (bytes : Nat) :
    SegmentCache σ :=
  let entries := c.inserted id sectionId «section» bytes
  { c with
    inner := CacheMap.evict c.capacityBytes entries.length entries (CacheMap.totalBytes entries)
    clock := c.clock + 1 }

/-- Drop every section of a segment. -/
def invalidate (c : SegmentCache σ) (id : Nat) : SegmentCache σ :=
  { c with inner := c.inner.filter (fun e => decide (e.1.1 ≠ id)) }

def step (c : SegmentCache σ) : CacheOp σ → SegmentCache σ
  | .get id sectionId => (c.get id sectionId).1
  | .put id sectionId «section» bytes => c.put id sectionId «section» bytes
  | .invalidate id => c.invalidate id

/-- A new cache after a sequence of calls. -/
def run (capacityBytes : Nat) (ops : List (CacheOp σ)) : SegmentCache σ :=
  ops.foldl step { capacityBytes := capacityBytes }

/-- The key has an entry. -/
def Resident (c : SegmentCache σ) (key : Nat × SectionId) : Prop := ∃ e ∈ c.inner, e.1 = key

end SegmentCache

/-! ## The queue a cache stands for -/

namespace CacheOp

variable {σ : Type}

/-- The call as an operation of the queue. -/
def toOp : CacheOp σ → Lru.Op (Nat × SectionId) σ
  | get id sectionId => .get (id, sectionId)
  | put id sectionId «section» bytes => .put (id, sectionId) «section» bytes
  | invalidate id => .drop (fun key => decide (key.1 = id))

/-- Is the call about this key's entry: a lookup of it or a put under it? -/
def Touches (op : CacheOp σ) (key : Nat × SectionId) : Prop :=
  match op with
  | get id sectionId => (id, sectionId) = key
  | put id sectionId _ _ => (id, sectionId) = key
  | invalidate _ => False

def Puts (op : CacheOp σ) (key : Nat × SectionId) : Prop :=
  match op with
  | put id sectionId _ _ => (id, sectionId) = key
  | _ => False

def Invalidates (op : CacheOp σ) (key : Nat × SectionId) : Prop :=
  match op with
  | invalidate id => key.1 = id
  | _ => False

@[simp]
theorem touches_toOp (op : CacheOp σ) (key : Nat × SectionId) :
    op.toOp.Touches key ↔ op.Touches key := by
  cases op <;> rfl

@[simp]
theorem puts_toOp (op : CacheOp σ) (key : Nat × SectionId) : op.toOp.Puts key ↔ op.Puts key := by
  cases op <;> rfl

@[simp]
theorem drops_toOp (op : CacheOp σ) (key : Nat × SectionId) :
    op.toOp.Drops key ↔ op.Invalidates key := by
  cases op with
  | get id sectionId => rfl
  | put id sectionId «section» bytes => rfl
  | invalidate id => exact decide_eq_true_iff

end CacheOp

namespace CacheMap

variable {σ : Type}

def item (e : (Nat × SectionId) × CacheEntry σ) : Lru.Item (Nat × SectionId) σ :=
  ⟨e.1, e.2.«section», e.2.bytes⟩

/-- The entries, the longest unused first. -/
def byStamp (entries : CacheMap σ) : CacheMap σ := sortAsc (fun e => e.2.used) entries

def queue (entries : CacheMap σ) : List (Lru.Item (Nat × SectionId) σ) := entries.byStamp.map item

/-- One entry a key, and every stamp taken once and below the clock. -/
structure Stamped (entries : CacheMap σ) (clock : Nat) : Prop where
  keys : (entries.map Prod.fst).Nodup
  stamps : (entries.map (fun e => e.2.used)).Nodup
  used_lt {e : (Nat × SectionId) × CacheEntry σ} : e ∈ entries → e.2.used < clock

variable {entries : CacheMap σ} {clock : Nat}

theorem Stamped.filter (h : Stamped entries clock)
    (p : (Nat × SectionId) × CacheEntry σ → Bool) : Stamped (entries.filter p) clock where
  keys := nodup_map_filter h.keys p
  stamps := nodup_map_filter h.stamps p
  used_lt he := h.used_lt (List.mem_of_mem_filter he)

theorem Stamped.remove (h : Stamped entries clock) (key : Nat × SectionId) :
    Stamped (entries.remove key) clock :=
  h.filter _

theorem mem_remove {key : Nat × SectionId} {e : (Nat × SectionId) × CacheEntry σ} :
    e ∈ entries.remove key ↔ e ∈ entries ∧ e.1 ≠ key := by
  simp [remove]

/-- An entry stamped by the clock comes last. -/
theorem Stamped.insert (h : Stamped entries clock) (key : Nat × SectionId) («section» : σ)
    (bytes : Nat) : Stamped (entries.insert key ⟨«section», bytes, clock⟩) (clock + 1) := by
  have hrest := h.remove key
  refine ⟨?_, ?_, ?_⟩
  · refine List.nodup_cons.2 ⟨?_, hrest.keys⟩
    rintro hmem
    obtain ⟨e, he, hkey⟩ := List.mem_map.1 hmem
    exact (mem_remove.1 he).2 hkey
  · refine List.nodup_cons.2 ⟨?_, hrest.stamps⟩
    rintro hmem
    obtain ⟨e, he, hused⟩ := List.mem_map.1 hmem
    exact absurd hused (Nat.ne_of_lt (hrest.used_lt he))
  · intro e he
    rcases List.mem_cons.1 he with rfl | he
    · exact Nat.lt_succ_self clock
    · exact Nat.lt_succ_of_lt (hrest.used_lt he)

theorem byStamp_filter (h : Stamped entries clock)
    (p : (Nat × SectionId) × CacheEntry σ → Bool) :
    byStamp (entries.filter p) = entries.byStamp.filter p :=
  sortAsc_filter h.stamps p

theorem byStamp_insert (h : Stamped entries clock) (key : Nat × SectionId) («section» : σ)
    (bytes : Nat) :
    byStamp (entries.insert key ⟨«section», bytes, clock⟩) =
      byStamp (entries.remove key) ++ [(key, ⟨«section», bytes, clock⟩)] := by
  have hrest := h.remove key
  refine sortAsc_eq_of_perm ?_ ?_
  · refine List.Perm.trans ?_ (List.perm_append_singleton _ _).symm
    exact List.Perm.cons _ (sortAsc_perm _ _).symm
  · refine List.pairwise_append.2 ⟨sortAsc_pairwise_lt hrest.stamps, List.pairwise_singleton _ _, ?_⟩
    intro a ha b hb
    rw [List.mem_singleton.1 hb]
    exact hrest.used_lt ((mem_sortAsc _).1 ha)

theorem queue_remove (h : Stamped entries clock) (key : Nat × SectionId) :
    queue (entries.remove key) = Lru.others entries.queue key := by
  rw [queue, remove, byStamp_filter h, Lru.others, queue, List.filter_map]
  rfl

theorem queue_insert (h : Stamped entries clock) (key : Nat × SectionId) («section» : σ)
    (bytes : Nat) :
    queue (entries.insert key ⟨«section», bytes, clock⟩) =
      Lru.others entries.queue key ++ [⟨key, «section», bytes⟩] := by
  rw [queue, byStamp_insert h, List.map_append, ← queue_remove h]
  rfl

theorem totalBytes_eq (entries : CacheMap σ) :
    entries.totalBytes = (entries.byStamp.map (fun e => e.2.bytes)).sum :=
  (((sortAsc_perm _ entries).map _).sum_nat).symm

section First

variable {first : (Nat × SectionId) × CacheEntry σ} {rest : CacheMap σ}

/-- The entry with the lowest stamp is the first one by stamp. -/
theorem argmin_eq_of_byStamp (h : Stamped entries clock)
    (hsorted : entries.byStamp = first :: rest) :
    entries.argmin (fun e => e.2.used) = some first := by
  have hlt : entries.byStamp.Pairwise (fun a b => a.2.used < b.2.used) :=
    sortAsc_pairwise_lt h.stamps
  have hmem : ∀ e, e ∈ entries ↔ e ∈ first :: rest :=
    fun e => by rw [← hsorted, byStamp, mem_sortAsc]
  rw [hsorted] at hlt
  cases hmin : entries.argmin (fun e => e.2.used) with
  | none =>
      rw [List.argmin_eq_none.1 hmin] at hmem
      simpa using hmem first
  | some victim =>
      have hvictim := (hmem victim).1 (List.argmin_mem hmin)
      have hle := List.le_of_mem_argmin ((hmem first).2 List.mem_cons_self) hmin
      rcases List.mem_cons.1 hvictim with rfl | hrest
      · rfl
      · exact absurd ((List.pairwise_cons.1 hlt).1 victim hrest) (not_lt.2 hle)

/-- Removing it leaves the others. -/
theorem byStamp_remove_first (h : Stamped entries clock)
    (hsorted : entries.byStamp = first :: rest) : byStamp (entries.remove first.1) = rest := by
  have hkeys : ((first :: rest).map Prod.fst).Nodup := by
    rw [← hsorted]
    exact ((sortAsc_perm _ entries).map _).nodup_iff.2 h.keys
  rw [remove, byStamp_filter h, hsorted, List.filter_cons_of_neg (by simp)]
  refine List.filter_eq_self.2 (fun e he => decide_eq_true (fun hkey => ?_))
  exact (List.nodup_cons.1 hkeys).1 (hkey ▸ List.mem_map_of_mem he)

end First

/-- The eviction loop trims the entries in the order of their stamps. -/
theorem byStamp_evict (capacityBytes : Nat) :
    ∀ (fuel : Nat) (entries : CacheMap σ), Stamped entries clock → entries.length ≤ fuel →
      byStamp (evict capacityBytes fuel entries entries.totalBytes) =
        trim (fun e => e.2.bytes) capacityBytes entries.byStamp := by
  intro fuel
  induction fuel with
  | zero =>
      intro entries _ hfuel
      obtain rfl := List.length_eq_zero_iff.1 (Nat.le_zero.1 hfuel)
      rfl
  | succ fuel ih =>
      intro entries h hfuel
      have hlength : entries.length = entries.byStamp.length :=
        (sortAsc_perm _ entries).length_eq.symm
      cases hsorted : entries.byStamp with
      | nil =>
          rw [hsorted] at hlength
          obtain rfl := List.length_eq_zero_iff.1 hlength
          rfl
      | cons first rest =>
          rw [hsorted, List.length_cons] at hlength
          have htotal := totalBytes_eq entries
          rw [hsorted] at htotal
          have hcond : (rest.isEmpty = false ∧
              capacityBytes < ((first :: rest).map (fun e => e.2.bytes)).sum) ↔
                capacityBytes < entries.totalBytes ∧ 1 < entries.length := by
            rw [← htotal, hlength, and_comm]
            cases rest <;> simp
          rw [evict, trim]
          by_cases hover : capacityBytes < entries.totalBytes ∧ 1 < entries.length
          · rw [if_pos hover, if_pos (hcond.2 hover)]
            -- The oldest entry goes, and the loop goes on with the others.
            have hremaining := byStamp_remove_first h hsorted
            have hless : entries.totalBytes - first.2.bytes =
                (entries.remove first.1).totalBytes := by
              rw [totalBytes_eq (entries.remove first.1), hremaining, htotal, List.map_cons,
                List.sum_cons, Nat.add_sub_cancel_left]
            have hfuel' : (entries.remove first.1).length ≤ fuel := by
              have hrest : (byStamp (entries.remove first.1)).length =
                  (entries.remove first.1).length := (sortAsc_perm _ _).length_eq
              rw [hremaining] at hrest
              omega
            simp only [argmin_eq_of_byStamp h hsorted, hless]
            rw [ih _ (h.remove first.1) hfuel', hremaining]
          · rw [if_neg hover, if_neg (fun h => hover (hcond.1 h)), hsorted]

theorem queue_evict (h : Stamped entries clock) (capacityBytes : Nat) :
    queue (evict capacityBytes entries.length entries entries.totalBytes) =
      trim Lru.Item.weight capacityBytes entries.queue := by
  rw [queue, byStamp_evict capacityBytes _ entries h le_rfl, queue, trim_map]
  rfl

/-- The loop only removes entries. -/
theorem evict_sublist (capacityBytes : Nat) :
    ∀ (fuel : Nat) (entries : CacheMap σ) (total : Nat),
      (evict capacityBytes fuel entries total).Sublist entries := by
  intro fuel
  induction fuel with
  | zero => exact fun _ _ => List.Sublist.refl _
  | succ fuel ih =>
      intro entries total
      rw [evict]
      split
      · split
        · exact (ih _ _).trans List.filter_sublist
        · exact List.Sublist.refl _
      · exact List.Sublist.refl _

theorem Stamped.sublist (h : Stamped entries clock) {entries' : CacheMap σ}
    (hsub : entries'.Sublist entries) : Stamped entries' clock where
  keys := h.keys.sublist (hsub.map _)
  stamps := h.stamps.sublist (hsub.map _)
  used_lt he := h.used_lt (hsub.subset he)

theorem mem_queue {x : Lru.Item (Nat × SectionId) σ} :
    x ∈ entries.queue ↔ ∃ e ∈ entries, item e = x := by
  simp [queue, byStamp]

/-- A lookup finds the item of the queue. -/
theorem find?_queue (h : Stamped entries clock) (key : Nat × SectionId) :
    entries.queue.find? (fun x => decide (x.key = key)) =
      (entries.lookup key).map (fun entry => ⟨key, entry.«section», entry.bytes⟩) := by
  rw [lookup]
  cases hfind : entries.find? (fun e => decide (e.1 = key)) with
  | none =>
      refine List.find?_eq_none.2 (fun x hx => ?_)
      obtain ⟨e, he, rfl⟩ := mem_queue.1 hx
      exact List.find?_eq_none.1 hfind e he
  | some e =>
      have hmem := List.mem_of_find?_eq_some hfind
      obtain rfl : e.1 = key := by simpa using List.find?_some hfind
      have hitem : item e ∈ entries.queue := mem_queue.2 ⟨e, hmem, rfl⟩
      cases hfound : entries.queue.find? (fun x => decide (x.key = e.1)) with
      | none =>
          have hnot := List.find?_eq_none.1 hfound _ hitem
          simp [item] at hnot
      | some x =>
          obtain ⟨e', he', rfl⟩ := mem_queue.1 (List.mem_of_find?_eq_some hfound)
          have hkey : (item e').key = e.1 := by simpa using List.find?_some hfound
          rw [List.inj_on_of_nodup_map h.keys he' hmem hkey]
          rfl

end CacheMap

namespace SegmentCache

variable {σ : Type}

/-- The operations of a cache are those of its queue. -/
theorem queue_step {c : SegmentCache σ} (h : CacheMap.Stamped c.inner c.clock) (op : CacheOp σ) :
    CacheMap.queue (c.step op).inner = Lru.step c.capacityBytes (CacheMap.queue c.inner) op.toOp ∧
      CacheMap.Stamped (c.step op).inner (c.step op).clock ∧
      (c.step op).capacityBytes = c.capacityBytes := by
  cases op with
  | get id sectionId =>
      simp only [step, get, CacheOp.toOp, Lru.step, CacheMap.find?_queue h]
      cases CacheMap.lookup c.inner (id, sectionId) with
      | none => exact ⟨rfl, h, rfl⟩
      | some entry => exact ⟨CacheMap.queue_insert h _ _ _, h.insert _ _ _, rfl⟩
  | put id sectionId «section» bytes =>
      have hall := h.insert (id, sectionId) «section» bytes
      refine ⟨?_, hall.sublist (CacheMap.evict_sublist _ _ _ _), rfl⟩
      rw [CacheOp.toOp, Lru.step, ← CacheMap.queue_insert h, ← CacheMap.queue_evict hall]
      rfl
  | invalidate id =>
      refine ⟨?_, h.filter _, rfl⟩
      simp only [step, invalidate, CacheOp.toOp, Lru.step, CacheMap.queue,
        CacheMap.byStamp_filter h, List.filter_map]
      congr 1
      refine List.filter_congr (fun e _ => ?_)
      by_cases hid : e.1.1 = id <;> simp [CacheMap.item, hid]

@[simp]
theorem run_snoc (capacityBytes : Nat) (ops : List (CacheOp σ)) (op : CacheOp σ) :
    run capacityBytes (ops ++ [op]) = (run capacityBytes ops).step op := by
  simp [run]

/-- A run of calls is a run of the queue. -/
theorem queue_run (capacityBytes : Nat) (ops : List (CacheOp σ)) :
    CacheMap.queue (run capacityBytes ops).inner = Lru.run capacityBytes (ops.map CacheOp.toOp) ∧
      CacheMap.Stamped (run capacityBytes ops).inner (run capacityBytes ops).clock ∧
      (run capacityBytes ops).capacityBytes = capacityBytes := by
  induction ops using List.reverseRecOn with
  | nil => exact ⟨rfl, ⟨List.nodup_nil, List.nodup_nil, fun he => absurd he List.not_mem_nil⟩, rfl⟩
  | append_singleton ops op ih =>
      obtain ⟨hqueue, hstamped, hcap⟩ := ih
      obtain ⟨hstep, hstamped', hcap'⟩ := queue_step hstamped op
      rw [hqueue, hcap] at hstep
      rw [run_snoc, List.map_append, List.map_singleton, Lru.run_snoc]
      exact ⟨hstep, hstamped', hcap'.trans hcap⟩

/-! ## The law -/

/-- A put takes out the entry of another key. -/
def Evicts (capacityBytes : Nat) (ops : List (CacheOp σ)) (op : CacheOp σ)
    (key : Nat × SectionId) : Prop :=
  (∃ k, op.Puts k) ∧ (run capacityBytes ops).Resident key ∧
    ¬ (run capacityBytes (ops ++ [op])).Resident key

/-- The section was the last one put under the key, and neither an invalidation nor an eviction
followed. -/
def Standing (capacityBytes : Nat) (ops : List (CacheOp σ)) (id : Nat) (sectionId : SectionId)
    («section» : σ) : Prop :=
  ∃ before bytes after, ops = before ++ .put id sectionId «section» bytes :: after ∧
    (∀ op ∈ after, ¬ op.Puts (id, sectionId) ∧ ¬ op.Invalidates (id, sectionId)) ∧
    ∀ mid op rest, after = mid ++ op :: rest →
      ¬ Evicts capacityBytes (before ++ .put id sectionId «section» bytes :: mid) op (id, sectionId)

/-- What a put leaves of the entries, the new one included. -/
structure PutLaw (capacityBytes : Nat) (ops : List (CacheOp σ)) (id : Nat) (sectionId : SectionId)
    («section» : σ) (bytes : Nat) (entries left : CacheMap σ) : Prop where
  left_sublist : left.Sublist entries
  /-- The new entry is there. -/
  resident : ∃ used, ((id, sectionId), ⟨«section», bytes, used⟩) ∈ left
  /-- The rest fit, or it is the only one. -/
  bounded : left.totalBytes ≤ capacityBytes ∨ left.length = 1
  /-- Every survivor was used or inserted later than every evicted entry. -/
  least_recent {e e' : (Nat × SectionId) × CacheEntry σ} : e ∈ left → e' ∈ entries → e' ∉ left →
    UsedLater CacheOp.Touches (ops ++ [.put id sectionId «section» bytes]) e.1 e'.1
  /-- With fewer of the least recently used ones evicted the rest would not fit. -/
  no_fewer {kept : Nat × SectionId → Bool} :
    (∀ e ∈ entries, ∀ e' ∈ entries, kept e.1 = true →
      UsedLater CacheOp.Touches (ops ++ [.put id sectionId «section» bytes]) e'.1 e.1 →
        kept e'.1 = true) →
    left.length < (entries.filter (fun e => kept e.1)).length →
    capacityBytes < CacheMap.totalBytes (entries.filter (fun e => kept e.1)) ∧
      1 < (entries.filter (fun e => kept e.1)).length

theorem usedLater_toOp {ops : List (CacheOp σ)} {k k' : Nat × SectionId} :
    UsedLater Lru.Op.Touches (ops.map CacheOp.toOp) k k' ↔
      UsedLater CacheOp.Touches ops k k' := by
  constructor
  · rintro ⟨before', op', after', hsplit, htouch, hnot⟩
    obtain ⟨before, tail, rfl, rfl, htail⟩ := List.map_eq_append_iff.1 hsplit
    obtain ⟨op, after, rfl, rfl, rfl⟩ := List.map_eq_cons_iff.1 htail
    refine ⟨before, op, after, rfl, (CacheOp.touches_toOp _ _).1 htouch, ?_⟩
    intro op₁ hop₁ htouch₁
    refine hnot op₁.toOp ?_ ((CacheOp.touches_toOp _ _).2 htouch₁)
    rw [← List.map_cons]
    exact List.mem_map_of_mem hop₁
  · rintro ⟨before, op, after, rfl, htouch, hnot⟩
    refine ⟨before.map CacheOp.toOp, op.toOp, after.map CacheOp.toOp, by simp,
      (CacheOp.touches_toOp _ _).2 htouch, ?_⟩
    intro op' hop' htouch'
    rw [← List.map_cons] at hop'
    obtain ⟨op₁, hop₁, rfl⟩ := List.mem_map.1 hop'
    exact hnot op₁ hop₁ ((CacheOp.touches_toOp _ _).1 htouch')

theorem resident_iff (capacityBytes : Nat) (ops : List (CacheOp σ)) (key : Nat × SectionId) :
    (run capacityBytes ops).Resident key ↔
      Lru.Resident (Lru.run capacityBytes (ops.map CacheOp.toOp)) key := by
  rw [← (queue_run capacityBytes ops).1]
  constructor
  · rintro ⟨e, he, hkey⟩
    exact ⟨CacheMap.item e, CacheMap.mem_queue.2 ⟨e, he, rfl⟩, hkey⟩
  · rintro ⟨x, hx, hkey⟩
    obtain ⟨e, he, rfl⟩ := CacheMap.mem_queue.1 hx
    exact ⟨e, he, hkey⟩

theorem evicts_iff {capacityBytes : Nat} {ops : List (CacheOp σ)} {op : CacheOp σ}
    {key : Nat × SectionId} :
    Evicts capacityBytes ops op key ↔
      Lru.Evicts capacityBytes (ops.map CacheOp.toOp) op.toOp key := by
  have hsnoc : (ops ++ [op]).map CacheOp.toOp = ops.map CacheOp.toOp ++ [op.toOp] := by simp
  rw [Evicts, Lru.Evicts, resident_iff, resident_iff, hsnoc]
  simp only [CacheOp.puts_toOp]

theorem standing_iff {capacityBytes : Nat} {ops : List (CacheOp σ)} {id : Nat}
    {sectionId : SectionId} {«section» : σ} :
    Standing capacityBytes ops id sectionId «section» ↔
      Lru.Standing capacityBytes (ops.map CacheOp.toOp) (id, sectionId) «section» := by
  constructor
  · rintro ⟨before, bytes, after, rfl, hquiet, hkept⟩
    refine ⟨before.map CacheOp.toOp, bytes, after.map CacheOp.toOp, by simp [CacheOp.toOp], ?_, ?_⟩
    · intro op' hop'
      obtain ⟨op, hop, rfl⟩ := List.mem_map.1 hop'
      simpa using hquiet op hop
    · intro mid' op' rest' hsplit
      obtain ⟨mid, tail, rfl, rfl, htail⟩ := List.map_eq_append_iff.1 hsplit
      obtain ⟨op, rest, rfl, rfl, rfl⟩ := List.map_eq_cons_iff.1 htail
      intro hevicts
      exact hkept mid op rest rfl (evicts_iff.2 (by simpa [CacheOp.toOp] using hevicts))
  · rintro ⟨before', bytes, after', hsplit, hquiet, hkept⟩
    obtain ⟨before, tail, rfl, rfl, htail⟩ := List.map_eq_append_iff.1 hsplit
    obtain ⟨op, after, rfl, hop, rfl⟩ := List.map_eq_cons_iff.1 htail
    obtain rfl : op = .put id sectionId «section» bytes := by
      cases op <;> simp_all [CacheOp.toOp]
    refine ⟨before, bytes, after, rfl, ?_, ?_⟩
    · intro op₁ hop₁
      simpa using hquiet op₁.toOp (List.mem_map_of_mem hop₁)
    · rintro mid op₁ rest rfl hevicts
      refine hkept (mid.map CacheOp.toOp) op₁.toOp (rest.map CacheOp.toOp) (by simp) ?_
      simpa [CacheOp.toOp] using evicts_iff.1 hevicts

/-- The entries of a put stand, by stamp, in the recency order of the calls. -/
theorem byStamp_inserted_pairwise (capacityBytes : Nat) (ops : List (CacheOp σ)) (id : Nat)
    (sectionId : SectionId) («section» : σ) (bytes : Nat) :
    (CacheMap.byStamp ((run capacityBytes ops).inserted id sectionId «section» bytes)).Pairwise
      (fun a b => UsedLater CacheOp.Touches
        (ops ++ [.put id sectionId «section» bytes]) b.1 a.1) := by
  obtain ⟨hqueue, hstamped, -⟩ := queue_run capacityBytes ops
  have hordered : Lru.Ordered
      (ops.map CacheOp.toOp ++ [.put (id, sectionId) «section» bytes])
      (Lru.others (Lru.run capacityBytes (ops.map CacheOp.toOp)) (id, sectionId) ++
        [⟨(id, sectionId), «section», bytes⟩]) :=
    Lru.ordered_others_concat (Lru.run_ordered capacityBytes _)
      ⟨(id, sectionId), «section», bytes⟩ (fun _ => Iff.rfl)
  rw [← hqueue, ← CacheMap.queue_insert hstamped, CacheMap.queue, Lru.Ordered,
    List.pairwise_map] at hordered
  refine hordered.imp (fun {a b} hlater => usedLater_toOp.1 ?_)
  simpa [CacheOp.toOp, CacheMap.item] using hlater

/-- A put trims the entries, in stamp order, to the capacity. -/
theorem byStamp_inner_put (capacityBytes : Nat) (ops : List (CacheOp σ)) (id : Nat)
    (sectionId : SectionId) («section» : σ) (bytes : Nat) :
    CacheMap.byStamp (run capacityBytes (ops ++ [.put id sectionId «section» bytes])).inner =
        trim (fun e => e.2.bytes) capacityBytes
          (CacheMap.byStamp ((run capacityBytes ops).inserted id sectionId «section» bytes)) ∧
      (run capacityBytes (ops ++ [.put id sectionId «section» bytes])).inner.Sublist
        ((run capacityBytes ops).inserted id sectionId «section» bytes) := by
  obtain ⟨-, hstamped, hcap⟩ := queue_run capacityBytes ops
  have hall := hstamped.insert (id, sectionId) «section» bytes
  rw [run_snoc, step, put, hcap]
  exact ⟨CacheMap.byStamp_evict capacityBytes _ _ hall le_rfl,
    CacheMap.evict_sublist capacityBytes _ _ _⟩

/-- What is put last is not evicted. -/
theorem trim_inserted (capacityBytes : Nat) (ops : List (CacheOp σ)) (id : Nat)
    (sectionId : SectionId) («section» : σ) (bytes : Nat) :
    ∃ kept, trim (fun e => e.2.bytes) capacityBytes
        (CacheMap.byStamp ((run capacityBytes ops).inserted id sectionId «section» bytes)) =
      kept ++ [((id, sectionId), ⟨«section», bytes, (run capacityBytes ops).clock⟩)] := by
  obtain ⟨-, hstamped, -⟩ := queue_run capacityBytes ops
  have hlast := CacheMap.byStamp_insert hstamped (id, sectionId) «section» bytes
  change CacheMap.byStamp ((run capacityBytes ops).inserted id sectionId «section» bytes) = _
    at hlast
  obtain ⟨kept, hkept⟩ := trim_concat (fun e => e.2.bytes) capacityBytes
    (CacheMap.byStamp (CacheMap.remove (run capacityBytes ops).inner (id, sectionId)))
    ((id, sectionId), ⟨«section», bytes, (run capacityBytes ops).clock⟩)
  exact ⟨kept, hlast ▸ hkept⟩

theorem putLaw (capacityBytes : Nat) (ops : List (CacheOp σ)) (id : Nat) (sectionId : SectionId)
    («section» : σ) (bytes : Nat) :
    PutLaw capacityBytes ops id sectionId «section» bytes
      ((run capacityBytes ops).inserted id sectionId «section» bytes)
      (run capacityBytes (ops ++ [.put id sectionId «section» bytes])).inner := by
  have hlater := byStamp_inserted_pairwise capacityBytes ops id sectionId «section» bytes
  obtain ⟨htrim, hsub⟩ := byStamp_inner_put capacityBytes ops id sectionId «section» bytes
  obtain ⟨front, hfront⟩ := trim_inserted capacityBytes ops id sectionId «section» bytes
  generalize (run capacityBytes ops).inserted id sectionId «section» bytes = entries at *
  generalize (run capacityBytes (ops ++ [.put id sectionId «section» bytes])).inner = left at *
  have hperm : left.Perm (trim (fun e => e.2.bytes) capacityBytes entries.byStamp) :=
    htrim ▸ (sortAsc_perm _ left).symm
  refine ⟨hsub, ?_, ?_, ?_, ?_⟩
  · -- The new entry carries the latest stamp, so trimming from the front spares it.
    refine ⟨(run capacityBytes ops).clock, hperm.mem_iff.2 ?_⟩
    rw [hfront]
    simp
  · rcases trim_fits (fun e => e.2.bytes) capacityBytes entries.byStamp with hfits | hone
    · left
      rwa [CacheMap.totalBytes_eq, htrim]
    · right
      rw [hperm.length_eq]
      rw [hfront, List.length_append, List.length_singleton] at hone ⊢
      omega
  · intro e e' he he' hgone
    exact trim_pairwise hlater ((mem_sortAsc _).2 he')
      (fun hin => hgone (hperm.mem_iff.2 hin)) (hperm.mem_iff.1 he)
  · -- What is kept under any rule closed under later stamps is a suffix of the queue.
    intro kept hclosed hlonger
    have hend := filter_suffix_of_pairwise (p := fun e => kept e.1) hlater
      (fun a ha b hb => hclosed a ((mem_sortAsc _).1 ha) b ((mem_sortAsc _).1 hb))
    have hkept : (entries.byStamp.filter (fun e => kept e.1)).Perm
        (entries.filter (fun e => kept e.1)) := (sortAsc_perm _ entries).filter _
    have hmax := trim_maximal (fun e => e.2.bytes) hend
      (by rwa [← hperm.length_eq, hkept.length_eq])
    rw [hkept.length_eq, (hkept.map _).sum_nat] at hmax
    exact hmax.symm

/-- A get answers what stands. -/
theorem get_eq_some_iff {capacityBytes : Nat} {ops : List (CacheOp σ)} {id : Nat}
    {sectionId : SectionId} {«section» : σ} :
    ((run capacityBytes ops).get id sectionId).2 = some «section» ↔
      Standing capacityBytes ops id sectionId «section» := by
  obtain ⟨hqueue, hstamped, -⟩ := queue_run capacityBytes ops
  have hfind := CacheMap.find?_queue hstamped (id, sectionId)
  rw [standing_iff, ← Lru.holds_run_iff, ← hqueue]
  rw [get]
  cases hlookup : CacheMap.lookup (run capacityBytes ops).inner (id, sectionId) with
  | none =>
      rw [hlookup] at hfind
      have hnone := List.find?_eq_none.1 hfind
      constructor
      · intro h
        cases h
      · rintro ⟨x, hx, hkey, -⟩
        exact absurd (decide_eq_true hkey) (hnone x hx)
  | some entry =>
      rw [hlookup] at hfind
      have hmem := List.mem_of_find?_eq_some hfind
      have hordered := Lru.run_ordered capacityBytes (ops.map CacheOp.toOp)
      rw [← hqueue] at hordered
      constructor
      · intro h
        exact ⟨_, hmem, rfl, Option.some.inj h⟩
      · rintro ⟨x, hx, hkey, rfl⟩
        rw [hordered.eq_of_key hx hmem hkey]

/-- The cache is a byte-bounded least-recently-used store: what a put leaves, and what a get
answers, over any sequence of calls. -/
theorem lru_cache (capacityBytes : Nat) (ops : List (CacheOp σ)) :
    (∀ id sectionId «section» bytes, PutLaw capacityBytes ops id sectionId «section» bytes
      ((run capacityBytes ops).inserted id sectionId «section» bytes)
      (run capacityBytes (ops ++ [.put id sectionId «section» bytes])).inner) ∧
    ∀ id sectionId «section», ((run capacityBytes ops).get id sectionId).2 = some «section» ↔
      Standing capacityBytes ops id sectionId «section» := by
  refine ⟨putLaw capacityBytes ops, ?_⟩
  intro id sectionId «section»
  exact get_eq_some_iff

end SegmentCache

end Girder
