import Mathlib.Algebra.Order.BigOperators.Group.List
import Mathlib.Algebra.Order.Ring.Nat
import Mathlib.Data.List.Chain

/-!
# Chunks — cutting a list greedily under two caps

A writer with a cap on the number of items and a cap on their total weight closes the current chunk
as soon as the next item would break either cap.  An item heavier than the weight cap still gets a
chunk of its own.

`greedyChunks` is that loop.  Its chunks are consecutive slices of the list (`flatten_greedyChunks`)
that fit the caps (`mem_greedyChunks`), each cut where the next item would break one
(`closedBy_greedyChunks`).  No other cut is like that (`MaximalCut.eq_greedyChunks`), and there are as
few chunks as any way of cutting the list into fitting slices allows (`length_greedyChunks_le_iff`).
-/

namespace Girder
namespace Lib

universe u

variable {α : Type u}

/-! ## The loop -/

/-- Closed chunks, the open chunk and its weight. -/
structure ChunkState (α : Type u) where
  chunks : List (List α) := []
  current : List α := []
  weight : Nat := 0

/-- One round: close the open chunk when the item would break a cap. -/
def chunkStep (w : α → Nat) (maxCount maxWeight : Nat) (st : ChunkState α) (a : α) :
    ChunkState α :=
  if st.current ≠ [] ∧ (maxCount ≤ st.current.length ∨ maxWeight < st.weight + w a) then
    { chunks := st.chunks ++ [st.current], current := [a], weight := w a }
  else
    { st with current := st.current ++ [a], weight := st.weight + w a }

/-- Cut a list into consecutive chunks under both caps. -/
def greedyChunks (w : α → Nat) (maxCount maxWeight : Nat) (l : List α) : List (List α) :=
  if l.isEmpty then
    []
  else
    let st := l.foldl (chunkStep w maxCount maxWeight) {}
    st.chunks ++ [st.current]

/-- A slice within the caps; one item alone always is. -/
def ChunkFits (w : α → Nat) (maxCount maxWeight : Nat) (s : List α) : Prop :=
  s.length ≤ 1 ∨ (s.length ≤ maxCount ∧ (s.map w).sum ≤ maxWeight)

/-- The list can be cut into at most `k` consecutive slices within the caps. -/
def Cuttable (w : α → Nat) (maxCount maxWeight k : Nat) (l : List α) : Prop :=
  ∃ slices : List (List α), slices.flatten = l ∧ slices.length ≤ k ∧
    ∀ s ∈ slices, ChunkFits w maxCount maxWeight s

variable {w : α → Nat} {maxCount maxWeight : Nat}

/-! ## The chunks are fitting slices -/

/-- What the loop keeps: nothing is lost, the weight is the open chunk's, every chunk fits. -/
structure ChunkInv (w : α → Nat) (maxCount maxWeight : Nat) (seen : List α) (st : ChunkState α) :
    Prop where
  flatten_eq : st.chunks.flatten ++ st.current = seen
  weight_eq : st.weight = (st.current.map w).sum
  current_fits : ChunkFits w maxCount maxWeight st.current
  fits {s : List α} : s ∈ st.chunks → s ≠ [] ∧ ChunkFits w maxCount maxWeight s
  current_ne : seen ≠ [] → st.current ≠ []

theorem chunkInv_step {seen : List α} {st : ChunkState α}
    (h : ChunkInv w maxCount maxWeight seen st) (a : α) :
    ChunkInv w maxCount maxWeight (seen ++ [a]) (chunkStep w maxCount maxWeight st a) := by
  unfold chunkStep
  split
  · rename_i hclose
    refine ⟨?_, by simp, Or.inl (by simp), ?_, by simp⟩
    · simp [← h.flatten_eq]
    · intro s hs
      rcases List.mem_append.1 hs with hs | hs
      · exact h.fits hs
      · rw [List.mem_singleton.1 hs]
        exact ⟨hclose.1, h.current_fits⟩
  · rename_i hkeep
    refine ⟨?_, by simp [h.weight_eq], ?_, h.fits, by simp⟩
    · simp [← h.flatten_eq]
    · -- The open chunk grew: either it was empty, or both caps allowed it.
      by_cases hne : st.current = []
      · exact Or.inl (by simp [hne])
      · right
        have hcaps : ¬ (maxCount ≤ st.current.length ∨ maxWeight < st.weight + w a) :=
          fun hcap => hkeep ⟨hne, hcap⟩
        rw [not_or, not_le, not_lt, h.weight_eq] at hcaps
        refine ⟨?_, ?_⟩
        · simpa using Nat.succ_le_of_lt hcaps.1
        · simpa using hcaps.2

theorem chunkInv_foldl :
    ∀ (l : List α) {seen : List α} {st : ChunkState α},
      ChunkInv w maxCount maxWeight seen st →
      ChunkInv w maxCount maxWeight (seen ++ l) (l.foldl (chunkStep w maxCount maxWeight) st) := by
  intro l
  induction l with
  | nil =>
      intro seen st h
      simpa using h
  | cons a l ih =>
      intro seen st h
      simpa using ih (chunkInv_step h a)

theorem chunkInv_start : ChunkInv w maxCount maxWeight [] ({} : ChunkState α) :=
  ⟨rfl, rfl, Or.inl (by simp), by simp, by simp⟩

theorem chunkInv_run (l : List α) :
    ChunkInv w maxCount maxWeight l (l.foldl (chunkStep w maxCount maxWeight) {}) := by
  simpa using chunkInv_foldl l chunkInv_start

theorem flatten_greedyChunks (l : List α) : (greedyChunks w maxCount maxWeight l).flatten = l := by
  unfold greedyChunks
  split
  · rename_i h
    simpa using h
  · have hinv : ChunkInv w maxCount maxWeight l _ := chunkInv_run l
    simpa using hinv.flatten_eq

theorem mem_greedyChunks {l s : List α} (hs : s ∈ greedyChunks w maxCount maxWeight l) :
    s ≠ [] ∧ ChunkFits w maxCount maxWeight s := by
  unfold greedyChunks at hs
  split at hs
  · simp at hs
  · rename_i hne
    have hinv : ChunkInv w maxCount maxWeight l _ := chunkInv_run l
    rcases List.mem_append.1 hs with hs | hs
    · exact hinv.fits hs
    · rw [List.mem_singleton.1 hs]
      exact ⟨hinv.current_ne (by simpa using hne), hinv.current_fits⟩

/-! ## No way of cutting needs fewer slices

Only the number of items and the weight of the open chunk decide when it closes, so the number of
chunks is counted by `moreChunks` from these two alone. -/

/-- How many further chunks the loop opens, from an open chunk of `n` items and weight `b`. -/
def moreChunks (w : α → Nat) (maxCount maxWeight : Nat) : Nat → Nat → List α → Nat
  | _, _, [] => 0
  | n, b, a :: l =>
      if maxCount ≤ n ∨ maxWeight < b + w a then
        1 + moreChunks w maxCount maxWeight 1 (w a) l
      else
        moreChunks w maxCount maxWeight (n + 1) (b + w a) l

theorem length_chunks_foldl :
    ∀ (l : List α) (st : ChunkState α), st.current ≠ [] →
      (l.foldl (chunkStep w maxCount maxWeight) st).chunks.length =
        st.chunks.length + moreChunks w maxCount maxWeight st.current.length st.weight l := by
  intro l
  induction l with
  | nil =>
      intro st _
      rfl
  | cons a l ih =>
      intro st hne
      by_cases hcap : maxCount ≤ st.current.length ∨ maxWeight < st.weight + w a
      · have hstep : chunkStep w maxCount maxWeight st a =
            { chunks := st.chunks ++ [st.current], current := [a], weight := w a } := by
          simp only [chunkStep, if_pos (And.intro hne hcap)]
        rw [List.foldl_cons, hstep, ih _ (by simp), moreChunks, if_pos hcap]
        simp
        omega
      · have hstep : chunkStep w maxCount maxWeight st a =
            { st with current := st.current ++ [a], weight := st.weight + w a } := by
          simp only [chunkStep, if_neg (fun h : _ ∧ _ => hcap h.2)]
        rw [List.foldl_cons, hstep, ih _ (by simp), moreChunks, if_neg hcap]
        simp

/-- How many chunks the loop makes. -/
def chunkCount (w : α → Nat) (maxCount maxWeight : Nat) : List α → Nat
  | [] => 0
  | a :: l => 1 + moreChunks w maxCount maxWeight 1 (w a) l

theorem length_greedyChunks (l : List α) :
    (greedyChunks w maxCount maxWeight l).length = chunkCount w maxCount maxWeight l := by
  cases l with
  | nil => rfl
  | cons a l =>
      have hstep : chunkStep w maxCount maxWeight {} a =
          { chunks := [], current := [a], weight := w a } := by
        simp [chunkStep]
      simp only [greedyChunks, List.isEmpty_cons, Bool.false_eq_true, if_false, List.foldl_cons,
        hstep, List.length_append]
      rw [length_chunks_foldl l _ (by simp)]
      simp [chunkCount]
      omega

/-- A fuller open chunk opens at least as many further chunks, and at most one more. -/
theorem moreChunks_mono (l : List α) :
    ∀ {n n' b b' : Nat}, n ≤ n' → b ≤ b' →
      moreChunks w maxCount maxWeight n b l ≤ moreChunks w maxCount maxWeight n' b' l ∧
        moreChunks w maxCount maxWeight n' b' l ≤ 1 + moreChunks w maxCount maxWeight n b l := by
  induction l with
  | nil =>
      intro n n' b b' _ _
      simp [moreChunks]
  | cons a l ih =>
      intro n n' b b' hn hb
      simp only [moreChunks]
      by_cases hfull' : maxCount ≤ n' ∨ maxWeight < b' + w a
      · rw [if_pos hfull']
        by_cases hfull : maxCount ≤ n ∨ maxWeight < b + w a
        · rw [if_pos hfull]
          omega
        · -- Only the fuller chunk closes: its successor starts with `a` alone.
          rw [if_neg hfull]
          have hstart := ih (Nat.le_add_left 1 n) (Nat.le_add_left (w a) b)
          omega
      · have hfull : ¬ (maxCount ≤ n ∨ maxWeight < b + w a) := by omega
        rw [if_neg hfull', if_neg hfull]
        exact ih (by omega) (by omega)

/-- A fitting slice does not close the chunk it starts. -/
theorem moreChunks_append_of_fits (l : List α) :
    ∀ (s : List α) {n b : Nat}, n + s.length ≤ maxCount → b + (s.map w).sum ≤ maxWeight →
      moreChunks w maxCount maxWeight n b (s ++ l) =
        moreChunks w maxCount maxWeight (n + s.length) (b + (s.map w).sum) l := by
  intro s
  induction s with
  | nil =>
      intro n b _ _
      simp
  | cons a s ih =>
      intro n b hn hb
      simp only [List.length_cons] at hn
      simp only [List.map_cons, List.sum_cons] at hb
      have hopen : ¬ (maxCount ≤ n ∨ maxWeight < b + w a) := by omega
      have hrest := ih (n := n + 1) (b := b + w a) (by omega) (by omega)
      have hcount : n + 1 + s.length = n + (s.length + 1) := by omega
      rw [hcount] at hrest
      simpa [moreChunks, hopen, Nat.add_assoc] using hrest

/-- Whatever is open, at most one further chunk is opened for a list beyond the list's own count. -/
theorem moreChunks_le_chunkCount (n b : Nat) (hn : 0 < n) (l : List α) :
    moreChunks w maxCount maxWeight n b l ≤ chunkCount w maxCount maxWeight l := by
  cases l with
  | nil => simp [moreChunks]
  | cons a l =>
      simp only [moreChunks, chunkCount]
      split
      · exact le_refl _
      · exact (moreChunks_mono l (by omega) (by omega)).2

/-- A fitting slice in front costs at most one chunk. -/
theorem chunkCount_append_le {s : List α} (hs : ChunkFits w maxCount maxWeight s) (l : List α) :
    chunkCount w maxCount maxWeight (s ++ l) ≤ 1 + chunkCount w maxCount maxWeight l := by
  cases s with
  | nil => simp
  | cons a s =>
      have hmore : moreChunks w maxCount maxWeight 1 (w a) (s ++ l) ≤
          chunkCount w maxCount maxWeight l := by
        rcases hs with hone | ⟨hcount, hweight⟩
        · have hnil : s = [] := by simpa using hone
          subst hnil
          exact moreChunks_le_chunkCount 1 (w a) (by omega) l
        · simp only [List.length_cons] at hcount
          simp only [List.map_cons, List.sum_cons] at hweight
          rw [moreChunks_append_of_fits l s (by omega) hweight]
          exact moreChunks_le_chunkCount _ _ (by omega) l
      rw [List.cons_append, chunkCount]
      omega

theorem chunkCount_flatten_le :
    ∀ {slices : List (List α)}, (∀ s ∈ slices, ChunkFits w maxCount maxWeight s) →
      chunkCount w maxCount maxWeight slices.flatten ≤ slices.length := by
  intro slices
  induction slices with
  | nil =>
      intro _
      exact le_refl _
  | cons s slices ih =>
      intro h
      have hrest := ih (fun t ht => h t (by simp [ht]))
      calc chunkCount w maxCount maxWeight (s :: slices).flatten
          ≤ 1 + chunkCount w maxCount maxWeight slices.flatten :=
            chunkCount_append_le (h s (by simp)) _
        _ ≤ (s :: slices).length := by
            simp only [List.length_cons]
            omega

/-- The greedy cut is a smallest one. -/
theorem length_greedyChunks_le_iff {l : List α} {k : Nat} :
    (greedyChunks w maxCount maxWeight l).length ≤ k ↔ Cuttable w maxCount maxWeight k l := by
  constructor
  · intro h
    exact ⟨_, flatten_greedyChunks l, h, fun s hs => (mem_greedyChunks hs).2⟩
  · rintro ⟨slices, rfl, hlen, hfits⟩
    rw [length_greedyChunks]
    exact (chunkCount_flatten_le hfits).trans hlen

/-- The least number of slices within the caps the list can be cut into. -/
def SliceCount (w : α → Nat) (maxCount maxWeight : Nat) (l : List α) (k : Nat) : Prop :=
  ∀ j, Cuttable w maxCount maxWeight j l ↔ k ≤ j

theorem sliceCount_greedyChunks (l : List α) :
    SliceCount w maxCount maxWeight l (greedyChunks w maxCount maxWeight l).length :=
  fun _ => length_greedyChunks_le_iff.symm

theorem SliceCount.unique {l : List α} {k k' : Nat} (h : SliceCount w maxCount maxWeight l k)
    (h' : SliceCount w maxCount maxWeight l k') : k = k' :=
  Nat.le_antisymm ((h k').1 ((h' k').2 (Nat.le_refl k'))) ((h' k).1 ((h k).2 (Nat.le_refl k)))

/-! ## Where the loop cuts -/

/-- Going on only adds to the open chunk and behind it. -/
theorem chunks_foldl_extend :
    ∀ (l : List α) {st : ChunkState α}, st.current ≠ [] →
      ∃ more rest, (l.foldl (chunkStep w maxCount maxWeight) st).chunks ++
        [(l.foldl (chunkStep w maxCount maxWeight) st).current] =
          st.chunks ++ (st.current ++ more) :: rest := by
  intro l
  induction l with
  | nil => exact fun {st} _ => ⟨[], [], by simp⟩
  | cons a l ih =>
      intro st hne
      rw [List.foldl_cons]
      by_cases hclose : st.current ≠ [] ∧
          (maxCount ≤ st.current.length ∨ maxWeight < st.weight + w a)
      · obtain ⟨more, rest, h⟩ := @ih ⟨st.chunks ++ [st.current], [a], w a⟩ (by simp)
        exact ⟨[], ([a] ++ more) :: rest, by rw [chunkStep, if_pos hclose, h]; simp⟩
      · obtain ⟨more, rest, h⟩ :=
          @ih { st with current := st.current ++ [a], weight := st.weight + w a } (by simp)
        exact ⟨a :: more, rest, by rw [chunkStep, if_neg hclose, h]; simp⟩

/-- Two ways of ending a list inside a cut of it end in the same piece. -/
theorem length_eq_of_flatten {front front' back back' : List (List α)} {s s' t t' : List α}
    (hcut : front ++ (s ++ t) :: back = front' ++ (s' ++ t') :: back')
    (hflat : front.flatten ++ s = front'.flatten ++ s') (hs : s ≠ []) (hs' : s' ≠ []) :
    front.length = front'.length := by
  have hlen := congrArg List.length hflat
  have hpos := List.length_pos_of_ne_nil hs
  have hpos' := List.length_pos_of_ne_nil hs'
  simp only [List.length_append] at hlen
  rcases List.append_eq_append_iff.1 hcut with ⟨mid, rfl, hmid⟩ | ⟨mid, rfl, hmid⟩
  · cases mid with
    | nil => simp
    | cons p mid =>
        obtain ⟨rfl, -⟩ := List.cons.inj hmid
        simp only [List.flatten_append, List.flatten_cons, List.length_append] at hlen
        omega
  · cases mid with
    | nil => simp
    | cons p mid =>
        obtain ⟨rfl, -⟩ := List.cons.inj hmid
        simp only [List.flatten_append, List.flatten_cons, List.length_append] at hlen
        omega

/-- Up to an item of its chunk number `front.length + 1` a list needs as many slices. -/
theorem sliceCount_prefix {l s t : List α} {front back : List (List α)}
    (h : greedyChunks w maxCount maxWeight l = front ++ (s ++ t) :: back) (hs : s ≠ []) :
    SliceCount w maxCount maxWeight (front.flatten ++ s) (front.length + 1) := by
  have hl : l = (front.flatten ++ s) ++ (t ++ back.flatten) := by
    rw [← flatten_greedyChunks l, h]
    simp
  have hne : front.flatten ++ s ≠ [] := by simp [hs]
  have hinv : ChunkInv w maxCount maxWeight (front.flatten ++ s) _ := chunkInv_run _
  have hopen := hinv.current_ne hne
  -- Going on from there, the loop keeps the chunks it has closed.
  obtain ⟨more, rest, hmore⟩ : ∃ more rest, _ ++ [_] = _ ++ (_ ++ more) :: rest :=
    chunks_foldl_extend (t ++ back.flatten) hopen
  rw [← List.foldl_append, ← hl] at hmore
  have hlne : l ≠ [] := by
    rw [hl]
    simp [hs]
  rw [greedyChunks, if_neg (by simpa using hlne), hmore] at h
  have hcount := length_eq_of_flatten h hinv.flatten_eq hopen hs
  have hprefix : SliceCount w maxCount maxWeight (front.flatten ++ s) _ :=
    sliceCount_greedyChunks (front.flatten ++ s)
  rwa [greedyChunks, if_neg (by simpa using hne), List.length_append, hcount] at hprefix

/-- While the open chunk fits, the loop only adds to it. -/
theorem foldl_chunkStep_of_fits :
    ∀ (l : List α) {st : ChunkState α}, (st.current ++ l).length ≤ maxCount →
      st.weight + (l.map w).sum ≤ maxWeight →
        l.foldl (chunkStep w maxCount maxWeight) st =
          ⟨st.chunks, st.current ++ l, st.weight + (l.map w).sum⟩ := by
  intro l
  induction l with
  | nil =>
      intro st _ _
      simp
  | cons a l ih =>
      intro st hcount hweight
      have hkeep : chunkStep w maxCount maxWeight st a =
          { st with current := st.current ++ [a], weight := st.weight + w a } := by
        refine if_neg (fun hclose => ?_)
        rw [List.length_append, List.length_cons] at hcount
        rw [List.map_cons, List.sum_cons] at hweight
        rcases hclose.2 with hfull | hheavy
        · omega
        · omega
      rw [List.foldl_cons, hkeep, ih (by simpa using hcount) (by simpa [Nat.add_assoc] using hweight)]
      simp [Nat.add_assoc]

/-- The first item of the slice after it would break a cap. -/
def ClosedBy (w : α → Nat) (maxCount maxWeight : Nat) (s t : List α) : Prop :=
  ∃ a ∈ t.head?, maxCount ≤ s.length ∨ maxWeight < (s.map w).sum + w a

theorem ClosedBy.append {s t : List α} (h : ClosedBy w maxCount maxWeight s t) (u : List α) :
    ClosedBy w maxCount maxWeight s (t ++ u) := by
  obtain ⟨a, ha, hcap⟩ := h
  refine ⟨a, ?_, hcap⟩
  rw [List.head?_append, Option.mem_def.1 ha]
  rfl

/-- One round keeps every chunk closed by the one after it, the open chunk included. -/
theorem closedBy_step {seen : List α} {st : ChunkState α}
    (hinv : ChunkInv w maxCount maxWeight seen st)
    (h : (st.chunks ++ [st.current]).IsChain (ClosedBy w maxCount maxWeight)) (a : α) :
    ((chunkStep w maxCount maxWeight st a).chunks ++
      [(chunkStep w maxCount maxWeight st a).current]).IsChain (ClosedBy w maxCount maxWeight) := by
  unfold chunkStep
  split
  · -- The item that breaks the cap is the first of the next chunk.
    rename_i hclose
    refine List.isChain_append.2 ⟨h, List.isChain_singleton _, fun s hs t ht => ?_⟩
    rw [List.getLast?_concat] at hs
    cases hs
    cases ht
    exact ⟨a, rfl, hinv.weight_eq ▸ hclose.2⟩
  · -- The open chunk grows at its end, so its first item stays.
    obtain ⟨hclosed, -, hlast⟩ := List.isChain_append.1 h
    refine List.isChain_append.2 ⟨hclosed, List.isChain_singleton _, fun s hs t ht => ?_⟩
    cases ht
    exact (hlast s hs st.current rfl).append [a]

theorem closedBy_foldl : ∀ (l : List α) {seen : List α} {st : ChunkState α},
    ChunkInv w maxCount maxWeight seen st →
    (st.chunks ++ [st.current]).IsChain (ClosedBy w maxCount maxWeight) →
    ((l.foldl (chunkStep w maxCount maxWeight) st).chunks ++
      [(l.foldl (chunkStep w maxCount maxWeight) st).current]).IsChain
        (ClosedBy w maxCount maxWeight) := by
  intro l
  induction l with
  | nil => exact fun _ h => h
  | cons a l ih =>
      intro seen st hinv h
      exact ih (chunkInv_step hinv a) (closedBy_step hinv h a)

/-- Every chunk is closed by the one after it. -/
theorem closedBy_greedyChunks (l : List α) :
    (greedyChunks w maxCount maxWeight l).IsChain (ClosedBy w maxCount maxWeight) := by
  unfold greedyChunks
  split
  · exact List.isChain_nil
  · exact closedBy_foldl l chunkInv_start (List.isChain_singleton _)

theorem closedBy_of_greedyChunks_eq {l s t : List α} {front back : List (List α)}
    (h : greedyChunks w maxCount maxWeight l = front ++ s :: t :: back) :
    ClosedBy w maxCount maxWeight s t := by
  have hchain : (front ++ s :: t :: back).IsChain (ClosedBy w maxCount maxWeight) :=
    h ▸ closedBy_greedyChunks l
  exact (List.isChain_append_cons_cons.1 hchain).2.1

/-- Every chunk but the last is full, or too heavy for the item after it. -/
theorem closed_of_mem_dropLast {l s : List α}
    (hs : s ∈ (greedyChunks w maxCount maxWeight l).dropLast) :
    ∃ a, s ++ [a] <:+: l ∧ (maxCount ≤ s.length ∨ maxWeight < (s.map w).sum + w a) := by
  have hne : greedyChunks w maxCount maxWeight l ≠ [] := by
    intro hnil
    simp [hnil] at hs
  obtain ⟨front, rest, hsplit⟩ := List.append_of_mem hs
  have hchunks := List.dropLast_append_getLast hne
  rw [hsplit, List.append_assoc, List.cons_append] at hchunks
  obtain ⟨t, back, hnext⟩ := List.exists_cons_of_ne_nil
    (List.concat_ne_nil ((greedyChunks w maxCount maxWeight l).getLast hne) rest)
  rw [hnext] at hchunks
  obtain ⟨a, ha, hcap⟩ := closedBy_of_greedyChunks_eq hchunks.symm
  obtain ⟨t', rfl⟩ := List.head?_eq_some_iff.1 ha
  refine ⟨a, ⟨front.flatten, t' ++ back.flatten, ?_⟩, hcap⟩
  have hflat : (greedyChunks w maxCount maxWeight l).flatten = l := flatten_greedyChunks l
  rw [← hflat, ← hchunks]
  simp

/-! ## The cut without the loop -/

/-- A cut into fitting slices, each of which the first item of the next would break. -/
structure MaximalCut (w : α → Nat) (maxCount maxWeight : Nat) (l : List α) (slices : List (List α)) :
    Prop where
  flatten_eq : slices.flatten = l
  fits {s : List α} : s ∈ slices → s ≠ [] ∧ ChunkFits w maxCount maxWeight s
  closed : slices.IsChain (ClosedBy w maxCount maxWeight)

theorem maximalCut_greedyChunks (l : List α) :
    MaximalCut w maxCount maxWeight l (greedyChunks w maxCount maxWeight l) :=
  ⟨flatten_greedyChunks l, fun hs => mem_greedyChunks hs, closedBy_greedyChunks l⟩

/-- A fitting slice goes into the chunk that its first item opens. -/
theorem foldl_chunkStep_slice {a : α} {l : List α} (hfits : ChunkFits w maxCount maxWeight (a :: l))
    (chunks : List (List α)) :
    l.foldl (chunkStep w maxCount maxWeight) ⟨chunks, [a], w a⟩ =
      ⟨chunks, a :: l, ((a :: l).map w).sum⟩ := by
  rcases hfits with hone | ⟨hcount, hweight⟩
  · have hnil : l = [] := List.length_eq_zero_iff.1 (by rw [List.length_cons] at hone; omega)
    simp [hnil]
  · rw [foldl_chunkStep_of_fits l (by simpa using hcount) (by simpa using hweight)]
    simp

/-- By induction on the slices: the loop closes the open one where the next begins. -/
theorem foldl_chunkStep_cut :
    ∀ {slices : List (List α)} {s : List α} (chunks : List (List α)),
      (∀ t ∈ s :: slices, t ≠ [] ∧ ChunkFits w maxCount maxWeight t) →
      (s :: slices).IsChain (ClosedBy w maxCount maxWeight) →
      (slices.flatten.foldl (chunkStep w maxCount maxWeight) ⟨chunks, s, (s.map w).sum⟩).chunks ++
        [(slices.flatten.foldl (chunkStep w maxCount maxWeight)
          ⟨chunks, s, (s.map w).sum⟩).current] = chunks ++ s :: slices := by
  intro slices
  induction slices with
  | nil => exact fun chunks _ _ => rfl
  | cons t slices ih =>
      intro s chunks hfits hchain
      obtain ⟨hclosed, hrest⟩ := List.isChain_cons_cons.1 hchain
      obtain ⟨a, ha, hcap⟩ := hclosed
      obtain ⟨t', rfl⟩ := List.head?_eq_some_iff.1 ha
      have hclose : chunkStep w maxCount maxWeight ⟨chunks, s, (s.map w).sum⟩ a =
          ⟨chunks ++ [s], [a], w a⟩ := if_pos ⟨(hfits s List.mem_cons_self).1, hcap⟩
      have hslice := (hfits (a :: t') (by simp)).2
      rw [List.flatten_cons, List.foldl_append, List.foldl_cons, hclose,
        foldl_chunkStep_slice hslice]
      rw [ih (chunks ++ [s]) (fun u hu => hfits u (List.mem_cons_of_mem s hu)) hrest]
      simp

/-- There is one such cut, the loop's. -/
theorem MaximalCut.eq_greedyChunks {l : List α} {slices : List (List α)}
    (h : MaximalCut w maxCount maxWeight l slices) :
    slices = greedyChunks w maxCount maxWeight l := by
  obtain ⟨rfl, hfits, hchain⟩ := h
  cases slices with
  | nil => rfl
  | cons s slices =>
      obtain ⟨hne, hslice⟩ := hfits List.mem_cons_self
      obtain ⟨a, s, rfl⟩ := List.exists_cons_of_ne_nil hne
      have hfirst : chunkStep w maxCount maxWeight {} a = ⟨[], [a], w a⟩ := by simp [chunkStep]
      have hcut := foldl_chunkStep_cut [] (fun t ht => hfits ht) hchain
      rw [greedyChunks, if_neg (by simp), List.flatten_cons, List.foldl_append, List.foldl_cons,
        hfirst, foldl_chunkStep_slice hslice]
      exact hcut.symm

/-- An item that does not fit any more starts the second of two chunks. -/
theorem greedyChunks_two {l l' : List α} {a : α} (hne : l ≠ []) (hcount : l.length ≤ maxCount)
    (hweight : (l.map w).sum ≤ maxWeight) (hover : maxWeight < (l.map w).sum + w a)
    (hcount' : (a :: l').length ≤ maxCount) (hweight' : ((a :: l').map w).sum ≤ maxWeight) :
    greedyChunks w maxCount maxWeight (l ++ a :: l') = [l, a :: l'] := by
  have hcut : MaximalCut w maxCount maxWeight (l ++ a :: l') [l, a :: l'] := by
    refine ⟨by simp, fun {s} hs => ?_, ?_⟩
    · rcases List.mem_pair.1 hs with rfl | rfl
      · exact ⟨hne, Or.inr ⟨hcount, hweight⟩⟩
      · exact ⟨List.cons_ne_nil _ _, Or.inr ⟨hcount', hweight'⟩⟩
    · exact List.isChain_pair.2 ⟨a, rfl, Or.inr hover⟩
  exact hcut.eq_greedyChunks.symm

/-! ## Dropping items -/

theorem ChunkFits.sublist {s t : List α} (h : ChunkFits w maxCount maxWeight t)
    (hst : s.Sublist t) : ChunkFits w maxCount maxWeight s := by
  have hlen := hst.length_le
  rcases h with hone | ⟨hcount, hweight⟩
  · exact Or.inl (by omega)
  · right
    have hsum : (s.map w).sum ≤ (t.map w).sum := (hst.map w).sum_le_sum (by simp)
    omega

/-- Dropping items never makes more slices necessary. -/
theorem Cuttable.filter {k : Nat} {l : List α} (h : Cuttable w maxCount maxWeight k l)
    (p : α → Bool) : Cuttable w maxCount maxWeight k (l.filter p) := by
  obtain ⟨slices, rfl, hlen, hfits⟩ := h
  refine ⟨slices.map (List.filter p), by rw [List.filter_flatten], by simpa using hlen, ?_⟩
  intro s hs
  obtain ⟨t, ht, rfl⟩ := List.mem_map.1 hs
  exact (hfits t ht).sublist List.filter_sublist

end Lib
end Girder
