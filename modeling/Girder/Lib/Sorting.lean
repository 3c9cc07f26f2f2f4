import Mathlib.Data.List.Sort
import Mathlib.Data.List.Nodup

/-!
# Sorting — lists ordered by a key, and binary search

`sortAsc` and `sortDesc` order a list by a key.  When the keys are distinct the result is
determined: a strictly ordered rearrangement *is* the sorted list (`sortAsc_eq_of_perm`), which is
how sorted lists are computed below.  `bsearch` is the usual half-interval search over an indexed
order.
-/

namespace Girder
namespace Lib

universe u v

/-! ## Sorting by a key -/

section SortBy

variable {α : Type u} {κ : Type v} [LinearOrder κ]

/-- Ascending by key (stable). -/
def sortAsc (key : α → κ) (l : List α) : List α :=
  l.insertionSort (fun a b => key a ≤ key b)

/-- Descending by key: ascending by the reversed key. -/
def sortDesc (key : α → κ) (l : List α) : List α :=
  sortAsc (fun a => OrderDual.toDual (key a)) l

variable (key : α → κ)

theorem sortAsc_perm (l : List α) : (sortAsc key l).Perm l :=
  List.perm_insertionSort _ l

@[simp]
theorem mem_sortAsc {l : List α} {a : α} : a ∈ sortAsc key l ↔ a ∈ l :=
  (sortAsc_perm key l).mem_iff

theorem sortDesc_perm (l : List α) : (sortDesc key l).Perm l :=
  sortAsc_perm _ l

@[simp]
theorem mem_sortDesc {l : List α} {a : α} : a ∈ sortDesc key l ↔ a ∈ l :=
  mem_sortAsc _

theorem sortAsc_pairwise (l : List α) : (sortAsc key l).Pairwise (fun a b => key a ≤ key b) := by
  have : Std.Total (fun a b : α => key a ≤ key b) := ⟨fun a b => le_total (key a) (key b)⟩
  have : IsTrans α (fun a b => key a ≤ key b) := ⟨fun _ _ _ hab hbc => le_trans hab hbc⟩
  exact List.pairwise_insertionSort _ l

variable {key}

/-- Distinct keys make the order strict. -/
theorem sortAsc_pairwise_lt {l : List α} (hd : (l.map key).Nodup) :
    (sortAsc key l).Pairwise (fun a b => key a < key b) := by
  have hne : (sortAsc key l).Pairwise (fun a b => key a ≠ key b) :=
    List.pairwise_map.1 (((sortAsc_perm key l).map key).nodup_iff.2 hd)
  exact (sortAsc_pairwise key l).imp₂ (fun a b hle hne => lt_of_le_of_ne hle hne) hne

theorem nodup_map_of_pairwise_lt {l : List α} (h : l.Pairwise (fun a b => key a < key b)) :
    (l.map key).Nodup :=
  List.pairwise_map.2 (h.imp (fun hlt => ne_of_lt hlt))

/-- Strictly ordered lists with the same elements are equal. -/
theorem eq_of_perm_of_pairwise_lt {l l' : List α} (hp : l.Perm l')
    (h : l.Pairwise (fun a b => key a < key b)) (h' : l'.Pairwise (fun a b => key a < key b)) :
    l = l' :=
  hp.eq_of_pairwise (fun _ _ _ _ hab hba => absurd hba (lt_asymm hab)) h h'

/-- A strictly ordered rearrangement is the sorted list. -/
theorem sortAsc_eq_of_perm {l l' : List α} (hp : l.Perm l')
    (hs : l'.Pairwise (fun a b => key a < key b)) : sortAsc key l = l' := by
  have hd : (l.map key).Nodup := (hp.map key).nodup_iff.2 (nodup_map_of_pairwise_lt hs)
  exact eq_of_perm_of_pairwise_lt ((sortAsc_perm key l).trans hp) (sortAsc_pairwise_lt hd) hs

theorem sortAsc_congr {l l' : List α} (hp : l.Perm l') (hd : (l.map key).Nodup) :
    sortAsc key l = sortAsc key l' :=
  sortAsc_eq_of_perm (hp.trans (sortAsc_perm key l').symm)
    (sortAsc_pairwise_lt ((hp.map key).nodup_iff.1 hd))

omit [LinearOrder κ] in
theorem nodup_map_filter {l : List α} (hd : (l.map key).Nodup) (p : α → Bool) :
    ((l.filter p).map key).Nodup :=
  hd.sublist ((List.filter_sublist).map key)

/-- Filtering and sorting commute. -/
theorem sortAsc_filter {l : List α} (hd : (l.map key).Nodup) (p : α → Bool) :
    sortAsc key (l.filter p) = (sortAsc key l).filter p :=
  sortAsc_eq_of_perm ((sortAsc_perm key l).filter p).symm ((sortAsc_pairwise_lt hd).filter p)

/-- A map that keeps the sort key commutes with sorting. -/
theorem sortAsc_map {β : Type*} {key' : β → κ} {f : α → β} {l : List α}
    (h : ∀ a ∈ l, key' (f a) = key a) : (sortAsc key l).map f = sortAsc key' (l.map f) := by
  refine List.map_insertionSort _ _ f l ?_
  intro a ha b hb
  rw [h a ha, h b hb]

omit [LinearOrder κ] in
/-- An ordered list whose elements satisfying `p` come before the others falls into the two
parts. -/
theorem eq_filter_append_of_pairwise {r : α → α → Prop} (hasymm : ∀ a b, r a b → ¬ r b a)
    {p : α → Bool} :
    ∀ {l : List α}, l.Pairwise r → (∀ a ∈ l, ∀ b ∈ l, p a = true → p b = false → r a b) →
      l = l.filter p ++ l.filter (fun a => !p a) := by
  intro l
  induction l with
  | nil => exact fun _ _ => rfl
  | cons a l ih =>
      intro hsorted hbefore
      obtain ⟨hhead, htail⟩ := List.pairwise_cons.1 hsorted
      have hrest := ih htail (fun b hb c hc => hbefore b (by simp [hb]) c (by simp [hc]))
      cases hpa : p a with
      | true => simpa [hpa] using hrest
      | false =>
          -- The head is one of the others, so all of the list is.
          have hnone : ∀ b ∈ l, p b = false := by
            intro b hb
            by_contra hpb
            have hba := hbefore b (by simp [hb]) a (by simp) (by simpa using hpb) hpa
            exact hasymm b a hba (hhead b hb)
          have hfirst : l.filter p = [] :=
            List.filter_eq_nil_iff.2 (fun b hb => by simp [hnone b hb])
          have hsecond : l.filter (fun b => !p b) = l :=
            List.filter_eq_self.2 (fun b hb => by simp [hnone b hb])
          simp [hpa, hfirst, hsecond]

section Desc

omit [LinearOrder κ] in
theorem nodup_map_toDual {l : List α} (hd : (l.map key).Nodup) :
    (l.map (fun a => OrderDual.toDual (key a))).Nodup := by
  have h : (l.map key).map OrderDual.toDual = l.map (fun a => OrderDual.toDual (key a)) := by simp
  rw [← h]
  exact hd.map OrderDual.toDual.injective

theorem sortDesc_pairwise_gt {l : List α} (hd : (l.map key).Nodup) :
    (sortDesc key l).Pairwise (fun a b => key b < key a) :=
  sortAsc_pairwise_lt (nodup_map_toDual hd)

theorem sortDesc_eq_of_perm {l l' : List α} (hp : l.Perm l')
    (hs : l'.Pairwise (fun a b => key b < key a)) : sortDesc key l = l' :=
  sortAsc_eq_of_perm hp hs

theorem sortDesc_congr {l l' : List α} (hp : l.Perm l') (hd : (l.map key).Nodup) :
    sortDesc key l = sortDesc key l' :=
  sortAsc_congr hp (nodup_map_toDual hd)

theorem sortDesc_filter {l : List α} (hd : (l.map key).Nodup) (p : α → Bool) :
    sortDesc key (l.filter p) = (sortDesc key l).filter p :=
  sortAsc_filter (nodup_map_toDual hd) p

theorem sortDesc_eq_reverse_sortAsc {l : List α} (hd : (l.map key).Nodup) :
    sortDesc key l = (sortAsc key l).reverse := by
  refine sortDesc_eq_of_perm ?_ ?_
  · exact (sortAsc_perm key l).symm.trans (List.reverse_perm _).symm
  · exact List.pairwise_reverse.2 (sortAsc_pairwise_lt hd)

/-- One more element goes between those above it and those below it. -/
theorem sortDesc_cons {l : List α} {x : α} (hd : ((x :: l).map key).Nodup) :
    sortDesc key (x :: l) =
      (sortDesc key l).filter (fun a => decide (key x < key a)) ++
        x :: (sortDesc key l).filter (fun a => decide (key a < key x)) := by
  have hd' : (l.map key).Nodup := (List.nodup_cons.1 hd).2
  have hx : ∀ a ∈ l, key a ≠ key x := by
    intro a ha heq
    exact (List.nodup_cons.1 hd).1 (heq ▸ List.mem_map_of_mem ha)
  have hsorted := sortDesc_pairwise_gt hd'
  refine sortDesc_eq_of_perm ?_ ?_
  · have hsplit : (sortDesc key l).filter (fun a => !decide (key x < key a)) =
        (sortDesc key l).filter (fun a => decide (key a < key x)) := by
      refine List.filter_congr (fun a ha => ?_)
      have hne : key a ≠ key x := hx a ((mem_sortDesc key).1 ha)
      rcases lt_or_gt_of_ne hne with h | h
      · simp [h, lt_asymm h]
      · simp [h, lt_asymm h]
    have hperm := List.filter_append_perm (fun a => decide (key x < key a)) (sortDesc key l)
    rw [hsplit] at hperm
    exact ((hperm.trans (sortDesc_perm key l)).symm.cons x).trans List.perm_middle.symm
  · refine List.pairwise_append.2 ⟨hsorted.filter _, ?_, ?_⟩
    · refine List.pairwise_cons.2 ⟨?_, hsorted.filter _⟩
      intro a ha
      simpa using (List.mem_filter.1 ha).2
    · intro a ha b hb
      have hxa : key x < key a := by simpa using (List.mem_filter.1 ha).2
      rcases List.mem_cons.1 hb with rfl | hb
      · exact hxa
      · have hbx : key b < key x := by simpa using (List.mem_filter.1 hb).2
        exact hbx.trans hxa

end Desc

end SortBy

/-! ## Binary search -/

/-- Half-interval search for an index where `cmp` answers `eq`; `fuel` bounds the rounds. -/
def bsearch (cmp : Nat → Ordering) : Nat → Nat → Nat → Option Nat
  | 0, _, _ => none
  | fuel + 1, lo, hi =>
      if lo < hi then
        let mid := (lo + hi) / 2
        match cmp mid with
        | .lt => bsearch cmp fuel (mid + 1) hi
        | .gt => bsearch cmp fuel lo mid
        | .eq => some mid
      else
        none

theorem bsearch_sound {cmp : Nat → Ordering} {fuel lo hi i : Nat}
    (h : bsearch cmp fuel lo hi = some i) : lo ≤ i ∧ i < hi ∧ cmp i = .eq := by
  induction fuel generalizing lo hi with
  | zero => simp [bsearch] at h
  | succ fuel ih =>
      unfold bsearch at h
      split at h
      case isFalse => simp at h
      case isTrue hlt =>
        simp only at h
        split at h
        · obtain ⟨h1, h2, h3⟩ := ih h
          exact ⟨by omega, h2, h3⟩
        · obtain ⟨h1, h2, h3⟩ := ih h
          exact ⟨h1, by omega, h3⟩
        · rename_i hmid
          simp only [Option.some.injEq] at h
          subst h
          exact ⟨by omega, by omega, hmid⟩

/-- On an ordered interval the search finds the index that is there. -/
theorem bsearch_complete {cmp : Nat → Ordering} {i : Nat} (hbelow : ∀ j, j < i → cmp j = .lt)
    (heq : cmp i = .eq) (habove : ∀ j, i < j → cmp j = .gt) {fuel lo hi : Nat}
    (hlo : lo ≤ i) (hhi : i < hi) (hfuel : hi - lo ≤ fuel) :
    bsearch cmp fuel lo hi = some i := by
  induction fuel generalizing lo hi with
  | zero => omega
  | succ fuel ih =>
      have hlt : lo < hi := by omega
      unfold bsearch
      simp only [hlt, if_true]
      rcases Nat.lt_trichotomy ((lo + hi) / 2) i with hmid | hmid | hmid
      · rw [hbelow _ hmid]
        exact ih (by omega) hhi (by omega)
      · rw [hmid, heq]
      · rw [habove _ hmid]
        exact ih hlo hmid (by omega)

/-- Compare the element at an index with `x`. -/
def compareAt {α : Type u} [Ord α] (l : List α) (x : α) (i : Nat) : Ordering :=
  match l[i]? with
  | some a => compare a x
  | none => .gt

section CompareAt

variable {α : Type u} [LinearOrder α] {l : List α} {x : α}

/-- In an ascending list the search finds the element that is there. -/
theorem bsearch_compareAt (h : l.Pairwise (· < ·)) {i : Nat} (hi : l[i]? = some x) :
    bsearch (compareAt l x) l.length 0 l.length = some i := by
  obtain ⟨hlt, hx⟩ := List.getElem?_eq_some_iff.1 hi
  have horder : ∀ (j k : Nat) (hj : j < l.length) (hk : k < l.length), j < k → l[j] < l[k] :=
    fun j k hj hk hjk => List.pairwise_iff_getElem.1 h j k hj hk hjk
  refine bsearch_complete (fun j hj => ?_) ?_ (fun j hj => ?_) (Nat.zero_le i) hlt (by omega)
  · have hjl : j < l.length := by omega
    rw [compareAt, List.getElem?_eq_getElem hjl]
    exact compare_lt_iff_lt.2 (hx ▸ horder j i hjl hlt hj)
  · rw [compareAt, hi]
    exact compare_eq_iff_eq.2 rfl
  · unfold compareAt
    cases hget : l[j]? with
    | none => rfl
    | some a =>
        obtain ⟨hjl, ha⟩ := List.getElem?_eq_some_iff.1 hget
        exact compare_gt_iff_gt.2 (hx ▸ ha ▸ horder i j hlt hjl hj)

theorem bsearch_compareAt_none (hx : x ∉ l) (fuel lo hi : Nat) :
    bsearch (compareAt l x) fuel lo hi = none := by
  cases hfind : bsearch (compareAt l x) fuel lo hi with
  | none => rfl
  | some i =>
      obtain ⟨-, -, heq⟩ := bsearch_sound hfind
      unfold compareAt at heq
      cases hget : l[i]? with
      | none => simp [hget] at heq
      | some a =>
          rw [hget] at heq
          have ha : a = x := compare_eq_iff_eq.1 heq
          exact absurd (ha ▸ List.mem_of_getElem? hget) hx

theorem isSome_bsearch_compareAt (h : l.Pairwise (· < ·)) :
    (bsearch (compareAt l x) l.length 0 l.length).isSome = true ↔ x ∈ l := by
  constructor
  · intro hsome
    by_contra hx
    rw [bsearch_compareAt_none hx] at hsome
    exact absurd hsome (by simp)
  · intro hx
    obtain ⟨i, hi⟩ := List.mem_iff_getElem?.1 hx
    rw [bsearch_compareAt h hi]
    rfl

end CompareAt

end Lib
end Girder
