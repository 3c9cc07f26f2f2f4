import Mathlib.Data.List.Induction
import Girder.Lib.Sorting

/-!
# TopK — keeping the best few of a stream

A bounded heap keeps the `limit` smallest elements of a stream: while it has room it takes
everything, and once full it takes an element only in exchange for its worst one.  The heap is
represented by its elements in ascending order, so its top (the worst) is the last one.

`foldl_offer_eq_take` states what the heap holds after any stream with distinct keys, and
`foldl_offer_of_worse` that a full heap ignores a stream of worse elements.
-/

namespace Girder
namespace Lib

universe u v

variable {α : Type u} {κ : Type v} [LinearOrder κ]

/-- Add an element to the heap. -/
def heapPush (key : α → κ) (heap : List α) (x : α) : List α :=
  heap.orderedInsert (fun a b => key a ≤ key b) x

/-- Offer an element to a heap of at most `limit` elements. -/
def heapOffer (key : α → κ) (limit : Nat) (heap : List α) (x : α) : List α :=
  if heap.length < limit then
    heapPush key heap x
  else
    match heap.getLast? with
    | none => heap
    | some worst => if key x < key worst then heapPush key heap.dropLast x else heap

variable {key : α → κ}

theorem mem_of_mem_heapOffer {limit : Nat} {heap : List α} {x y : α}
    (h : y ∈ heapOffer key limit heap x) : y = x ∨ y ∈ heap := by
  unfold heapOffer heapPush at h
  split at h
  · simpa using h
  · split at h
    · exact Or.inr h
    · split at h
      · rcases (List.mem_orderedInsert _).1 h with rfl | hmem
        · exact Or.inl rfl
        · exact Or.inr (List.dropLast_subset _ hmem)
      · exact Or.inr h

/-- An element that beats the `n`-th displaces it. -/
theorem take_orderedInsert_of_lt {x w : α} :
    ∀ {n : Nat} {s : List α}, s[n]? = some w → key x < key w →
      (s.orderedInsert (fun a b => key a ≤ key b) x).take (n + 1) =
        (s.take n).orderedInsert (fun a b => key a ≤ key b) x := by
  intro n s
  induction s generalizing n with
  | nil =>
      intro hw
      simp at hw
  | cons b s ih =>
      intro hw hlt
      by_cases hxb : key x ≤ key b
      · cases n with
        | zero => simp [List.orderedInsert, hxb]
        | succ n => simp [List.orderedInsert, hxb]
      · cases n with
        | zero =>
            have hbw : b = w := by simpa using hw
            subst hbw
            exact absurd hlt.le hxb
        | succ n =>
            have hw' : s[n]? = some w := by simpa using hw
            simpa [List.orderedInsert, hxb] using ih hw' hlt

/-- An element worse than the first `n` does not show among them. -/
theorem take_orderedInsert_of_worse {x : α} :
    ∀ {n : Nat} {s : List α}, n ≤ s.length → (∀ b ∈ s.take n, key b < key x) →
      (s.orderedInsert (fun a b => key a ≤ key b) x).take n = s.take n := by
  intro n s
  induction s generalizing n with
  | nil =>
      intro hn _
      have hzero : n = 0 := by simpa using hn
      simp [hzero]
  | cons b s ih =>
      intro hn hworse
      cases n with
      | zero => simp
      | succ n =>
          have hb : ¬ key x ≤ key b := not_le.2 (hworse b (by simp))
          have hrest := ih (n := n) (by simpa using hn) (fun c hc => hworse c (by simp [hc]))
          simpa [List.orderedInsert, hb] using hrest

theorem sortAsc_concat {xs : List α} {x : α} (hd : ((xs ++ [x]).map key).Nodup) :
    sortAsc key (xs ++ [x]) =
      (sortAsc key xs).orderedInsert (fun a b => key a ≤ key b) x := by
  have hperm : (xs ++ [x]).Perm (x :: xs) := List.perm_append_singleton x xs
  exact sortAsc_congr hperm hd

/-- One offer keeps the heap at the best `limit` of what was offered. -/
theorem heapOffer_take {limit : Nat} (hlimit : 0 < limit) {xs : List α} {x : α}
    (hd : ((xs ++ [x]).map key).Nodup) :
    heapOffer key limit ((sortAsc key xs).take limit) x = (sortAsc key (xs ++ [x])).take limit := by
  rw [sortAsc_concat hd]
  have hd' : (xs.map key).Nodup := by
    simp only [List.map_append, List.nodup_append] at hd
    exact hd.1
  have hxs : ∀ b ∈ xs, key b ≠ key x := by
    intro b hb heq
    simp only [List.map_append, List.map_cons, List.map_nil, List.nodup_append] at hd
    exact hd.2.2 (key b) (List.mem_map_of_mem hb) (key x) (by simp) heq
  unfold heapOffer heapPush
  by_cases hroom : (sortAsc key xs).length < limit
  · have htake : (sortAsc key xs).take limit = sortAsc key xs := List.take_of_length_le hroom.le
    have hlen : ((sortAsc key xs).orderedInsert (fun a b => key a ≤ key b) x).length ≤ limit := by
      rw [List.orderedInsert_length]
      omega
    simp [htake, hroom, List.take_of_length_le hlen]
  · obtain ⟨n, rfl⟩ : ∃ n, limit = n + 1 := ⟨limit - 1, by omega⟩
    have hn : n < (sortAsc key xs).length := by omega
    have hfull : ¬ ((sortAsc key xs).take (n + 1)).length < n + 1 := by
      rw [List.length_take]
      omega
    have hlast : ((sortAsc key xs).take (n + 1)).getLast? = some (sortAsc key xs)[n] := by
      rw [List.getLast?_eq_getElem?, List.length_take, Nat.min_eq_left (by omega)]
      simp [hn]
    have hdrop : ((sortAsc key xs).take (n + 1)).dropLast = (sortAsc key xs).take n := by
      rw [List.dropLast_eq_take, List.length_take, Nat.min_eq_left (by omega), List.take_take]
      simp
    simp only [hfull, if_false, hlast, hdrop]
    by_cases hbetter : key x < key (sortAsc key xs)[n]
    · rw [if_pos hbetter, take_orderedInsert_of_lt (List.getElem?_eq_getElem hn) hbetter]
    · rw [if_neg hbetter, take_orderedInsert_of_worse (by omega)]
      -- Everything kept is at most the worst kept, which `x` does not beat.
      intro b hb
      obtain ⟨i, hi, rfl⟩ := List.getElem_of_mem hb
      have hi' : i < n + 1 := by
        rw [List.length_take] at hi
        omega
      have hi'' : i < (sortAsc key xs).length := by omega
      have hle : key (sortAsc key xs)[i] ≤ key (sortAsc key xs)[n] := by
        rcases Nat.lt_or_eq_of_le (Nat.lt_succ_iff.1 hi') with hlt | rfl
        · exact List.pairwise_iff_getElem.1 (sortAsc_pairwise key xs) i n hi'' hn hlt
        · exact le_refl _
      have hmem : (sortAsc key xs)[i] ∈ xs := (mem_sortAsc key).1 (List.getElem_mem hi'')
      rw [List.getElem_take]
      exact lt_of_le_of_ne (hle.trans (not_lt.1 hbetter)) (hxs _ hmem)

/-- The heap holds the best `limit` elements offered so far. -/
theorem foldl_offer_eq_take {limit : Nat} (hlimit : 0 < limit) :
    ∀ {xs : List α}, (xs.map key).Nodup →
      xs.foldl (heapOffer key limit) [] = (sortAsc key xs).take limit := by
  intro xs
  induction xs using List.reverseRecOn with
  | nil => simp [sortAsc]
  | append_singleton xs x ih =>
      intro hd
      have hd' : (xs.map key).Nodup := by
        simp only [List.map_append, List.nodup_append] at hd
        exact hd.1
      rw [List.foldl_append, ih hd']
      exact heapOffer_take hlimit hd

/-- A full heap ignores what is worse than its worst element. -/
theorem foldl_offer_of_worse {limit : Nat} {heap : List α} {worst : α}
    (hfull : limit ≤ heap.length) (hworst : heap.getLast? = some worst) {xs : List α}
    (hxs : ∀ x ∈ xs, key worst ≤ key x) : xs.foldl (heapOffer key limit) heap = heap := by
  induction xs with
  | nil => rfl
  | cons x xs ih =>
      have hx : ¬ key x < key worst := not_lt.2 (hxs x (by simp))
      have hstep : heapOffer key limit heap x = heap := by
        simp [heapOffer, not_lt.2 hfull, hworst, hx]
      rw [List.foldl_cons, hstep]
      exact ih (fun y hy => hxs y (by simp [hy]))

/-! ## Two heaps of elements that stand for each other -/

section Related

variable {β : Type v} {key' : β → κ} {R : α → β → Prop}

omit [LinearOrder κ] in
/-- Related lists end alike. -/
theorem forall₂_last {l : List α} {l' : List β} (h : List.Forall₂ R l l') :
    (l = [] ∧ l' = []) ∨ ∃ xs x ys y, l = xs ++ [x] ∧ l' = ys ++ [y] ∧
      List.Forall₂ R xs ys ∧ R x y := by
  have hrev := List.forall₂_reverse_iff.2 h
  rcases List.eq_nil_or_concat l with rfl | ⟨xs, x, rfl⟩
  · exact Or.inl ⟨rfl, List.forall₂_nil_left_iff.1 h⟩
  · rcases List.eq_nil_or_concat l' with rfl | ⟨ys, y, rfl⟩
    · exact absurd (List.forall₂_nil_right_iff.1 h) (by simp)
    · rw [List.concat_eq_append, List.concat_eq_append, List.reverse_concat, List.reverse_concat,
        List.forall₂_cons] at hrev
      exact Or.inr ⟨xs, x, ys, y, List.concat_eq_append .., List.concat_eq_append ..,
        List.forall₂_reverse_iff.1 hrev.2, hrev.1⟩

theorem forall₂_heapPush (hkey : ∀ a b, R a b → key a = key' b) {heap : List α} {heap' : List β}
    (h : List.Forall₂ R heap heap') {x : α} {x' : β} (hx : R x x') :
    List.Forall₂ R (heapPush key heap x) (heapPush key' heap' x') := by
  unfold heapPush
  induction h with
  | nil => exact List.Forall₂.cons hx List.Forall₂.nil
  | @cons a b heap heap' hab htail ih =>
      rw [List.orderedInsert_cons, List.orderedInsert_cons, hkey x x' hx, hkey a b hab]
      split
      · exact List.Forall₂.cons hx (List.Forall₂.cons hab htail)
      · exact List.Forall₂.cons hab ih

/-- Offering related elements to related heaps. -/
theorem forall₂_heapOffer (hkey : ∀ a b, R a b → key a = key' b) {limit : Nat} {heap : List α}
    {heap' : List β} (h : List.Forall₂ R heap heap') {x : α} {x' : β} (hx : R x x') :
    List.Forall₂ R (heapOffer key limit heap x) (heapOffer key' limit heap' x') := by
  unfold heapOffer
  rw [h.length_eq]
  split
  · exact forall₂_heapPush hkey h hx
  · rcases forall₂_last h with ⟨rfl, rfl⟩ | ⟨xs, w, ys, w', rfl, rfl, hrest, hw⟩
    · exact List.Forall₂.nil
    · rw [List.getLast?_concat, List.getLast?_concat, List.dropLast_concat, List.dropLast_concat]
      simp only [hkey x x' hx, hkey w w' hw]
      split
      · exact forall₂_heapPush hkey hrest hx
      · exact h

end Related

end Lib
end Girder
