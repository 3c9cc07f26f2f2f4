import Girder.Lib.Sorting
import Mathlib.Data.List.Rotate

/-!
# Rotation — taking turns by a cursor

The cursor holds the key of the item served last.  The next turn goes to the first item with a
larger key, and to the first item of all when there is none.

`rotateAbove key c l` lists the items in the order of their turns from cursor `c`.  In an ordered
list a turn moves the item it serves behind all others (`rotateAbove_served`), so the turns rotate
that list (`rotateAbove_turns`), and as many of them as there are items serve each item once
(`turns_perm`).  Passing over items that need no service is the same as leaving them out
(`find?_rotateAbove`).
-/

namespace Girder
namespace Lib

universe u v

variable {α : Type u} {κ : Type v} [LinearOrder κ]

/-- The items above the cursor first, then the others. -/
def rotateAbove (key : α → κ) (c : κ) (l : List α) : List α :=
  l.filter (fun a => decide (c < key a)) ++ l.filter (fun a => !decide (c < key a))

/-- The cursor after a turn; it stays when there is nothing to serve. -/
def nextCursor (key : α → κ) (l : List α) (c : κ) : κ :=
  ((rotateAbove key c l).head?.map key).getD c

variable {key : α → κ} {c : κ} {l : List α}

theorem rotateAbove_perm (key : α → κ) (c : κ) (l : List α) : (rotateAbove key c l).Perm l :=
  List.filter_append_perm _ l

/-! ## Passing over items -/

theorem filter_rotateAbove (p : α → Bool) :
    (rotateAbove key c l).filter p = rotateAbove key c (l.filter p) := by
  simp only [rotateAbove, List.filter_append, List.filter_filter, Bool.and_comm]

/-- The first item in turn order that needs service. -/
theorem find?_rotateAbove (p : α → Bool) :
    (rotateAbove key c l).find? p = (rotateAbove key c (l.filter p)).head? := by
  rw [← filter_rotateAbove, List.head?_filter]

/-! ## One turn -/

theorem rotateAbove_append {xs ys : List α} (hxs : ∀ a ∈ xs, key a ≤ c)
    (hys : ∀ a ∈ ys, c < key a) : rotateAbove key c (xs ++ ys) = ys ++ xs := by
  have habove : (xs ++ ys).filter (fun a => decide (c < key a)) = ys := by
    rw [List.filter_append, List.filter_eq_nil_iff.2, List.filter_eq_self.2, List.nil_append]
    · exact fun a ha => decide_eq_true (hys a ha)
    · exact fun a ha => by simpa using hxs a ha
  have hbelow : (xs ++ ys).filter (fun a => !decide (c < key a)) = xs := by
    rw [List.filter_append, List.filter_eq_self.2, List.filter_eq_nil_iff.2, List.append_nil]
    · exact fun a ha => by simpa using hys a ha
    · exact fun a ha => by simpa using hxs a ha
  rw [rotateAbove, habove, hbelow]

/-- The cursor cuts an ordered list in two. -/
theorem exists_cut (h : l.Pairwise (fun a b => key a < key b)) (c : κ) :
    ∃ xs ys, l = xs ++ ys ∧ (∀ a ∈ xs, key a ≤ c) ∧ ∀ a ∈ ys, c < key a := by
  have hcut := eq_filter_append_of_pairwise (fun _ _ hab => lt_asymm hab)
    (p := fun a => decide (key a ≤ c)) h (fun a _ b _ ha hb => ?_)
  · refine ⟨_, _, hcut, fun a ha => ?_, fun a ha => ?_⟩
    · simpa using List.of_mem_filter ha
    · simpa using List.of_mem_filter ha
  · exact (of_decide_eq_true ha).trans_lt (not_le.1 (of_decide_eq_false hb))

/-- A turn moves the item it serves behind all others. -/
theorem rotateAbove_served (h : l.Pairwise (fun a b => key a < key b)) {a : α} {rest : List α}
    (hfirst : rotateAbove key c l = a :: rest) : rotateAbove key (key a) l = rest ++ [a] := by
  obtain ⟨xs, ys, rfl, hxs, hys⟩ := exists_cut h c
  rw [rotateAbove_append hxs hys] at hfirst
  cases ys with
  | nil =>
      -- Nothing is above the cursor: the turns wrap to the smallest key.
      obtain rfl : xs = a :: rest := hfirst
      rw [List.append_nil] at h ⊢
      have hone : ∀ b ∈ [a], key b ≤ key a := fun b hb => by rw [List.mem_singleton.1 hb]
      exact rotateAbove_append hone (List.pairwise_cons.1 h).1
  | cons b ys =>
      obtain ⟨rfl, rfl⟩ := List.cons.inj hfirst
      obtain ⟨-, hafter, -⟩ := List.pairwise_append.1 h
      have hserved : ∀ a ∈ xs ++ [b], key a ≤ key b := by
        intro a ha
        rcases List.mem_append.1 ha with ha | ha
        · exact (hxs a ha).trans (hys b (by simp)).le
        · rw [List.mem_singleton.1 ha]
      have hcut : xs ++ b :: ys = (xs ++ [b]) ++ ys := by simp
      rw [hcut, rotateAbove_append hserved (List.pairwise_cons.1 hafter).1]
      simp

theorem rotateAbove_nextCursor (h : l.Pairwise (fun a b => key a < key b)) (c : κ) :
    rotateAbove key (nextCursor key l c) l = (rotateAbove key c l).rotate 1 := by
  cases hfirst : rotateAbove key c l with
  | nil =>
      have hstay : nextCursor key l c = c := by rw [nextCursor, hfirst]; rfl
      rw [hstay, hfirst]
      rfl
  | cons a rest =>
      have hnext : nextCursor key l c = key a := by rw [nextCursor, hfirst]; rfl
      rw [hnext, rotateAbove_served h hfirst, List.rotate_cons_succ, List.rotate_zero]

/-! ## Many turns -/

/-- After `i` turns the order of the turns has been rotated by `i`. -/
theorem rotateAbove_turns (h : l.Pairwise (fun a b => key a < key b)) {cursor : Nat → κ} {n : Nat}
    (hturn : ∀ i, i + 1 < n → cursor (i + 1) = nextCursor key l (cursor i)) :
    ∀ i < n, rotateAbove key (cursor i) l = (rotateAbove key (cursor 0) l).rotate i := by
  intro i
  induction i with
  | zero => exact fun _ => (List.rotate_zero _).symm
  | succ i ih =>
      intro hi
      calc rotateAbove key (cursor (i + 1)) l
          = rotateAbove key (nextCursor key l (cursor i)) l := by rw [hturn i hi]
        _ = (rotateAbove key (cursor i) l).rotate 1 := rotateAbove_nextCursor h _
        _ = (rotateAbove key (cursor 0) l).rotate (i + 1) := by
            rw [ih (Nat.lt_of_succ_lt hi), List.rotate_rotate]

/-- As many turns as there are items serve each item once. -/
theorem turns_perm (h : l.Pairwise (fun a b => key a < key b)) {cursor : Nat → κ}
    (hturn : ∀ i, i + 1 < l.length → cursor (i + 1) = nextCursor key l (cursor i)) :
    ((List.range l.length).map (fun i => (rotateAbove key (cursor i) l).head?)).Perm
      (l.map some) := by
  have hperm := rotateAbove_perm key (cursor 0) l
  have hserved : (List.range l.length).map (fun i => (rotateAbove key (cursor i) l).head?) =
      (rotateAbove key (cursor 0) l).map some := by
    refine List.ext_getElem (by simp [hperm.length_eq]) (fun i hi hi' => ?_)
    have hlt : i < (rotateAbove key (cursor 0) l).length := by simpa using hi'
    rw [List.getElem_map, List.getElem_map, List.getElem_range,
      rotateAbove_turns h hturn i (hperm.length_eq ▸ hlt), List.head?_rotate hlt,
      List.getElem?_eq_getElem hlt]
  rw [hserved]
  exact hperm.map some

end Lib
end Girder
