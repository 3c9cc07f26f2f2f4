import Std.Data.ExtTreeMap
import Mathlib.Data.List.Basic

/-!
# Maps — loops over the entries of an ordered map

`Std.ExtTreeMap` models an ordered map up to extensional equality.  The lemmas here say what a loop
over such entries does to an accumulator map when each entry touches only its own key, and how the
list of entries relates to lookups.
-/

namespace Girder
namespace Lib

universe u v w

/-- An ordered map with the key type's own order. -/
abbrev OrdMap (κ : Type u) (α : Type v) [Ord κ] := Std.ExtTreeMap κ α compare

namespace OrdMap

variable {κ : Type u} {α : Type v} {β : Type w} [Ord κ] [Std.TransOrd κ] [Std.LawfulEqOrd κ]

/-- Update the accumulator at each entry's key, from what it holds there and the entry's value. -/
def update (g : Option β → α → β) (acc : OrdMap κ β) (e : κ × α) : OrdMap κ β :=
  acc.insert e.1 (g acc[e.1]? e.2)

theorem getElem?_foldl_update_of_notMem (g : Option β → α → β) (k : κ) :
    ∀ (es : List (κ × α)) (acc : OrdMap κ β), (∀ e ∈ es, e.1 ≠ k) →
      (es.foldl (update g) acc)[k]? = acc[k]? := by
  intro es
  induction es with
  | nil => exact fun _ _ => rfl
  | cons e es ih =>
      intro acc hne
      have he : e.1 ≠ k := hne e (by simp)
      have hes : ∀ e' ∈ es, e'.1 ≠ k := fun e' he' => hne e' (by simp [he'])
      rw [List.foldl_cons, ih _ hes]
      simp [update, Std.ExtTreeMap.getElem?_insert, he]

/-- A loop over entries with distinct keys updates each key once. -/
theorem getElem?_foldl_update (g : Option β → α → β) {k : κ} {v : α} :
    ∀ (es : List (κ × α)) (acc : OrdMap κ β),
      es.Pairwise (fun a b => a.1 ≠ b.1) → (k, v) ∈ es →
      (es.foldl (update g) acc)[k]? = some (g acc[k]? v) := by
  intro es
  induction es with
  | nil =>
      intro _ _ hmem
      simp at hmem
  | cons e es ih =>
      intro acc hd hmem
      obtain ⟨hhead, htail⟩ := List.pairwise_cons.1 hd
      rcases List.mem_cons.1 hmem with heq | hin
      · subst heq
        have hnot : ∀ e ∈ es, e.1 ≠ k := fun e he => (hhead e he).symm
        rw [List.foldl_cons, getElem?_foldl_update_of_notMem g k es _ hnot]
        simp [update]
      · have hne : e.1 ≠ k := hhead (k, v) hin
        rw [List.foldl_cons, ih _ htail hin]
        simp [update, Std.ExtTreeMap.getElem?_insert, hne]

theorem toList_distinct (m : OrdMap κ α) : m.toList.Pairwise (fun a b => a.1 ≠ b.1) := by
  have h : m.toList.Pairwise (fun a b => ¬ compare a.1 b.1 = .eq) :=
    Std.ExtTreeMap.distinct_keys_toList
  exact h.imp (fun hne heq => hne (by simp [heq]))

/-- A loop over a whole map, entry by entry, seen through lookups. -/
theorem getElem?_foldl_toList_update (g : Option β → α → β) (m : OrdMap κ α) (acc : OrdMap κ β)
    (k : κ) :
    (m.toList.foldl (update g) acc)[k]? =
      match m[k]? with
      | none => acc[k]?
      | some v => some (g acc[k]? v) := by
  cases hk : m[k]? with
  | none =>
      refine getElem?_foldl_update_of_notMem g k m.toList acc ?_
      rintro ⟨k', v⟩ he rfl
      have hsome := Std.ExtTreeMap.mem_toList_iff_getElem?_eq_some.1 he
      simp [hk] at hsome
  | some v =>
      exact getElem?_foldl_update g m.toList acc m.toList_distinct
        (Std.ExtTreeMap.mem_toList_iff_getElem?_eq_some.2 hk)

/-- The map of some pairs; a later pair wins. -/
def ofPairs (l : List (κ × α)) : OrdMap κ α := l.foldl (update (fun _ v => v)) ∅

/-- With distinct keys, the map holds exactly the pairs. -/
theorem getElem?_ofPairs {l : List (κ × α)} (hd : l.Pairwise (fun a b => a.1 ≠ b.1)) {k : κ}
    {v : α} : (ofPairs l)[k]? = some v ↔ (k, v) ∈ l := by
  constructor
  · intro h
    by_cases hk : ∀ e ∈ l, e.1 ≠ k
    · rw [ofPairs, getElem?_foldl_update_of_notMem _ k l ∅ hk] at h
      simp at h
    · push Not at hk
      obtain ⟨⟨k', v'⟩, hmem, rfl⟩ := hk
      rw [ofPairs, getElem?_foldl_update _ l ∅ hd hmem] at h
      rwa [← Option.some.inj h]
  · exact fun h => getElem?_foldl_update _ l ∅ hd h

/-- The order of pairs with distinct keys does not matter. -/
theorem ofPairs_perm {l l' : List (κ × α)} (hp : l.Perm l')
    (hd : l.Pairwise (fun a b => a.1 ≠ b.1)) : ofPairs l = ofPairs l' := by
  have hd' : l'.Pairwise (fun a b => a.1 ≠ b.1) := (hp.pairwise_iff (fun h => h.symm)).1 hd
  refine Std.ExtTreeMap.ext_getElem? (fun k => Option.ext (fun v => ?_))
  rw [getElem?_ofPairs hd, getElem?_ofPairs hd', hp.mem_iff]

end OrdMap

end Lib
end Girder
