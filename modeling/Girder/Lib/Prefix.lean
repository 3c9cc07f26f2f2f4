import Mathlib.Data.String.Basic

/-!
# Prefix — string prefixes in lexicographic order

The keys that start with a prefix form an interval of the lexicographic order.  The lemmas state
the two halves of that fact that range pruning relies on.
-/

namespace Girder
namespace Lib

/-- `str::starts_with`. -/
def startsWith (s p : String) : Bool :=
  p.toList.isPrefixOf s.toList

theorem startsWith_iff {s p : String} : startsWith s p = true ↔ p.toList <+: s.toList := by
  simp [startsWith]

theorem not_lt_of_isPrefix {α : Type*} [LinearOrder α] {p s : List α} (h : p <+: s) :
    ¬ s < p := by
  obtain ⟨t, rfl⟩ := h
  induction p with
  | nil => simp
  | cons a p ih =>
      intro hlt
      rcases List.cons_lt_cons_iff.1 hlt with haa | ⟨-, hlt'⟩
      · exact lt_irrefl a haa
      · exact ih hlt'

/-- Beyond a prefix and outside its extensions means above all of them. -/
theorem lt_of_isPrefix_of_lt {α : Type*} [LinearOrder α] :
    ∀ {p s m : List α}, p <+: s → p < m → ¬ p <+: m → s < m := by
  intro p
  induction p with
  | nil =>
      intro s m _ _ hm
      exact absurd (List.nil_prefix) hm
  | cons a p ih =>
      intro s m hs hlt hm
      cases m with
      | nil => simp at hlt
      | cons b m =>
          cases s with
          | nil => simp at hs
          | cons c s =>
              obtain ⟨rfl, hs'⟩ := List.cons_prefix_cons.1 hs
              rcases List.cons_lt_cons_iff.1 hlt with hab | ⟨rfl, hlt'⟩
              · exact List.cons_lt_cons_iff.2 (Or.inl hab)
              · have hm' : ¬ p <+: m := fun h => hm (List.cons_prefix_cons.2 ⟨rfl, h⟩)
                exact List.cons_lt_cons_iff.2 (Or.inr ⟨rfl, ih hs' hlt' hm'⟩)

theorem le_of_startsWith {s p : String} (h : startsWith s p = true) : p ≤ s := by
  rw [← not_lt, String.lt_iff_toList_lt]
  exact not_lt_of_isPrefix (startsWith_iff.1 h)

theorem lt_of_startsWith_of_lt {s p m : String} (hs : startsWith s p = true) (hlt : p < m)
    (hm : startsWith m p = false) : s < m := by
  rw [String.lt_iff_toList_lt] at hlt ⊢
  refine lt_of_isPrefix_of_lt (startsWith_iff.1 hs) hlt ?_
  intro hpre
  have htrue := startsWith_iff.2 hpre
  simp [hm] at htrue

theorem startsWith_self (s : String) : startsWith s s = true := by
  simp [startsWith_iff]

end Lib
end Girder
