import Std.Data.ExtTreeSet
import Mathlib.Data.List.Destutter

/-!
# Lists — loops that may stop early, runs of elements, first occurrences

General facts about list traversals: a fallible traversal of a whole list, the removal of
consecutive duplicates, the maximal windows of elements that satisfy a predicate, and a loop that
marks keys as seen and acts on their first occurrences.
-/

namespace Girder
namespace Lib

universe u v w

section Traverse

variable {α : Type u} {β : Type v}

theorem foldl_concat_map (f : α → β) :
    ∀ (l : List α) (acc : List β), l.foldl (fun out a => out ++ [f a]) acc = acc ++ l.map f := by
  intro l
  induction l with
  | nil => simp
  | cons a l ih =>
      intro acc
      rw [List.foldl_cons, ih]
      simp

/-- A fallible traversal in which no element fails. -/
theorem mapM_ok {ε : Type u} {γ : Type v} {f : α → Except ε γ} {g : α → γ} :
    ∀ {l : List α}, (∀ a ∈ l, f a = .ok (g a)) → l.mapM f = .ok (l.map g) := by
  intro l
  induction l with
  | nil => exact fun _ => rfl
  | cons a l ih =>
      intro h
      rw [List.mapM_cons, h a List.mem_cons_self, ih (fun b hb => h b (List.mem_cons_of_mem a hb))]
      rfl

/-- A fallible traversal of the indices of a list that finds its items. -/
theorem mapM_range_ok {ε : Type u} {γ : Type v} {f : Nat → Except ε γ} {l : List γ}
    (h : ∀ (i : Nat) (a : γ), l[i]? = some a → f i = .ok a) :
    (List.range l.length).mapM f = .ok l := by
  induction l using List.reverseRecOn with
  | nil => rfl
  | append_singleton l a ih =>
      have hrest := ih fun i b hb => h i b (by
        rw [List.getElem?_append_left (List.getElem?_eq_some_iff.mp hb).1]
        exact hb)
      have hlast : f l.length = .ok a := h l.length a (by simp)
      rw [List.length_append, List.length_singleton, List.range_succ, List.mapM_append, hrest]
      show (([l.length].mapM f) >>= _) = _
      rw [List.mapM_cons, hlast]
      rfl

/-- A fallible traversal in which some element fails. -/
theorem mapM_error {ε : Type u} {γ : Type v} {f : α → Except ε γ} :
    ∀ {l : List α} {a : α} {e : ε}, a ∈ l → f a = .error e → ∃ e', l.mapM f = .error e' := by
  intro l
  induction l with
  | nil => exact fun ha => absurd ha List.not_mem_nil
  | cons b l ih =>
      intro a e ha hfail
      rw [List.mapM_cons]
      cases hb : f b with
      | error e' => exact ⟨e', rfl⟩
      | ok c =>
          rcases List.mem_cons.mp ha with rfl | ha
          · rw [hb] at hfail
            cases hfail
          · obtain ⟨e', he'⟩ := ih ha hfail
            rw [he']
            exact ⟨e', rfl⟩

/-- What every step of a loop keeps, the loop keeps. -/
theorem foldl_keeps {γ : Type w} {step : β → α → β} (f : β → γ)
    (h : ∀ acc a, f (step acc a) = f acc) :
    ∀ (l : List α) (acc : β), f (l.foldl step acc) = f acc := by
  intro l
  induction l with
  | nil => exact fun _ => rfl
  | cons a l ih =>
      intro acc
      rw [List.foldl_cons, ih, h]

/-- A computation that succeeds went through its first step. -/
theorem exists_of_bind_eq_ok {ε : Type w} {γ δ : Type u} {x : Except ε γ} {f : γ → Except ε δ}
    {b : δ} (h : (x >>= f) = .ok b) : ∃ a, x = .ok a ∧ f a = .ok b := by
  cases x with
  | error err => cases h
  | ok a => exact ⟨a, rfl, h⟩

/-- What each step of a fallible fold keeps, the fold keeps. -/
theorem foldlM_keeps {ε : Type w} {γ : Type u} {step : γ → α → Except ε γ} {P : γ → Prop} :
    ∀ {l : List α} {b b' : γ}, (∀ b, ∀ a ∈ l, ∀ b', P b → step b a = .ok b' → P b') → P b →
      l.foldlM step b = .ok b' → P b' := by
  intro l
  induction l with
  | nil =>
      intro b b' _ hb h
      exact Except.ok.inj h ▸ hb
  | cons a l ih =>
      intro b b' hstep hb h
      obtain ⟨mid, hmid, hrest⟩ := exists_of_bind_eq_ok h
      have hkept := hstep b a List.mem_cons_self mid hb hmid
      exact ih (fun c a' ha' => hstep c a' (List.mem_cons_of_mem _ ha')) hkept hrest

theorem length_of_mapM_eq_ok {ε : Type w} {γ : Type u} {f : α → Except ε γ} {l : List α} :
    ∀ {bs : List γ}, l.mapM f = .ok bs → bs.length = l.length := by
  induction l with
  | nil =>
      intro bs h
      rw [← Except.ok.inj h]
      rfl
  | cons a l ih =>
      intro bs h
      rw [List.mapM_cons] at h
      obtain ⟨b, -, hrest⟩ := exists_of_bind_eq_ok h
      obtain ⟨more, hmore, hpure⟩ := exists_of_bind_eq_ok hrest
      rw [← Except.ok.inj hpure, List.length_cons, ih hmore, List.length_cons]

/-- A fallible traversal succeeds when each element does. -/
theorem exists_mapM_eq_some {f : α → Option β} {l : List α} (h : ∀ a ∈ l, ∃ b, f a = some b) :
    ∃ bs, l.mapM f = some bs := by
  induction l with
  | nil => exact ⟨[], rfl⟩
  | cons a l ih =>
      obtain ⟨b, hb⟩ := h a (by simp)
      obtain ⟨bs, hbs⟩ := ih (fun a' ha' => h a' (by simp [ha']))
      exact ⟨b :: bs, by simp [hb, hbs]⟩

/-- What holds of every result of a successful traversal. -/
theorem forall_mem_of_mapM_eq_some {f : α → Option β} {P : β → Prop} :
    ∀ {l : List α} {bs : List β}, l.mapM f = some bs →
      ((∀ b ∈ bs, P b) ↔ ∀ a ∈ l, ∃ b, f a = some b ∧ P b) := by
  intro l
  induction l with
  | nil =>
      intro bs h
      have hbs : bs = [] := by simpa using h.symm
      simp [hbs]
  | cons a l ih =>
      intro bs h
      cases hb : f a with
      | none => simp [hb] at h
      | some b =>
          cases hrest : l.mapM f with
          | none => simp [hb, hrest] at h
          | some bs' =>
              have hbs : bs = b :: bs' := by simpa [hb, hrest] using h.symm
              subst hbs
              simp [hb, ih hrest]

/-- A change of the elements that keeps their keys, after which a predicate holds only where it held
before. -/
theorem map_filter_map_sublist {f : α → α} {p : α → Bool} {key : α → β} {l : List α}
    (hkey : ∀ a ∈ l, key (f a) = key a) (hp : ∀ a ∈ l, p (f a) = true → p a = true) :
    (((l.map f).filter p).map key).Sublist ((l.filter p).map key) := by
  induction l with
  | nil => exact List.Sublist.refl _
  | cons a l ih =>
      have hrest := ih (fun b hb => hkey b (List.mem_cons_of_mem a hb))
        (fun b hb => hp b (List.mem_cons_of_mem a hb))
      rw [List.map_cons, List.filter_cons]
      split
      · rename_i hfa
        rw [List.filter_cons_of_pos (hp a List.mem_cons_self hfa), List.map_cons, List.map_cons,
          hkey a List.mem_cons_self]
        exact hrest.cons_cons _
      · -- the element may have been counted before
        refine hrest.trans (List.Sublist.map _ ?_)
        exact (List.sublist_cons_self a l).filter p

end Traverse

section Destutter

variable {α : Type u} [DecidableEq α]

theorem mem_destutter'_ne (l : List α) :
    ∀ a x : α, x ∈ l.destutter' (· ≠ ·) a ↔ x = a ∨ x ∈ l := by
  induction l with
  | nil => simp
  | cons b l ih =>
      intro a x
      by_cases hab : a ≠ b
      · rw [List.destutter'_cons_pos _ hab]
        simp [ih]
      · rw [List.destutter'_cons_neg _ hab, ih]
        have hab' : a = b := not_not.1 hab
        subst hab'
        simp

/-- Removing consecutive duplicates loses no element. -/
theorem mem_destutter_ne {l : List α} {x : α} : x ∈ l.destutter (· ≠ ·) ↔ x ∈ l := by
  cases l with
  | nil => simp
  | cons a l => simp [List.destutter_cons', mem_destutter'_ne]

/-- Without consecutive duplicates, an ascending list is strictly ascending. -/
theorem pairwise_lt_destutter {β : Type u} [PartialOrder β] [DecidableEq β] {l : List β}
    (h : l.Pairwise (· ≤ ·)) : (l.destutter (· ≠ ·)).Pairwise (· < ·) := by
  have hle : (l.destutter (· ≠ ·)).Pairwise (· ≤ ·) := h.sublist (List.destutter_sublist _ l)
  have hne : (l.destutter (· ≠ ·)).IsChain (· ≠ ·) := List.isChain_destutter _ l
  refine List.IsChain.pairwise (List.isChain_iff_getElem.2 (fun i hi => ?_))
  exact lt_of_le_of_ne (List.pairwise_iff_getElem.1 hle i (i + 1) (by omega) hi (by omega))
    (List.isChain_iff_getElem.1 hne i hi)

end Destutter

section Windows

variable {α : Type u}

/-- One round of the window loop: an element outside closes the current window. -/
def windowStep (p : α → Bool) (st : List (List α) × List α) (a : α) : List (List α) × List α :=
  if p a then
    (st.1, st.2 ++ [a])
  else if st.2.isEmpty then
    st
  else
    (st.1 ++ [st.2], [])

/-- The maximal windows of consecutive elements satisfying `p`. -/
def windows (p : α → Bool) (l : List α) : List (List α) :=
  let st := l.foldl (windowStep p) ([], [])
  if st.2.isEmpty then st.1 else st.1 ++ [st.2]

/-- What the window loop keeps: closed windows are infixes, the current one is a suffix. -/
structure WindowInv (p : α → Bool) (seen : List α) (st : List (List α) × List α) : Prop where
  infix_of_mem {s : List α} : s ∈ st.1 → s <:+: seen ∧ ∀ a ∈ s, p a = true
  suffix : st.2 <:+ seen
  current {a : α} : a ∈ st.2 → p a = true

theorem windowInv_step {p : α → Bool} {seen : List α} {st : List (List α) × List α}
    (h : WindowInv p seen st) (a : α) : WindowInv p (seen ++ [a]) (windowStep p st a) := by
  have hgrow : ∀ s ∈ st.1, s <:+: seen ++ [a] ∧ ∀ b ∈ s, p b = true := by
    intro s hs
    obtain ⟨hin, hall⟩ := h.infix_of_mem hs
    exact ⟨hin.trans (List.prefix_append seen [a]).isInfix, hall⟩
  unfold windowStep
  split
  · rename_i hpa
    refine ⟨fun hs => hgrow _ hs, ?_, ?_⟩
    · obtain ⟨pre, hpre⟩ := h.suffix
      exact ⟨pre, by simp [← hpre]⟩
    · intro b hb
      rcases List.mem_append.1 hb with hb | hb
      · exact h.current hb
      · rw [List.mem_singleton.1 hb]
        exact hpa
  · split
    · rename_i hempty
      have hnil : st.2 = [] := by simpa using hempty
      refine ⟨fun hs => hgrow _ hs, ?_, by simp [hnil]⟩
      rw [hnil]
      exact List.nil_suffix
    · refine ⟨?_, List.nil_suffix, by simp⟩
      intro s hs
      rcases List.mem_append.1 hs with hs | hs
      · exact hgrow s hs
      · rw [List.mem_singleton.1 hs]
        refine ⟨?_, fun b hb => h.current hb⟩
        exact h.suffix.isInfix.trans (List.prefix_append seen [a]).isInfix

theorem windowInv_foldl (p : α → Bool) :
    ∀ (l : List α) {seen : List α} {st : List (List α) × List α}, WindowInv p seen st →
      WindowInv p (seen ++ l) (l.foldl (windowStep p) st) := by
  intro l
  induction l with
  | nil =>
      intro seen st h
      simpa using h
  | cons a l ih =>
      intro seen st h
      simpa using ih (windowInv_step h a)

/-- A window is a contiguous part of the list, and all of it satisfies the predicate. -/
theorem mem_windows {p : α → Bool} {l s : List α} (hs : s ∈ windows p l) :
    s <:+: l ∧ ∀ a ∈ s, p a = true := by
  have hstart : WindowInv p ([] : List α) ([], []) := ⟨by simp, List.nil_suffix, by simp⟩
  have hinv : WindowInv p l (l.foldl (windowStep p) ([], [])) := by
    simpa using windowInv_foldl p l hstart
  unfold windows at hs
  simp only at hs
  split at hs
  · exact hinv.infix_of_mem hs
  · rcases List.mem_append.1 hs with hs | hs
    · exact hinv.infix_of_mem hs
    · rw [List.mem_singleton.1 hs]
      exact ⟨hinv.suffix.isInfix, fun a ha => hinv.current ha⟩

end Windows

section Fresh

variable {α : Type u} {β : Type v} {κ : Type w} [Ord κ] [Std.TransOrd κ] [Std.LawfulEqOrd κ]

/-- One round of a loop that acts on elements whose key it has not seen. -/
def freshStep (key : α → κ) (ok : α → Bool) (emit : β → α → β)
    (st : Std.ExtTreeSet κ compare × β) (a : α) : Std.ExtTreeSet κ compare × β :=
  (st.1.insert (key a), if !st.1.contains (key a) && ok a then emit st.2 a else st.2)

/-- The elements whose key occurs neither in `seen` nor earlier in the list. -/
def firstsBy (key : α → κ) (seen : Std.ExtTreeSet κ compare) : List α → List α
  | [] => []
  | a :: l =>
      if seen.contains (key a) then firstsBy key (seen.insert (key a)) l
      else a :: firstsBy key (seen.insert (key a)) l

omit [Std.LawfulEqOrd κ] in
/-- Two such loops over one list keep what they have accumulated related. -/
theorem foldl_freshStep_rel {γ : Type v} {R : β → γ → Prop} {key : α → κ} {ok : α → Bool}
    {emit : β → α → β} {emit' : γ → α → γ}
    (hemit : ∀ acc acc' a, R acc acc' → R (emit acc a) (emit' acc' a)) :
    ∀ (l : List α) (seen : Std.ExtTreeSet κ compare) (acc : β) (acc' : γ), R acc acc' →
      (l.foldl (freshStep key ok emit) (seen, acc)).1 =
          (l.foldl (freshStep key ok emit') (seen, acc')).1 ∧
        R (l.foldl (freshStep key ok emit) (seen, acc)).2
          (l.foldl (freshStep key ok emit') (seen, acc')).2 := by
  intro l
  induction l with
  | nil => exact fun _ _ _ hR => ⟨rfl, hR⟩
  | cons a l ih =>
      intro seen acc acc' hR
      rw [List.foldl_cons, List.foldl_cons]
      unfold freshStep
      split
      · exact ih _ _ _ (hemit acc acc' a hR)
      · exact ih _ _ _ hR

omit [Std.LawfulEqOrd κ] in
theorem foldl_freshStep (key : α → κ) (ok : α → Bool) (emit : β → α → β) :
    ∀ (l : List α) (seen : Std.ExtTreeSet κ compare) (acc : β),
      l.foldl (freshStep key ok emit) (seen, acc) =
        (l.foldl (fun seen a => seen.insert (key a)) seen,
          ((firstsBy key seen l).filter ok).foldl emit acc) := by
  intro l
  induction l with
  | nil => exact fun _ _ => rfl
  | cons a l ih =>
      intro seen acc
      rw [List.foldl_cons, freshStep, ih]
      cases hseen : seen.contains (key a) with
      | true => simp [firstsBy, hseen]
      | false =>
          cases hok : ok a with
          | true => simp [firstsBy, hseen, hok]
          | false => simp [firstsBy, hseen, hok]

theorem mem_foldl_insert (key : α → κ) (k : κ) :
    ∀ (l : List α) (seen : Std.ExtTreeSet κ compare),
      k ∈ l.foldl (fun seen a => seen.insert (key a)) seen ↔ k ∈ seen ∨ ∃ a ∈ l, key a = k := by
  intro l
  induction l with
  | nil => simp
  | cons a l ih =>
      intro seen
      rw [List.foldl_cons, ih]
      simp only [Std.ExtTreeSet.mem_insert, Std.LawfulEqCmp.compare_eq_iff_eq, List.mem_cons,
        exists_eq_or_imp]
      tauto

/-- The first occurrences are what a search by key finds. -/
theorem mem_firstsBy [DecidableEq κ] (key : α → κ) (a : α) :
    ∀ (l : List α) (seen : Std.ExtTreeSet κ compare),
      a ∈ firstsBy key seen l ↔
        key a ∉ seen ∧ l.find? (fun b => decide (key b = key a)) = some a := by
  intro l
  induction l with
  | nil => simp [firstsBy]
  | cons b l ih =>
      intro seen
      by_cases hkey : key b = key a
      · cases hseen : seen.contains (key b) with
        | true =>
            have hmem : key a ∈ seen := by
              rw [← hkey]
              exact Std.ExtTreeSet.contains_iff_mem.1 hseen
            simp [firstsBy, ih, hkey, hmem]
        | false =>
            have hmem : key a ∉ seen := by
              rw [← hkey]
              intro hc
              simp [Std.ExtTreeSet.contains_iff_mem.2 hc] at hseen
            have hhead : a = b ↔ b = a := eq_comm
            simp [firstsBy, ih, hkey, hmem, hhead]
      · have hne : a ≠ b := fun h => hkey (by rw [h])
        cases hseen : seen.contains (key b) with
        | true => simp [firstsBy, hseen, ih, hkey]
        | false => simp [firstsBy, hseen, ih, hkey, hne]

theorem firstsBy_nodup [DecidableEq κ] (key : α → κ) :
    ∀ (l : List α) (seen : Std.ExtTreeSet κ compare),
      ((firstsBy key seen l).map key).Nodup := by
  intro l
  induction l with
  | nil => exact fun _ => List.nodup_nil
  | cons a l ih =>
      intro seen
      have hrest := ih (seen.insert (key a))
      cases hseen : seen.contains (key a) with
      | true => simpa [firstsBy, hseen] using hrest
      | false =>
          simp only [firstsBy, hseen, Bool.false_eq_true, if_false, List.map_cons]
          refine List.nodup_cons.2 ⟨?_, hrest⟩
          intro hmem
          obtain ⟨b, hb, hkey⟩ := List.mem_map.1 hmem
          have hnot := ((mem_firstsBy key b l _).1 hb).1
          rw [hkey] at hnot
          simp at hnot

end Fresh

end Lib
end Girder
