import Girder.Lib.Sorting

/-!
# Keyset — paging through a sorted collection by the last rank seen

A page is the first `n` elements, in rank order, past a bound.  Chaining pages through the rank of
the last element seen drains the collection; between two pages the collection may be another one.

* `drain_pairwise` — the elements come in strictly increasing rank, whatever happens in between;
* `mem_drain` — an element that is there all the time is met before the first empty page;
* `drain_replicate` — a collection that does not change is drained whole and in order.
-/

namespace Girder
namespace Lib

variable {α κ : Type*} [LinearOrder κ] (rank : α → κ)

/-- Strictly past the bound. -/
def past (bound : Option κ) (a : α) : Bool :=
  match bound with
  | none => true
  | some b => decide (b < rank a)

/-- The first `n` elements past the bound. -/
def pageAfter (n : Nat) (bound : Option κ) (l : List α) : List α :=
  ((sortAsc rank l).filter (past rank bound)).take n

/-- Page through the collections until a page is empty; the flag says whether one was. -/
def drain (n : Nat) : Option κ → List (List α) → List α × Bool
  | _, [] => ([], false)
  | bound, l :: ls =>
      match (pageAfter rank n bound l).getLast? with
      | none => ([], true)
      | some last =>
          (pageAfter rank n bound l ++ (drain n (some (rank last)) ls).1,
            (drain n (some (rank last)) ls).2)

section Pages

variable {rank} {n : Nat} {bound : Option κ} {l : List α}

theorem mem_pageAfter {a : α} (h : a ∈ pageAfter rank n bound l) :
    a ∈ l ∧ past rank bound a = true := by
  obtain ⟨hmem, hpast⟩ := List.mem_filter.1 (List.mem_of_mem_take h)
  exact ⟨(mem_sortAsc rank).1 hmem, hpast⟩

theorem pageAfter_pairwise (hd : (l.map rank).Nodup) :
    (pageAfter rank n bound l).Pairwise (fun a b => rank a < rank b) :=
  ((sortAsc_pairwise_lt hd).filter _).sublist (List.take_sublist n _)

/-- What lies past the last element of a page lay past the bound before. -/
theorem past_of_past_last {last : α} (hlast : last ∈ pageAfter rank n bound l) {a : α}
    (ha : past rank (some (rank last)) a = true) : past rank bound a = true := by
  have hlt : rank last < rank a := of_decide_eq_true ha
  have hbound := (mem_pageAfter hlast).2
  cases bound with
  | none => rfl
  | some b =>
      have hb : b < rank last := of_decide_eq_true hbound
      exact decide_eq_true (hb.trans hlt)

/-- An element past the bound is on the page or past its last element. -/
theorem mem_or_past_last (hd : (l.map rank).Nodup) {a last : α} (ha : a ∈ l)
    (hpast : past rank bound a = true) (hlast : (pageAfter rank n bound l).getLast? = some last) :
    a ∈ pageAfter rank n bound l ∨ past rank (some (rank last)) a = true := by
  have hmem : a ∈ (sortAsc rank l).filter (past rank bound) :=
    List.mem_filter.2 ⟨(mem_sortAsc rank).2 ha, hpast⟩
  have hsplit := List.take_append_drop n ((sortAsc rank l).filter (past rank bound))
  rw [← hsplit] at hmem
  rcases List.mem_append.1 hmem with hpage | hrest
  · exact .inl hpage
  · -- What is dropped ranks above everything that is kept.
    have hsorted := (sortAsc_pairwise_lt hd).filter (past rank bound)
    rw [← hsplit] at hsorted
    have hlt := (List.pairwise_append.1 hsorted).2.2 last (List.mem_of_getLast? hlast) a hrest
    exact .inr (decide_eq_true hlt)

theorem le_rank_last (hd : (l.map rank).Nodup) {a last : α} (ha : a ∈ pageAfter rank n bound l)
    (hlast : (pageAfter rank n bound l).getLast? = some last) : rank a ≤ rank last := by
  obtain ⟨front, hfront⟩ := List.getLast?_eq_some_iff.1 hlast
  have hsorted : (front ++ [last]).Pairwise (fun a b => rank a < rank b) :=
    hfront ▸ pageAfter_pairwise hd
  rw [hfront] at ha
  rcases List.mem_append.1 ha with ha | ha
  · exact ((List.pairwise_append.1 hsorted).2.2 a ha last (by simp)).le
  · rw [List.mem_singleton.1 ha]

/-- Only a drained collection gives an empty page. -/
theorem not_past_of_page_nil (hn : 0 < n) (hnil : (pageAfter rank n bound l).getLast? = none) {a : α}
    (ha : a ∈ l) : past rank bound a = false := by
  rw [List.getLast?_eq_none_iff, pageAfter, List.take_eq_nil_iff] at hnil
  have hempty := hnil.resolve_left hn.ne'
  cases hpast : past rank bound a with
  | false => rfl
  | true =>
      have hmem : a ∈ (sortAsc rank l).filter (past rank bound) :=
        List.mem_filter.2 ⟨(mem_sortAsc rank).2 ha, hpast⟩
      rw [hempty] at hmem
      cases hmem

end Pages

section Drain

variable {rank} {n : Nat}

/-- Everything drained is an element of one of the collections, past the bound. -/
theorem mem_of_mem_drain {ls : List (List α)} :
    ∀ {bound : Option κ} {a : α}, a ∈ (drain rank n bound ls).1 →
      (∃ l ∈ ls, a ∈ l) ∧ past rank bound a = true := by
  induction ls with
  | nil =>
      intro bound a ha
      cases ha
  | cons l ls ih =>
      intro bound a ha
      rw [drain] at ha
      split at ha
      · cases ha
      · rename_i last hlast
        rcases List.mem_append.1 ha with hpage | hrest
        · obtain ⟨hmem, hpast⟩ := mem_pageAfter hpage
          exact ⟨⟨l, by simp, hmem⟩, hpast⟩
        · obtain ⟨⟨l', hl', hmem⟩, hpast⟩ := ih hrest
          exact ⟨⟨l', by simp [hl'], hmem⟩,
            past_of_past_last (List.mem_of_getLast? hlast) hpast⟩

/-- The elements come in strictly increasing rank. -/
theorem drain_pairwise {ls : List (List α)} :
    ∀ {bound : Option κ}, (∀ l ∈ ls, (l.map rank).Nodup) →
      (drain rank n bound ls).1.Pairwise (fun a b => rank a < rank b) := by
  induction ls with
  | nil => exact fun _ => List.Pairwise.nil
  | cons l ls ih =>
      intro bound hd
      obtain ⟨hl, hls⟩ := List.forall_mem_cons.1 hd
      rw [drain]
      split
      · exact List.Pairwise.nil
      · rename_i last hlast
        refine List.pairwise_append.2 ⟨pageAfter_pairwise hl, ih hls, fun a ha b hb => ?_⟩
        have hpast := (mem_of_mem_drain hb).2
        exact (le_rank_last hl ha hlast).trans_lt (of_decide_eq_true hpast)

/-- An element that is there all the time is met before the first empty page. -/
theorem mem_drain (hn : 0 < n) {a : α} {ls : List (List α)} :
    ∀ {bound : Option κ}, (∀ l ∈ ls, (l.map rank).Nodup) → (∀ l ∈ ls, a ∈ l) →
      past rank bound a = true → (drain rank n bound ls).2 = true →
        a ∈ (drain rank n bound ls).1 := by
  induction ls with
  | nil =>
      intro bound _ _ _ hdone
      cases hdone
  | cons l ls ih =>
      intro bound hd hmem hpast hdone
      obtain ⟨hl, hls⟩ := List.forall_mem_cons.1 hd
      obtain ⟨ha, hrest⟩ := List.forall_mem_cons.1 hmem
      rw [drain] at hdone ⊢
      split at hdone
      · rename_i hnil
        simp [not_past_of_page_nil hn hnil ha] at hpast
      · rename_i last hlast
        rcases mem_or_past_last hl ha hpast hlast with hpage | hpast'
        · exact List.mem_append_left _ hpage
        · exact List.mem_append_right _ (ih hls hrest hpast' hdone)

/-- Every page takes at least one element off a collection that does not change. -/
theorem drain_replicate_done {l : List α} {m : Nat} :
    ∀ {bound : Option κ}, (l.filter (past rank bound)).length < m →
      (drain rank n bound (List.replicate m l)).2 = true := by
  induction m with
  | zero =>
      intro bound hm
      omega
  | succ m ih =>
      intro bound hm
      rw [List.replicate_succ, drain]
      split
      · rfl
      · rename_i last hlast
        refine ih (Nat.lt_of_lt_of_le ?_ (Nat.lt_succ_iff.1 hm))
        obtain ⟨hin, hpast⟩ := mem_pageAfter (List.mem_of_getLast? hlast)
        -- The last element of the page is past the old bound and not past the new one.
        have hsub : (l.filter (past rank (some (rank last)))) =
            (l.filter (past rank bound)).filter (past rank (some (rank last))) := by
          rw [List.filter_filter]
          refine List.filter_congr (fun a _ => ?_)
          cases hp : past rank (some (rank last)) a with
          | false => rfl
          | true => rw [past_of_past_last (List.mem_of_getLast? hlast) hp]; rfl
        rw [hsub]
        refine List.length_filter_lt_length_iff_exists.2 ⟨last, List.mem_filter.2 ⟨hin, hpast⟩, ?_⟩
        simp [past]

/-- A collection that does not change is drained whole and in order. -/
theorem drain_replicate (hn : 0 < n) {l : List α} (hd : (l.map rank).Nodup) {m : Nat}
    {bound : Option κ} (hdone : (drain rank n bound (List.replicate m l)).2 = true) :
    (drain rank n bound (List.replicate m l)).1 = (sortAsc rank l).filter (past rank bound) := by
  have hall : ∀ l' ∈ List.replicate m l, (l'.map rank).Nodup := by
    intro l' hl'
    rw [List.eq_of_mem_replicate hl']
    exact hd
  have hleft : (drain rank n bound (List.replicate m l)).1.Pairwise
      (fun a b => rank a < rank b) := drain_pairwise hall
  have hright := (sortAsc_pairwise_lt hd).filter (past rank bound)
  have hmem : ∀ a, a ∈ (drain rank n bound (List.replicate m l)).1 ↔
      a ∈ (sortAsc rank l).filter (past rank bound) := by
    intro a
    rw [List.mem_filter, mem_sortAsc]
    constructor
    · intro ha
      obtain ⟨⟨l', hl', hin⟩, hpast⟩ := mem_of_mem_drain ha
      exact ⟨List.eq_of_mem_replicate hl' ▸ hin, hpast⟩
    · rintro ⟨hin, hpast⟩
      refine mem_drain hn hall (fun l' hl' => ?_) hpast hdone
      rw [List.eq_of_mem_replicate hl']
      exact hin
  have hperm : (drain rank n bound (List.replicate m l)).1.Perm
      ((sortAsc rank l).filter (past rank bound)) :=
    (List.perm_ext_iff_of_nodup (hleft.imp (fun hlt heq => hlt.ne (congrArg rank heq)))
      (hright.imp (fun hlt heq => hlt.ne (congrArg rank heq)))).2 hmem
  exact eq_of_perm_of_pairwise_lt hperm hleft hright

end Drain

end Lib
end Girder
