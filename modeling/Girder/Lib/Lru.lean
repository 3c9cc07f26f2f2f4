import Mathlib.Algebra.Order.BigOperators.Group.List
import Mathlib.Algebra.Order.Ring.Nat
import Mathlib.Data.List.Induction
import Mathlib.Data.List.Nodup

/-!
# Lru — a weighted cache in recency order

A least-recently-used cache is a list of items, the item longest unused first.  Looking a key up
moves its item to the end, storing one appends it, and while the items weigh more than the capacity
the front one goes, except for the last.

`run_ordered` says that the list is the recency order of the history of operations, and
`holds_run_iff` what a lookup answers in terms of that history.  `trim_maximal` says that trimming
drops no more than it must.
-/

namespace Girder
namespace Lib

universe u v

/-! ## Recency in a history -/

section Recency

variable {A : Type u} {κ : Type v} {touches : A → κ → Prop}

/-- `k` was touched at a point from which on `k'` was not. -/
def UsedLater (touches : A → κ → Prop) (history : List A) (k k' : κ) : Prop :=
  ∃ before op after, history = before ++ op :: after ∧ touches op k ∧
    ∀ op' ∈ op :: after, ¬ touches op' k'

theorem UsedLater.ne {history : List A} {k k' : κ} (h : UsedLater touches history k k') :
    k ≠ k' := by
  obtain ⟨_, op, _, -, htouch, hnot⟩ := h
  rintro rfl
  exact hnot op List.mem_cons_self htouch

theorem UsedLater.snoc {history : List A} {k k' : κ} (h : UsedLater touches history k k') {op : A}
    (hop : ¬ touches op k') : UsedLater touches (history ++ [op]) k k' := by
  obtain ⟨before, op₁, after, rfl, htouch, hnot⟩ := h
  refine ⟨before, op₁, after ++ [op], by simp, htouch, ?_⟩
  intro op' hop'
  rw [← List.cons_append, List.mem_append, List.mem_singleton] at hop'
  rcases hop' with hin | rfl
  · exact hnot op' hin
  · exact hop

theorem usedLater_of_touches {history : List A} {k k' : κ} {op : A} (h : touches op k)
    (hop : ¬ touches op k') : UsedLater touches (history ++ [op]) k k' :=
  ⟨history, op, [], rfl, h, by simpa using hop⟩

end Recency

/-! ## Trimming -/

section Trim

variable {α : Type u} (w : α → Nat) (cap : Nat)

/-- Drop from the front while the items weigh more than `cap`, except for the last. -/
def trim : List α → List α
  | [] => []
  | a :: l => if l.isEmpty = false ∧ cap < ((a :: l).map w).sum then trim l else a :: l

theorem trim_suffix (l : List α) : trim w cap l <:+ l := by
  induction l with
  | nil => exact List.suffix_rfl
  | cons a l ih =>
      rw [trim]
      split
      · exact ih.trans (List.suffix_cons a l)
      · exact List.suffix_rfl

/-- The last item stays. -/
theorem trim_concat (l : List α) (a : α) : ∃ kept, trim w cap (l ++ [a]) = kept ++ [a] := by
  induction l with
  | nil => exact ⟨[], by simp [trim]⟩
  | cons b l ih =>
      rw [List.cons_append, trim]
      split
      · exact ih
      · exact ⟨b :: l, rfl⟩

/-- What is left fits, or is one item. -/
theorem trim_fits (l : List α) : ((trim w cap l).map w).sum ≤ cap ∨ (trim w cap l).length ≤ 1 := by
  induction l with
  | nil => exact Or.inr (by simp [trim])
  | cons a l ih =>
      rw [trim]
      split
      · exact ih
      · rename_i hkeep
        cases l with
        | nil => exact Or.inr (by simp)
        | cons b l => exact Or.inl (by simpa using hkeep)

variable {w cap}

/-- In an ordered list, what goes comes before what stays. -/
theorem trim_pairwise {r : α → α → Prop} {l : List α} (h : l.Pairwise r) {a b : α} (ha : a ∈ l)
    (hgone : a ∉ trim w cap l) (hb : b ∈ trim w cap l) : r a b := by
  obtain ⟨front, hsplit⟩ := trim_suffix w cap l
  rw [← hsplit] at h ha
  rcases List.mem_append.1 ha with hfront | hkept
  · exact (List.pairwise_append.1 h).2.2 a hfront b hb
  · exact absurd hkept hgone

theorem trim_map {β : Type v} {f : β → α} (l : List β) :
    trim w cap (l.map f) = (trim (w ∘ f) cap l).map f := by
  induction l with
  | nil => rfl
  | cons b l ih =>
      simp only [List.map_cons, trim, List.isEmpty_map, List.map_map, Function.comp_apply]
      split
      · exact ih
      · rfl

/-- In an ordered list, what is closed under coming later is an end of it. -/
theorem filter_suffix_of_pairwise {r : α → α → Prop} {p : α → Bool} {l : List α}
    (h : l.Pairwise r) (hp : ∀ a ∈ l, ∀ b ∈ l, p a = true → r a b → p b = true) :
    l.filter p <:+ l := by
  induction l with
  | nil => exact List.suffix_rfl
  | cons a l ih =>
      obtain ⟨hhead, htail⟩ := List.pairwise_cons.1 h
      cases hpa : p a with
      | true =>
          have hall : ∀ b ∈ l, p b = true :=
            fun b hb => hp a (by simp) b (by simp [hb]) hpa (hhead b hb)
          have hkeep : (a :: l).filter p = a :: l := by
            rw [List.filter_cons_of_pos hpa, List.filter_eq_self.2 hall]
          exact ⟨[], hkeep⟩
      | false =>
          rw [List.filter_cons_of_neg (by simp [hpa])]
          exact (ih htail (fun b hb c hc => hp b (by simp [hb]) c (by simp [hc]))).trans
            (List.suffix_cons a l)

variable (w) in
/-- A longer end of the list does not fit. -/
theorem trim_maximal {l s : List α} (hs : s <:+ l) (hlonger : (trim w cap l).length < s.length) :
    1 < s.length ∧ cap < (s.map w).sum := by
  induction l with
  | nil =>
      rw [List.suffix_nil.1 hs] at hlonger
      simp [trim] at hlonger
  | cons a l ih =>
      rw [trim] at hlonger
      split at hlonger
      · rename_i hdrop
        rcases List.suffix_cons_iff.1 hs with rfl | hin
        · refine ⟨?_, hdrop.2⟩
          cases l with
          | nil => simp at hdrop
          | cons b l => simp
        · exact ih hin hlonger
      · exact absurd hlonger (not_lt.2 hs.length_le)

end Trim

/-! ## The cache -/

namespace Lru

variable {κ : Type u} {σ : Type v} [DecidableEq κ]

structure Item (κ : Type u) (σ : Type v) where
  key : κ
  value : σ
  weight : Nat

inductive Op (κ : Type u) (σ : Type v) where
  | get (key : κ)
  | put (key : κ) (value : σ) (weight : Nat)
  | drop (gone : κ → Bool)

namespace Op

def Touches : Op κ σ → κ → Prop
  | get key, k => key = k
  | put key _ _, k => key = k
  | drop _, _ => False

/-- Does the operation store under the key? -/
def Puts : Op κ σ → κ → Prop
  | put key _ _, k => key = k
  | _, _ => False

/-- Does the operation take the key out? -/
def Drops : Op κ σ → κ → Prop
  | drop gone, k => gone k = true
  | _, _ => False

end Op

/-- The items other than that of a key. -/
def others (q : List (Item κ σ)) (key : κ) : List (Item κ σ) :=
  q.filter (fun item => decide (item.key ≠ key))

def step (cap : Nat) (q : List (Item κ σ)) : Op κ σ → List (Item κ σ)
  | .get key =>
      match q.find? (fun item => decide (item.key = key)) with
      | some item => others q key ++ [item]
      | none => q
  | .put key value weight => trim Item.weight cap (others q key ++ [⟨key, value, weight⟩])
  | .drop gone => q.filter (fun item => !gone item.key)

/-- The items after a history of operations on an empty cache. -/
def run (cap : Nat) (history : List (Op κ σ)) : List (Item κ σ) := history.foldl (step cap) []

/-- The items stand in the recency order of the history. -/
def Ordered (history : List (Op κ σ)) (q : List (Item κ σ)) : Prop :=
  q.Pairwise (fun a b => UsedLater Op.Touches history b.key a.key)

/-- The key has an item with this value. -/
def Holds (q : List (Item κ σ)) (key : κ) (value : σ) : Prop :=
  ∃ item ∈ q, item.key = key ∧ item.value = value

def Resident (q : List (Item κ σ)) (key : κ) : Prop := ∃ item ∈ q, item.key = key

variable {cap : Nat} {history : List (Op κ σ)} {q : List (Item κ σ)} {key : κ} {value : σ}

@[simp]
theorem run_snoc (op : Op κ σ) : run cap (history ++ [op]) = step cap (run cap history) op := by
  simp [run]

theorem mem_others {item : Item κ σ} : item ∈ others q key ↔ item ∈ q ∧ item.key ≠ key := by
  simp [others]

omit [DecidableEq κ] in
/-- Ordered items have distinct keys. -/
theorem Ordered.eq_of_key (h : Ordered history q) {a b : Item κ σ} (ha : a ∈ q) (hb : b ∈ q)
    (hkey : a.key = b.key) : a = b := by
  have hnodup : (q.map Item.key).Nodup :=
    List.pairwise_map.2 (h.imp (fun hlater => hlater.ne.symm))
  exact List.inj_on_of_nodup_map hnodup ha hb hkey

/-! ### One operation -/

/-- The items an operation does not touch keep their order, and the one it touches comes last. -/
theorem ordered_others_concat (h : Ordered history q) {op : Op κ σ} (item : Item κ σ)
    (htouch : ∀ k, op.Touches k ↔ item.key = k) :
    Ordered (history ++ [op]) (others q item.key ++ [item]) := by
  refine List.pairwise_append.2 ⟨?_, List.pairwise_singleton _ _, ?_⟩
  · refine (h.sublist List.filter_sublist).imp_of_mem (fun {a b} ha _ hlater => ?_)
    exact hlater.snoc (fun ht => (mem_others.1 ha).2 ((htouch _).1 ht).symm)
  · intro a ha b hb
    rw [List.mem_singleton.1 hb]
    exact usedLater_of_touches ((htouch _).2 rfl)
      (fun ht => (mem_others.1 ha).2 ((htouch _).1 ht).symm)

theorem step_ordered (h : Ordered history q) (op : Op κ σ) :
    Ordered (history ++ [op]) (step cap q op) := by
  cases op with
  | get key =>
      rw [step]
      cases hfind : q.find? (fun item => decide (item.key = key)) with
      | none =>
          -- A miss touches no item.
          refine h.imp_of_mem (fun {a b} ha _ hlater => hlater.snoc (fun ht => ?_))
          have hne := List.find?_eq_none.1 hfind a ha
          exact hne (decide_eq_true (Eq.symm ht))
      | some item =>
          obtain rfl : item.key = key := by simpa using List.find?_some hfind
          exact ordered_others_concat h item (fun _ => Iff.rfl)
  | put key value weight =>
      have hall : Ordered (history ++ [.put key value weight])
          (others q key ++ [⟨key, value, weight⟩]) :=
        ordered_others_concat h ⟨key, value, weight⟩ (fun _ => Iff.rfl)
      exact hall.sublist (trim_suffix _ _ _).sublist
  | drop gone =>
      refine (h.sublist List.filter_sublist).imp (fun hlater => hlater.snoc ?_)
      exact fun ht => ht

/-- The cache stands in the recency order of its history. -/
theorem run_ordered (cap : Nat) (history : List (Op κ σ)) :
    Ordered history (run cap history) := by
  induction history using List.reverseRecOn with
  | nil => exact List.Pairwise.nil
  | append_singleton history op ih =>
      rw [run_snoc]
      exact step_ordered ih op

/-- Looking a key up moves an item and keeps all. -/
theorem mem_step_get (h : Ordered history q) {item : Item κ σ} :
    item ∈ step cap q (.get key) ↔ item ∈ q := by
  rw [step]
  cases hfind : q.find? (fun item => decide (item.key = key)) with
  | none => rfl
  | some found =>
      have hmem := List.mem_of_find?_eq_some hfind
      obtain rfl : found.key = key := by simpa using List.find?_some hfind
      simp only [List.mem_append, mem_others, List.mem_singleton]
      constructor
      · rintro (⟨hin, -⟩ | rfl)
        · exact hin
        · exact hmem
      · intro hin
        by_cases hkey : item.key = found.key
        · exact Or.inr (h.eq_of_key hin hmem hkey)
        · exact Or.inl ⟨hin, hkey⟩

/-- The item just stored is there. -/
theorem mem_step_put_self (q : List (Item κ σ)) (key : κ) (value : σ) (weight : Nat) :
    ⟨key, value, weight⟩ ∈ step cap q (.put key value weight) := by
  obtain ⟨kept, hkept⟩ := trim_concat Item.weight cap (others q key)
    ⟨key, value, weight⟩
  simp [step, hkept]

theorem of_mem_step_put {weight : Nat} {item : Item κ σ}
    (h : item ∈ step cap q (.put key value weight)) :
    item = ⟨key, value, weight⟩ ∨ item ∈ q ∧ item.key ≠ key := by
  have hin := (trim_suffix _ _ _).mem h
  rw [List.mem_append, mem_others, List.mem_singleton] at hin
  exact hin.symm

/-! ### What a lookup answers -/

/-- A put takes out the item of another key. -/
def Evicts (cap : Nat) (history : List (Op κ σ)) (op : Op κ σ) (key : κ) : Prop :=
  (∃ k, op.Puts k) ∧ Resident (run cap history) key ∧ ¬ Resident (run cap (history ++ [op])) key

/-- The value was the last one stored under the key, and neither a drop nor an eviction followed. -/
def Standing (cap : Nat) (history : List (Op κ σ)) (key : κ) (value : σ) : Prop :=
  ∃ before weight after, history = before ++ .put key value weight :: after ∧
    (∀ op ∈ after, ¬ op.Puts key ∧ ¬ op.Drops key) ∧
    ∀ mid op rest, after = mid ++ op :: rest →
      ¬ Evicts cap (before ++ .put key value weight :: mid) op key

/-- A value stands on after an operation that leaves its key alone. -/
theorem Standing.snoc (h : Standing cap history key value) {op : Op κ σ} (hputs : ¬ op.Puts key)
    (hdrops : ¬ op.Drops key) (hevicts : ¬ Evicts cap history op key) :
    Standing cap (history ++ [op]) key value := by
  obtain ⟨before, weight, after, rfl, hquiet, hkept⟩ := h
  refine ⟨before, weight, after ++ [op], by simp, ?_, ?_⟩
  · intro op' hop'
    rcases List.mem_append.1 hop' with hin | hin
    · exact hquiet op' hin
    · rw [List.mem_singleton.1 hin]
      exact ⟨hputs, hdrops⟩
  · intro mid op' rest hsplit
    rcases List.eq_nil_or_concat rest with rfl | ⟨rest, last, rfl⟩
    · obtain ⟨rfl, hlast⟩ := List.append_inj' hsplit rfl
      obtain rfl : op = op' := by simpa using hlast
      exact hevicts
    · refine hkept mid op' rest ?_
      have hcons : after ++ [op] = (mid ++ op' :: rest) ++ [last] := by simpa using hsplit
      exact (List.append_inj' hcons rfl).1

/-- What a value that stands after a longer history says of the shorter one. -/
theorem Standing.of_snoc {op : Op κ σ} (h : Standing cap (history ++ [op]) key value) :
    (∃ weight, op = .put key value weight) ∨
      Standing cap history key value ∧ ¬ op.Puts key ∧ ¬ op.Drops key ∧
        ¬ Evicts cap history op key := by
  obtain ⟨before, weight, after, hsplit, hquiet, hkept⟩ := h
  rcases List.eq_nil_or_concat after with rfl | ⟨after, last, rfl⟩
  · left
    obtain ⟨-, hlast⟩ := List.append_inj' hsplit rfl
    exact ⟨weight, by simpa using hlast⟩
  · right
    have hsplit' : history ++ [op] = (before ++ .put key value weight :: after) ++ [last] := by
      simpa using hsplit
    obtain ⟨rfl, hlast⟩ := List.append_inj' hsplit' rfl
    obtain rfl : op = last := by simpa using hlast
    obtain ⟨hputs, hdrops⟩ := hquiet op (by simp)
    refine ⟨⟨before, weight, after, rfl, fun op' hop' => hquiet op' (by simp [hop']), ?_⟩, hputs,
      hdrops, hkept after op [] (by simp)⟩
    intro mid op' rest hafter
    exact hkept mid op' (rest ++ [op]) (by simp [hafter])

/-- A lookup answers the value that stands. -/
theorem holds_run_iff (cap : Nat) (history : List (Op κ σ)) (key : κ) (value : σ) :
    Holds (run cap history) key value ↔ Standing cap history key value := by
  induction history using List.reverseRecOn with
  | nil =>
      constructor
      · rintro ⟨item, hitem, -⟩
        cases hitem
      · rintro ⟨before, weight, after, hsplit, -⟩
        simp at hsplit
  | append_singleton history op ih =>
      have hordered := run_ordered cap history
      constructor
      · rintro ⟨item, hitem, rfl, rfl⟩
        have hafter : Resident (run cap (history ++ [op])) item.key := ⟨item, hitem, rfl⟩
        rw [run_snoc] at hitem
        cases op with
        | get k =>
            have hstands := ih.1 ⟨item, (mem_step_get hordered).1 hitem, rfl, rfl⟩
            exact hstands.snoc id id (fun hev => hev.2.2 hafter)
        | put k v weight =>
            rcases of_mem_step_put hitem with rfl | ⟨hin, hne⟩
            · exact ⟨history, weight, [], rfl, by simp, by simp⟩
            · exact (ih.1 ⟨item, hin, rfl, rfl⟩).snoc (Ne.symm hne) id
                (fun hev => hev.2.2 hafter)
        | drop gone =>
            obtain ⟨hin, hstays⟩ := List.mem_filter.1 hitem
            exact (ih.1 ⟨item, hin, rfl, rfl⟩).snoc id
              (fun hgone => by simp [show gone item.key = true from hgone] at hstays)
              (fun hev => hev.2.2 hafter)
      · intro hstands
        rcases hstands.of_snoc with ⟨weight, rfl⟩ | ⟨hbefore, hputs, hdrops, hevicts⟩
        · rw [run_snoc]
          exact ⟨_, mem_step_put_self _ key value weight, rfl, rfl⟩
        · obtain ⟨item, hitem, rfl, rfl⟩ := ih.2 hbefore
          cases op with
          | get k =>
              rw [run_snoc]
              exact ⟨item, (mem_step_get hordered).2 hitem, rfl, rfl⟩
          | put k v weight =>
              -- Not evicted, so an item of the key is left, and it can only be this one.
              have hresident : Resident (run cap (history ++ [.put k v weight])) item.key := by
                by_contra hgone
                exact hevicts ⟨⟨k, rfl⟩, ⟨item, hitem, rfl⟩, hgone⟩
              obtain ⟨item', hitem', hkey⟩ := hresident
              rw [run_snoc] at hitem' ⊢
              rcases of_mem_step_put hitem' with rfl | ⟨hin, -⟩
              · exact absurd hkey hputs
              · obtain rfl := hordered.eq_of_key hin hitem hkey
                exact ⟨item', hitem', rfl, rfl⟩
          | drop gone =>
              rw [run_snoc]
              refine ⟨item, List.mem_filter.2 ⟨hitem, ?_⟩, rfl, rfl⟩
              simpa using (show ¬ gone item.key = true from hdrops)

end Lru

end Lib
end Girder
