import Mathlib.Data.List.MinMax
import Girder.Constraints
import Girder.Tokens

/-!
# Candidates — the rows the token index leaves to check

A text predicate is resolved against the token index before any row is looked at.  For `text_match` the
rows are exact: those whose text has all tokens.  For `text_like` they are a superset: the lists of the
pattern's constraints, where a prefix that spans too many tokens is dropped.
-/

namespace Girder

open Lib

/-- Does an ascending list hold the row? -/
def holdsRow (rows : List Nat) (row : Nat) : Bool :=
  (bsearch (compareAt rows row) rows.length 0 rows.length).isSome

/-- `swap_remove`: the last element takes the place of the one removed. -/
def swapRemove {α : Type} (l : List α) (i : Nat) : List α :=
  match l.getLast? with
  | none => []
  | some last => (l.set i last).dropLast

/-- The rows in all lists: walk the shortest, search the others. -/
def intersectAscending (lists : List (List Nat)) : List Nat :=
  match (List.range lists.length).argmin (fun i => (lists[i]?.map List.length).getD 0) with
  | none => []
  | some minIdx =>
      let rest := swapRemove lists minIdx
      (lists[minIdx]?.getD []).filter (fun row => rest.all (fun l => holdsRow l row))

/-- What a prefix constraint resolves to. -/
inductive PrefixUnion
  /-- Too many tokens start with it: the constraint is dropped. -/
  | overBudget
  /-- No token starts with it. -/
  | empty
  | rows (rows : List Nat)

/-- Most tokens a prefix constraint may span. -/
def likePrefixBudget : Nat := 64

namespace TokenIndex

/-- How many tokens from here on start with `p`; `none` beyond the budget. -/
def rangeLen (p : String) (budget : Nat) : Nat → List String → Option Nat
  | n, [] => some n
  | n, t :: ts =>
      if startsWith t p then
        if budget < n + 1 then none else rangeLen p budget (n + 1) ts
      else
        some n

/-- The rows of every token that starts with `p`. -/
def postingsUnionOfPrefix (idx : TokenIndex) (p : String) (budget : Nat) : Res PrefixUnion :=
  let start := (idx.tokens.takeWhile (fun t => decide (t < p))).length
  match rangeLen p budget 0 (idx.tokens.drop start) with
  | none => .ok .overBudget
  | some 0 => .ok .empty
  | some (n + 1) => do
      let lists ← (List.range' start (n + 1)).mapM idx.postingsAt
      pure (.rows ((sortAsc id lists.flatten).destutter (· ≠ ·)))

/-- The lists of some tokens; `none` when one is unknown. -/
def postingsOfAll (idx : TokenIndex) : List String → Res (Option (List (List Nat)))
  | [] => pure (some [])
  | t :: ts => do
      match ← idx.postingsOf t with
      | none => pure none
      | some rows => do
          let more ← idx.postingsOfAll ts
          pure (more.map (fun lists => rows :: lists))

/-- The rows whose text has all tokens of `want`; no tokens match nothing. -/
def rowsMatchingAll (idx : TokenIndex) (want : List String) : Res (List Nat) :=
  if want.isEmpty then
    pure []
  else do
    match ← idx.postingsOfAll want with
    | none => pure []
    | some lists =>
        match sortAsc List.length lists with
        | [] => throw .panic
        | first :: rest =>
            pure (first.filter (fun row => rest.all (fun l => holdsRow l row)))

/-- The lists of some constraints; `none` when one of them cannot hold. -/
def constraintLists (idx : TokenIndex) : List LikeConstraint → Res (Option (List (List Nat)))
  | [] => pure (some [])
  | .token t :: cs => do
      match ← idx.postingsOf t with
      | none => pure none
      | some rows => do
          let more ← idx.constraintLists cs
          pure (more.map (fun lists => rows :: lists))
  | .leading p :: cs => do
      match ← idx.postingsUnionOfPrefix p likePrefixBudget with
      | .overBudget => idx.constraintLists cs
      | .empty => pure none
      | .rows rows => do
          let more ← idx.constraintLists cs
          pure (more.map (fun lists => rows :: lists))

end TokenIndex

/-! ## Intersections -/

theorem holdsRow_iff {rows : List Nat} (h : rows.Pairwise (· < ·)) {row : Nat} :
    holdsRow rows row = true ↔ row ∈ rows := isSome_bsearch_compareAt h

/-- What is removed and what is left make up the list. -/
theorem mem_swapRemove {α : Type} {l : List α} {i : Nat} {a : α} (hi : l[i]? = some a) (x : α) :
    x = a ∨ x ∈ swapRemove l i ↔ x ∈ l := by
  rcases List.eq_nil_or_concat l with rfl | ⟨ys, z, rfl⟩
  · simp at hi
  · rw [List.concat_eq_append] at hi ⊢
    have hrest : swapRemove (ys ++ [z]) i = ((ys ++ [z]).set i z).dropLast := by
      simp [swapRemove]
    rw [hrest, List.mem_append, List.mem_singleton]
    rcases Nat.lt_trichotomy i ys.length with hlt | rfl | hgt
    · -- The last element moves to the place of an earlier one.
      rw [List.getElem?_append_left hlt] at hi
      obtain ⟨-, rfl⟩ := List.getElem?_eq_some_iff.1 hi
      rw [List.set_append_left _ _ hlt, List.dropLast_concat]
      constructor
      · rintro (rfl | hx)
        · exact Or.inl (List.getElem_mem hlt)
        · exact List.mem_or_eq_of_mem_set hx
      · rintro (hx | rfl)
        · obtain ⟨j, hj, rfl⟩ := List.mem_iff_getElem.1 hx
          by_cases hij : i = j
          · subst hij
            exact Or.inl rfl
          · refine Or.inr (List.mem_iff_getElem.2 ⟨j, by simpa using hj, ?_⟩)
            rw [List.getElem_set_ne hij]
        · exact Or.inr (List.mem_set hlt x)
    · have hz : a = z := by simpa using hi.symm
      subst hz
      rw [List.set_append_right _ _ le_rfl, Nat.sub_self, List.set_cons_zero,
        List.dropLast_concat]
      exact or_comm
    · rw [List.getElem?_eq_none (by simp; omega)] at hi
      exact absurd hi (by simp)

/-- Walking one ascending list and searching the others. -/
theorem filter_holdsRow_spec {count : Nat} {first : List Nat} {rest : List (List Nat)}
    (hfirst : TokenIndex.Ascending count first)
    (hrest : ∀ l ∈ rest, TokenIndex.Ascending count l) :
    TokenIndex.Ascending count (first.filter (fun row => rest.all (fun l => holdsRow l row))) ∧
      ∀ row, row ∈ first.filter (fun row => rest.all (fun l => holdsRow l row)) ↔
        row ∈ first ∧ ∀ l ∈ rest, row ∈ l := by
  refine ⟨⟨hfirst.sorted.sublist List.filter_sublist,
    fun row hrow => hfirst.below row (List.mem_filter.1 hrow).1⟩, fun row => ?_⟩
  rw [List.mem_filter, List.all_eq_true]
  exact and_congr_right fun _ => forall₂_congr fun l hl => holdsRow_iff (hrest l hl).sorted

/-- The intersection of ascending lists. -/
theorem intersectAscending_spec {count : Nat} {lists : List (List Nat)} (hne : lists ≠ [])
    (h : ∀ l ∈ lists, TokenIndex.Ascending count l) :
    TokenIndex.Ascending count (intersectAscending lists) ∧
      ∀ row, row ∈ intersectAscending lists ↔ ∀ l ∈ lists, row ∈ l := by
  unfold intersectAscending
  cases hmin : (List.range lists.length).argmin (fun i => (lists[i]?.map List.length).getD 0) with
  | none =>
      rw [List.argmin_eq_none, List.range_eq_nil, List.length_eq_zero_iff] at hmin
      exact absurd hmin hne
  | some i =>
      have hlt : i < lists.length := List.mem_range.1 (List.argmin_mem hmin)
      have hi : lists[i]? = some lists[i] := List.getElem?_eq_getElem hlt
      have hmem := mem_swapRemove hi
      obtain ⟨hsorted, hrow⟩ := filter_holdsRow_spec (h _ (List.getElem_mem hlt))
        (fun l hl => h l ((hmem l).1 (Or.inr hl)))
      simp only [hi, Option.getD_some]
      refine ⟨hsorted, fun row => (hrow row).trans ⟨fun ⟨hin, hrest⟩ l hl => ?_, fun hall => ?_⟩⟩
      · rcases (hmem l).2 hl with rfl | hl'
        · exact hin
        · exact hrest l hl'
      · exact ⟨hall _ (List.getElem_mem hlt), fun l hl => hall l ((hmem l).1 (Or.inr hl))⟩

/-! ## Lists of an index -/

/-- The rows of the union include every row with a token under the prefix. -/
def PrefixUnion.Covers [Unicode] {ν : Type} (records : List (Record ν)) (p : String) :
    PrefixUnion → Prop
  | .overBudget => True
  | .empty => ∀ r ∈ records, ∀ t ∈ r.tokens, ¬ startsWith t p = true
  | .rows union => TokenIndex.Ascending records.length union ∧
      ∀ (row : Nat) (r : Record ν), records[row]? = some r →
        (∃ t ∈ r.tokens, startsWith t p = true) → row ∈ union

namespace TokenIndex

section Lookups

variable [Unicode] {ν : Type} {records : List (Record ν)} {idx : TokenIndex}

/-- A token is in the dictionary when some row has it. -/
theorem mem_tokens_iff (hlen : records.length < 2 ^ 32) {t : String} :
    t ∈ (build records).tokens ↔ rowsWith t 0 records ≠ [] := by
  rw [build, List.mem_map]
  constructor
  · rintro ⟨⟨t', rows⟩, hmem, rfl⟩
    obtain ⟨rfl, hne⟩ := (mem_toList_buildMap hlen).1 hmem
    exact hne
  · intro hne
    exact ⟨(t, rowsWith t 0 records), (mem_toList_buildMap hlen).2 ⟨rfl, hne⟩, rfl⟩

theorem postingsOf_eq (h : idx.Indexes records) (hlen : records.length < 2 ^ 32) (t : String) :
    idx.postingsOf t =
      .ok (if rowsWith t 0 records = [] then none else some (rowsWith t 0 records)) := by
  have hsorted : idx.tokens.Pairwise (· < ·) := by
    rw [h.tokens_eq]
    exact tokens_build_sorted records
  have hcompare : ∀ f : Nat → Ordering, (∀ i, f i = compareAt idx.tokens t i) →
      bsearch f idx.tokens.length 0 idx.tokens.length =
        bsearch (compareAt idx.tokens t) idx.tokens.length 0 idx.tokens.length :=
    fun f hf => by rw [funext hf]
  unfold postingsOf
  rw [hcompare _ (fun i => ?_)]
  swap
  · unfold compareAt
    cases idx.tokens[i]? <;> rfl
  by_cases ht : t ∈ idx.tokens
  · obtain ⟨i, hi⟩ := List.mem_iff_getElem?.1 ht
    rw [h.tokens_eq] at ht
    rw [bsearch_compareAt hsorted hi, if_neg ((mem_tokens_iff hlen).1 ht)]
    show (some <$> idx.postingsAt i : Res _) = _
    rw [h.postingsAt_eq hi]
    rfl
  · rw [bsearch_compareAt_none ht]
    rw [h.tokens_eq, mem_tokens_iff hlen, not_not] at ht
    rw [if_pos ht]

/-! ## All tokens of a query -/

/-- Each list holds the rows of its token; no lists when some token has no rows. -/
theorem postingsOfAll_eq (h : idx.Indexes records) (hlen : records.length < 2 ^ 32) :
    ∀ want : List String, idx.postingsOfAll want =
      .ok (if ∃ t ∈ want, rowsWith t 0 records = [] then none
        else some (want.map (fun t => rowsWith t 0 records))) := by
  intro want
  induction want with
  | nil => simp [postingsOfAll, pure, Except.pure]
  | cons t want ih =>
      rw [postingsOfAll, postingsOf_eq h hlen, Res.ok_bind]
      by_cases ht : rowsWith t 0 records = []
      · rw [if_pos ht, if_pos ⟨t, List.mem_cons_self, ht⟩]
        rfl
      · rw [if_neg ht]
        simp only [ih, Res.ok_bind, List.exists_mem_cons_iff, ht, false_or]
        split
        · rfl
        · rfl

/-- A row that has a token is filed under it. -/
theorem mem_rowsWith_zero {t : String} {row : Nat} :
    row ∈ rowsWith t 0 records ↔ ∃ r, records[row]? = some r ∧ t ∈ r.tokens := by
  rw [mem_rowsWith]
  simp

/-- Being in the lists of some tokens. -/
theorem forall_mem_rowsWith {want : List String} (hwant : want ≠ []) {row : Nat} :
    (∀ l ∈ want.map (fun t => rowsWith t 0 records), row ∈ l) ↔
      ∃ r, records[row]? = some r ∧ ∀ t ∈ want, t ∈ r.tokens := by
  rw [List.forall_mem_map]
  constructor
  · intro hall
    obtain ⟨t, ht⟩ := List.exists_mem_of_ne_nil want hwant
    obtain ⟨r, hr, -⟩ := mem_rowsWith_zero.1 (hall t ht)
    refine ⟨r, hr, fun t' ht' => ?_⟩
    obtain ⟨r', hr', hmem⟩ := mem_rowsWith_zero.1 (hall t' ht')
    rw [hr] at hr'
    rwa [Option.some.inj hr']
  · rintro ⟨r, hr, hall⟩ t ht
    exact mem_rowsWith_zero.2 ⟨r, hr, hall t ht⟩

/-- The rows whose text has all tokens, in order. -/
theorem rowsMatchingAll_spec (h : idx.Indexes records) (hlen : records.length < 2 ^ 32)
    (want : List String) :
    ∃ rows, idx.rowsMatchingAll want = .ok rows ∧ Ascending records.length rows ∧
      ∀ row, row ∈ rows ↔ want ≠ [] ∧ ∃ r, records[row]? = some r ∧ ∀ t ∈ want, t ∈ r.tokens := by
  have hnil : Ascending records.length [] := ⟨List.Pairwise.nil, by simp⟩
  unfold rowsMatchingAll
  by_cases hwant : want = []
  · rw [if_pos (List.isEmpty_iff.2 hwant)]
    exact ⟨[], rfl, hnil, by simp [hwant]⟩
  · rw [if_neg (by simpa using hwant), postingsOfAll_eq h hlen, Res.ok_bind]
    by_cases hno : ∃ t ∈ want, rowsWith t 0 records = []
    · -- A token that no row has.
      rw [if_pos hno]
      obtain ⟨t, ht, hrows⟩ := hno
      refine ⟨[], rfl, hnil, fun row => ⟨fun hrow => absurd hrow List.not_mem_nil, ?_⟩⟩
      rintro ⟨-, r, hr, hall⟩
      have hmem := mem_rowsWith_zero.2 ⟨r, hr, hall t ht⟩
      rwa [hrows] at hmem
    · rw [if_neg hno]
      have hmem : ∀ l, l ∈ sortAsc List.length (want.map (fun t => rowsWith t 0 records)) ↔
          l ∈ want.map (fun t => rowsWith t 0 records) := fun _ => mem_sortAsc _
      have hasc : ∀ l ∈ want.map (fun t => rowsWith t 0 records), Ascending records.length l :=
        List.forall_mem_map.2 fun t _ => ascending_rowsWith t records
      cases hsort : sortAsc List.length (want.map (fun t => rowsWith t 0 records)) with
      | nil =>
          obtain ⟨t, ht⟩ := List.exists_mem_of_ne_nil want hwant
          have hin := (hmem _).2 (List.mem_map_of_mem ht)
          rw [hsort] at hin
          exact absurd hin List.not_mem_nil
      | cons first rest =>
          -- The shortest list, filtered by the others.
          rw [hsort] at hmem
          obtain ⟨hsorted, hrow⟩ := filter_holdsRow_spec
            (hasc first ((hmem first).1 List.mem_cons_self))
            (fun l hl => hasc l ((hmem l).1 (List.mem_cons_of_mem first hl)))
          refine ⟨_, by simp only [hsort]; rfl, hsorted, fun row => (hrow row).trans ?_⟩
          rw [and_iff_right hwant, ← forall_mem_rowsWith hwant]
          refine (List.forall_mem_cons (p := fun l => row ∈ l)).symm.trans ?_
          exact forall_congr' fun l => imp_congr_left (hmem l)

/-! ## The tokens under a prefix -/

omit [Unicode] in
/-- In an ascending list of tokens from `p` on, those that start with `p` come first. -/
theorem mem_takeWhile_startsWith {p t : String} :
    ∀ {ts : List String}, ts.Pairwise (· < ·) → (∀ u ∈ ts, p ≤ u) → t ∈ ts →
      startsWith t p = true → t ∈ ts.takeWhile (fun t => startsWith t p) := by
  intro ts
  induction ts with
  | nil => exact fun _ _ ht _ => absurd ht List.not_mem_nil
  | cons u ts ih =>
      intro hsorted hle ht hp
      obtain ⟨hhead, htail⟩ := List.pairwise_cons.1 hsorted
      by_cases hu : startsWith u p = true
      · rw [List.takeWhile_cons, if_pos hu]
        rcases List.mem_cons.1 ht with rfl | ht
        · exact List.mem_cons_self
        · exact List.mem_cons_of_mem u
            (ih htail (fun v hv => hle v (List.mem_cons_of_mem u hv)) ht hp)
      · -- A token beyond `p` that does not extend it is beyond all that do.
        rcases List.mem_cons.1 ht with rfl | ht
        · exact absurd hp hu
        · have hne : p ≠ u := by
            rintro rfl
            exact hu (startsWith_self p)
          have hlt : p < u := lt_of_le_of_ne (hle u List.mem_cons_self) hne
          have hbeyond := lt_of_startsWith_of_lt hp hlt (by simpa using hu)
          exact absurd (hhead t ht) (lt_asymm hbeyond)

omit [Unicode] in
theorem rangeLen_eq_some {p : String} {budget n m : Nat} {ts : List String}
    (h : rangeLen p budget n ts = some m) :
    m = n + (ts.takeWhile (fun t => startsWith t p)).length := by
  induction ts generalizing n with
  | nil => simpa [rangeLen] using h.symm
  | cons t ts ih =>
      unfold rangeLen at h
      by_cases ht : startsWith t p = true
      · rw [if_pos ht] at h
        split at h
        · exact absurd h (by simp)
        · rw [List.takeWhile_cons, if_pos ht, List.length_cons]
          have := ih h
          omega
      · rw [if_neg ht] at h
        rw [List.takeWhile_cons, if_neg ht]
        simpa using h.symm

omit [Unicode] in
/-- What is left of an ascending list after its elements below `p`. -/
theorem le_of_mem_dropWhile {p u : String} :
    ∀ {ts : List String}, ts.Pairwise (· < ·) → u ∈ ts.dropWhile (fun t => decide (t < p)) →
      p ≤ u := by
  intro ts
  induction ts with
  | nil => exact fun _ hu => absurd hu List.not_mem_nil
  | cons t ts ih =>
      intro hsorted hu
      obtain ⟨hhead, htail⟩ := List.pairwise_cons.1 hsorted
      rw [List.dropWhile_cons] at hu
      split at hu
      · exact ih htail hu
      · rename_i ht
        have hle : p ≤ t := not_lt.1 (by simpa using ht)
        rcases List.mem_cons.1 hu with rfl | hu
        · exact hle
        · exact hle.trans (hhead u hu).le

/-- The tokens of the dictionary from `p` on that start with it. -/
def rangeOf (tokens : List String) (p : String) : List String :=
  (tokens.drop (tokens.takeWhile (fun t => decide (t < p))).length).takeWhile
    (fun t => startsWith t p)

omit [Unicode] in
/-- The range holds every token that starts with the prefix. -/
theorem mem_rangeOf {ts : List String} (hsorted : ts.Pairwise (· < ·)) {p t : String} (ht : t ∈ ts)
    (hp : startsWith t p = true) : t ∈ rangeOf ts p := by
  have hsplit := List.takeWhile_append_dropWhile (p := fun t => decide (t < p)) (l := ts)
  have hdrop : ts.drop (ts.takeWhile (fun t => decide (t < p))).length =
      ts.dropWhile (fun t => decide (t < p)) := by
    have hwhole : ts.drop (ts.takeWhile (fun t => decide (t < p))).length =
        (ts.takeWhile (fun t => decide (t < p)) ++ ts.dropWhile (fun t => decide (t < p))).drop
          (ts.takeWhile (fun t => decide (t < p))).length := by rw [hsplit]
    rw [hwhole, List.drop_left]
  rw [rangeOf, hdrop]
  refine mem_takeWhile_startsWith (hsorted.sublist (List.dropWhile_sublist _))
    (fun u hu => le_of_mem_dropWhile hsorted hu) ?_ hp
  rw [← hsplit] at ht
  refine (List.mem_append.1 ht).resolve_left fun hlow => ?_
  have hlt : t < p := by simpa using List.mem_takeWhile_imp hlow
  exact absurd (le_of_startsWith hp) (not_le.2 hlt)

/-- The union under a prefix covers every row with a token that starts with it. -/
theorem postingsUnionOfPrefix_spec (h : idx.Indexes records) (hlen : records.length < 2 ^ 32)
    (p : String) (budget : Nat) :
    ∃ u : PrefixUnion, idx.postingsUnionOfPrefix p budget = .ok u ∧ u.Covers records p := by
  have hsorted : idx.tokens.Pairwise (· < ·) := by
    rw [h.tokens_eq]
    exact tokens_build_sorted records
  -- A token of a row that starts with the prefix is in the range.
  have hrange : ∀ r ∈ records, ∀ t ∈ r.tokens, startsWith t p = true → t ∈ rangeOf idx.tokens p := by
    intro r hr t ht hp
    obtain ⟨row, hrow⟩ := List.mem_iff_getElem?.1 hr
    refine mem_rangeOf hsorted ?_ hp
    rw [h.tokens_eq, mem_tokens_iff hlen]
    exact List.ne_nil_of_mem (mem_rowsWith_zero.2 ⟨r, hrow, ht⟩)
  unfold postingsUnionOfPrefix
  simp only
  cases hcount : rangeLen p budget 0
      (idx.tokens.drop (idx.tokens.takeWhile (fun t => decide (t < p))).length) with
  | none => exact ⟨_, rfl, trivial⟩
  | some n =>
      have hn : n = (rangeOf idx.tokens p).length := (rangeLen_eq_some hcount).trans (Nat.zero_add _)
      cases n with
      | zero =>
          refine ⟨_, rfl, fun r hr t ht hp => ?_⟩
          have hnil := List.length_eq_zero_iff.1 hn.symm
          have hmem := hrange r hr t ht hp
          rw [hnil] at hmem
          exact absurd hmem List.not_mem_nil
      | succ n =>
          let start := (idx.tokens.takeWhile (fun t => decide (t < p))).length
          have hprefix : rangeOf idx.tokens p <+: idx.tokens.drop start := List.takeWhile_prefix _
          have hlength : n + 1 ≤ idx.tokens.length - start := by
            rw [hn, ← List.length_drop]
            exact hprefix.length_le
          -- The lists of the range.
          have hlists : (List.range' start (n + 1)).mapM idx.postingsAt =
              .ok ((List.range' start (n + 1)).map
                (fun i => rowsWith (idx.tokens[i]?.getD "") 0 records)) := by
            refine mapM_ok fun i hi => ?_
            have hlt : i < idx.tokens.length := by
              have := List.mem_range'_1.1 hi
              omega
            have hget : idx.tokens[i]? = some idx.tokens[i] := List.getElem?_eq_getElem hlt
            rw [h.postingsAt_eq hget, hget]
            rfl
          have hmem : ∀ row, row ∈ (sortAsc id ((List.range' start (n + 1)).map
              (fun i => rowsWith (idx.tokens[i]?.getD "") 0 records)).flatten).destutter (· ≠ ·) ↔
              ∃ i ∈ List.range' start (n + 1), row ∈ rowsWith (idx.tokens[i]?.getD "") 0 records := by
            intro row
            rw [mem_destutter_ne, mem_sortAsc, List.mem_flatten]
            simp
          show ∃ u : PrefixUnion, (do
            let lists ← (List.range' start (n + 1)).mapM idx.postingsAt
            pure (.rows ((sortAsc id lists.flatten).destutter (· ≠ ·)))) = (.ok u : Res _) ∧ _
          rw [hlists, Res.ok_bind]
          refine ⟨_, rfl, ⟨pairwise_lt_destutter (sortAsc_pairwise id _), fun row hrow => ?_⟩,
            fun row r hr htoken => ?_⟩
          · obtain ⟨i, -, hi⟩ := (hmem row).1 hrow
            exact (ascending_rowsWith _ records).below row hi
          · obtain ⟨t, ht, hp⟩ := htoken
            obtain ⟨k, hk⟩ := List.mem_iff_getElem?.1 (hrange r (List.mem_of_getElem? hr) t ht hp)
            obtain ⟨hlt, -⟩ := List.getElem?_eq_some_iff.1 hk
            have hget : idx.tokens[start + k]? = some t := by
              obtain ⟨tail, htail⟩ := hprefix
              rw [← List.getElem?_drop, ← htail, List.getElem?_append_left hlt]
              exact hk
            refine (hmem row).2 ⟨start + k, List.mem_range'_1.2 ⟨by omega, by omega⟩, ?_⟩
            rw [hget]
            exact mem_rowsWith_zero.2 ⟨r, hr, ht⟩

/-! ## The lists of a pattern -/

/-- The lists hold every row whose tokens satisfy the constraints; no lists when there is none. -/
def ListsCover (records : List (Record ν)) (cs : List LikeConstraint) :
    Option (List (List Nat)) → Prop
  | none => ∀ r ∈ records, ¬ ∀ c ∈ cs, c.Holds r.tokens
  | some lists => (∀ l ∈ lists, Ascending records.length l) ∧
      ∀ (row : Nat) (r : Record ν), records[row]? = some r → (∀ c ∈ cs, c.Holds r.tokens) →
        ∀ l ∈ lists, row ∈ l

/-- One more constraint, with a list of its own. -/
theorem ListsCover.cons {cs : List LikeConstraint} {out : Option (List (List Nat))}
    (h : ListsCover records cs out) {c : LikeConstraint} {rows : List Nat}
    (hasc : Ascending records.length rows)
    (hrows : ∀ (row : Nat) (r : Record ν), records[row]? = some r → c.Holds r.tokens →
      row ∈ rows) :
    ListsCover records (c :: cs) (out.map (fun lists => rows :: lists)) := by
  cases out with
  | none => exact fun r hr hall => h r hr fun c' hc' => hall c' (List.mem_cons_of_mem c hc')
  | some lists =>
      refine ⟨List.forall_mem_cons.2 ⟨hasc, h.1⟩, fun row r hr hall => ?_⟩
      obtain ⟨hc, hcs⟩ := List.forall_mem_cons.1 hall
      exact List.forall_mem_cons.2 ⟨hrows row r hr hc, h.2 row r hr hcs⟩

/-- One more constraint, dropped. -/
theorem ListsCover.drop {cs : List LikeConstraint} {out : Option (List (List Nat))}
    (h : ListsCover records cs out) (c : LikeConstraint) : ListsCover records (c :: cs) out := by
  cases out with
  | none => exact fun r hr hall => h r hr fun c' hc' => hall c' (List.mem_cons_of_mem c hc')
  | some lists =>
      exact ⟨h.1, fun row r hr hall => h.2 row r hr fun c' hc' =>
        hall c' (List.mem_cons_of_mem c hc')⟩

theorem constraintLists_spec (h : idx.Indexes records) (hlen : records.length < 2 ^ 32) :
    ∀ cs : List LikeConstraint,
      ∃ out, idx.constraintLists cs = .ok out ∧ ListsCover records cs out := by
  intro cs
  induction cs with
  | nil => exact ⟨some [], rfl, by simp, by simp⟩
  | cons c cs ih =>
      obtain ⟨out, hout, hcover⟩ := ih
      cases c with
      | token t =>
          rw [constraintLists, postingsOf_eq h hlen, Res.ok_bind]
          by_cases ht : rowsWith t 0 records = []
          · -- No row satisfies the constraint.
            rw [if_pos ht]
            refine ⟨none, rfl, fun r hr hall => ?_⟩
            obtain ⟨row, hrow⟩ := List.mem_iff_getElem?.1 hr
            have htoken : t ∈ r.tokens := hall _ List.mem_cons_self
            have hmem := mem_rowsWith_zero.2 ⟨r, hrow, htoken⟩
            rw [ht] at hmem
            exact absurd hmem List.not_mem_nil
          · rw [if_neg ht]
            simp only [hout, Res.ok_bind]
            exact ⟨_, rfl, hcover.cons (ascending_rowsWith t records)
              fun row r hr htoken => mem_rowsWith_zero.2 ⟨r, hr, htoken⟩⟩
      | leading p =>
          obtain ⟨u, hu, hcovers⟩ := postingsUnionOfPrefix_spec h hlen p likePrefixBudget
          rw [constraintLists, hu, Res.ok_bind]
          cases u with
          | overBudget =>
              -- Too many tokens: the constraint is not used.
              exact ⟨out, hout, hcover.drop _⟩
          | empty =>
              refine ⟨none, rfl, fun r hr hall => ?_⟩
              obtain ⟨t, ht, hp⟩ := hall _ List.mem_cons_self
              exact hcovers r hr t ht hp
          | rows rows =>
              simp only [hout, Res.ok_bind]
              exact ⟨_, rfl, hcover.cons hcovers.1 hcovers.2⟩

end Lookups

end TokenIndex

end Girder
