import Girder.Engine

/-!
# Tally — what the versions of a key amount to

A read folds the versions of a key newest first.  Which of them count is settled by two labels alone
(`counted`): increments up to and including the first full record, or up to a tombstone.  The record
a read returns takes its payload, labels and text from the oldest version that counts, the latest of
their dates, and for every numeric the sum over them (`tallies_readNewest`).

A rewrite replaces some adjacent versions by their merge, which adds the same numbers in another
order (`groupedSum`).  `readVersions_layout_iff` says when a key reads the same from two lists of
versions, one of them with a group merged: exactly when both amount to the same (`SameTally`).
-/

namespace Girder

open Lib

/-! ## Sums -/

section Sums

variable {ν : Type} [Numeral ν]

/-- An older number underneath the sum of the newer ones; a missing one counts as zero. -/
def addTerm (older sum : Option ν) : Option ν :=
  match sum with
  | none => older
  | some v => some (older.getD 0 + v)

/-- Add the numbers of a read: newest first. -/
def sumNewestFirst (terms : List (Option ν)) : Option ν :=
  terms.foldl (fun sum older => addTerm older sum) none

/-- Add the numbers of a merge: oldest first, the list being newest first. -/
def sumOldestFirst : List (Option ν) → Option ν
  | [] => none
  | [t] => t
  | t :: u :: terms => addTerm (sumOldestFirst (u :: terms)) t

/-- The numbers of a group as a merge leaves them. -/
def mergeTerms (terms : List (Option ν)) : List (Option ν) :=
  if terms.isEmpty then [] else [sumOldestFirst terms]

@[simp] theorem addTerm_none_right (older : Option ν) : addTerm older none = older := rfl

theorem sumOldestFirst_cons {t : Option ν} {terms : List (Option ν)} (h : terms ≠ []) :
    sumOldestFirst (t :: terms) = addTerm (sumOldestFirst terms) t := by
  cases terms with
  | nil => exact absurd rfl h
  | cons u terms => rfl

theorem mergeTerms_of_length_le {terms : List (Option ν)} (h : terms.length ≤ 1) :
    mergeTerms terms = terms := by
  match terms, h with
  | [], _ => rfl
  | [t], _ => rfl

end Sums

/-! ## Which versions count -/

section Counted

variable {ν : Type}

/-- What counts beneath an increment: more increments, down to the first full record; nothing from a
tombstone on. -/
def beneath : List (Record ν) → List (Record ν)
  | [] => []
  | v :: vs => if v.isTombstone then [] else if v.isDelta then v :: beneath vs else [v]

/-- The versions that count for a read, newest first. -/
def counted : List (Record ν) → List (Record ν)
  | [] => []
  | v :: vs => if v.isDelta then v :: beneath vs else [v]

section Heads

variable {v : Record ν}

theorem beneath_of_tombstone (hv : v.isTombstone = true) (vs : List (Record ν)) :
    beneath (v :: vs) = [] := if_pos hv

theorem beneath_of_not_tombstone (hv : v.isTombstone = false) (vs : List (Record ν)) :
    beneath (v :: vs) = counted (v :: vs) := if_neg (by simp [hv])

theorem counted_of_full (hv : v.isDelta = false) (vs : List (Record ν)) :
    counted (v :: vs) = [v] := if_neg (by simp [hv])

theorem counted_of_delta (hv : v.isDelta = true) (vs : List (Record ν)) :
    counted (v :: vs) = v :: beneath vs := if_pos hv

theorem counted_singleton (v : Record ν) : counted [v] = [v] := by
  cases hv : v.isDelta with
  | false => exact counted_of_full hv []
  | true => exact counted_of_delta hv []

end Heads

/-- What counts of `ws`, lying beneath `vs`. -/
def countedBeneath (vs ws : List (Record ν)) : List (Record ν) :=
  match vs with
  | [] => counted ws
  | v :: vs =>
      if v.isDelta && vs.all (fun v => v.isDelta && !v.isTombstone) then beneath ws else []

theorem beneath_append (vs ws : List (Record ν)) :
    beneath (vs ++ ws) = beneath vs ++
      if vs.all (fun v => v.isDelta && !v.isTombstone) then beneath ws else [] := by
  induction vs with
  | nil => rfl
  | cons v vs ih =>
      rw [List.cons_append, beneath, beneath, List.all_cons]
      cases v.isTombstone with
      | true => simp
      | false =>
          cases v.isDelta with
          | true => simp [ih]
          | false => simp

theorem counted_append (vs ws : List (Record ν)) :
    counted (vs ++ ws) = counted vs ++ countedBeneath vs ws := by
  cases vs with
  | nil => rfl
  | cons v vs =>
      rw [List.cons_append, counted, counted, countedBeneath]
      cases v.isDelta with
      | true => simp [beneath_append]
      | false => simp

/-- Nothing counts beneath `above`, or what lies beneath it counts as it does on its own, a tombstone
apart. -/
theorem countedBeneath_cases (above : List (Record ν)) :
    (∀ ws, countedBeneath above ws = [] ∧ ∀ us, countedBeneath (above ++ us) ws = []) ∨
      ∀ v vs, v.isTombstone = false → countedBeneath above (v :: vs) = counted (v :: vs) ∧
        ∀ ws, countedBeneath (above ++ v :: vs) ws = countedBeneath (v :: vs) ws := by
  cases above with
  | nil => exact Or.inr (fun v vs _ => ⟨rfl, fun _ => rfl⟩)
  | cons u us =>
      cases hopen : u.isDelta && us.all (fun v => v.isDelta && !v.isTombstone) with
      | false =>
          -- A full version or a tombstone ends the walk above `ws`.
          refine Or.inl (fun ws => ⟨if_neg (by simp [hopen]), fun us' => ?_⟩)
          rw [List.cons_append, countedBeneath, List.all_append, ← Bool.and_assoc, hopen]
          rfl
      | true =>
          -- Increments only: the walk goes on beneath them.
          refine Or.inr (fun v vs hv => ⟨?_, fun ws => ?_⟩)
          · rw [countedBeneath, hopen, if_pos rfl, beneath_of_not_tombstone hv]
          · rw [List.cons_append, countedBeneath, countedBeneath, List.all_append,
              ← Bool.and_assoc, hopen, List.all_cons, hv]
            simp

theorem not_tombstone_of_mem_beneath {vs : List (Record ν)} :
    ∀ {w : Record ν}, w ∈ beneath vs → w.isTombstone = false := by
  induction vs with
  | nil => exact fun h => by cases h
  | cons v vs ih =>
      intro w hw
      cases hv : v.isTombstone with
      | true =>
          rw [beneath_of_tombstone hv] at hw
          cases hw
      | false =>
          rw [beneath_of_not_tombstone hv] at hw
          cases hd : v.isDelta with
          | true =>
              rw [counted_of_delta hd] at hw
              rcases List.mem_cons.1 hw with rfl | hw
              · exact hv
              · exact ih hw
          | false =>
              rw [counted_of_full hd] at hw
              rwa [List.mem_singleton.1 hw]

/-- The numbers of a counter. -/
def terms (name : String) (vs : List (Record ν)) : List (Option ν) :=
  vs.map (fun v => v.numerics[name]?)

/-- The latest date. -/
def latest (vs : List (Record ν)) : Option Int64 := (vs.map Record.timestamp).max?

/-- Payload, text and labels of a record as a read shows them. -/
def Record.body (r : Record ν) : Record ν :=
  { r.clearDelta with timestamp := 0, numerics := ∅ }

@[simp] theorem Record.body_clearDelta (r : Record ν) : r.clearDelta.body = r.body := by
  rw [Record.body, Record.clearDelta_clearDelta, Record.body]

@[simp] theorem Record.isTombstone_body (r : Record ν) : r.body.isTombstone = r.isTombstone :=
  Record.isTombstone_clearDelta r

theorem latest_eq_some {vs : List (Record ν)} {t : Int64} :
    latest vs = some t ↔ (∃ v ∈ vs, v.timestamp = t) ∧ ∀ v ∈ vs, v.timestamp ≤ t := by
  rw [latest, List.max?_eq_some_iff, List.mem_map, List.forall_mem_map]

/-- The record whose payload, labels and text are read: the oldest that counts, if it is no
tombstone. -/
def carrier (cs : List (Record ν)) : Option (Record ν) :=
  cs.getLast?.filter (fun v => !v.isTombstone)

end Counted

/-! ## What a fold amounts to -/

section Amounts

variable {ν : Type}

/-- A record that amounts to some versions: the body of the oldest, the latest date, the sums. -/
structure Amounts (cs : List (Record ν)) (sum : String → Option ν) (r : Record ν) : Prop where
  body : cs.getLast?.map Record.body = some r.body
  latest_eq : latest cs = some r.timestamp
  sums (name : String) : r.numerics[name]? = sum name

theorem amounts_singleton (v : Record ν) : Amounts [v] (fun name => v.numerics[name]?) v :=
  ⟨rfl, rfl, fun _ => rfl⟩

variable {cs : List (Record ν)} {sum : String → Option ν} {r : Record ν}

theorem Amounts.clearDelta (h : Amounts cs sum r) : Amounts cs sum r.clearDelta :=
  ⟨by rw [Record.body_clearDelta, h.body], h.latest_eq, h.sums⟩

theorem Amounts.ne_nil (h : Amounts cs sum r) : cs ≠ [] := by
  rintro rfl
  cases h.body

/-- Versions among others may give way to what they amount to. -/
theorem Amounts.body_append (h : Amounts cs sum r) (as bs : List (Record ν)) :
    (as ++ (cs ++ bs)).getLast?.map Record.body = (as ++ r :: bs).getLast?.map Record.body := by
  obtain ⟨c, hlast, hbody⟩ := Option.map_eq_some_iff.1 h.body
  simp only [List.getLast?_append, List.getLast?_cons, hlast]
  cases bs.getLast? with
  | none => simp [hbody]
  | some b => simp

theorem Amounts.latest_append (h : Amounts cs sum r) (as bs : List (Record ν)) :
    latest (as ++ (cs ++ bs)) = latest (as ++ r :: bs) := by
  obtain ⟨⟨u, hu, hdate⟩, hle⟩ := latest_eq_some.1 h.latest_eq
  obtain ⟨t, ht⟩ : ∃ t, latest (as ++ r :: bs) = some t :=
    Option.ne_none_iff_exists'.1 (by simp [latest])
  rw [ht]
  obtain ⟨⟨v, hv, hvt⟩, hall⟩ := latest_eq_some.1 ht
  have hr : r.timestamp ≤ t := hall r (by simp)
  refine latest_eq_some.2 ⟨?_, fun w hw => ?_⟩
  · -- The latest date stands in front, in `r` or behind it.
    simp only [List.mem_append, List.mem_cons] at hv
    rcases hv with hv | rfl | hv
    · exact ⟨v, by simp [hv], hvt⟩
    · exact ⟨u, by simp [hu], hdate.trans hvt⟩
    · exact ⟨v, by simp [hv], hvt⟩
  · simp only [List.mem_append] at hw
    rcases hw with hw | hw | hw
    · exact hall w (by simp [hw])
    · exact (hle w hw).trans hr
    · exact hall w (by simp [hw])

variable [Numeral ν]

/-- An older version underneath that is no tombstone. -/
theorem Amounts.onto (h : Amounts cs sum r) (v : Record ν) :
    Amounts (cs ++ [v]) (fun name => addTerm v.numerics[name]? (sum name)) (addOnto v r) where
  body := by
    rw [List.getLast?_concat]
    rfl
  latest_eq := by
    obtain ⟨⟨u, hu, hdate⟩, hle⟩ := latest_eq_some.1 h.latest_eq
    have hdates : ∀ w ∈ cs ++ [v], w.timestamp ≤ max v.timestamp r.timestamp := by
      intro w hw
      rcases List.mem_append.1 hw with hw | hw
      · exact (hle w hw).trans (le_max_right _ _)
      · rw [List.mem_singleton.1 hw]
        exact le_max_left _ _
    refine latest_eq_some.2 ⟨?_, hdates⟩
    -- The later of the two dates is that of `v` or of a version in `cs`.
    rcases max_choice v.timestamp r.timestamp with hmax | hmax
    · exact ⟨v, by simp, hmax.symm⟩
    · exact ⟨u, List.mem_append_left _ hu, hdate.trans hmax.symm⟩
  sums name := by
    show (addNumerics v.numerics r.numerics)[name]? = _
    rw [getElem?_addNumerics, ← h.sums]
    rfl

/-- A newer increment on top. -/
theorem Amounts.under (h : Amounts cs sum r) (v : Record ν) :
    Amounts (v :: cs) (fun name => addTerm (sum name) v.numerics[name]?) (addOnto r v) where
  body := by
    rw [List.getLast?_cons_of_ne_nil h.ne_nil, h.body]
    rfl
  latest_eq := by
    obtain ⟨⟨u, hu, hdate⟩, hle⟩ := latest_eq_some.1 h.latest_eq
    refine latest_eq_some.2 ⟨?_, List.forall_mem_cons.2
      ⟨le_max_right _ _, fun w hw => (hle w hw).trans (le_max_left _ _)⟩⟩
    rcases max_choice r.timestamp v.timestamp with hmax | hmax
    · exact ⟨u, List.mem_cons_of_mem v hu, hdate.trans hmax.symm⟩
    · exact ⟨v, List.mem_cons_self, hmax.symm⟩
  sums name := by
    show (addNumerics r.numerics v.numerics)[name]? = _
    rw [getElem?_addNumerics, ← h.sums]
    rfl

/-- A walk that goes on beneath a pending version. -/
theorem amounts_foldl (vs : List (Record ν)) :
    ∀ {cs : List (Record ν)} {sum : String → Option ν} {p : Record ν}, Amounts cs sum p →
      ∃ r, (vs.foldl (recordLayers ν).feed (some (.pending p))).map Layering.Fold.value = some r ∧
        Amounts (cs ++ beneath vs) (fun name =>
          (terms name (beneath vs)).foldl (fun sum older => addTerm older sum) (sum name)) r := by
  induction vs with
  | nil => exact fun {cs _ p} h => ⟨p, rfl, by rwa [beneath, List.append_nil]⟩
  | cons v vs ih =>
      intro cs sum p h
      rw [List.foldl_cons, Layering.feed]
      show ∃ r, Option.map _ (vs.foldl _ (some ((recordLayers ν).settle (mergeDelta (some v) p)))) =
        some r ∧ _
      cases htomb : v.isTombstone with
      | true =>
          -- The tombstone ends the walk and adds nothing.
          have hfull : (recordLayers ν).isPartial p.clearDelta = false := Record.isDelta_clearDelta p
          rw [mergeDelta_tombstone htomb, Layering.settle_full hfull, Layering.foldl_feed_done,
            beneath_of_tombstone htomb, List.append_nil]
          exact ⟨_, rfl, h.clearDelta⟩
      | false =>
          rw [beneath_of_not_tombstone htomb]
          cases hdelta : v.isDelta with
          | false =>
              -- The first full version ends the walk.
              have hfull : (recordLayers ν).isPartial (addOnto v p).clearDelta = false :=
                Record.isDelta_clearDelta _
              rw [mergeDelta_full htomb hdelta, Layering.settle_full hfull,
                Layering.foldl_feed_done, counted_of_full hdelta]
              exact ⟨_, rfl, (h.onto v).clearDelta⟩
          | true =>
              have hpart : (recordLayers ν).isPartial (addOnto v p) = true := hdelta
              rw [mergeDelta_delta htomb hdelta, Layering.settle_of_isPartial hpart,
                counted_of_delta hdelta, List.append_cons]
              exact ih (h.onto v)

/-- A read amounts to the versions that count. -/
theorem amounts_readNewest (v : Record ν) (vs : List (Record ν)) :
    ∃ r, (recordLayers ν).readNewest (v :: vs) = some r ∧
      Amounts (counted (v :: vs))
        (fun name => sumNewestFirst (terms name (counted (v :: vs)))) r := by
  cases hdelta : v.isDelta with
  | false =>
      have hfull : (recordLayers ν).isPartial v = false := hdelta
      rw [counted_of_full hdelta]
      exact ⟨v, Layering.readNewest_cons_of_full hfull vs, amounts_singleton v⟩
  | true =>
      have hpart : (recordLayers ν).isPartial v = true := hdelta
      obtain ⟨r, hr, hamounts⟩ := amounts_foldl vs (amounts_singleton v)
      rw [counted_of_delta hdelta, Layering.readNewest, Layering.foldNewest, List.foldl_cons,
        Layering.feed, Layering.settle_of_isPartial hpart]
      exact ⟨r, hr, hamounts⟩

/-- The merge of some versions amounts to those that count, added oldest first. -/
theorem amounts_stack {vs : List (Record ν)} :
    ∀ {v : Record ν}, (∀ w ∈ v :: vs, w.PlainDelta) →
      ∃ m, (recordLayers ν).stack (v :: vs) = some m ∧
        Amounts (counted (v :: vs))
          (fun name => sumOldestFirst (terms name (counted (v :: vs)))) m ∧
        m.isTombstone = v.isTombstone ∧ m.isDelta = (v :: vs).all Record.isDelta := by
  -- By induction on the older versions: the merge starts with the oldest.
  induction vs with
  | nil =>
      intro v _
      rw [counted_singleton]
      exact ⟨v, rfl, amounts_singleton v, rfl, by simp⟩
  | cons w vs ih =>
      intro v hplain
      obtain ⟨o, ho, hamounts, htomb, hdelta⟩ := ih (List.forall_mem_cons.1 hplain).2
      rw [Layering.stack_cons, ho, Layering.layerOpt_some, List.all_cons, ← hdelta]
      cases hv : v.isDelta with
      | false =>
          -- A full version replaces what lies underneath.
          rw [(recordLayers ν).layer_of_full hv, counted_of_full hv]
          exact ⟨v, rfl, amounts_singleton v, rfl, hv⟩
      | true =>
          have hvt : v.isTombstone = false := hplain v List.mem_cons_self hv
          rw [(recordLayers ν).layer_of_isPartial hv, counted_of_delta hv, Bool.true_and]
          show ∃ m, some (mergeDelta (some o) v) = some m ∧ _
          cases hw : w.isTombstone with
          | true =>
              -- A tombstone underneath adds nothing and ends the increment.
              have hwd : w.isDelta = false := by
                by_contra hwd
                have hplainw := hplain w (by simp) (by simpa using hwd)
                rw [hplainw] at hw
                cases hw
              have hod : o.isDelta = false := by simp [hdelta, hwd]
              rw [mergeDelta_tombstone (htomb.trans hw), beneath_of_tombstone hw, hod]
              exact ⟨_, rfl, (amounts_singleton v).clearDelta, by simp [hvt], by simp⟩
          | false =>
              have hot : o.isTombstone = false := htomb.trans hw
              have honto : Amounts (v :: counted (w :: vs)) (fun name =>
                  sumOldestFirst (terms name (v :: counted (w :: vs)))) (addOnto o v) := by
                refine ⟨(hamounts.under v).body, (hamounts.under v).latest_eq, fun name => ?_⟩
                rw [(hamounts.under v).sums]
                exact (sumOldestFirst_cons (by simpa [terms] using hamounts.ne_nil)).symm
              rw [beneath_of_not_tombstone hw]
              -- On a full version the result is full, on increments one more increment.
              cases hod : o.isDelta with
              | true =>
                  rw [mergeDelta_delta hot hod]
                  exact ⟨_, rfl, honto, by simp [hot, hvt], by simp [hod]⟩
              | false =>
                  rw [mergeDelta_full hot hod]
                  exact ⟨_, rfl, honto.clearDelta, by simp [hot, hvt], by simp⟩

end Amounts

/-! ## What is read -/

section Tallies

variable {ν : Type}

/-- What is read of the versions that count, their numbers added up in some order. -/
def Tallies (cs : List (Record ν)) (sum : String → Option ν) (out : Option (Record ν)) : Prop :=
  match carrier cs with
  | none => out = none
  | some c => ∃ x, out = some x ∧ x.body = c.body ∧ x.clearDelta = x ∧
      latest cs = some x.timestamp ∧ ∀ name, x.numerics[name]? = sum name

variable {cs cs' : List (Record ν)} {sum sum' : String → Option ν} {out out' : Option (Record ν)}

theorem tallies_nil : Tallies [] sum none := rfl

theorem Amounts.tallies {r : Record ν} (h : Amounts cs sum r) : Tallies cs sum r.surface := by
  obtain ⟨c, hlast, hbody⟩ := Option.map_eq_some_iff.1 h.body
  have htomb : c.isTombstone = r.isTombstone := by
    rw [← Record.isTombstone_body c, hbody, Record.isTombstone_body]
  rw [Tallies, carrier, hlast, Record.surface_eq, Option.filter_some, htomb]
  cases r.isTombstone with
  | true => rfl
  | false =>
      exact ⟨r.clearDelta, rfl, (Record.body_clearDelta r).trans hbody.symm,
        Record.clearDelta_clearDelta r, h.latest_eq, h.sums⟩

/-- Only the body of the oldest version matters, and the latest date. -/
theorem Tallies.congr (h : Tallies cs sum out)
    (hbody : cs.getLast?.map Record.body = cs'.getLast?.map Record.body)
    (hlatest : latest cs = latest cs') (hsum : ∀ name, sum name = sum' name) :
    Tallies cs' sum' out := by
  obtain rfl : sum = sum' := funext hsum
  unfold Tallies carrier at h ⊢
  rw [← hlatest]
  cases hlast : cs.getLast? with
  | none =>
      rw [hlast] at h hbody
      rw [Option.map_eq_none_iff.1 hbody.symm]
      exact h
  | some c =>
      rw [hlast] at h hbody
      obtain ⟨c', hlast', hsame⟩ := Option.map_eq_some_iff.1 hbody.symm
      have htomb : c'.isTombstone = c.isTombstone := by
        rw [← Record.isTombstone_body c', hsame, Record.isTombstone_body]
      rw [hlast', Option.filter_some, htomb]
      rw [Option.filter_some] at h
      cases hc : c.isTombstone with
      | true => simpa [hc] using h
      | false => simpa [hc, hsame] using h

/-- A record as read is its body with date and numerics. -/
theorem Record.eq_of_body {x y : Record ν} (hx : x.clearDelta = x) (hy : y.clearDelta = y)
    (hbody : x.body = y.body) (hdate : x.timestamp = y.timestamp)
    (hnumerics : ∀ name : String, x.numerics[name]? = y.numerics[name]?) : x = y := by
  obtain ⟨key, timestamp, labels, numerics, payload, text⟩ := x
  obtain ⟨key', timestamp', labels', numerics', payload', text'⟩ := y
  have hsame : numerics = numerics' := Std.ExtTreeMap.ext_getElem? hnumerics
  rw [← hx, ← hy]
  simp only [Record.body, Record.clearDelta, Record.mk.injEq] at hbody hdate ⊢
  exact ⟨hbody.1, hdate, hbody.2.2.1, hsame, hbody.2.2.2.2⟩

/-- Two reads return the same exactly when bodies, dates and sums do. -/
theorem Tallies.eq_iff (h : Tallies cs sum out) (h' : Tallies cs' sum' out') :
    out = out' ↔ (carrier cs).map Record.body = (carrier cs').map Record.body ∧
      ((carrier cs).isSome → latest cs = latest cs' ∧ ∀ name, sum name = sum' name) := by
  unfold Tallies at h h'
  cases hc : carrier cs with
  | none =>
      rw [hc] at h
      cases hc' : carrier cs' with
      | none =>
          rw [hc'] at h'
          exact iff_of_true (h.trans h'.symm) ⟨rfl, by simp⟩
      | some c' =>
          -- One read shows a record, the other none.
          rw [hc'] at h'
          obtain ⟨y, rfl, -⟩ := h'
          exact iff_of_false (by simp [h]) (by simp)
  | some c =>
      rw [hc] at h
      obtain ⟨x, rfl, hbody, hx, hlatest, hsums⟩ := h
      cases hc' : carrier cs' with
      | none =>
          rw [hc'] at h'
          exact iff_of_false (by simp [h']) (by simp)
      | some c' =>
          rw [hc'] at h'
          obtain ⟨y, rfl, hbody', hy, hlatest', hsums'⟩ := h'
          simp only [Option.map_some, Option.some.injEq, Option.isSome_some, true_implies, hlatest,
            hlatest', ← hbody, ← hbody', ← hsums, ← hsums']
          constructor
          · rintro rfl
            exact ⟨rfl, rfl, fun _ => rfl⟩
          · rintro ⟨hsame, hdate, hnumerics⟩
            exact Record.eq_of_body hx hy hsame hdate hnumerics

end Tallies

section Layouts

variable {ν : Type} [Numeral ν]

theorem tallies_readVersions (vs : List (Record ν)) :
    Tallies (counted vs) (fun name => sumNewestFirst (terms name (counted vs)))
      (Engine.readVersions vs) := by
  cases vs with
  | nil => exact tallies_nil
  | cons v vs =>
      obtain ⟨r, hr, hamounts⟩ := amounts_readNewest v vs
      rw [Engine.readVersions, hr]
      exact hamounts.tallies

/-- The sum of a counter when the numbers of `run` that count are added first, on their own. -/
def groupedSum (name : String) (above run below : List (Record ν)) : Option ν :=
  sumNewestFirst (terms name (counted above) ++
    (mergeTerms (terms name (countedBeneath above run)) ++
      terms name (countedBeneath (above ++ run) below)))

/-- The versions `vs`, and the versions above, in and below a group that is merged, amount to the
same: one body, one date, and the sums of every counter. -/
structure SameTally (vs above run below : List (Record ν)) : Prop where
  body : (carrier (counted vs)).map Record.body =
    (carrier (counted (above ++ (run ++ below)))).map Record.body
  latest_eq : (carrier (counted vs)).isSome →
    latest (counted vs) = latest (counted (above ++ (run ++ below)))
  sums : (carrier (counted vs)).isSome → ∀ name,
    sumNewestFirst (terms name (counted vs)) = groupedSum name above run below

/-- Adding the numbers of the group first makes no difference. -/
def SumsAgree (above run below : List (Record ν)) : Prop :=
  ∀ name, sumNewestFirst (terms name (counted (above ++ (run ++ below)))) =
    groupedSum name above run below

omit [Numeral ν] in
theorem counted_layout (above run below : List (Record ν)) :
    counted (above ++ (run ++ below)) = counted above ++
      (countedBeneath above run ++ countedBeneath (above ++ run) below) := by
  rw [← List.append_assoc, counted_append, counted_append, List.append_assoc]

/-- A group whose newest version is full, or that has one version only, is added as it stands. -/
theorem groupedSum_of_not_regroups {run : List (Record ν)}
    (hrun : (recordLayers ν).regroups run = false) (name : String)
    (above below : List (Record ν)) :
    groupedSum name above run below =
      sumNewestFirst (terms name (counted (above ++ (run ++ below)))) := by
  have hbeneath : (beneath run).length ≤ (counted run).length := by
    cases run with
    | nil => exact Nat.le_refl 0
    | cons v vs =>
        cases hv : v.isTombstone with
        | true => simp [beneath_of_tombstone hv]
        | false => rw [beneath_of_not_tombstone hv]
  have hone : (counted run).length ≤ 1 := by
    match run, hrun with
    | [], _ => exact Nat.zero_le 1
    | [v], _ => rw [counted_singleton]; exact Nat.le_refl 1
    | v :: w :: rest, hrun => rw [counted_of_full hrun]; exact Nat.le_refl 1
  have hlen : (countedBeneath above run).length ≤ 1 := by
    unfold countedBeneath
    split
    · exact hone
    · split
      · exact hbeneath.trans hone
      · exact Nat.zero_le 1
  rw [groupedSum, mergeTerms_of_length_le (by simpa [terms] using hlen), counted_layout, terms,
    terms, terms, terms, List.map_append, List.map_append]

/-- Around a merged group a read amounts to the versions, the group's numbers added first. -/
theorem tallies_layout {run : List (Record ν)} (hplain : (recordLayers ν).regroups run = true →
    ∀ v ∈ run, v.PlainDelta) (above below : List (Record ν)) :
    Tallies (counted (above ++ (run ++ below))) (fun name => groupedSum name above run below)
      (Engine.readVersions (above ++ (((recordLayers ν).stack run).toList ++ below))) := by
  cases hrun : (recordLayers ν).regroups run with
  | false =>
      rw [Engine.readVersions,
        Layering.readNewest_collapse_of_not_regroups mergeDelta_fullBase hrun]
      simp only [groupedSum_of_not_regroups hrun]
      exact tallies_readVersions _
  | true =>
      obtain ⟨v, w, rest, rfl⟩ : ∃ v w rest, run = v :: w :: rest := by
        cases run with
        | nil => cases hrun
        | cons v run =>
            cases run with
            | nil => cases hrun
            | cons w rest => exact ⟨v, w, rest, rfl⟩
      have hplain := hplain hrun
      have hv : v.isTombstone = false := hplain v List.mem_cons_self hrun
      obtain ⟨m, hm, hmerged, htomb, hdelta⟩ := amounts_stack hplain
      rw [hm]
      show Tallies _ _ (Engine.readVersions (above ++ m :: below))
      rcases countedBeneath_cases above with hclosed | hopen
      · -- What lies above hides the group, merged or not.
        have hread := tallies_readVersions (above ++ m :: below)
        rw [counted_append, (hclosed _).1] at hread
        rw [counted_append, (hclosed _).1]
        simpa only [groupedSum, (hclosed _).1, (hclosed _).2, terms, mergeTerms, List.map_nil,
          List.isEmpty_nil, if_true, List.append_nil] using hread
      · obtain ⟨hgroup, hbelow⟩ := hopen v (w :: rest) hv
        have hmt : m.isTombstone = false := htomb.trans hv
        -- What lies below counts beneath the merged version if it does beneath the group.
        have hrest : countedBeneath [m] below = countedBeneath (v :: w :: rest) below := by
          have hpasses : (w :: rest).all (fun u => u.isDelta && !u.isTombstone) =
              (w :: rest).all Record.isDelta := by
            rw [Bool.eq_iff_iff, List.all_eq_true, List.all_eq_true]
            refine forall₂_congr (fun u hu => ?_)
            cases hu' : u.isDelta with
            | false => simp
            | true => simp [hplain u (List.mem_cons_of_mem v hu) hu']
          rw [countedBeneath, countedBeneath, hpasses, ← List.all_cons, ← hdelta]
          simp
        have hcounted : counted (above ++ m :: below) =
            counted above ++ m :: countedBeneath (v :: w :: rest) below := by
          rw [counted_append, (hopen m below hmt).1, ← List.singleton_append, counted_append,
            counted_singleton, hrest]
          rfl
        have hread := tallies_readVersions (above ++ m :: below)
        rw [hcounted] at hread
        rw [counted_layout, hgroup, hbelow]
        refine (hread.congr (hmerged.body_append _ _).symm (hmerged.latest_append _ _).symm
          (fun name => ?_))
        have hne : terms name (counted (v :: w :: rest)) ≠ [] := by
          simpa [terms] using hmerged.ne_nil
        rw [groupedSum, hgroup, hbelow, mergeTerms, if_neg (by simpa using hne),
          ← hmerged.sums name]
        simp [terms]

/-- A key reads the same from `vs` and from versions one group of which is merged, exactly when both
amount to the same. -/
theorem readVersions_layout_iff {run : List (Record ν)}
    (hplain : (recordLayers ν).regroups run = true → ∀ v ∈ run, v.PlainDelta)
    (vs above below : List (Record ν)) :
    Engine.readVersions (above ++ (((recordLayers ν).stack run).toList ++ below)) =
        Engine.readVersions vs ↔ SameTally vs above run below := by
  rw [eq_comm, (tallies_readVersions vs).eq_iff (tallies_layout hplain above below)]
  constructor
  · exact fun ⟨hbody, hrest⟩ => ⟨hbody, fun h => (hrest h).1, fun h => (hrest h).2⟩
  · exact fun h => ⟨h.body, fun hc => ⟨h.latest_eq hc, h.sums hc⟩⟩

/-- Merging a group in place leaves a key alone exactly when the sums agree. -/
theorem readVersions_merged_iff {run : List (Record ν)}
    (hplain : (recordLayers ν).regroups run = true → ∀ v ∈ run, v.PlainDelta)
    (above below : List (Record ν)) :
    Engine.readVersions (above ++ (((recordLayers ν).stack run).toList ++ below)) =
        Engine.readVersions (above ++ (run ++ below)) ↔ SumsAgree above run below := by
  rw [readVersions_layout_iff hplain]
  constructor
  · intro hsame
    cases hrun : (recordLayers ν).regroups run with
    | false => exact fun name => (groupedSum_of_not_regroups hrun name above below).symm
    | true =>
        match run, hrun with
        | v :: w :: rest, hrun =>
          have hv : v.isTombstone = false := hplain hrun v List.mem_cons_self hrun
          rcases countedBeneath_cases above with hclosed | hopen
          · intro name
            rw [counted_append, (hclosed _).1, List.append_nil]
            simp [groupedSum, hclosed, terms, mergeTerms]
          · -- The group counts, and neither it nor what counts beneath it is a tombstone.
            have hcounted : counted (above ++ (v :: w :: rest ++ below)) =
                counted above ++ v :: beneath (w :: rest ++ below) := by
              rw [counted_append, List.cons_append, (hopen v _ hv).1, counted_of_delta hrun]
            refine hsame.sums ?_
            rw [carrier, hcounted, List.getLast?_append_of_ne_nil _ (List.cons_ne_nil _ _),
              List.getLast?_eq_some_getLast (List.cons_ne_nil _ _), Option.filter_some, if_pos]
            · rfl
            · rcases List.mem_cons.1 (List.getLast_mem (List.cons_ne_nil v
                (beneath (w :: rest ++ below)))) with hlast | hlast
              · rw [hlast, hv]
                rfl
              · rw [not_tombstone_of_mem_beneath hlast]
                rfl
  · exact fun h => ⟨rfl, fun _ => rfl, fun _ => h⟩

end Layouts

end Girder
