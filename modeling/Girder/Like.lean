import Girder.Text
import Mathlib.Data.List.Basic
import Mathlib.Order.Nat

/-!
# Like — what the two-pointer `LIKE` matcher decides

`Like p t` is the meaning of a pattern: the text splits so that every `%` matches a run, every `_`
one character and any other character itself.

The loop compares characters before it looks for a wildcard, so a `%` of the pattern that meets a
`%` of the text is consumed as that one character and no backtrack point is recorded.  `Facing p t`
is `Like` under that reading, and it is exactly what the loop decides.
-/

namespace Girder

/-- SQL `LIKE`: the whole text is split along the pattern. -/
inductive Like : List Char → List Char → Prop
  | nil : Like [] []
  | run (u : List Char) {p t : List Char} : Like p t → Like ('%' :: p) (u ++ t)
  | one (c : Char) {p t : List Char} : Like p t → Like ('_' :: p) (c :: t)
  | lit {c : Char} {p t : List Char} : c ≠ '%' → c ≠ '_' → Like p t → Like (c :: p) (c :: t)

/-- A split in which every `%` that starts at a `%` of the text matches just that character. -/
inductive Facing : List Char → List Char → Prop
  | nil : Facing [] []
  | percent {p t : List Char} : Facing p t → Facing ('%' :: p) ('%' :: t)
  | run (u : List Char) {p t : List Char} :
      (u ++ t).head? ≠ some '%' → Facing p t → Facing ('%' :: p) (u ++ t)
  | one (c : Char) {p t : List Char} : Facing p t → Facing ('_' :: p) (c :: t)
  | lit {c : Char} {p t : List Char} : c ≠ '%' → c ≠ '_' → Facing p t → Facing (c :: p) (c :: t)

/-- A facing split is a split. -/
theorem Facing.like {p t : List Char} (h : Facing p t) : Like p t := by
  induction h with
  | nil => exact Like.nil
  | percent _ ih => exact Like.run ['%'] ih
  | run u _ _ ih => exact Like.run u ih
  | one c _ ih => exact Like.one c ih
  | lit hp hu _ ih => exact Like.lit hp hu ih

/-- A pattern character that consumes the text character in front of it. -/
def Consumes (pc tc : Char) : Prop := pc = '_' ∨ pc = tc

/-- Consuming extends a facing split by one character on both sides. -/
theorem Facing.consume {pc tc : Char} {p t : List Char} (hc : Consumes pc tc) (h : Facing p t) :
    Facing (pc :: p) (tc :: t) := by
  rcases hc with rfl | rfl
  · exact Facing.one tc h
  · by_cases hpercent : pc = '%'
    · subst hpercent
      exact Facing.percent h
    · by_cases hone : pc = '_'
      · subst hone
        exact Facing.one _ h
      · exact Facing.lit hpercent hone h

/-- At the end of the text only `%` may remain. -/
theorem facing_nil_iff {p : List Char} :
    Facing p [] ↔ p.all (fun c => c == '%') = true := by
  induction p with
  | nil => exact ⟨fun _ => rfl, fun _ => Facing.nil⟩
  | cons c p ih =>
      rw [List.all_cons, Bool.and_eq_true, beq_iff_eq]
      constructor
      · intro h
        generalize ht : ([] : List Char) = t at h
        cases h with
        | percent => cases ht
        | run u _ hrest =>
            obtain ⟨_, rfl⟩ := List.append_eq_nil_iff.mp ht.symm
            exact ⟨rfl, ih.mp hrest⟩
        | one => cases ht
        | lit => cases ht
      · rintro ⟨rfl, hrest⟩
        exact Facing.run [] (by simp) (ih.mpr hrest)

/-! ## The loop as a relation -/

section Runs

variable (p t : List Char)

/-- The rounds of the loop, with no bound on their number: the loop entered at `pi`, `ti`, `star`
ends, and leaves this pattern index or `return false`. -/
inductive LikeRuns : Nat → Nat → Option (Nat × Nat) → Option Nat → Prop
  | done {pi ti star} : t[ti]? = none → LikeRuns pi ti star (some pi)
  | consume {pi ti star out pc tc} : t[ti]? = some tc → p[pi]? = some pc → Consumes pc tc →
      LikeRuns (pi + 1) (ti + 1) star out → LikeRuns pi ti star out
  | star {pi ti star out tc} : t[ti]? = some tc → p[pi]? = some '%' → tc ≠ '%' →
      LikeRuns (pi + 1) ti (some (pi + 1, ti)) out → LikeRuns pi ti star out
  | backtrack {pi ti sp st out tc} : t[ti]? = some tc →
      (∀ pc, p[pi]? = some pc → pc ≠ '%' ∧ ¬ Consumes pc tc) →
      LikeRuns sp (st + 1) (some (sp, st + 1)) out → LikeRuns pi ti (some (sp, st)) out
  | fail {pi ti tc} : t[ti]? = some tc →
      (∀ pc, p[pi]? = some pc → pc ≠ '%' ∧ ¬ Consumes pc tc) → LikeRuns pi ti none none

/-- The text index the last `%` has consumed to. -/
def starAt (star : Option (Nat × Nat)) : Nat :=
  (star.map Prod.snd).getD 0

/-- The rounds left: the last `%` moves forward, or the pattern index does. -/
def likeMeasure (pi : Nat) (star : Option (Nat × Nat)) : Nat :=
  (t.length - starAt star) * (p.length + 1) + (p.length - pi)

variable {p t}

theorem likeMeasure_consume {pi : Nat} {star : Option (Nat × Nat)} (hpi : pi < p.length) :
    likeMeasure p t (pi + 1) star < likeMeasure p t pi star := by
  unfold likeMeasure
  omega

theorem likeMeasure_star {pi ti : Nat} {star : Option (Nat × Nat)} (hpi : pi < p.length)
    (hstar : starAt star ≤ ti) :
    likeMeasure p t (pi + 1) (some (pi + 1, ti)) < likeMeasure p t pi star := by
  unfold likeMeasure
  have hle : (t.length - ti) * (p.length + 1) ≤ (t.length - starAt star) * (p.length + 1) :=
    Nat.mul_le_mul_right _ (by omega)
  show (t.length - ti) * (p.length + 1) + (p.length - (pi + 1)) < _
  omega

theorem likeMeasure_backtrack {pi sp st : Nat} (hst : st < t.length) :
    likeMeasure p t sp (some (sp, st + 1)) < likeMeasure p t pi (some (sp, st)) := by
  unfold likeMeasure
  have hsucc : t.length - st = (t.length - (st + 1)) + 1 := by omega
  show (t.length - (st + 1)) * (p.length + 1) + (p.length - sp) <
    (t.length - st) * (p.length + 1) + (p.length - pi)
  rw [hsucc, Nat.add_mul]
  omega

/-- No pattern character consumes the text character, and none is a `%`. -/
def Misses (p : List Char) (pi : Nat) (tc : Char) : Prop :=
  ∀ pc, p[pi]? = some pc → pc ≠ '%' ∧ ¬ Consumes pc tc

/-- The last two branches: the last `%` takes one more character, or the loop gives up. -/
theorem likeRuns_last {pi ti fuel : Nat} {tc : Char} (ht : t[ti]? = some tc)
    (star : Option (Nat × Nat)) :
    Misses p pi tc →
    (∀ sp st, star = some (sp, st) → LikeRuns p t sp (st + 1) (some (sp, st + 1))
      (likeLoop p t fuel sp (st + 1) (some (sp, st + 1)))) →
    LikeRuns p t pi ti star (match star with
      | some (sp, st) => likeLoop p t fuel sp (st + 1) (some (sp, st + 1))
      | none => none) := by
  intro hmiss hback
  cases star with
  | none => exact LikeRuns.fail ht hmiss
  | some s => exact LikeRuns.backtrack ht hmiss (hback s.1 s.2 rfl)

/-- With fuel for the rounds left, the function follows the loop to its end. -/
theorem likeLoop_runs (fuel : Nat) :
    ∀ (pi ti : Nat) (star : Option (Nat × Nat)), starAt star ≤ ti →
      likeMeasure p t pi star < fuel → LikeRuns p t pi ti star (likeLoop p t fuel pi ti star) := by
  -- Every round lowers the measure, so the fuel lasts.
  induction fuel with
  | zero => intro _ _ _ _ hfuel; omega
  | succ fuel ih =>
      intro pi ti star hstar hfuel
      unfold likeLoop
      cases ht : t[ti]? with
      | none => exact LikeRuns.done ht
      | some tc =>
          have hti : ti < t.length := (List.getElem?_eq_some_iff.mp ht).1
          have hback : ∀ sp st, star = some (sp, st) →
              LikeRuns p t sp (st + 1) (some (sp, st + 1))
                (likeLoop p t fuel sp (st + 1) (some (sp, st + 1))) := by
            rintro sp st rfl
            have hlt := @likeMeasure_backtrack p t pi sp st (lt_of_le_of_lt hstar hti)
            exact ih _ _ _ le_rfl (by omega)
          cases hp : p[pi]? with
          | none =>
              simp only [Bool.false_eq_true, if_false, reduceCtorEq]
              refine likeRuns_last ht star (fun pc hpc => ?_) hback
              rw [hp] at hpc
              cases hpc
          | some pc =>
              have hpi : pi < p.length := (List.getElem?_eq_some_iff.mp hp).1
              by_cases hc : Consumes pc tc
              · -- A character for a character, also where the text has a percent sign.
                have htrue : (pc == '_' || pc == tc) = true := by
                  rcases hc with rfl | rfl <;> simp
                simp only [htrue, if_true]
                have hlt := @likeMeasure_consume p t pi star hpi
                exact LikeRuns.consume ht hp hc (ih _ _ _ (by omega) (by omega))
              · have hfalse : (pc == '_' || pc == tc) = false := by
                  simpa [Consumes] using hc
                simp only [hfalse, Bool.false_eq_true, if_false, Option.some.injEq]
                by_cases hpercent : pc = '%'
                · subst hpercent
                  have hne : tc ≠ '%' := fun heq => hc (Or.inr heq.symm)
                  have hlt := @likeMeasure_star p t pi ti star hpi hstar
                  rw [if_pos rfl]
                  exact LikeRuns.star ht hp hne (ih _ _ _ le_rfl (by omega))
                · rw [if_neg hpercent]
                  refine likeRuns_last ht star (fun pc' hpc' => ?_) hback
                  rw [hp] at hpc'
                  cases hpc'
                  exact ⟨hpercent, hc⟩

/-- The rounds `like_match` is given are enough. -/
theorem likeLoop_terminates :
    LikeRuns p t 0 0 none (likeLoop p t ((t.length + 1) * (p.length + 1)) 0 0 none) := by
  refine likeLoop_runs _ 0 0 none le_rfl ?_
  show t.length * (p.length + 1) + p.length < (t.length + 1) * (p.length + 1)
  rw [Nat.add_mul]
  omega

/-! ## Soundness -/

/-- What is left at a position. -/
theorem drop_eq_cons_of_getElem? {l : List Char} {i : Nat} {a : Char} (h : l[i]? = some a) :
    l.drop i = a :: l.drop (i + 1) := by
  obtain ⟨hi, rfl⟩ := List.getElem?_eq_some_iff.mp h
  exact List.drop_eq_getElem_cons hi

/-- What has been consumed extends any facing split of what is left, also when the last `%` takes
more. -/
def Extends (p t : List Char) (pi ti : Nat) (star : Option (Nat × Nat)) : Prop :=
  (Facing (p.drop pi) (t.drop ti) → Facing p t) ∧
    ∀ sp st, star = some (sp, st) → ∀ o, st ≤ o → Facing (p.drop sp) (t.drop o) → Facing p t

/-- A `%` that faces another character may take any run. -/
theorem Facing.drop_run {pi ti o : Nat} {tc : Char} (ht : t[ti]? = some tc)
    (hp : p[pi]? = some '%') (hne : tc ≠ '%') (ho : ti ≤ o)
    (h : Facing (p.drop (pi + 1)) (t.drop o)) : Facing (p.drop pi) (t.drop ti) := by
  have hsplit : t.drop ti = (t.drop ti).take (o - ti) ++ t.drop o := by
    conv_lhs => rw [← List.take_append_drop (o - ti) (t.drop ti), List.drop_drop]
    rw [Nat.add_sub_cancel' ho]
  have hhead : ((t.drop ti).take (o - ti) ++ t.drop o).head? ≠ some '%' := by
    rw [← hsplit, drop_eq_cons_of_getElem? ht]
    simpa using hne
  rw [drop_eq_cons_of_getElem? hp, hsplit]
  exact Facing.run _ hhead h

/-- A run that ends at a pattern rest of `%` has found a facing split. -/
theorem LikeRuns.sound {pi ti : Nat} {star : Option (Nat × Nat)} {out : Option Nat}
    (h : LikeRuns p t pi ti star out) :
    Extends p t pi ti star → ∀ pi', out = some pi' →
      (p.drop pi').all (fun c => c == '%') = true → Facing p t := by
  induction h with
  | @done pi ti star ht =>
      rintro ⟨hhere, _⟩ pi' hout hall
      cases hout
      have hend : t.drop ti = [] := List.drop_eq_nil_of_le (List.getElem?_eq_none_iff.mp ht)
      rw [hend] at hhere
      exact hhere (facing_nil_iff.mpr hall)
  | @consume pi ti star out pc tc ht hp hc _ ih =>
      rintro ⟨hhere, hstar⟩
      refine ih ⟨fun hrest => hhere ?_, hstar⟩
      rw [drop_eq_cons_of_getElem? hp, drop_eq_cons_of_getElem? ht]
      exact Facing.consume hc hrest
  | @star pi ti star out tc ht hp hne _ ih =>
      rintro ⟨hhere, _⟩
      refine ih ⟨fun hrest => hhere (Facing.drop_run ht hp hne le_rfl hrest), ?_⟩
      rintro sp st hst o ho hrest
      cases hst
      exact hhere (Facing.drop_run ht hp hne ho hrest)
  | @backtrack pi ti sp st out tc _ _ _ ih =>
      rintro ⟨_, hstar⟩
      refine ih ⟨hstar sp st rfl _ (Nat.le_succ st), ?_⟩
      rintro sp' st' hst o ho hrest
      cases hst
      exact hstar sp st rfl o (by omega) hrest
  | fail => rintro _ _ hout; cases hout

/-! ## Completeness -/

/-- From `sp`, `st` on, the pattern has consumed the text character by character up to `pi`, `ti`. -/
def Straight (p t : List Char) (sp st pi ti : Nat) : Prop :=
  ∃ n, pi = sp + n ∧ ti = st + n ∧
    ∀ k < n, ∃ pc tc, p[sp + k]? = some pc ∧ t[st + k]? = some tc ∧ Consumes pc tc

theorem Straight.refl (sp st : Nat) : Straight p t sp st sp st :=
  ⟨0, rfl, rfl, fun _ hk => absurd hk (Nat.not_lt_zero _)⟩

theorem Straight.step {sp st pi ti : Nat} {pc tc : Char} (h : Straight p t sp st pi ti)
    (hp : p[pi]? = some pc) (ht : t[ti]? = some tc) (hc : Consumes pc tc) :
    Straight p t sp st (pi + 1) (ti + 1) := by
  obtain ⟨n, rfl, rfl, hall⟩ := h
  refine ⟨n + 1, rfl, rfl, fun k hk => ?_⟩
  rcases Nat.lt_succ_iff_lt_or_eq.mp hk with hk | rfl
  · exact hall k hk
  · exact ⟨pc, tc, hp, ht, hc⟩

/-- One character of a facing split: the split goes on at or after the next text position, and
exactly there when the pattern character consumes the text character. -/
theorem Facing.advance {pi o ti : Nat} {pc tc : Char} (h : Facing (p.drop pi) (t.drop o))
    (ho : ti ≤ o) (hp : p[pi]? = some pc) (ht : t[ti]? = some tc) (hc : Consumes pc tc) :
    ∃ o', ti + 1 ≤ o' ∧ (o = ti → o' = ti + 1) ∧ Facing (p.drop (pi + 1)) (t.drop o') := by
  rw [drop_eq_cons_of_getElem? hp] at h
  generalize htext : t.drop o = text at h
  have htail : ∀ c rest, text = c :: rest → rest = t.drop (o + 1) := by
    rintro c rest rfl
    rw [← List.drop_drop, htext]
    rfl
  cases h with
  | percent hrest => exact ⟨o + 1, by omega, by omega, htail _ _ rfl ▸ hrest⟩
  | one c hrest => exact ⟨o + 1, by omega, by omega, htail _ _ rfl ▸ hrest⟩
  | lit _ _ hrest => exact ⟨o + 1, by omega, by omega, htail _ _ rfl ▸ hrest⟩
  | @run u _ rest hhead hrest =>
      -- A `%` that consumed its character faces a `%`, so its run starts later.
      have hlt : ti ≠ o := by
        rintro rfl
        rcases hc with hc | hc
        · exact absurd hc (by decide)
        · rw [← htext, drop_eq_cons_of_getElem? ht, ← hc] at hhead
          exact hhead rfl
      refine ⟨o + u.length, by omega, by omega, ?_⟩
      have hskip : t.drop (o + u.length) = rest := by
        rw [← List.drop_drop, htext, List.drop_left]
      exact hskip ▸ hrest

/-- A facing split that starts no earlier than a straight run stays no earlier than it. -/
theorem Facing.along {sp st pi ti o : Nat} (hs : Straight p t sp st pi ti)
    (h : Facing (p.drop sp) (t.drop o)) (ho : st ≤ o) :
    ∃ o', ti ≤ o' ∧ (o = st → o' = ti) ∧ Facing (p.drop pi) (t.drop o') := by
  obtain ⟨n, rfl, rfl, hall⟩ := hs
  induction n with
  | zero => exact ⟨o, ho, fun heq => heq, h⟩
  | succ n ih =>
      obtain ⟨o', ho', heq, h'⟩ := ih (fun k hk => hall k (by omega))
      obtain ⟨pc, tc, hp, ht, hc⟩ := hall n (by omega)
      obtain ⟨o'', ho'', heq', h''⟩ := h'.advance ho' hp ht hc
      exact ⟨o'', ho'', fun hst => heq' (heq hst), h''⟩

/-- If there is a facing split at all, there is one that the loop has not given up. -/
def Alive (p t : List Char) (pi ti : Nat) : Option (Nat × Nat) → Prop
  | none => Facing (p.drop pi) (t.drop ti)
  | some (sp, st) =>
      Straight p t sp st pi ti ∧ ∃ o, st ≤ o ∧ Facing (p.drop sp) (t.drop o)

/-- The facing split that is still alive reaches the loop's pattern index. -/
theorem Alive.reach {pi ti : Nat} {star : Option (Nat × Nat)} (h : Alive p t pi ti star) :
    ∃ o, ti ≤ o ∧ Facing (p.drop pi) (t.drop o) := by
  cases star with
  | none => exact ⟨ti, le_rfl, h⟩
  | some s =>
      obtain ⟨hs, o, ho, hfacing⟩ := h
      obtain ⟨o', ho', _, h'⟩ := hfacing.along hs ho
      exact ⟨o', ho', h'⟩

/-- Where the loop misses, no facing split goes on. -/
theorem Misses.not_facing {pi ti : Nat} {tc : Char} (ht : t[ti]? = some tc)
    (hmiss : Misses p pi tc) : ¬ Facing (p.drop pi) (t.drop ti) := by
  intro h
  rw [drop_eq_cons_of_getElem? ht] at h
  cases hp : p[pi]? with
  | none =>
      rw [List.drop_eq_nil_of_le (List.getElem?_eq_none_iff.mp hp)] at h
      cases h
  | some pc =>
      obtain ⟨hpercent, hc⟩ := hmiss pc hp
      rw [drop_eq_cons_of_getElem? hp] at h
      generalize htext : tc :: t.drop (ti + 1) = text at h
      cases h with
      | percent => exact hpercent rfl
      | run => exact hpercent rfl
      | one => exact hc (Or.inl rfl)
      | lit =>
          cases htext
          exact hc (Or.inr rfl)

/-- While a facing split is alive the loop does not give up, and it ends where only `%` is left. -/
theorem LikeRuns.complete {pi ti : Nat} {star : Option (Nat × Nat)} {out : Option Nat}
    (h : LikeRuns p t pi ti star out) :
    Alive p t pi ti star →
      ∃ pi', out = some pi' ∧ (p.drop pi').all (fun c => c == '%') = true := by
  induction h with
  | @done pi ti star ht =>
      intro halive
      obtain ⟨o, ho, hfacing⟩ := halive.reach
      have hend : t.drop o = [] :=
        List.drop_eq_nil_of_le (le_trans (List.getElem?_eq_none_iff.mp ht) ho)
      rw [hend] at hfacing
      exact ⟨pi, rfl, facing_nil_iff.mp hfacing⟩
  | @consume pi ti star out pc tc ht hp hc _ ih =>
      intro halive
      refine ih ?_
      cases star with
      | none =>
          obtain ⟨o, ho, heq, hrest⟩ := Facing.advance halive le_rfl hp ht hc
          rw [heq rfl] at hrest
          exact hrest
      | some s => exact ⟨halive.1.step hp ht hc, halive.2⟩
  | @star pi ti star out tc ht hp hne _ ih =>
      intro halive
      obtain ⟨o, ho, hfacing⟩ := halive.reach
      refine ih ⟨Straight.refl _ _, ?_⟩
      rw [drop_eq_cons_of_getElem? hp] at hfacing
      generalize htext : t.drop o = text at hfacing
      cases hfacing with
      | @percent _ rest hrest =>
          have hskip : t.drop (o + 1) = rest := by rw [← List.drop_drop, htext]; rfl
          exact ⟨o + 1, by omega, hskip ▸ hrest⟩
      | @run u _ rest _ hrest =>
          have hskip : t.drop (o + u.length) = rest := by
            rw [← List.drop_drop, htext, List.drop_left]
          exact ⟨o + u.length, by omega, hskip ▸ hrest⟩
      | lit hpercent => exact absurd rfl hpercent
  | @backtrack pi ti sp st out tc ht hmiss _ ih =>
      rintro ⟨hs, o, ho, hfacing⟩
      -- The split does not start at `st`: it would go on where the loop missed.
      have hne : o ≠ st := by
        intro heq
        obtain ⟨o', _, hstart, h'⟩ := hfacing.along hs ho
        rw [hstart heq] at h'
        exact Misses.not_facing ht hmiss h'
      exact ih ⟨Straight.refl _ _, o, by omega, hfacing⟩
  | fail ht hmiss =>
      intro halive
      exact absurd halive (Misses.not_facing ht hmiss)

end Runs

/-- `like_match` decides the facing reading of the pattern. -/
theorem likeMatch_iff_facing (pattern text : String) :
    likeMatch pattern text = true ↔ Facing pattern.toList text.toList := by
  have hruns := @likeLoop_terminates pattern.toList text.toList
  unfold likeMatch
  dsimp only
  constructor
  · intro h
    split at h
    · cases h
    · rename_i pi hpi
      refine hruns.sound ⟨fun hrest => hrest, fun _ _ hnone => ?_⟩ pi hpi h
      cases hnone
  · intro h
    obtain ⟨pi, hpi, hall⟩ := hruns.complete h
    simp only [hpi]
    exact hall

/-- The matcher accepts nothing the pattern does not mean. -/
theorem like_of_likeMatch {pattern text : String} (h : likeMatch pattern text = true) :
    Like pattern.toList text.toList :=
  ((likeMatch_iff_facing pattern text).mp h).like

/-- `like_match` ends on every input, and its answer is that of `LIKE` exactly when a text that
matches at all matches with every `%` that meets a `%` taken as that one character. -/
theorem likeMatch_exact_iff (pattern text : String) :
    LikeRuns pattern.toList text.toList 0 0 none
        (likeLoop pattern.toList text.toList
          ((text.toList.length + 1) * (pattern.toList.length + 1)) 0 0 none) ∧
      ((likeMatch pattern text = true ↔ Like pattern.toList text.toList) ↔
        (Like pattern.toList text.toList → Facing pattern.toList text.toList)) := by
  refine ⟨likeLoop_terminates, ?_⟩
  rw [likeMatch_iff_facing]
  exact ⟨fun h => h.mpr, fun h => ⟨Facing.like, h⟩⟩

/-- `%x` means every text that ends in `x`, and the matcher refuses `%ax`. -/
theorem likeMatch_percent_text :
    likeMatch "%x" "%ax" = false ∧ Like "%x".toList "%ax".toList := by
  refine ⟨by decide, ?_⟩
  exact Like.run ['%', 'a'] (Like.lit (by decide) (by decide) Like.nil)

end Girder
