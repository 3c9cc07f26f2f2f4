import Mathlib.Data.Option.Basic
import Mathlib.Order.Monotone.Basic

/-!
# Runs — sequences of operations of a partial machine

A machine is a function `step : S → A → Option S`: an operation is either not possible in a state or
leads to the next one.  A run is a list of operations; it ends where one is not possible.

* `Throughout step P s as` — every state the run goes through satisfies `P`;
* `EachStep step C s as` — every operation satisfies `C` in the state it starts from;
* `Meets step C s as` — the same, the first operation that is not possible included.

`throughout_of_step` is the invariant rule, and `throughout_iff_eachStep` turns a property of the
states into a condition on the operations.  `process_rests` is the rule for a process, which always
goes on, that lowers a measure until it is idle, and `exists_quiet_window` the one for a process that
may pause in between.
-/

namespace Girder
namespace Lib

universe u v

variable {S : Type u} {A : Type v} (step : S → A → Option S)

/-- The state after a run. -/
def runFrom (s : S) : List A → Option S
  | [] => some s
  | a :: as => (step s a).bind (fun s' => runFrom s' as)

/-- Every state the run goes through satisfies `P`. -/
def Throughout (P : S → Prop) (s : S) : List A → Prop
  | [] => P s
  | a :: as => P s ∧ ∀ s' ∈ step s a, Throughout P s' as

/-- Every operation the run performs satisfies `C` in the state it starts from. -/
def EachStep (C : S → A → Prop) (s : S) : List A → Prop
  | [] => True
  | a :: as => ∀ s' ∈ step s a, C s a ∧ EachStep C s' as

/-- Every operation up to and including the first that is not possible satisfies `C` in the state it
finds. -/
def Meets (C : S → A → Prop) (s : S) : List A → Prop
  | [] => True
  | a :: as => C s a ∧ ∀ s' ∈ step s a, Meets C s' as

/-- A run can be checked step by step. -/
instance instDecidableEachStep (C : S → A → Prop) [∀ s a, Decidable (C s a)] :
    ∀ (s : S) (as : List A), Decidable (EachStep step C s as)
  | _, [] => isTrue trivial
  | s, a :: as =>
      match hs : step s a with
      | none => isTrue (fun s' hs' => by simp [hs] at hs')
      | some s' =>
          match (inferInstance : Decidable (C s a)), instDecidableEachStep C s' as with
          | isTrue hC, isTrue hrest =>
              isTrue (fun s₁ hs₁ => (Option.some.inj (hs.symm.trans hs₁)) ▸ ⟨hC, hrest⟩)
          | isFalse hC, _ => isFalse (fun h => hC (h s' hs).1)
          | _, isFalse hrest => isFalse (fun h => hrest (h s' hs).2)

variable {step} {P : S → Prop} {C : S → A → Prop}

/-- Operations that are all fine in themselves. -/
theorem EachStep.and_mem {D : A → Prop} {as : List A} :
    ∀ {s : S}, EachStep step C s as → (∀ a ∈ as, D a) →
      EachStep step (fun s a => C s a ∧ D a) s as := by
  induction as with
  | nil => exact fun _ _ => trivial
  | cons a as ih =>
      intro s h hD s' hs'
      obtain ⟨hC, hrest⟩ := h s' hs'
      exact ⟨⟨hC, hD a (by simp)⟩, ih hrest (fun b hb => hD b (by simp [hb]))⟩

/-- The two parts of a run. -/
theorem runFrom_append (s : S) (as bs : List A) :
    runFrom step s (as ++ bs) = (runFrom step s as).bind (fun s' => runFrom step s' bs) := by
  induction as generalizing s with
  | nil => rfl
  | cons a as ih =>
      rw [List.cons_append, runFrom, runFrom, Option.bind_assoc]
      exact congrArg (Option.bind (step s a)) (funext ih)

theorem EachStep.append {as bs : List A} :
    ∀ {s : S}, EachStep step C s (as ++ bs) →
      EachStep step C s as ∧ ∀ s' ∈ runFrom step s as, EachStep step C s' bs := by
  induction as with
  | nil =>
      intro s h
      refine ⟨trivial, fun s' hs' => ?_⟩
      cases hs'
      exact h
  | cons a as ih =>
      intro s h
      refine ⟨fun s' hs' => ⟨(h s' hs').1, (ih (h s' hs').2).1⟩, fun s' hs' => ?_⟩
      obtain ⟨s₁, hstep, hrest⟩ := Option.bind_eq_some_iff.1 hs'
      exact (ih (h s₁ hstep).2).2 s' hrest

/-- An operation with a known outcome, then the rest. -/
theorem Meets.cons {a : A} {as : List A} {s s' : S} (hC : C s a) (hstep : step s a = some s')
    (hrest : Meets step C s' as) : Meets step C s (a :: as) := by
  refine ⟨hC, fun s₁ hs₁ => ?_⟩
  cases hstep.symm.trans hs₁
  exact hrest

/-- Operations that meet the condition in every state. -/
theorem Meets.of_forall {as : List A} :
    ∀ {s : S}, (∀ a ∈ as, ∀ s, C s a) → Meets step C s as := by
  induction as with
  | nil => exact fun _ => trivial
  | cons a as ih =>
      intro s h
      exact ⟨h a List.mem_cons_self s,
        fun s' _ => ih (fun b hb => h b (List.mem_cons_of_mem a hb))⟩

/-- An operation that is not possible ends the run. -/
theorem Meets.stop {a : A} {as : List A} {s : S} (hC : C s a) (hstep : step s a = none) :
    Meets step C s (a :: as) := by
  refine ⟨hC, fun s₁ hs₁ => ?_⟩
  cases hstep.symm.trans hs₁

/-- The invariant rule without a condition on the operations. -/
theorem invariant_runFrom {Inv : S → Prop}
    (hstep : ∀ {s a s'}, Inv s → step s a = some s' → Inv s') {as : List A} :
    ∀ {s s' : S}, Inv s → runFrom step s as = some s' → Inv s' := by
  induction as with
  | nil =>
      intro s s' hs hrun
      cases hrun
      exact hs
  | cons a as ih =>
      intro s s' hs hrun
      obtain ⟨s₁, hfirst, hrest⟩ := Option.bind_eq_some_iff.1 hrun
      exact ih (hstep hs hfirst) hrest

theorem Throughout.start {s : S} {as : List A} (h : Throughout step P s as) : P s := by
  cases as with
  | nil => exact h
  | cons a as => exact h.1

theorem Throughout.mono {Q : S → Prop} (hPQ : ∀ s, P s → Q s) {as : List A} :
    ∀ {s : S}, Throughout step P s as → Throughout step Q s as := by
  induction as with
  | nil => exact fun h => hPQ _ h
  | cons a as ih => exact fun h => ⟨hPQ _ h.1, fun s' hs' => ih (h.2 s' hs')⟩

/-- The first part of a run. -/
theorem Throughout.of_append {as bs : List A} :
    ∀ {s : S}, Throughout step P s (as ++ bs) → Throughout step P s as := by
  induction as with
  | nil => exact fun h => h.start
  | cons a as ih => exact fun h => ⟨h.1, fun s' hs' => ih (h.2 s' hs')⟩

/-- The last state of a run is one of those it goes through. -/
theorem Throughout.last {as : List A} :
    ∀ {s s' : S}, Throughout step P s as → runFrom step s as = some s' → P s' := by
  induction as with
  | nil =>
      intro s s' h hrun
      cases hrun
      exact h
  | cons a as ih =>
      intro s s' h hrun
      obtain ⟨s₁, hstep, hrest⟩ := Option.bind_eq_some_iff.1 hrun
      exact ih (h.2 s₁ hstep) hrest

/-- The invariant rule. -/
theorem throughout_of_step {Inv : S → Prop}
    (hstep : ∀ {s a s'}, Inv s → C s a → step s a = some s' → Inv s') {as : List A} :
    ∀ {s : S}, Inv s → EachStep step C s as → Throughout step Inv s as := by
  induction as with
  | nil => exact fun hs _ => hs
  | cons a as ih =>
      intro s hs hall
      refine ⟨hs, fun s' hs' => ?_⟩
      obtain ⟨hC, hrest⟩ := hall s' hs'
      exact ih (hstep hs hC hs') hrest

/-- A run is correct exactly when its operations are, if under an invariant a correct state stays
correct exactly under the operations that meet the condition. -/
theorem throughout_iff_eachStep (Inv : S → Prop)
    (hkeep : ∀ {s a s'}, Inv s → P s → C s a → step s a = some s' → Inv s' ∧ P s')
    (hneed : ∀ {s a s'}, Inv s → P s → step s a = some s' → P s' → C s a) {as : List A} :
    ∀ {s : S}, Inv s → P s → (Throughout step P s as ↔ EachStep step C s as) := by
  induction as with
  | nil => exact fun _ hs => ⟨fun _ => trivial, fun _ => hs⟩
  | cons a as ih =>
      intro s hinv hs
      constructor
      · rintro ⟨-, hrest⟩ s' hs'
        have hall := hrest s' hs'
        have hC := hneed hinv hs hs' hall.start
        obtain ⟨hinv', hnext⟩ := hkeep hinv hs hC hs'
        exact ⟨hC, (ih hinv' hnext).1 hall⟩
      · intro hall
        refine ⟨hs, fun s' hs' => ?_⟩
        obtain ⟨hC, hrest⟩ := hall s' hs'
        obtain ⟨hinv', hnext⟩ := hkeep hinv hs hC hs'
        exact (ih hinv' hnext).2 hrest

/-! ## Processes that come to rest -/

section Process

/-- The states of a process, one step after the other. -/
def process (next : Nat → S → S) (s : S) : Nat → S
  | 0 => s
  | n + 1 => next n (process next s n)

variable {next : Nat → S → S} {active : S → Prop} {measure : S → Nat}

/-- What every step keeps holds throughout. -/
theorem process_keeps {P : S → Prop} (hnext : ∀ n t, P t → P (next n t)) {s : S} (h : P s) :
    ∀ n, P (process next s n) := by
  intro n
  induction n with
  | zero => exact h
  | succ n ih => exact hnext n _ ih

/-- A process that is idle once stays as it is. -/
theorem process_idle (hidle : ∀ n t, ¬ active t → next n t = t) {s : S} {n : Nat}
    (h : ¬ active (process next s n)) : ∀ m, n ≤ m → process next s m = process next s n := by
  intro m hm
  obtain ⟨k, rfl⟩ := Nat.exists_eq_add_of_le hm
  induction k with
  | zero => rfl
  | succ k ih =>
      rw [← Nat.add_assoc, process, ih (Nat.le_add_right n k)]
      exact hidle _ _ h

/-- A process that lowers a measure while it is active is idle from some step on, and the measure it
starts with bounds the number of steps before. -/
theorem process_rests (hidle : ∀ n t, ¬ active t → next n t = t) {s : S}
    (hactive : ∀ n, active (process next s n) →
      measure (process next s (n + 1)) < measure (process next s n)) :
    ∃ n ≤ measure s, ∀ m, n ≤ m → ¬ active (process next s m) := by
  have hrest : ∃ n ≤ measure s, ¬ active (process next s n) := by
    by_contra hnone
    -- Every step so far has taken one off.
    have hsteps : ∀ n ≤ measure s + 1, measure (process next s n) + n ≤ measure s := by
      intro n
      induction n with
      | zero => exact fun _ => Nat.le_refl _
      | succ n ih =>
          intro hn
          have hbefore := ih (by omega)
          have hstep := hactive n (by_contra fun h => hnone ⟨n, by omega, h⟩)
          omega
    have hlast := hsteps (measure s + 1) (Nat.le_refl _)
    omega
  obtain ⟨n, hn, hdone⟩ := hrest
  refine ⟨n, hn, fun m hm => ?_⟩
  rw [process_idle hidle hdone m hm]
  exact hdone

/-- A measure that never grows is constant over a window of any length. -/
theorem exists_quiet_window (w : Nat) : ∀ (m : Nat) {f : Nat → Nat}, f 0 ≤ m →
    (∀ i, f (i + 1) ≤ f i) → ∃ k, k + w ≤ (m + 1) * w ∧ ∀ i < w, f (k + i + 1) = f (k + i) := by
  intro m
  induction m with
  | zero =>
      intro f hzero hdown
      have hanti := antitone_nat_of_succ_le hdown
      have hnone : ∀ i, f i = 0 := fun i =>
        Nat.eq_zero_of_le_zero ((hanti (Nat.zero_le i)).trans hzero)
      exact ⟨0, by omega, fun i _ => by rw [hnone, hnone]⟩
  | succ m ih =>
      intro f hm hdown
      have hanti := antitone_nat_of_succ_le hdown
      by_cases hquiet : ∀ i < w, f (i + 1) = f i
      · refine ⟨0, ?_, fun i hi => ?_⟩
        · rw [Nat.zero_add]
          exact Nat.le_mul_of_pos_left w (Nat.succ_pos _)
        · rw [Nat.zero_add]
          exact hquiet i hi
      · -- it falls within the first window, which leaves less for the rest
        simp only [not_forall] at hquiet
        obtain ⟨i, hi, hne⟩ := hquiet
        have hfall : f w ≤ m := by
          apply Nat.le_of_lt_succ
          calc f w ≤ f (i + 1) := hanti hi
            _ < f i := Nat.lt_of_le_of_ne (hdown i) hne
            _ ≤ f 0 := hanti (Nat.zero_le i)
            _ ≤ m + 1 := hm
        obtain ⟨k, hk, hrest⟩ := ih (f := fun i => f (w + i)) hfall (fun i => hdown (w + i))
        refine ⟨w + k, ?_, fun i hi => ?_⟩
        · rw [Nat.succ_mul]
          omega
        · have heq := hrest i hi
          simpa only [Nat.add_assoc] using heq

end Process

end Lib
end Girder
