import Mathlib.Logic.Relation

/-!
# Shared — programs over a store that others change between their steps

A program over a shared store is a tree of atomic actions: an action changes the store it finds, and
what comes next depends on that store (`Prog`).  Many programs run over one store in a pool: a step
is an action of one of them, a new program, or a change made by the environment (`Pool.Step`).

* `p.Sat I Q` — started in any store satisfying `I`, and finding a store that satisfies `I` at each
  of its actions, `p` keeps `I` and ends in a value satisfying `Q`.

Between two actions of a program everything may happen to the store that keeps `I`, so `Sat`
composes along `bind` and says what a program does whoever else runs (`Pool.sat_of_steps`).
-/

namespace Girder
namespace Lib

/-- A program over a store of type `S`: it is done, or it acts and goes on from what it found. -/
inductive Prog (S α : Type) : Type
  | done (a : α)
  | act (effect : S → S) (next : S → Prog S α)

namespace Prog

variable {S α β γ : Type}

protected def bind : Prog S α → (α → Prog S β) → Prog S β
  | done a, f => f a
  | act effect next, f => act effect (fun s => (next s).bind f)

instance instMonad : Monad (Prog S) where
  pure := done
  bind := Prog.bind

/-- Read from the store. -/
def read (f : S → α) : Prog S α := act id (fun s => done (f s))

/-- Change the store. -/
def modify (effect : S → S) : Prog S Unit := act effect (fun _ => done ())

/-- Alone on the store. -/
def run : Prog S α → S → S × α
  | done a, s => (s, a)
  | act effect next, s => (next s).run (effect s)

theorem bind_done (p : Prog S α) : p.bind done = p := by
  induction p with
  | done a => rfl
  | act effect next ih => exact congrArg (act effect) (funext ih)

theorem bind_assoc (p : Prog S α) (f : α → Prog S β) (g : β → Prog S γ) :
    (p.bind f).bind g = p.bind (fun a => (f a).bind g) := by
  induction p with
  | done a => rfl
  | act effect next ih => exact congrArg (act effect) (funext ih)

instance instLawfulMonad : LawfulMonad (Prog S) :=
  LawfulMonad.mk' (Prog S) bind_done (fun _ _ => rfl) bind_assoc

/-! ## What a program guarantees -/

/-- Every action keeps `I`, and the value at the end satisfies `Q`, as long as others keep `I`. -/
def Sat (I : S → Prop) (Q : α → Prop) : Prog S α → Prop
  | done a => Q a
  | act effect next => ∀ s, I s → I (effect s) ∧ (next s).Sat I Q

variable {I : S → Prop} {Q R : α → Prop}

theorem sat_pure {a : α} (h : Q a) : (pure a : Prog S α).Sat I Q := h

theorem Sat.mono {p : Prog S α} (h : p.Sat I Q) (hQR : ∀ a, Q a → R a) : p.Sat I R := by
  induction p with
  | done a => exact hQR a h
  | act effect next ih => exact fun s hs => ⟨(h s hs).1, ih s (h s hs).2⟩

theorem Sat.bind {p : Prog S α} {f : α → Prog S β} {T : β → Prop} (hp : p.Sat I Q)
    (hf : ∀ a, Q a → (f a).Sat I T) : (p >>= f).Sat I T := by
  change (p.bind f).Sat I T
  induction p with
  | done a => exact hf a hp
  | act effect next ih => exact fun s hs => ⟨(hp s hs).1, ih s (hp s hs).2⟩

theorem sat_read {f : S → α} (h : ∀ s, I s → Q (f s)) : (read f).Sat I Q :=
  fun s hs => ⟨hs, h s hs⟩

theorem sat_modify {effect : S → S} (h : ∀ s, I s → I (effect s)) :
    (modify effect).Sat I (fun _ => True) :=
  fun s hs => ⟨h s hs, trivial⟩

/-- Alone on a good store a program ends as it guarantees. -/
theorem sat_run {p : Prog S α} (h : p.Sat I Q) : ∀ {s : S}, I s → Q (p.run s).2 := by
  induction p with
  | done a => exact fun _ => h
  | act effect next ih => exact fun hs => ih _ (h _ hs).2 (h _ hs).1

end Prog

/-! ## Pools -/

/-- A store and the programs running over it, each with the task it was started for. -/
structure Pool (S L α : Type) where
  store : S
  threads : List (L × Prog S α) := []

namespace Pool

variable {S L α : Type}

/-- One step of a pool; `body` is the program of a task, `Env` what the environment may do. -/
inductive Step (Env : S → S → Prop) (body : L → Prog S α) : Pool S L α → Pool S L α → Prop
  | env {p : Pool S L α} {s : S} (h : Env p.store s) : Step Env body p { p with store := s }
  | start {p : Pool S L α} (l : L) :
      Step Env body p { p with threads := p.threads ++ [(l, body l)] }
  | act {p : Pool S L α} {i : Nat} {l : L} {effect : S → S} {next : S → Prog S α}
      (h : p.threads[i]? = some (l, .act effect next)) :
      Step Env body p
        { store := effect p.store, threads := p.threads.set i (l, next p.store) }

/-- The states of a pool after any number of steps. -/
def Steps (Env : S → S → Prop) (body : L → Prog S α) : Pool S L α → Pool S L α → Prop :=
  Relation.ReflTransGen (Step Env body)

/-- The invariant holds of the store, and every program is still good for its task. -/
structure Ok (I : S → Prop) (Q : L → α → Prop) (p : Pool S L α) : Prop where
  store : I p.store
  threads {l : L} {t : Prog S α} : (l, t) ∈ p.threads → t.Sat I (Q l)

variable {I : S → Prop} {Q : L → α → Prop} {Env : S → S → Prop} {body : L → Prog S α}

theorem Ok.step {p q : Pool S L α} (h : p.Ok I Q) (henv : ∀ s s', I s → Env s s' → I s')
    (hbody : ∀ l, (body l).Sat I (Q l)) (hstep : Step Env body p q) : q.Ok I Q := by
  cases hstep with
  | env he => exact ⟨henv _ _ h.store he, h.threads⟩
  | start l =>
      refine ⟨h.store, fun {l' t} hmem => ?_⟩
      rcases List.mem_append.1 hmem with hold | hnew
      · exact h.threads hold
      · cases List.mem_singleton.1 hnew
        exact hbody l
  | act hthread =>
      have hsat := h.threads (List.mem_of_getElem? hthread) p.store h.store
      refine ⟨hsat.1, fun {l' t} hmem => ?_⟩
      rcases List.mem_or_eq_of_mem_set hmem with hold | hnew
      · exact h.threads hold
      · cases hnew
        exact hsat.2

/-- The rule of pools: a task that has ended, ended as its program alone guarantees. -/
theorem sat_of_steps {p q : Pool S L α} (h : p.Ok I Q) (henv : ∀ s s', I s → Env s s' → I s')
    (hbody : ∀ l, (body l).Sat I (Q l)) (hsteps : Steps Env body p q) : q.Ok I Q := by
  induction hsteps with
  | refl => exact h
  | tail _ hstep ih => exact ih.step henv hbody hstep

/-- A turn of one thread: its next action, if it has one. -/
def turn (p : Pool S L α) (i : Nat) : Pool S L α :=
  match p.threads[i]? with
  | some (l, .act effect next) =>
      { store := effect p.store, threads := p.threads.set i (l, next p.store) }
  | _ => p

theorem steps_turns (turns : List Nat) (p : Pool S L α) :
    Steps Env body p (turns.foldl turn p) := by
  induction turns generalizing p with
  | nil => exact Relation.ReflTransGen.refl
  | cons i turns ih =>
      refine Relation.ReflTransGen.trans ?_ (ih (p.turn i))
      unfold turn
      split
      · exact Relation.ReflTransGen.single (Step.act ‹_›)
      · exact Relation.ReflTransGen.refl

/-- A thread runs to its end while the others wait. -/
def finish (p : Pool S L α) (i : Nat) : Pool S L α :=
  match p.threads[i]? with
  | some (l, t) =>
      { store := (t.run p.store).1, threads := p.threads.set i (l, .done (t.run p.store).2) }
  | none => p

/-- A program of a pool may run to its end while the others wait. -/
theorem steps_run {l : L} {i : Nat} (t : Prog S α) :
    ∀ {p : Pool S L α}, p.threads[i]? = some (l, t) →
      Steps Env body p
        { store := (t.run p.store).1
          threads := p.threads.set i (l, .done (t.run p.store).2) } := by
  induction t with
  | done a =>
      intro p hp
      obtain ⟨hi, hget⟩ := List.getElem?_eq_some_iff.1 hp
      have hset : p.threads.set i (l, Prog.done a) = p.threads := by
        rw [← hget, List.set_getElem_self]
      rw [Prog.run, hset]
      exact Relation.ReflTransGen.refl
  | act effect next ih =>
      intro p hp
      obtain ⟨hi, -⟩ := List.getElem?_eq_some_iff.1 hp
      have hrest := ih p.store
        (p := { store := effect p.store, threads := p.threads.set i (l, next p.store) })
        (List.getElem?_set_self hi)
      rw [List.set_set] at hrest
      exact Relation.ReflTransGen.head (Step.act hp) hrest

theorem steps_finish (p : Pool S L α) (i : Nat) : Steps Env body p (p.finish i) := by
  unfold finish
  split
  · exact steps_run _ ‹_›
  · exact Relation.ReflTransGen.refl

theorem labels_turn (p : Pool S L α) (i : Nat) :
    (p.turn i).threads.map Prod.fst = p.threads.map Prod.fst := by
  unfold turn
  split
  case h_1 l effect next hget =>
    have hsame : (p.threads.map Prod.fst)[i]? = some l := by simp [hget]
    obtain ⟨_, hget'⟩ := List.getElem?_eq_some_iff.1 hsame
    rw [List.map_set, ← hget', List.set_getElem_self]
  case h_2 => rfl

theorem labels_turns (turns : List Nat) (p : Pool S L α) :
    (turns.foldl turn p).threads.map Prod.fst = p.threads.map Prod.fst := by
  induction turns generalizing p with
  | nil => rfl
  | cons i turns ih => rw [List.foldl_cons, ih, labels_turn]

/-- Two tasks that took turns and then ended, one after the other, are still the two tasks. -/
theorem threads_finish_two {p : Pool S L α} {l l' : L} (hp : p.threads.map Prod.fst = [l, l'])
    (turns : List Nat) :
    ∃ out out', (((turns.foldl turn p).finish 1).finish 0).threads =
      [(l, .done out), (l', .done out')] := by
  obtain ⟨t, rest, hrest, rfl, htail⟩ := List.map_eq_cons_iff.1 ((labels_turns turns p).trans hp)
  obtain ⟨t', rest', rfl, rfl, hnil⟩ := List.map_eq_cons_iff.1 htail
  obtain rfl := List.map_eq_nil_iff.1 hnil
  simp [finish, hrest]

end Pool

end Lib
end Girder
