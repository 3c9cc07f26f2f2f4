import Mathlib.Data.List.Infix

/-!
# Cuts — scanning a list for a longest run

A scanner that takes the longest run at the front of a list and starts again where it broke sees the
list as a sequence of blocks.  `GreedyCut P l blocks` says that `blocks` are those: each satisfies
`P`, and none can be extended by the item after it.

The scan keeps the first of the longest blocks (`firstLongest`).  That is a longest run of the list
only if no run across two blocks is longer (`firstLongest_isLongest_iff`).
-/

namespace Girder
namespace Lib

universe u

variable {α : Type u}

/-- `blocks` are the runs a scan for `P` takes from the front of a list, one after the other. -/
inductive GreedyCut (P : List α → Prop) : List α → List (List α) → Prop
  | nil : GreedyCut P [] []
  | last {run : List α} : run ≠ [] → P run → GreedyCut P run [run]
  | next {run rest : List α} {a : α} {blocks : List (List α)} : run ≠ [] → P run →
      ¬ P (run ++ [a]) → GreedyCut P (a :: rest) blocks →
      GreedyCut P (run ++ a :: rest) (run :: blocks)

/-- The first of the longest blocks of at least `minLen` items, starting from `best`. -/
def firstLongest (minLen : Nat) (best : Option (List α)) (blocks : List (List α)) :
    Option (List α) :=
  blocks.foldl
    (fun best block =>
      if minLen ≤ block.length ∧ best.all (fun b => decide (b.length < block.length)) then
        some block
      else
        best)
    best

/-- A part of `l` that satisfies `P` and has at least `minLen` items. -/
structure IsRun (P : List α → Prop) (l : List α) (minLen : Nat) (run : List α) : Prop where
  ne_nil : run ≠ []
  holds : P run
  isInfix : run <:+: l
  minLen_le : minLen ≤ run.length

/-- A longest run of `l`, or none where there is none. -/
def IsLongestRun (P : List α → Prop) (l : List α) (minLen : Nat) : Option (List α) → Prop
  | some run => IsRun P l minLen run ∧ ∀ other, IsRun P l minLen other → other.length ≤ run.length
  | none => ∀ other, ¬ IsRun P l minLen other

namespace GreedyCut

variable {P : List α → Prop} {l : List α} {blocks : List (List α)}

/-- Every block is a run of the list. -/
theorem isRun_of_mem (h : GreedyCut P l blocks) {block : List α} (hb : block ∈ blocks) :
    block ≠ [] ∧ P block ∧ block <:+: l := by
  induction h with
  | nil => cases hb
  | last hne hP =>
      rw [List.mem_singleton.1 hb]
      exact ⟨hne, hP, List.infix_rfl⟩
  | next hne hP _ _ ih =>
      rcases List.mem_cons.1 hb with rfl | hb
      · exact ⟨hne, hP, (List.prefix_append _ _).isInfix⟩
      · obtain ⟨hne', hP', hin⟩ := ih hb
        exact ⟨hne', hP', hin.trans (List.suffix_append _ _).isInfix⟩

theorem eq_nil_of_nil (h : GreedyCut P [] blocks) : blocks = [] := by
  generalize hl : ([] : List α) = l at h
  cases h with
  | nil => rfl
  | last hne => exact absurd hl.symm hne
  | next => simp at hl

/-- The front block is as long as any prefix that satisfies `P`. -/
theorem length_le_of_prefix (hdown : ∀ {r s : List α}, r <+: s → P s → P r)
    {run rest pre : List α} {a : α} (hstop : ¬ P (run ++ [a])) (hpre : pre <+: run ++ a :: rest)
    (hP : P pre) : pre.length ≤ run.length := by
  by_contra hlt
  have hlonger : run ++ [a] <+: pre := by
    have hfront : run ++ [a] <+: run ++ a :: rest := ⟨rest, by simp⟩
    refine List.prefix_of_prefix_length_le hfront hpre ?_
    simp only [List.length_append, List.length_singleton]
    omega
  exact hstop (hdown hlonger hP)

/-- A list is cut in one way only. -/
theorem unique (hdown : ∀ {r s : List α}, r <+: s → P s → P r)
    (h : GreedyCut P l blocks) {blocks' : List (List α)} (h' : GreedyCut P l blocks') :
    blocks = blocks' := by
  induction h generalizing blocks' with
  | nil => exact h'.eq_nil_of_nil.symm
  | @last run hne hP =>
      generalize hl : run = l at h'
      cases h' with
      | nil => exact absurd hl hne
      | last => rfl
      | @next run' rest a _ _ _ hstop =>
          have hle := length_le_of_prefix hdown hstop List.prefix_rfl (hl ▸ hP)
          simp only [List.length_append, List.length_cons] at hle
          omega
  | @next run rest a blocks hne hP hstop _ ih =>
      generalize hl : run ++ a :: rest = l at h'
      cases h' with
      | nil => simp at hl
      | last _ hP' =>
          have hle := length_le_of_prefix hdown hstop List.prefix_rfl (hl.symm ▸ hP')
          simp only [List.length_append, List.length_cons] at hle
          omega
      | @next run' rest' a' blocks' _ hP' hstop' hcut' =>
          -- Neither front block is longer than the other.
          have hpre : run' <+: run ++ a :: rest := hl.symm ▸ List.prefix_append _ _
          have hpre' : run <+: run' ++ a' :: rest' := hl ▸ List.prefix_append _ _
          have hle := length_le_of_prefix hdown hstop hpre hP'
          have hge := length_le_of_prefix hdown hstop' hpre' hP
          obtain ⟨hrun, htail⟩ := List.append_inj hl (Nat.le_antisymm hge hle)
          rw [hrun, ih (htail.symm ▸ hcut')]

end GreedyCut

/-! ## The scan -/

section FirstLongest

variable {P : List α → Prop} {l : List α} {minLen : Nat}

theorem firstLongest_cons (best : Option (List α)) (block : List α) (blocks : List (List α)) :
    firstLongest minLen best (block :: blocks) =
      firstLongest minLen
        (if minLen ≤ block.length ∧ best.all (fun b => decide (b.length < block.length)) then
          some block
        else
          best)
        blocks :=
  rfl

/-- Without a find, nothing was long enough. -/
theorem firstLongest_eq_none {best : Option (List α)} {blocks : List (List α)}
    (h : firstLongest minLen best blocks = none) :
    best = none ∧ ∀ block ∈ blocks, ¬ minLen ≤ block.length := by
  induction blocks generalizing best with
  | nil => exact ⟨h, by simp⟩
  | cons block blocks ih =>
      rw [firstLongest_cons] at h
      obtain ⟨hbest, hrest⟩ := ih h
      split at hbest
      · cases hbest
      · rename_i hshort
        subst hbest
        refine ⟨rfl, ?_⟩
        intro other hother
        rcases List.mem_cons.1 hother with rfl | hin
        · simpa using hshort
        · exact hrest other hin

/-- A find is one of the blocks, and as long as any. -/
theorem firstLongest_eq_some {best : Option (List α)} {blocks : List (List α)} {run : List α}
    (h : firstLongest minLen best blocks = some run) :
    (best = some run ∨ run ∈ blocks ∧ minLen ≤ run.length) ∧
      (∀ b ∈ best, b.length ≤ run.length) ∧
      ∀ block ∈ blocks, minLen ≤ block.length → block.length ≤ run.length := by
  induction blocks generalizing best with
  | nil =>
      obtain rfl : best = some run := h
      simp
  | cons block blocks ih =>
      rw [firstLongest_cons] at h
      obtain ⟨hmem, hbest, hrest⟩ := ih h
      split at hmem
      · -- The block is the best so far.
        rename_i htaken
        rw [if_pos htaken] at hbest
        have hblock : block.length ≤ run.length := hbest block rfl
        refine ⟨Or.inr ?_, ?_, ?_⟩
        · rcases hmem with heq | ⟨hin, hlen⟩
          · obtain rfl := Option.some.inj heq
            exact ⟨List.mem_cons_self, htaken.1⟩
          · exact ⟨List.mem_cons_of_mem _ hin, hlen⟩
        · intro b hb
          have hlt : b.length < block.length := by
            have hall := htaken.2
            rw [Option.mem_def.1 hb] at hall
            simpa using hall
          omega
        · intro other hother hlen
          rcases List.mem_cons.1 hother with rfl | hin
          · exact hblock
          · exact hrest other hin hlen
      · rename_i hkept
        rw [if_neg hkept] at hbest
        refine ⟨?_, hbest, ?_⟩
        · rcases hmem with heq | ⟨hin, hlen⟩
          · exact Or.inl heq
          · exact Or.inr ⟨List.mem_cons_of_mem _ hin, hlen⟩
        · intro other hother hlen
          rcases List.mem_cons.1 hother with rfl | hin
          · -- Passed over, so the best so far was as long.
            cases hb : best with
            | none => simp [hb, hlen] at hkept
            | some b =>
                have hle : other.length ≤ b.length := by simpa [hb, hlen] using hkept
                exact hle.trans (hbest b hb)
          · exact hrest other hin hlen

/-- The longest block is a longest run exactly when every long enough run across blocks is matched by
a block as long. -/
theorem firstLongest_isLongest_iff {blocks : List (List α)} (hcut : GreedyCut P l blocks) :
    IsLongestRun P l minLen (firstLongest minLen none blocks) ↔
      ∀ run, IsRun P l minLen run → (∀ block ∈ blocks, ¬ run <:+: block) →
        ∃ block ∈ blocks, run.length ≤ block.length := by
  -- A run within a block is matched by that block.
  have hmatched : (∀ run, IsRun P l minLen run → (∀ block ∈ blocks, ¬ run <:+: block) →
        ∃ block ∈ blocks, run.length ≤ block.length) →
      ∀ run, IsRun P l minLen run → ∃ block ∈ blocks, run.length ≤ block.length := by
    intro h run hrun
    by_cases hin : ∀ block ∈ blocks, ¬ run <:+: block
    · exact h run hrun hin
    · push Not at hin
      obtain ⟨block, hb, hinfix⟩ := hin
      exact ⟨block, hb, hinfix.length_le⟩
  cases hfind : firstLongest minLen none blocks with
  | none =>
      have hshort := (firstLongest_eq_none hfind).2
      constructor
      · exact fun h run hrun _ => absurd hrun (h run)
      · intro h run hrun
        obtain ⟨block, hb, hle⟩ := hmatched h run hrun
        exact hshort block hb (hrun.minLen_le.trans hle)
  | some found =>
      obtain ⟨hmem, -, hmax⟩ := firstLongest_eq_some hfind
      rcases hmem with hnone | ⟨hin, hlen⟩
      · cases hnone
      obtain ⟨hne, hP, hinfix⟩ := hcut.isRun_of_mem hin
      constructor
      · exact fun h run hrun _ => ⟨found, hin, h.2 run hrun⟩
      · intro h
        refine ⟨⟨hne, hP, hinfix, hlen⟩, ?_⟩
        intro run hrun
        obtain ⟨block, hb, hle⟩ := hmatched h run hrun
        exact hle.trans (hmax block hb (hrun.minLen_le.trans hle))

end FirstLongest

end Lib
end Girder
