import Mathlib.Data.List.TakeWhile
import Mathlib.Data.Prod.Lex
import Girder.Lib.Lists
import Girder.Lib.Prefix
import Girder.Lib.Sorting
import Girder.Like

/-!
# Constraints — what a `LIKE` pattern says about the tokens of a text

A text that matches a pattern carries the pattern's literal runs.  A word inside a run that is complete
on both sides is a token of the text, and a word cut on its right is the front of one.
`likeConstraints` extracts these; `likeConstraints_sound` says that the tokens of every matching text
satisfy them.
-/

namespace Girder

open Lib

/-- A constraint on the tokens of a text. -/
inductive LikeConstraint
  /-- Some token equals this word. -/
  | token (t : String)
  /-- Some token starts with this word. -/
  | leading (p : String)
  deriving DecidableEq

namespace LikeConstraint

/-- The derived order: tokens first. -/
def rank : LikeConstraint → Nat ×ₗ String
  | token t => toLex (0, t)
  | leading p => toLex (1, p)

/-- The tokens satisfy the constraint. -/
def Holds (tokens : List String) : LikeConstraint → Prop
  | token t => t ∈ tokens
  | leading p => ∃ t ∈ tokens, startsWith t p = true

end LikeConstraint

def wildcard (c : Char) : Bool := c == '%' || c == '_'

section Extract

variable [Unicode]

/-- The constraint of one word. -/
def wordConstraints (leftComplete rightComplete : Bool) (word : List Char) : List LikeConstraint :=
  if leftComplete && rightComplete then
    [.token (Unicode.toLowercase (String.ofList word))]
  else if leftComplete then
    let ascii := (word.takeWhile Char.isAlphanum).map Char.toLower
    if ascii.isEmpty then [] else [.leading (String.ofList ascii)]
  else
    []

/-- The words of a literal run, from some position on; `inner` says that the position is not the first
of the run.  The run may start or end the pattern.  Each round moves on, so the length of the run
bounds the rounds. -/
def runConstraints (starts ends : Bool) : Nat → Bool → List Char → List LikeConstraint
  | 0, _, _ => []
  | _ + 1, _, [] => []
  | fuel + 1, inner, c :: cs =>
      if !Unicode.isAlphanumeric c then
        runConstraints starts ends fuel true cs
      else
        let word := (c :: cs).takeWhile Unicode.isAlphanumeric
        let rest := (c :: cs).dropWhile Unicode.isAlphanumeric
        wordConstraints (inner || starts) (!rest.isEmpty || ends) word ++
          runConstraints starts ends fuel true rest

/-- The literal runs of a pattern, from some position on; `first` says that it is the first one. -/
def constraintsFrom : Nat → Bool → List Char → List LikeConstraint
  | 0, _, _ => []
  | _ + 1, _, [] => []
  | fuel + 1, first, c :: cs =>
      if wildcard c then
        constraintsFrom fuel false cs
      else
        let run := (c :: cs).takeWhile (fun c => !wildcard c)
        let rest := (c :: cs).dropWhile (fun c => !wildcard c)
        runConstraints first rest.isEmpty run.length false run ++ constraintsFrom fuel false rest

/-- The token constraints of a pattern; none when nothing can be said. -/
def likeConstraints (pattern : String) : List LikeConstraint :=
  let chars := pattern.toList
  (sortAsc LikeConstraint.rank (constraintsFrom chars.length true chars)).destutter (· ≠ ·)

-- A complete word is a token; a word cut on its right is the front of one; one cut on its left says
-- nothing.
example : @likeConstraints asciiUnicode "error: db%or" = [.token "error", .leading "db"] := by
  decide +kernel

end Extract

/-- Lowercasing maps the ASCII letters and digits in front as they are, whatever follows. -/
class LawfulUnicode [Unicode] : Prop where
  toLowercase_ascii (w rest : List Char) : (∀ c ∈ w, c.isAlphanum = true) →
    ∃ more, Unicode.toLowercase (String.ofList (w ++ rest)) =
      String.ofList (w.map Char.toLower ++ more)

/-! ## Splitting a match -/

theorem Like.eq_nil {t : List Char} (h : Like [] t) : t = [] := by
  cases h
  rfl

/-- A literal run stands in the text. -/
theorem Like.literal {w p t : List Char} (hw : ∀ c ∈ w, wildcard c = false)
    (h : Like (w ++ p) t) : ∃ rest, t = w ++ rest ∧ Like p rest := by
  induction w generalizing t with
  | nil => exact ⟨t, rfl, h⟩
  | cons c w ih =>
      have hc : wildcard c = false := hw c List.mem_cons_self
      have hrest : ∀ c ∈ w, wildcard c = false := fun c hc => hw c (List.mem_cons_of_mem _ hc)
      rw [List.cons_append] at h
      cases h with
      | run u h => simp [wildcard] at hc
      | one c h => simp [wildcard] at hc
      | lit _ _ h =>
          obtain ⟨rest, rfl, hlike⟩ := ih hrest h
          exact ⟨rest, rfl, hlike⟩

/-! ## Words of a text -/

section Words

variable [Unicode]

/-- Nothing comes before a word, or something that is not part of it. -/
def EndsClear (before : List Char) : Prop :=
  before = [] ∨ ∃ front c, before = front ++ [c] ∧ Unicode.isAlphanumeric c = false

/-- Nothing comes after a word, or something that is not part of it. -/
def StartsClear (after : List Char) : Prop :=
  after = [] ∨ ∃ c back, after = c :: back ∧ Unicode.isAlphanumeric c = false

theorem startsClear_dropWhile (l : List Char) :
    StartsClear (l.dropWhile Unicode.isAlphanumeric) := by
  induction l with
  | nil => exact Or.inl rfl
  | cons c l ih =>
      rw [List.dropWhile_cons]
      split
      · exact ih
      · rename_i hc
        exact Or.inr ⟨c, l, rfl, by simpa using hc⟩

theorem EndsClear.concat (before : List Char) {c : Char} (hc : Unicode.isAlphanumeric c = false) :
    EndsClear (before ++ [c]) := Or.inr ⟨before, c, rfl, hc⟩

/-- A complete word of a text is one of its tokens. -/
theorem mem_ftsTokens {text : String} {before w after : List Char}
    (htext : text.toList = before ++ (w ++ after)) (hne : w ≠ [])
    (hw : ∀ c ∈ w, Unicode.isAlphanumeric c = true) (hbefore : EndsClear before)
    (hafter : StartsClear after) : Unicode.toLowercase (String.ofList w) ∈ ftsTokens text := by
  have hword : ∀ c ∈ w, (!Unicode.isAlphanumeric c) = false := fun c hc => by rw [hw c hc]; rfl
  -- The word is the first piece of what it starts.
  have hpiece : w ∈ (w ++ after).splitOnP (fun c => !Unicode.isAlphanumeric c) := by
    rcases hafter with rfl | ⟨c, back, rfl, hc⟩
    · rw [List.append_nil, List.splitOnP_eq_singleton hword]
      exact List.mem_singleton_self w
    · rw [List.splitOnP_append_cons_of_forall_mem hword c (by simp [hc])]
      exact List.mem_cons_self
  have hmem : w ∈ text.toList.splitOnP (fun c => !Unicode.isAlphanumeric c) := by
    rw [htext]
    rcases hbefore with rfl | ⟨front, c, rfl, hc⟩
    · exact hpiece
    · rw [List.append_assoc, List.singleton_append,
        List.splitOnP_append_cons _ _ (by simp [hc])]
      exact List.mem_append_right _ hpiece
  refine List.mem_map.2 ⟨w, List.mem_filter.2 ⟨hmem, ?_⟩, rfl⟩
  simpa using hne

/-- The front of a word that starts clear is the front of a token. -/
theorem exists_token_startsWith [LawfulUnicode] {text : String} {before w after : List Char}
    (htext : text.toList = before ++ (w ++ after)) (hw : ∀ c ∈ w, Unicode.isAlphanumeric c = true)
    (hbefore : EndsClear before) (hascii : w.takeWhile Char.isAlphanum ≠ []) :
    ∃ t ∈ ftsTokens text,
      startsWith t (String.ofList ((w.takeWhile Char.isAlphanum).map Char.toLower)) = true := by
  -- The token is the word as far as the text carries it on.
  let word := w ++ after.takeWhile Unicode.isAlphanumeric
  let rest := after.dropWhile Unicode.isAlphanumeric
  have hsplit : w ++ after = word ++ rest := by
    simp [word, rest, List.append_assoc, List.takeWhile_append_dropWhile]
  have hne : word ≠ [] := by
    intro hnil
    have hwnil : w = [] := (List.append_eq_nil_iff.1 hnil).1
    exact hascii (by rw [hwnil]; rfl)
  have hword : ∀ c ∈ word, Unicode.isAlphanumeric c = true := by
    intro c hc
    rcases List.mem_append.1 hc with h | h
    · exact hw c h
    · exact List.mem_takeWhile_imp h
  have hclear : StartsClear rest := startsClear_dropWhile after
  rw [hsplit] at htext
  refine ⟨_, mem_ftsTokens htext hne hword hbefore hclear, ?_⟩
  -- Lowercasing keeps the ASCII characters in front.
  have hascii' : word = w.takeWhile Char.isAlphanum ++
      (w.dropWhile Char.isAlphanum ++ after.takeWhile Unicode.isAlphanumeric) := by
    rw [← List.append_assoc, List.takeWhile_append_dropWhile]
  obtain ⟨more, hlower⟩ := LawfulUnicode.toLowercase_ascii (w.takeWhile Char.isAlphanum)
    (w.dropWhile Char.isAlphanum ++ after.takeWhile Unicode.isAlphanumeric)
    (fun c hc => List.mem_takeWhile_imp hc)
  rw [hascii', hlower, startsWith_iff]
  simp

end Words

/-! ## Soundness -/

section Sound

variable [Unicode] [LawfulUnicode]

theorem wordConstraints_sound {text : String} {before w after : List Char} {left right : Bool}
    (htext : text.toList = before ++ (w ++ after)) (hne : w ≠ [])
    (hw : ∀ c ∈ w, Unicode.isAlphanumeric c = true) (hleft : left = true → EndsClear before)
    (hright : right = true → StartsClear after) :
    ∀ c ∈ wordConstraints left right w, c.Holds (ftsTokens text) := by
  intro c hc
  unfold wordConstraints at hc
  split at hc
  · rename_i hboth
    rw [Bool.and_eq_true] at hboth
    obtain rfl := List.mem_singleton.1 hc
    exact mem_ftsTokens htext hne hw (hleft hboth.1) (hright hboth.2)
  · split at hc
    · rename_i hl
      simp only at hc
      split at hc
      · exact absurd hc List.not_mem_nil
      · rename_i hascii
        obtain rfl := List.mem_singleton.1 hc
        exact exists_token_startsWith htext hw (hleft hl) (by simpa using hascii)
    · exact absurd hc List.not_mem_nil

/-- The words of a run that stands in the text.  At every word inside the run, what comes before it
ends clear. -/
theorem runConstraints_sound {text : String} {starts ends : Bool} {after : List Char}
    (hends : ends = true → after = []) :
    ∀ (fuel : Nat) (inner : Bool) (before cs : List Char),
      text.toList = before ++ (cs ++ after) →
      (inner = true → EndsClear before ∨ StartsClear cs) →
      (inner = false → starts = true → before = []) →
      ∀ c ∈ runConstraints starts ends fuel inner cs, c.Holds (ftsTokens text) := by
  intro fuel
  induction fuel with
  | zero => exact fun _ _ _ _ _ _ c hc => absurd hc List.not_mem_nil
  | succ fuel ih =>
      intro inner before cs htext hinner hfirst
      cases cs with
      | nil => exact fun c hc => absurd hc List.not_mem_nil
      | cons x cs =>
          unfold runConstraints
          by_cases hx : Unicode.isAlphanumeric x = true
          · rw [hx, Bool.not_true, if_neg Bool.false_ne_true]
            -- The word and the rest of the run.
            have hsplit := List.takeWhile_append_dropWhile (p := Unicode.isAlphanumeric)
              (l := x :: cs)
            have hne : (x :: cs).takeWhile Unicode.isAlphanumeric ≠ [] := by
              rw [List.takeWhile_cons_of_pos hx]
              exact List.cons_ne_nil _ _
            have hleft : (inner || starts) = true → EndsClear before := by
              intro hl
              cases hi : inner with
              | false =>
                  rw [hi, Bool.false_or] at hl
                  exact Or.inl (hfirst hi hl)
              | true =>
                  refine (hinner hi).resolve_right ?_
                  rintro (hnil | ⟨c, back, heq, hc⟩)
                  · exact absurd hnil (List.cons_ne_nil _ _)
                  · rw [(List.cons.inj heq).1, hc] at hx
                    exact absurd hx Bool.false_ne_true
            have hright : (!((x :: cs).dropWhile Unicode.isAlphanumeric).isEmpty || ends) = true →
                StartsClear ((x :: cs).dropWhile Unicode.isAlphanumeric ++ after) := by
              intro hr
              rcases startsClear_dropWhile (x :: cs) with hnil | ⟨c, back, heq, hc⟩
              · rw [hnil] at hr ⊢
                exact Or.inl (hends (by simpa using hr))
              · rw [heq]
                exact Or.inr ⟨c, back ++ after, rfl, hc⟩
            have hword : text.toList = before ++ ((x :: cs).takeWhile Unicode.isAlphanumeric ++
                ((x :: cs).dropWhile Unicode.isAlphanumeric ++ after)) := by
              rw [htext, ← List.append_assoc (List.takeWhile _ _), hsplit]
            intro c hc
            rcases List.mem_append.1 hc with hc | hc
            · exact wordConstraints_sound hword hne (fun _ h => List.mem_takeWhile_imp h) hleft
                hright c hc
            · refine ih true (before ++ (x :: cs).takeWhile Unicode.isAlphanumeric) _ ?_
                (fun _ => Or.inr (startsClear_dropWhile (x :: cs)))
                (fun h => absurd h (by decide)) c hc
              rw [hword, List.append_assoc]
          · rw [Bool.not_eq_true] at hx
            rw [hx, Bool.not_false, if_pos rfl]
            refine ih true (before ++ [x]) cs ?_ (fun _ => Or.inl (EndsClear.concat before hx))
              (fun h => absurd h (by decide))
            rw [htext, List.append_assoc]
            rfl

/-- The runs of a pattern whose front has been matched. -/
theorem constraintsFrom_sound {text : String} :
    ∀ (fuel : Nat) (first : Bool) (before p t : List Char), text.toList = before ++ t → Like p t →
      (first = true → before = []) →
      ∀ c ∈ constraintsFrom fuel first p, c.Holds (ftsTokens text) := by
  intro fuel
  induction fuel with
  | zero => exact fun _ _ _ _ _ _ _ c hc => absurd hc List.not_mem_nil
  | succ fuel ih =>
      intro first before p t htext hlike hfirst
      cases p with
      | nil => exact fun c hc => absurd hc List.not_mem_nil
      | cons x p =>
          unfold constraintsFrom
          by_cases hx : wildcard x = true
          · rw [if_pos hx]
            -- What follows a wildcard matches what follows its characters.
            obtain ⟨u, t', rfl, hrest⟩ : ∃ u t', t = u ++ t' ∧ Like p t' := by
              cases hlike with
              | run u h => exact ⟨u, _, rfl, h⟩
              | one c h => exact ⟨[c], _, rfl, h⟩
              | lit _ _ h => exact ⟨[x], _, rfl, h⟩
            refine ih false (before ++ u) p t' ?_ hrest (fun h => absurd h (by decide))
            rw [htext, List.append_assoc]
          · rw [if_neg hx]
            have hsplit := List.takeWhile_append_dropWhile (p := fun c => !wildcard c) (l := x :: p)
            rw [← hsplit] at hlike
            obtain ⟨t', rfl, hrest⟩ := Like.literal (fun c hc => by
              simpa using List.mem_takeWhile_imp hc) hlike
            intro c hc
            rcases List.mem_append.1 hc with hc | hc
            · refine runConstraints_sound ?_ _ false before _ htext (fun h => absurd h (by decide))
                (fun _ => hfirst) c hc
              intro hends
              rw [List.isEmpty_iff.1 hends] at hrest
              exact Like.eq_nil hrest
            · refine ih false (before ++ (x :: p).takeWhile (fun c => !wildcard c)) _ t' ?_ hrest
                (fun h => absurd h (by decide)) c hc
              rw [htext, List.append_assoc]

/-- Whatever a pattern matches has tokens that satisfy the constraints of the pattern. -/
theorem likeConstraints_sound {pattern text : String} (h : likeMatch pattern text = true) :
    ∀ c ∈ likeConstraints pattern, c.Holds (ftsTokens text) := by
  intro c hc
  have hmem := mem_sortAsc _ |>.1 (mem_destutter_ne.1 hc)
  exact constraintsFrom_sound _ true [] _ _ rfl (like_of_likeMatch h) (fun _ => rfl) c hmem

/-- A text that a pattern matches has every word of the pattern's constraints among its tokens, and for
every prefix a token that starts with it. -/
theorem constraints_of_likeMatch {pattern text : String} (h : likeMatch pattern text = true) :
    (∀ t, LikeConstraint.token t ∈ likeConstraints pattern → t ∈ ftsTokens text) ∧
      ∀ p, LikeConstraint.leading p ∈ likeConstraints pattern →
        ∃ t ∈ ftsTokens text, startsWith t p = true := by
  have hholds := likeConstraints_sound h
  exact ⟨fun t ht => hholds _ ht, fun p hp => hholds _ hp⟩

end Sound

/-- The ASCII tables lowercase one character at a time. -/
theorem lawfulUnicode_ascii : @LawfulUnicode asciiUnicode := by
  refine @LawfulUnicode.mk asciiUnicode fun w rest _ => ⟨rest.map Char.toLower, ?_⟩
  simp [Unicode.toLowercase, List.map_append]

theorem constraints_of_likeMatch_error :
    letI := asciiUnicode
    "error" ∈ ftsTokens "error: dbx" ∧ ∃ t ∈ ftsTokens "error: dbx", startsWith t "db" = true := by
  let _ := asciiUnicode
  have _ := lawfulUnicode_ascii
  have hmatch : likeMatch "error: db%" "error: dbx" = true := by decide +kernel
  obtain ⟨htokens, hleading⟩ := constraints_of_likeMatch hmatch
  exact ⟨htokens "error" (by decide +kernel), hleading "db" (by decide +kernel)⟩

end Girder
