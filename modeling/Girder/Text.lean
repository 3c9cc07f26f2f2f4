import Mathlib.Init

/-!
# Text — the tokenizer and the `LIKE` matcher

The text predicates of a query are evaluated over `Record.text` by two functions: `ftsTokens`
splits a document into lowercased alphanumeric words, and `likeMatch` is SQL `LIKE` with `%` and
`_`.  Unicode classification and case mapping come from the standard library and are a parameter.
-/

namespace Girder

/-- The Unicode tables behind `char::is_alphanumeric` and `str::to_lowercase`. -/
class Unicode where
  isAlphanumeric : Char → Bool
  toLowercase : String → String

/-- The tables restricted to ASCII. -/
@[reducible]
def asciiUnicode : Unicode where
  isAlphanumeric := Char.isAlphanum
  toLowercase s := String.ofList (s.toList.map Char.toLower)

section Tokens

variable [Unicode]

/-- Lowercase words of `text`: split on every non-alphanumeric character, drop empties. -/
def ftsTokens (text : String) : List String :=
  ((text.toList.splitOnP (fun c => !Unicode.isAlphanumeric c)).filter (fun w => !w.isEmpty)).map
    (fun w => Unicode.toLowercase (String.ofList w))

/-- AND-of-tokens match; no tokens, or no text, never matches. -/
def textContainsAll (text : Option String) (want : List String) : Bool :=
  if want.isEmpty then
    false
  else
    match text with
    | none => false
    | some text => want.all (fun t => (ftsTokens text).contains t)

end Tokens

/-! ## `LIKE` -/

/-- The two-pointer loop of `like_match`: `pi` and `ti` index the pattern and the text, and `star`
remembers the position after the last `%` and the text index it has consumed to.

Every backtrack moves the text index of `star` forward and every other round moves `pi` forward,
so `(text length + 1) * (pattern length + 1)` rounds are enough. -/
def likeLoop (p t : List Char) : Nat → Nat → Nat → Option (Nat × Nat) → Option Nat
  | 0, _, _, _ => none
  | fuel + 1, pi, ti, star =>
      match t[ti]? with
      | none => some pi
      | some tc =>
          if (match p[pi]? with | some pc => pc == '_' || pc == tc | none => false) then
            likeLoop p t fuel (pi + 1) (ti + 1) star
          else if p[pi]? = some '%' then
            likeLoop p t fuel (pi + 1) ti (some (pi + 1, ti))
          else
            match star with
            | some (sp, st) => likeLoop p t fuel sp (st + 1) (some (sp, st + 1))
            | none => none

/-- SQL `LIKE`: the loop consumes the text, then only `%` may remain in the pattern. -/
def likeMatch (pattern text : String) : Bool :=
  let p := pattern.toList
  let t := text.toList
  match likeLoop p t ((t.length + 1) * (p.length + 1)) 0 0 none with
  | none => false
  | some pi => (p.drop pi).all (fun c => c == '%')

end Girder
