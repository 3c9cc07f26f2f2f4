import Mathlib.Data.Prod.Lex
import Girder.Lib.TopK
import Girder.Engine

/-!
# Order — how scan results are ranked

Every scan order ranks a record by a direction-adjusted primary key and then by ascending record
key.  Smaller ranks come first; a missing or not-a-number ordered value goes last whatever the
direction.
-/

namespace Girder

open Lib

/-- Primary sort key: class first, then the direction-adjusted value. -/
abbrev Prim := ℕ ×ₗ ℤ

section Rank

variable {ν : Type} [Numeral ν]

/-- The primary key of a numeric order; `sign` is the direction. -/
def numericPrim (sign : Int) (num : Option ν) : Prim :=
  match num with
  | some v => if Numeral.isNan v then toLex (1, 0) else toLex (0, sign * Numeral.ordered v)
  | none => toLex (1, 0)

/-- The primary key of one record's timestamp and ordered numeric. -/
def makePrim (order : OrderBy) (ts : Int64) (num : Option ν) : Prim :=
  match order with
  | .timestampAsc => toLex (0, ts.toInt)
  | .timestampDesc => toLex (0, -ts.toInt)
  | .numericAsc _ => numericPrim 1 num
  | .numericDesc _ => numericPrim (-1) num

def recordPrim (order : OrderBy) (r : Record ν) : Prim :=
  makePrim order r.timestamp
    (match order with
    | .numericAsc n => r.numerics[n]?
    | .numericDesc n => r.numerics[n]?
    | _ => none)

/-- The total order of the results: primary key, then record key.  No order means newest first. -/
def recordRank (order : Option OrderBy) (r : Record ν) : Prim ×ₗ String :=
  toLex (recordPrim (order.getD .timestampDesc) r, r.key)

end Rank

/-! ## Heap candidates -/

/-- Where a heap candidate's data lives: payload and text of a segment row are read at the end. -/
inductive CandSrc (ν : Type)
  | mem (record : Record ν)
  | seg (row : Record ν)

namespace CandSrc

variable {ν : Type}

def record : CandSrc ν → Record ν
  | mem r => r
  | seg r => r

/-- The record a surviving candidate is returned as. -/
def drain (wantText : Bool) : CandSrc ν → Record ν
  | mem r => r
  | seg r => Segment.materialize wantText r

end CandSrc

/-- One kept candidate. -/
structure HeapItem (ν : Type) where
  prim : Prim
  key : String
  src : CandSrc ν

namespace HeapItem

variable {ν : Type}

/-- The heap orders its items by primary key, then record key. -/
def rank (item : HeapItem ν) : Prim ×ₗ String := toLex (item.prim, item.key)

def timestamp (item : HeapItem ν) : Int64 := item.src.record.timestamp

def ofSrc [Numeral ν] (order : OrderBy) (src : CandSrc ν) : HeapItem ν where
  prim := recordPrim order src.record
  key := src.record.key
  src := src

end HeapItem

section Lemmas

variable {ν : Type} [Numeral ν]

@[simp]
theorem rank_ofSrc (order : OrderBy) (src : CandSrc ν) :
    (HeapItem.ofSrc order src).rank = recordRank (some order) src.record := rfl

theorem recordRank_key_inj {order : Option OrderBy} {a b : Record ν}
    (h : recordRank order a = recordRank order b) : a.key = b.key := by
  have h' := congrArg (fun x => (ofLex x).2) h
  exact h'

/-- Records with distinct keys have distinct ranks. -/
theorem nodup_map_recordRank {order : Option OrderBy} {l : List (Record ν)}
    (h : (l.map Record.key).Nodup) : (l.map (recordRank order)).Nodup := by
  rw [List.Nodup, List.pairwise_map] at h ⊢
  exact h.imp (fun hne heq => hne (recordRank_key_inj heq))

@[simp]
theorem recordRank_text (order : Option OrderBy) (r : Record ν) (t : Option String) :
    recordRank order { r with text := t } = recordRank order r := by
  cases order with
  | none => rfl
  | some o => cases o <;> rfl

/-- Under the newest-first order, an older record ranks after. -/
theorem rank_le_of_timestamp_lt {a b : Record ν} (h : b.timestamp < a.timestamp) :
    recordRank (some .timestampDesc) a ≤ recordRank (some .timestampDesc) b := by
  have hint : b.timestamp.toInt < a.timestamp.toInt := Int64.lt_iff_toInt_lt.1 h
  refine le_of_lt (Prod.Lex.toLex_lt_toLex.2 (Or.inl (Prod.Lex.toLex_lt_toLex.2 (Or.inr ?_))))
  exact ⟨rfl, by simpa using hint⟩

end Lemmas

end Girder
