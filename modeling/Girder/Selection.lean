import Girder.Candidates
import Girder.Columns

/-!
# Selection — the rows of a segment that match a query

`matchingRows` answers a query from the columns of a segment.  Label and numeric predicates are
resolved against their columns once; a text predicate leaves the candidates of the token index; whole
blocks are skipped by their bounds; and what is left is checked row by row.

One row is checked as the query says (`rowHit_eq`), a block with a matching row is never skipped
(`blockMayMatch_of_row`), and both walks, over candidates and over blocks, keep the rows that pass, in
order (`walkCandidates_eq`, `walkBlocks_eq`).
-/

namespace Girder

open Lib

/-! ## Checks that may fail -/

namespace Res

/-- The loop that stops at the first `false`. -/
def all {α : Type} (p : α → Res Bool) : List α → Res Bool
  | [] => pure true
  | a :: l => do
      if ← p a then all p l else pure false

/-- The loop that keeps what passes. -/
def filter {α : Type} (p : α → Res Bool) : List α → Res (List α)
  | [] => pure []
  | a :: l => do
      let keep ← p a
      let more ← filter p l
      pure (if keep then a :: more else more)

theorem filter_ok {α : Type} {p : α → Res Bool} {q : α → Bool} :
    ∀ {l : List α}, (∀ a ∈ l, p a = .ok (q a)) → filter p l = .ok (l.filter q) := by
  intro l
  induction l with
  | nil => exact fun _ => rfl
  | cons a l ih =>
      intro h
      have hrest := ih fun b hb => h b (List.mem_cons_of_mem a hb)
      rw [filter, h a List.mem_cons_self, ok_bind, hrest, ok_bind, List.filter_cons]
      rfl

end Res

/-- A label predicate resolved against its column. -/
inductive LReq
  | code (codes : List Nat) (c : Nat)
  | plain (values : List (Option String)) (want : String)

def LReq.hit (lr : LReq) (i : Nat) : Res Bool :=
  match lr with
  | .code codes c => do
      let x ← Res.index codes i
      pure (decide (x = c))
  | .plain values want => do
      let v ← Res.index values i
      pure (decide (v = some want))

/-! ## Pruning blocks -/

section Block

variable {ν : Type} [Numeral ν]

/-- May the block hold a matching row?  `dictPrune` has the label codes it must hold. -/
def blockMayMatch (b : BlockMeta ν) (spec : QuerySpec ν) (dictPrune : List (String × Nat)) : Bool :=
  (match spec.time with
    | none => true
    | some (lo, hi) => !(decide (b.maxTs < lo) || decide (hi < b.minTs))) &&
  (match spec.keyPrefix with
    | none => true
    | some p => keyRangeOverlapsPrefix b.firstKey b.lastKey p) &&
  spec.numericRanges.all (fun r =>
    match b.numerics[r.1]? with
    | none => false
    | some (lo, hi) => !(Numeral.lt hi r.2.1 || Numeral.lt r.2.2 lo)) &&
  dictPrune.all (fun nc =>
    match b.labelBitsets[nc.1]? with
    | none => true
    | some bits => decide (bits &&& UInt64.ofNat (2 ^ (nc.2 - 1)) ≠ 0))

end Block

namespace SegmentColumns

variable {ν : Type}

/-- Resolve the label predicates; `none` when one of them holds of no row. -/
def resolveLabels (cols : SegmentColumns ν) :
    List (String × String) → Option (List LReq × List (String × Nat))
  | [] => some ([], [])
  | (name, val) :: rest =>
      match cols.labels[name]? with
      | none => none
      | some (.dict _ codeOf codes) =>
          match codeOf[val]? with
          | none => none
          | some c =>
              (cols.resolveLabels rest).map (fun more =>
                (.code codes c :: more.1,
                  if c ≤ blockBitsetCodes then (name, c) :: more.2 else more.2))
      | some (.plain values) =>
          (cols.resolveLabels rest).map (fun more => (.plain values val :: more.1, more.2))

/-- Resolve the numeric predicates. -/
def resolveNumerics (cols : SegmentColumns ν) :
    List (String × ν × ν) → Option (List (NumericColumn ν × ν × ν))
  | [] => some []
  | (name, lo, hi) :: rest =>
      match cols.numerics[name]? with
      | none => none
      | some nc => (cols.resolveNumerics rest).map (fun more => (nc, lo, hi) :: more)

variable [Numeral ν]

def timeHit (cols : SegmentColumns ν) (spec : QuerySpec ν) (i : Nat) : Res Bool :=
  match spec.time with
  | none => pure true
  | some (lo, hi) => do
      let t ← Res.index cols.timestamps i
      pure (!(decide (t < lo) || decide (hi < t)))

def prefixHit (cols : SegmentColumns ν) (spec : QuerySpec ν) (i : Nat) : Res Bool :=
  match spec.keyPrefix with
  | none => pure true
  | some p => do
      let key ← cols.keyAt i
      pure (startsWith key p)

def numericHit (i : Nat) (r : NumericColumn ν × ν × ν) : Res Bool := do
  let p ← Res.index r.1.present i
  if p then do
    let v ← Res.index r.1.values i
    pure (Numeral.le r.2.1 v && Numeral.le v r.2.2)
  else
    pure false

/-- Every predicate but text, at one row. -/
def rowHit (cols : SegmentColumns ν) (spec : QuerySpec ν) (lreqs : List LReq)
    (nreqs : List (NumericColumn ν × ν × ν)) (i : Nat) : Res Bool := do
  if ← cols.timeHit spec i then
    if ← cols.prefixHit spec i then
      if ← Res.all (fun lr => lr.hit i) lreqs then
        Res.all (numericHit i) nreqs
      else
        pure false
    else
      pure false
  else
    pure false

omit [Numeral ν] in
/-- The candidates inside the live blocks that pass; both lists ascend, so it is one walk. -/
def walkCandidates (hit : Nat → Res Bool) : List Nat → List (BlockMeta ν) → Res (List Nat)
  | [], _ => pure []
  | row :: rows, blocks =>
      match blocks.dropWhile (fun b => decide (b.stop.toNat ≤ row)) with
      | [] => pure []
      | b :: live =>
          if row < b.start.toNat then
            walkCandidates hit rows (b :: live)
          else do
            let keep ← hit row
            let more ← walkCandidates hit rows (b :: live)
            pure (if keep then row :: more else more)

omit [Numeral ν] in
/-- The rows of the live blocks that pass. -/
def walkBlocks (hit : Nat → Res Bool) (live : BlockMeta ν → Bool) :
    List (BlockMeta ν) → Res (List Nat)
  | [] => pure []
  | b :: blocks =>
      if live b then do
        let here ← Res.filter hit (List.range' b.start.toNat (b.stop.toNat - b.start.toNat))
        let more ← walkBlocks hit live blocks
        pure (here ++ more)
      else
        walkBlocks hit live blocks

variable [Unicode]

omit [Numeral ν] in
/-- The candidate lists of a pattern; `none` when nothing narrows. -/
def likeCandidateLists (cols : SegmentColumns ν) (pattern : String) :
    Res (Option (List (List Nat))) :=
  match cols.tokens with
  | none => pure none
  | some idx =>
      let constraints := likeConstraints pattern
      if constraints.isEmpty then
        pure none
      else do
        match ← idx.constraintLists constraints with
        | none => pure (some [[]])
        | some lists => pure (if lists.isEmpty then none else some lists)

/-- The candidate rows of the text predicates, one of which is there. -/
def candidateRows (idx : TokenIndex) (textMatch : Option String)
    (likeLists : Option (List (List Nat))) : Res (List Nat) :=
  match textMatch, likeLists with
  | some q, none => idx.rowsMatchingAll (ftsTokens q)
  | none, some lists => pure (intersectAscending lists)
  | some q, some lists =>
      if (ftsTokens q).isEmpty then
        pure []
      else do
        match ← idx.postingsOfAll (ftsTokens q) with
        | none => pure []
        | some more => pure (intersectAscending (lists ++ more))
  | none, none => throw .panic

/-- The predicates the columns resolve: all but `text_like`. -/
def rowsByColumns (cols : SegmentColumns ν) (spec : QuerySpec ν) : Res (List Nat) :=
  match cols.resolveLabels spec.labels with
  | none => pure []
  | some (lreqs, dictPrune) =>
      match cols.resolveNumerics spec.numericRanges with
      | none => pure []
      | some nreqs => do
          let likeLists ←
            match spec.textLike with
            | none => pure none
            | some pattern => cols.likeCandidateLists pattern
          let live := fun b => blockMayMatch b spec dictPrune
          if spec.textMatch.isSome || likeLists.isSome then
            match cols.tokens with
            | none => pure []
            | some idx => do
                let rows ← candidateRows idx spec.textMatch likeLists
                walkCandidates (cols.rowHit spec lreqs nreqs) rows (cols.blocks.filter live)
          else
            walkBlocks (cols.rowHit spec lreqs nreqs) live cols.blocks

variable [Deflate]

omit [Numeral ν] [Unicode] in
/-- Does the row's text match?  A row without text does not. -/
def likeHit (cols : SegmentColumns ν) (pattern : String) (file : Option Bytes) (row : Nat) :
    Res Bool := do
  match ← cols.textAt row file with
  | none => pure false
  | some text => pure (likeMatch pattern text)

/-- The rows that match the query. -/
def matchingRows (cols : SegmentColumns ν) (spec : QuerySpec ν) (file : Option Bytes) :
    Res (List Nat) :=
  match spec.textLike with
  | none => cols.rowsByColumns spec
  | some pattern =>
      if cols.texts.isNone then
        pure []
      else do
        let rows ← cols.rowsByColumns spec
        Res.filter (cols.likeHit pattern file) rows

end SegmentColumns

namespace SegmentColumns

/-! ## One row -/

section Row

variable {ν : Type} [FloatBits ν] [Numeral ν]

variable {cols : SegmentColumns ν} {records : List (Record ν)} {i : Nat} {r : Record ν}

theorem timeHit_eq (h : cols.Shows records) (spec : QuerySpec ν) (hr : records[i]? = some r) :
    cols.timeHit spec i = .ok (spec.timeOk r) := by
  have hts : Res.index cols.timestamps i = .ok r.timestamp := by
    rw [h.timestamps_eq]
    exact Res.index_of_getElem? (by simp [hr])
  unfold timeHit QuerySpec.timeOk
  cases spec.time with
  | none => rfl
  | some range =>
      simp only [hts, Res.ok_bind]
      rfl

theorem prefixHit_eq (h : cols.Shows records) (spec : QuerySpec ν) (hr : records[i]? = some r) :
    cols.prefixHit spec i = .ok (spec.prefixOk r.key) := by
  have hkey : cols.keyAt i = .ok r.key := by
    rw [keyAt, h.keys_eq]
    exact keyAt_keysSection hr
  unfold prefixHit QuerySpec.prefixOk
  cases spec.keyPrefix with
  | none => rfl
  | some p =>
      simp only [hkey, Res.ok_bind]
      rfl

/-- A numeric predicate. -/
def numericOk (r : Record ν) (range : String × ν × ν) : Bool :=
  match r.numerics[range.1]? with
  | some v => Numeral.le range.2.1 v && Numeral.le v range.2.2
  | none => false

theorem numericHit_eq (hr : records[i]? = some r) (name : String) (lo hi : ν) :
    numericHit i (numericColumn records name, lo, hi) = .ok (numericOk r (name, lo, hi)) := by
  have hpresent : Res.index (numericColumn records name).present i =
      .ok r.numerics[name]?.isSome := Res.index_of_getElem? (by simp [numericColumn, hr])
  have hvalue : Res.index (numericColumn records name).values i =
      .ok (r.numerics[name]?.getD FloatBits.nan) :=
    Res.index_of_getElem? (by simp [numericColumn, hr])
  rw [numericHit, hpresent, Res.ok_bind]
  unfold numericOk
  cases hv : r.numerics[name]? with
  | none => rfl
  | some v =>
      rw [hv] at hvalue
      simp only [Option.isSome_some, if_true, hvalue, Res.ok_bind]
      rfl

omit [FloatBits ν] in
theorem numericsOk_eq (spec : QuerySpec ν) (r : Record ν) :
    spec.numericsOk r = spec.numericRanges.all (numericOk r) := by
  unfold QuerySpec.numericsOk
  congr 1

/-- The numeric predicates, resolved. -/
theorem resolveNumerics_spec (h : cols.Shows records) :
    ∀ ranges : List (String × ν × ν),
      (cols.resolveNumerics ranges = none ∧
        ∀ r ∈ records, ranges.all (numericOk r) = false) ∨
      ∃ nreqs, cols.resolveNumerics ranges = some nreqs ∧
        ∀ (i : Nat) (r : Record ν), records[i]? = some r →
          Res.all (numericHit i) nreqs = .ok (ranges.all (numericOk r)) := by
  intro ranges
  induction ranges with
  | nil => exact Or.inr ⟨[], rfl, fun _ _ _ => rfl⟩
  | cons range ranges ih =>
      obtain ⟨name, lo, hi⟩ := range
      unfold resolveNumerics
      rw [h.numerics_eq]
      cases hcol : (numericColumns records)[name]? with
      | none =>
          -- No row has the numeric.
          refine Or.inl ⟨rfl, fun r hr => ?_⟩
          have hnone : r.numerics[name]? = none := by
            by_contra hsome
            have hmem : name ∈ numericNames records := mem_numericNames.2
              ⟨r, hr, Std.ExtTreeMap.mem_iff_isSome_getElem?.2 (Option.isSome_iff_ne_none.2 hsome)⟩
            have hget := (getElem?_named (f := numericColumn records)).2 ⟨hmem, rfl⟩
            rw [← numericColumns, hcol] at hget
            exact absurd hget (by simp)
          simp [numericOk, hnone]
      | some nc =>
          obtain ⟨-, rfl⟩ := getElem?_named.1 hcol
          rcases ih with ⟨hnone, hno⟩ | ⟨nreqs, hsome, hall⟩
          · refine Or.inl ⟨by simp [hnone], fun r hr => ?_⟩
            rw [List.all_cons, hno r hr, Bool.and_false]
          · refine Or.inr ⟨(numericColumn records name, lo, hi) :: nreqs, by simp [hsome],
              fun i r hr => ?_⟩
            rw [Res.all, numericHit_eq hr, Res.ok_bind, List.all_cons, hall i r hr]
            cases numericOk r (name, lo, hi) <;> rfl

/-- A label predicate. -/
def labelOk (r : Record ν) (kv : String × String) : Bool := decide (r.labels[kv.1]? = some kv.2)

/-- The label whose dictionary has `c` for a value that a predicate asks for. -/
def Prunes (records : List (Record ν)) (labels : List (String × String)) (nc : String × Nat) : Prop :=
  1 ≤ nc.2 ∧ nc.2 ≤ blockBitsetCodes ∧ nc.1 ∈ labelNames records ∧
    (distinctValues records nc.1).size ≤ dictMax ∧
    ∀ (r : Record ν), r ∈ records → labels.all (labelOk r) = true →
      codeAt (codesOf (distinctValues records nc.1).toList) r.labels[nc.1]? = nc.2

omit [FloatBits ν] [Numeral ν] in
theorem labelsOk_eq (spec : QuerySpec ν) (r : Record ν) :
    spec.labelsOk r = spec.labels.all (labelOk r) := rfl

omit [FloatBits ν] [Numeral ν] in
/-- A row has the code of a value exactly when it has the value. -/
theorem codeAt_eq_iff {name val : String} {j : Nat} (hr : r ∈ records)
    (hsize : (distinctValues records name).size ≤ dictMax)
    (hj : (distinctValues records name).toList[j]? = some val) :
    codeAt (codesOf (distinctValues records name).toList) r.labels[name]? = j + 1 ↔
      r.labels[name]? = some val := by
  constructor
  · intro hcode
    cases hv : r.labels[name]? with
    | none => simp [hv, codeAt] at hcode
    | some v =>
        obtain ⟨k, hk, heq⟩ := codeAt_some hr hv hsize
        rw [hv, heq] at hcode
        have hkj : k = j := by omega
        rw [hkj, hj] at hk
        exact hk.symm
  · intro hv
    obtain ⟨k, hk, heq⟩ := codeAt_some hr hv hsize
    have hkj : k = j := (List.getElem?_inj (List.getElem?_eq_some_iff.1 hk).1
      (dict_nodup _)).1 (hk.trans hj.symm)
    rw [hv, heq, hkj]

omit [FloatBits ν] [Numeral ν] in
/-- One more resolved predicate. -/
theorem all_hit_cons {kv : String × String} {labels : List (String × String)} {lr : LReq}
    {lreqs : List LReq} (hhit : lr.hit i = .ok (labelOk r kv))
    (hall : Res.all (fun lr => lr.hit i) lreqs = .ok (labels.all (labelOk r))) :
    Res.all (fun lr => lr.hit i) (lr :: lreqs) = .ok ((kv :: labels).all (labelOk r)) := by
  rw [Res.all, hhit, Res.ok_bind, List.all_cons, hall]
  cases labelOk r kv <;> rfl

/-- What label predicates come to: nothing, when no row satisfies them all, or requests that decide
each row and codes to prune by. -/
def LabelsResolve (records : List (Record ν)) (labels : List (String × String))
    (resolved : Option (List LReq × List (String × Nat))) : Prop :=
  (resolved = none ∧ ∀ r ∈ records, labels.all (labelOk r) = false) ∨
  ∃ lreqs prune, resolved = some (lreqs, prune) ∧
    (∀ (i : Nat) (r : Record ν), records[i]? = some r →
      Res.all (fun lr => lr.hit i) lreqs = .ok (labels.all (labelOk r))) ∧
    ∀ nc ∈ prune, Prunes records labels nc

omit [FloatBits ν] [Numeral ν] in
/-- Pruning by the other predicates stays good. -/
theorem Prunes.cons {labels : List (String × String)} {nc : String × Nat}
    (h : Prunes records labels nc) (kv : String × String) : Prunes records (kv :: labels) nc := by
  obtain ⟨hpos, hcode, hname, hsize, hall⟩ := h
  refine ⟨hpos, hcode, hname, hsize, fun r hr hok => hall r hr ?_⟩
  rw [List.all_cons, Bool.and_eq_true] at hok
  exact hok.2

omit [FloatBits ν] [Numeral ν] in
theorem LabelsResolve.reject {kv : String × String} {labels : List (String × String)}
    (hno : ∀ r ∈ records, labelOk r kv = false) : LabelsResolve records (kv :: labels) none := by
  refine Or.inl ⟨rfl, fun r hr => ?_⟩
  rw [List.all_cons, hno r hr, Bool.false_and]

omit [FloatBits ν] [Numeral ν] in
/-- A predicate on a column whose values are spelled out. -/
theorem LabelsResolve.plain {name val : String} {labels : List (String × String)}
    {resolved : Option (List LReq × List (String × Nat))} (h : LabelsResolve records labels resolved) :
    LabelsResolve records ((name, val) :: labels) (resolved.map (fun more =>
      (.plain (records.map (fun r => r.labels[name]?)) val :: more.1, more.2))) := by
  rcases h with ⟨rfl, hno⟩ | ⟨lreqs, prune, rfl, hall, hprune⟩
  · refine Or.inl ⟨rfl, fun r hr => ?_⟩
    rw [List.all_cons, hno r hr, Bool.and_false]
  · refine Or.inr ⟨_, _, rfl, fun i r hr => ?_, fun nc hnc => (hprune nc hnc).cons _⟩
    refine all_hit_cons ?_ (hall i r hr)
    rw [LReq.hit, Res.index_of_getElem? (by rw [List.getElem?_map, hr]; rfl), Res.ok_bind]
    rfl

omit [FloatBits ν] [Numeral ν] in
/-- A predicate on a column with a dictionary; a code within the bitsets prunes. -/
theorem LabelsResolve.code {name val : String} {labels : List (String × String)}
    {resolved : Option (List LReq × List (String × Nat))} {j : Nat}
    (h : LabelsResolve records labels resolved) (hname : name ∈ labelNames records)
    (hsize : (distinctValues records name).size ≤ dictMax)
    (hj : (distinctValues records name).toList[j]? = some val) :
    LabelsResolve records ((name, val) :: labels) (resolved.map (fun more =>
      (.code (records.map (fun r =>
          codeAt (codesOf (distinctValues records name).toList) r.labels[name]?)) (j + 1) :: more.1,
        if j + 1 ≤ blockBitsetCodes then (name, j + 1) :: more.2 else more.2))) := by
  rcases h with ⟨rfl, hno⟩ | ⟨lreqs, prune, rfl, hall, hprune⟩
  · refine Or.inl ⟨rfl, fun r hr => ?_⟩
    rw [List.all_cons, hno r hr, Bool.and_false]
  · refine Or.inr ⟨_, _, rfl, fun i r hr => ?_, fun nc hnc => ?_⟩
    · have hmem : r ∈ records := List.mem_of_getElem? hr
      refine all_hit_cons ?_ (hall i r hr)
      rw [LReq.hit, Res.index_of_getElem? (by rw [List.getElem?_map, hr]; rfl), Res.ok_bind]
      exact congrArg Except.ok (decide_eq_decide.2 (codeAt_eq_iff hmem hsize hj))
    · have hself : j + 1 ≤ blockBitsetCodes →
          Prunes records ((name, val) :: labels) (name, j + 1) := by
        refine fun hle => ⟨by simp, hle, hname, hsize, fun r hr hok => ?_⟩
        rw [List.all_cons, Bool.and_eq_true] at hok
        exact (codeAt_eq_iff hr hsize hj).2 (of_decide_eq_true hok.1)
      simp only at hnc
      split at hnc
      · rename_i hle
        rcases List.mem_cons.1 hnc with rfl | hnc
        · exact hself hle
        · exact (hprune nc hnc).cons _
      · exact (hprune nc hnc).cons _

/-- The label predicates, resolved. -/
theorem resolveLabels_spec (h : cols.Shows records) :
    ∀ labels : List (String × String), LabelsResolve records labels (cols.resolveLabels labels) := by
  intro labels
  induction labels with
  | nil => exact Or.inr ⟨[], [], rfl, fun _ _ _ => rfl, by simp⟩
  | cons kv labels ih =>
      obtain ⟨name, val⟩ := kv
      unfold resolveLabels
      rw [h.labels_eq, labelColumns_eq]
      cases hcol : (OrdMap.ofPairs ((labelNames records).toList.map
          (fun n => (n, labelColumn records (planLabel records n)))))[name]? with
      | none =>
          -- No row has the label.
          refine LabelsResolve.reject (fun r hr => decide_eq_false fun hv => ?_)
          have hmem : name ∈ labelNames records := mem_labelNames.2
            ⟨r, hr, Std.ExtTreeMap.mem_iff_isSome_getElem?.2 (by rw [hv]; rfl)⟩
          rw [(getElem?_named (f := fun n => labelColumn records (planLabel records n))).2
            ⟨hmem, rfl⟩] at hcol
          exact absurd hcol (by simp)
      | some col =>
          obtain ⟨hname, rfl⟩ := getElem?_named.1 hcol
          by_cases hsize : (distinctValues records name).size ≤ dictMax
          · rw [planLabel_dict hsize]
            simp only [labelColumn]
            have hlen : (distinctValues records name).toList.length ≤ dictMax := by
              rwa [Std.ExtTreeSet.length_toList]
            cases hcode : (codesOf (distinctValues records name).toList)[val]? with
            | none =>
                -- No row has the value.
                refine LabelsResolve.reject (fun r hr => decide_eq_false fun hv => ?_)
                obtain ⟨j, hj, -⟩ := codeAt_some hr hv hsize
                rw [(getElem?_codesOf (dict_nodup _) hlen).2 ⟨j, hj, rfl⟩] at hcode
                exact absurd hcode (by simp)
            | some c =>
                obtain ⟨j, hj, rfl⟩ := (getElem?_codesOf (dict_nodup _) hlen).1 hcode
                exact ih.code hname hsize hj
          · rw [planLabel_plain hsize]
            exact ih.plain

/-- One row, against every predicate but text. -/
theorem rowHit_eq (h : cols.Shows records) {spec : QuerySpec ν} {lreqs : List LReq}
    {nreqs : List (NumericColumn ν × ν × ν)} (hr : records[i]? = some r)
    (hlabels : Res.all (fun lr => lr.hit i) lreqs = .ok (spec.labels.all (labelOk r)))
    (hnumerics : Res.all (numericHit i) nreqs = .ok (spec.numericRanges.all (numericOk r))) :
    cols.rowHit spec lreqs nreqs i = .ok (spec.matchesFields r) := by
  rw [rowHit, timeHit_eq h spec hr, Res.ok_bind, QuerySpec.matchesFields, labelsOk_eq,
    numericsOk_eq]
  cases spec.timeOk r with
  | false => rfl
  | true =>
      rw [if_pos rfl, prefixHit_eq h spec hr, Res.ok_bind]
      cases spec.prefixOk r.key with
      | false => rfl
      | true =>
          rw [if_pos rfl, hlabels, Res.ok_bind]
          cases spec.labels.all (labelOk r) with
          | false => rfl
          | true => exact hnumerics

end Row

end SegmentColumns

/-! ## What a block's bounds say -/

section Bounds

variable {ν : Type} {records : List (Record ν)} {r : Record ν} {s e i : Nat}

/-- A row of a block. -/
theorem mem_blockRows (hr : records[i]? = some r) (hs : s ≤ i) (he : i < e) :
    r ∈ (records.drop s).take (e - s) := by
  refine List.mem_iff_getElem?.2 ⟨i - s, ?_⟩
  rw [List.getElem?_take_of_lt (by omega), List.getElem?_drop, Nat.add_sub_cancel' hs, hr]

theorem foldl_min_le {rows : List (Record ν)} (hr : r ∈ rows) :
    ∀ ts : Int64, rows.foldl (fun ts r => min ts r.timestamp) ts ≤ r.timestamp := by
  have hacc : ∀ (rows : List (Record ν)) (ts : Int64),
      rows.foldl (fun ts r => min ts r.timestamp) ts ≤ ts := by
    intro rows
    induction rows with
    | nil => exact fun ts => le_refl ts
    | cons q rows ih => exact fun ts => (ih _).trans (min_le_left _ _)
  induction rows with
  | nil => exact absurd hr List.not_mem_nil
  | cons q rows ih =>
      intro ts
      rcases List.mem_cons.1 hr with rfl | hr
      · exact (hacc rows _).trans (min_le_right _ _)
      · exact ih hr _

theorem le_foldl_max {rows : List (Record ν)} (hr : r ∈ rows) :
    ∀ ts : Int64, r.timestamp ≤ rows.foldl (fun ts r => max ts r.timestamp) ts := by
  have hacc : ∀ (rows : List (Record ν)) (ts : Int64),
      ts ≤ rows.foldl (fun ts r => max ts r.timestamp) ts := by
    intro rows
    induction rows with
    | nil => exact fun ts => le_refl ts
    | cons q rows ih => exact fun ts => (le_max_left _ _).trans (ih _)
  induction rows with
  | nil => exact absurd hr List.not_mem_nil
  | cons q rows ih =>
      intro ts
      rcases List.mem_cons.1 hr with rfl | hr
      · exact (le_max_right _ _).trans (hacc rows _)
      · exact ih hr _

/-- The bounds hold the numerics of a row. -/
def NumericsWithin [Numeral ν] (bounds : OrdMap String (ν × ν)) (r : Record ν) : Prop :=
  ∀ (n : String) (v : ν), r.numerics[n]? = some v → ∃ lo hi, bounds[n]? = some (lo, hi) ∧
    (∀ b, Numeral.le v b = true → Numeral.le lo b = true) ∧
    (∀ b, Numeral.le b v = true → Numeral.le b hi = true)

variable [FloatBits ν] [Numeral ν] [LawfulNumeral ν]

/-- A row just added is within the bounds. -/
theorem numericsWithin_self (bounds : OrdMap String (ν × ν)) (r : Record ν) :
    NumericsWithin (r.numerics.toList.foldl (OrdMap.update addBlockNumeric) bounds) r := by
  intro n v hv
  have hget := OrdMap.getElem?_foldl_toList_update addBlockNumeric r.numerics bounds n
  simp only [hv] at hget
  exact ⟨_, _, hget, fun b hb => LawfulNumeral.fmin_le_right _ hb,
    fun b hb => LawfulNumeral.le_fmax_right _ hb⟩

/-- Adding another row keeps it there. -/
theorem NumericsWithin.add {bounds : OrdMap String (ν × ν)} (h : NumericsWithin bounds r)
    (q : Record ν) :
    NumericsWithin (q.numerics.toList.foldl (OrdMap.update addBlockNumeric) bounds) r := by
  intro n v hv
  obtain ⟨lo, hi, hb, hlo, hhi⟩ := h n v hv
  have hget := OrdMap.getElem?_foldl_toList_update addBlockNumeric q.numerics bounds n
  cases hq : q.numerics[n]? with
  | none =>
      simp only [hq] at hget
      exact ⟨lo, hi, hget.trans hb, hlo, hhi⟩
  | some w =>
      simp only [hq, hb] at hget
      exact ⟨_, _, hget, fun b hb => LawfulNumeral.fmin_le_left _ (hlo b hb),
        fun b hb => LawfulNumeral.le_fmax_left _ (hhi b hb)⟩

theorem numericsWithin_foldl {rows : List (Record ν)} (hr : r ∈ rows) :
    ∀ bounds : OrdMap String (ν × ν), NumericsWithin
      (rows.foldl (fun bounds r => r.numerics.toList.foldl (OrdMap.update addBlockNumeric) bounds)
        bounds) r := by
  have hkeep : ∀ (rows : List (Record ν)) (bounds : OrdMap String (ν × ν)),
      NumericsWithin bounds r → NumericsWithin (rows.foldl
        (fun bounds r => r.numerics.toList.foldl (OrdMap.update addBlockNumeric) bounds) bounds)
        r := by
    intro rows
    induction rows with
    | nil => exact fun _ h => h
    | cons q rows ih => exact fun bounds h => ih _ (h.add q)
  induction rows with
  | nil => exact absurd hr List.not_mem_nil
  | cons q rows ih =>
      intro bounds
      rcases List.mem_cons.1 hr with rfl | hr
      · exact hkeep rows _ (numericsWithin_self bounds r)
      · exact ih hr _

end Bounds

/-! ## Label bitsets -/

section Bitsets

/-- A set bit survives the mask. -/
theorem and_two_pow_ne_zero {bits : UInt64} {k : Nat} (hk : k < 64)
    (h : bits.toNat.testBit k = true) : bits &&& UInt64.ofNat (2 ^ k) ≠ 0 := by
  intro hzero
  have hpow : 2 ^ k < 2 ^ 64 := Nat.pow_lt_pow_right (by decide) hk
  have hnat := congrArg UInt64.toNat hzero
  rw [UInt64.toNat_and, UInt64.toNat_ofNat_of_lt' hpow, Nat.and_two_pow, h] at hnat
  have hpos : 0 < 2 ^ k := Nat.two_pow_pos k
  simp at hnat

/-- One more code in a bitset. -/
theorem testBit_addCode (bits : UInt64) (c k : Nat) (hk : k < 64) :
    ((if 1 ≤ c ∧ c ≤ blockBitsetCodes then bits ||| UInt64.ofNat (2 ^ (c - 1)) else bits)
      ).toNat.testBit k = (bits.toNat.testBit k || decide (c = k + 1)) := by
  split
  · rename_i hc
    have hle : c ≤ 64 := hc.2
    have hpow : 2 ^ (c - 1) < 2 ^ 64 := Nat.pow_lt_pow_right (by decide) (by omega)
    rw [UInt64.toNat_or, UInt64.toNat_ofNat_of_lt' hpow, Nat.testBit_or, Nat.testBit_two_pow]
    congr 1
    exact decide_eq_decide.2 (by omega)
  · rename_i hc
    have hne : ¬ c = k + 1 := by
      rintro rfl
      exact hc ⟨by omega, by show k + 1 ≤ 64; omega⟩
    rw [decide_eq_false hne, Bool.or_false]

/-- The bit of a code that is there is set. -/
theorem testBit_codeBits {codes : List Nat} {c : Nat} (hc : c ∈ codes) (h1 : 1 ≤ c)
    (h64 : c ≤ blockBitsetCodes) : (codeBits codes).toNat.testBit (c - 1) = true := by
  have hk : c - 1 < 64 := by
    have hle : c ≤ 64 := h64
    omega
  have hloop : ∀ (codes : List Nat) (bits : UInt64),
      bits.toNat.testBit (c - 1) = true ∨ c ∈ codes →
      (codes.foldl (fun bits c =>
        if 1 ≤ c ∧ c ≤ blockBitsetCodes then bits ||| UInt64.ofNat (2 ^ (c - 1)) else bits)
        bits).toNat.testBit (c - 1) = true := by
    intro codes
    induction codes with
    | nil => exact fun bits h => h.resolve_right List.not_mem_nil
    | cons d codes ih =>
        intro bits h
        refine ih _ ?_
        rw [testBit_addCode bits d (c - 1) hk]
        rcases h with hset | hmem
        · exact Or.inl (by rw [hset, Bool.true_or])
        · rcases List.mem_cons.1 hmem with rfl | hmem
          · refine Or.inl ?_
            rw [decide_eq_true (by omega : c = c - 1 + 1), Bool.or_true]
          · exact Or.inr hmem
  exact hloop codes 0 (Or.inr hc)

/-- What is filed under a label comes from the label's own plan. -/
theorem of_getElem?_plans {ν α : Type} {records : List (Record ν)} {name : String} {a : α}
    {entry : LabelPlan → Option (String × α)}
    (hentry : ∀ (plan : LabelPlan) (p : String × α), entry plan = some p → p.1 = plan.name)
    (h : (OrdMap.ofPairs ((planLabels records).filterMap entry))[name]? = some a) :
    entry (planLabel records name) = some (name, a) := by
  have hnames : (planLabels records).Pairwise (fun p q => p.name ≠ q.name) :=
    List.pairwise_map.2 (dict_nodup (labelNames records))
  have hdistinct : ((planLabels records).filterMap entry).Pairwise (fun a b => a.1 ≠ b.1) := by
    refine List.pairwise_filterMap.2 (hnames.imp ?_)
    intro p q hpq a ha b hb
    rwa [hentry p a ha, hentry q b hb]
  rw [OrdMap.getElem?_ofPairs hdistinct, List.mem_filterMap] at h
  obtain ⟨plan, hplan, heq⟩ := h
  obtain ⟨n, -, rfl⟩ := List.mem_map.1 hplan
  have hn : name = n := hentry _ _ heq
  rwa [hn] at heq ⊢

/-- The bitset of a label is that of the codes of the block's rows. -/
theorem getElem?_blockBitsets {ν : Type} {records : List (Record ν)} {s e : Nat} {name : String}
    {bits : UInt64} (h : (blockBitsets (planLabels records) s e)[name]? = some bits)
    (hsize : (distinctValues records name).size ≤ dictMax) :
    bits = codeBits (((records.map (fun r =>
      codeAt (codesOf (distinctValues records name).toList) r.labels[name]?)).drop s).take
        (e - s)) := by
  have hplan := of_getElem?_plans (fun plan p hp => ?_) h
  · rw [planLabel_dict hsize] at hplan
    simp only at hplan
    split at hplan
    · exact (Prod.mk.inj (Option.some.inj hplan)).2.symm
    · exact absurd hplan (by simp)
  · split at hp
    · split at hp
      · obtain rfl := Option.some.inj hp
        rfl
      · exact absurd hp (by simp)
    · exact absurd hp (by simp)

end Bitsets

/-! ## No matching row is in a dead block -/

section Live

variable {ν : Type} [FloatBits ν] [Numeral ν]

/-- The keys ascend. -/
def KeysAscend (records : List (Record ν)) : Prop :=
  records.Pairwise (fun a b => a.key < b.key)

omit [FloatBits ν] [Numeral ν] in
theorem KeysAscend.key_le {records : List (Record ν)} (h : KeysAscend records) {i j : Nat}
    {q r : Record ν} (hq : records[i]? = some q) (hr : records[j]? = some r) (hij : i ≤ j) :
    q.key ≤ r.key := by
  obtain ⟨hi, rfl⟩ := List.getElem?_eq_some_iff.1 hq
  obtain ⟨hj, rfl⟩ := List.getElem?_eq_some_iff.1 hr
  rcases hij.lt_or_eq with hlt | rfl
  · exact (List.pairwise_iff_getElem.1 h i j hi hj hlt).le
  · exact le_rfl

variable {records : List (Record ν)} {r : Record ν} {s e i : Nat}

/-- A block with a matching row stays in play. -/
theorem blockMayMatch_of_row [LawfulNumeral ν] (hsorted : KeysAscend records)
    (hr : records[i]? = some r) (hs : s ≤ i) (he : i < e) (hlen : e ≤ records.length)
    {spec : QuerySpec ν} (hm : spec.matchesFields r = true) {prune : List (String × Nat)}
    (hprune : ∀ nc ∈ prune, SegmentColumns.Prunes records spec.labels nc) :
    blockMayMatch (blockMeta records (planLabels records) s e) spec prune = true := by
  have hrow : r ∈ (records.drop s).take (e - s) := mem_blockRows hr hs he
  simp only [QuerySpec.matchesFields, Bool.and_eq_true] at hm
  obtain ⟨⟨⟨htime, hpre⟩, hlabels⟩, hnums⟩ := hm
  simp only [blockMayMatch, blockMeta, Bool.and_eq_true]
  refine ⟨⟨⟨?_, ?_⟩, ?_⟩, ?_⟩
  · unfold QuerySpec.timeOk at htime
    cases ht : spec.time with
    | none => rfl
    | some range =>
        obtain ⟨lo, hi⟩ := range
        simp only [ht, Bool.not_eq_true', Bool.or_eq_false_iff, decide_eq_false_iff_not,
          not_lt] at htime ⊢
        exact ⟨decide_eq_false (not_lt.2 (htime.1.trans (le_foldl_max hrow _))),
          decide_eq_false (not_lt.2 ((foldl_min_le hrow _).trans htime.2))⟩
  · unfold QuerySpec.prefixOk at hpre
    cases hp : spec.keyPrefix with
    | none => rfl
    | some p =>
        rw [hp] at hpre
        have hfirst : records[s]? = some records[s] := List.getElem?_eq_getElem (by omega)
        have hlast : records[e - 1]? = some records[e - 1] := List.getElem?_eq_getElem (by omega)
        simp only [hfirst, hlast, Option.map_some, Option.getD_some]
        exact ZoneMap.keyRangeOverlapsPrefix_of_mem (hsorted.key_le hfirst hr hs)
          (hsorted.key_le hr hlast (by omega)) hpre
  · unfold QuerySpec.numericsOk at hnums
    rw [List.all_eq_true] at hnums ⊢
    intro range hrange
    have hval := hnums range hrange
    cases hv : r.numerics[range.1]? with
    | none => simp [hv] at hval
    | some v =>
        simp only [hv, Bool.and_eq_true] at hval
        obtain ⟨lo, hi, hb, hlo, hhi⟩ := numericsWithin_foldl hrow ∅ range.1 v hv
        have h1 := LawfulNumeral.not_lt_of_le (hhi _ hval.1)
        have h2 := LawfulNumeral.not_lt_of_le (hlo _ hval.2)
        simp [hb, h1, h2]
  · rw [List.all_eq_true]
    intro nc hnc
    obtain ⟨h1, h64, -, hsize, hcode⟩ := hprune nc hnc
    cases hbits : (blockBitsets (planLabels records) s e)[nc.1]? with
    | none => rfl
    | some bits =>
        -- The row's code is among those the bitset was made of.
        have hmem : nc.2 ∈ ((records.map (fun r =>
            codeAt (codesOf (distinctValues records nc.1).toList) r.labels[nc.1]?)).drop s).take
              (e - s) := by
          rw [← hcode r (List.mem_of_getElem? hr) hlabels, ← List.map_drop, ← List.map_take]
          exact List.mem_map_of_mem hrow
        have hbit := testBit_codeBits hmem h1 h64
        rw [← getElem?_blockBitsets hbits hsize] at hbit
        have hlt : nc.2 - 1 < 64 := by
          have hle : nc.2 ≤ 64 := h64
          omega
        exact decide_eq_true (and_two_pow_ne_zero hlt hbit)

end Live

/-! ## The walks -/

section Walks

variable {ν : Type}

/-- The row is in the block. -/
def BlockMeta.Holds (b : BlockMeta ν) (row : Nat) : Prop :=
  b.start.toNat ≤ row ∧ row < b.stop.toNat

/-- Dropping the blocks that end at or before a row keeps those that hold it or a later row. -/
theorem mem_dropWhile_of_holds {blocks : List (BlockMeta ν)} {b : BlockMeta ν} {row later : Nat}
    (hb : b ∈ blocks) (hholds : b.Holds later) (hle : row ≤ later) :
    b ∈ blocks.dropWhile (fun b => decide (b.stop.toNat ≤ row)) := by
  rw [← List.takeWhile_append_dropWhile (p := fun b => decide (b.stop.toNat ≤ row)) (l := blocks)]
    at hb
  refine (List.mem_append.1 hb).resolve_left fun hdropped => ?_
  have hstop : b.stop.toNat ≤ row := by simpa using List.mem_takeWhile_imp hdropped
  have hlater := hholds.2
  omega

/-- One walk over ascending candidates and blocks keeps the candidates that pass, when each of them
is in some block. -/
theorem walkCandidates_eq {hit : Nat → Res Bool} {p : Nat → Bool} :
    ∀ (rows : List Nat) (blocks : List (BlockMeta ν)), rows.Pairwise (· < ·) →
      blocks.Pairwise (fun b c => b.stop.toNat ≤ c.start.toNat) →
      (∀ row ∈ rows, hit row = .ok (p row)) →
      (∀ row ∈ rows, p row = true → ∃ b ∈ blocks, b.Holds row) →
      SegmentColumns.walkCandidates hit rows blocks = .ok (rows.filter p) := by
  intro rows
  induction rows with
  | nil => exact fun _ _ _ _ _ => rfl
  | cons row rows ih =>
      intro blocks hrows hblocks hhit hin
      obtain ⟨hhead, htail⟩ := List.pairwise_cons.1 hrows
      -- The blocks that are left serve this row and all later ones.
      have hkept : ∀ later ∈ row :: rows, p later = true →
          ∃ b ∈ blocks.dropWhile (fun b => decide (b.stop.toNat ≤ row)), b.Holds later := by
        intro later hlater hp
        obtain ⟨b, hb, hholds⟩ := hin later hlater hp
        refine ⟨b, mem_dropWhile_of_holds hb hholds ?_, hholds⟩
        rcases List.mem_cons.1 hlater with rfl | hlater
        · exact le_rfl
        · exact (hhead later hlater).le
      have hlive := hblocks.sublist
        (List.dropWhile_sublist (fun b => decide (b.stop.toNat ≤ row)) (l := blocks))
      have hmore : SegmentColumns.walkCandidates hit rows
          (blocks.dropWhile (fun b => decide (b.stop.toNat ≤ row))) = .ok (rows.filter p) :=
        ih _ htail hlive (fun later hlater => hhit later (List.mem_cons_of_mem row hlater))
          (fun later hlater => hkept later (List.mem_cons_of_mem row hlater))
      unfold SegmentColumns.walkCandidates
      cases hdrop : blocks.dropWhile (fun b => decide (b.stop.toNat ≤ row)) with
      | nil =>
          -- No block is left, so nothing passes.
          have hnone : (row :: rows).filter p = [] := by
            refine List.filter_eq_nil_iff.2 fun later hlater hp => ?_
            obtain ⟨b, hb, -⟩ := hkept later hlater hp
            rw [hdrop] at hb
            exact absurd hb List.not_mem_nil
          rw [hnone]
          rfl
      | cons b live =>
          rw [hdrop] at hmore hlive
          simp only
          by_cases hstart : row < b.start.toNat
          · -- The row is in a dead block.
            have hrow : p row = false := by
              by_contra hp
              obtain ⟨c, hc, hholds⟩ := hkept row List.mem_cons_self (by simpa using hp)
              have hstop : row < b.stop.toNat := by
                have hnot := List.head_dropWhile_not (p := fun b => decide (b.stop.toNat ≤ row))
                  (l := blocks) (by simp [hdrop])
                simpa [hdrop] using hnot
              rw [hdrop] at hc
              have hle := hholds.1
              rcases List.mem_cons.1 hc with rfl | hc
              · omega
              · have := (List.pairwise_cons.1 hlive).1 c hc
                omega
            rw [if_pos hstart, hmore, List.filter_cons, hrow]
            rfl
          · rw [if_neg hstart, hhit row List.mem_cons_self, Res.ok_bind, hmore, Res.ok_bind,
              List.filter_cons]
            rfl

variable [FloatBits ν] [Numeral ν] {records : List (Record ν)} {plans : List LabelPlan}

/-- Every block is the entry of some rows. -/
theorem mem_blocksFrom {b : BlockMeta ν} :
    ∀ {fuel s : Nat}, b ∈ blocksFrom records plans fuel s →
      ∃ s' e, s ≤ s' ∧ s' < e ∧ e ≤ records.length ∧ b = blockMeta records plans s' e := by
  intro fuel
  induction fuel with
  | zero => exact fun hb => absurd hb List.not_mem_nil
  | succ fuel ih =>
      intro s hb
      unfold blocksFrom at hb
      split at hb
      · rename_i hs
        have hstep : s < min (s + blockRows) records.length := by
          unfold blockRows
          omega
        rcases List.mem_cons.1 hb with rfl | hb
        · exact ⟨s, _, le_rfl, hstep, Nat.min_le_right _ _, rfl⟩
        · obtain ⟨s', e, hs', hrest⟩ := ih hb
          exact ⟨s', e, hstep.le.trans hs', hrest⟩
      · exact absurd hb List.not_mem_nil

theorem blockMeta_start {s e : Nat} (hlen : records.length < 2 ^ 32) (hs : s ≤ records.length) :
    (blockMeta records plans s e).start.toNat = s :=
  UInt32.toNat_ofNat_of_lt' (lt_of_le_of_lt hs hlen)

theorem blockMeta_stop {s e : Nat} (hlen : records.length < 2 ^ 32) (he : e ≤ records.length) :
    (blockMeta records plans s e).stop.toNat = e :=
  UInt32.toNat_ofNat_of_lt' (lt_of_le_of_lt he hlen)

/-- The blocks follow one another. -/
theorem blocksFrom_ascend (hlen : records.length < 2 ^ 32) :
    ∀ fuel s : Nat, (blocksFrom records plans fuel s).Pairwise
      (fun b c => b.stop.toNat ≤ c.start.toNat) := by
  intro fuel
  induction fuel with
  | zero => exact fun _ => List.Pairwise.nil
  | succ fuel ih =>
      intro s
      unfold blocksFrom
      split
      · refine List.pairwise_cons.2 ⟨fun c hc => ?_, ih _⟩
        obtain ⟨s', e, hs', hlt, he, rfl⟩ := mem_blocksFrom hc
        rw [blockMeta_stop hlen (Nat.min_le_right _ _), blockMeta_start hlen (by omega)]
        exact hs'
      · exact List.Pairwise.nil

/-- Every row from `s` on is in some block. -/
theorem exists_blocksFrom :
    ∀ {fuel s i : Nat}, records.length ≤ s + fuel → s ≤ i → i < records.length →
      ∃ s' e, blockMeta records plans s' e ∈ blocksFrom records plans fuel s ∧ s' ≤ i ∧ i < e ∧
        e ≤ records.length := by
  intro fuel
  induction fuel with
  | zero =>
      intro s i hfuel hs hi
      omega
  | succ fuel ih =>
      intro s i hfuel hs hi
      have hstep : s < min (s + blockRows) records.length := by
        unfold blockRows
        omega
      unfold blocksFrom
      rw [if_pos (by omega)]
      by_cases he : i < min (s + blockRows) records.length
      · exact ⟨s, _, List.mem_cons_self, hs, he, Nat.min_le_right _ _⟩
      · obtain ⟨s', e, hmem, hrest⟩ := ih (by omega) (not_lt.1 he) hi
        exact ⟨s', e, List.mem_cons_of_mem _ hmem, hrest⟩

/-- The walk over the blocks keeps the rows that pass, when no block with such a row is dead. -/
theorem walkBlocks_eq (hlen : records.length < 2 ^ 32) {hit : Nat → Res Bool} {p : Nat → Bool}
    {live : BlockMeta ν → Bool} (hhit : ∀ i < records.length, hit i = .ok (p i))
    (hlive : ∀ s e i : Nat, s ≤ i → i < e → e ≤ records.length → p i = true →
      live (blockMeta records plans s e) = true) :
    ∀ fuel s : Nat, records.length ≤ s + fuel →
      SegmentColumns.walkBlocks hit live (blocksFrom records plans fuel s) =
        .ok ((List.range' s (records.length - s)).filter p) := by
  intro fuel
  induction fuel with
  | zero =>
      intro s hfuel
      rw [Nat.sub_eq_zero_of_le (by omega)]
      rfl
  | succ fuel ih =>
      intro s hfuel
      unfold blocksFrom
      split
      · rename_i hs
        simp only
        have hstep : s < min (s + blockRows) records.length := by
          unfold blockRows
          omega
        have hmin : min (s + blockRows) records.length ≤ records.length := Nat.min_le_right _ _
        generalize min (s + blockRows) records.length = e at hstep hmin
        have hmore := ih e (by omega)
        -- The rows of the block, then the rest.
        have hsplit : List.range' s (records.length - s) =
            List.range' s (e - s) ++ List.range' e (records.length - e) := by
          have happend : List.range' s (e - s) ++ List.range' (s + (e - s)) (records.length - e) =
              List.range' s (e - s + (records.length - e)) := List.range'_append_1
          rw [Nat.add_sub_cancel' hstep.le] at happend
          rw [happend]
          congr 1
          omega
        rw [hsplit, List.filter_append, SegmentColumns.walkBlocks, hmore]
        split
        · have hhere : Res.filter hit (List.range' s (e - s)) =
              .ok ((List.range' s (e - s)).filter p) := by
            refine Res.filter_ok fun i hi => hhit i ?_
            have := List.mem_range'_1.1 hi
            omega
          rw [blockMeta_start hlen hs.le, blockMeta_stop hlen hmin, hhere, Res.ok_bind, Res.ok_bind]
          rfl
        · rename_i hdead
          have hnone : (List.range' s (e - s)).filter p = [] := by
            refine List.filter_eq_nil_iff.2 fun i hi hp => hdead ?_
            have hrange := List.mem_range'_1.1 hi
            exact hlive s e i hrange.1 (by omega) hmin hp
          rw [hnone, List.nil_append]
      · rename_i hs
        rw [Nat.sub_eq_zero_of_le (not_lt.1 hs)]
        rfl

end Walks

end Girder
