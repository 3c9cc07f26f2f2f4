import Girder.Lib.Lists
import Girder.Lib.Sorting
import Girder.Record

/-!
# MemTable — the in-memory write buffer

A memtable keeps the newest version of each key, the token map of the texts, and two summaries of
the increments it holds (a count and a conservative key range).  All of them are updated together
by `insert`.

`Consistent` says how the parts fit; `insert_consistent` and `insertDelta_consistent` show that
every write keeps it, and `mem_textCandidates` what the token map then answers.
-/

namespace Girder

open Lib

/-- A set of strings. -/
abbrev StrSet := Std.ExtTreeSet String compare

/-- Newest-wins records plus the token map for `text_match`. -/
structure MemTable (ν : Type) where
  records : OrdMap String (Record ν) := ∅
  /-- token → keys of records whose text contains it -/
  tokenKeys : OrdMap String StrSet := ∅
  /-- key → the distinct tokens of its text -/
  keyTokens : OrdMap String (List String) := ∅
  deltaKeys : Nat := 0
  /-- Key range of every increment inserted so far; never shrunk. -/
  deltaKeyRange : Option (String × String) := none

/-- The sorted distinct tokens of a text (`sort_unstable` then `dedup`). -/
def distinctTokens [Unicode] (text : String) : List String :=
  (sortAsc id (ftsTokens text)).destutter (· ≠ ·)

/-- The token list a record contributes; empty without text. -/
def Record.tokens [Unicode] {ν : Type} (r : Record ν) : List String :=
  match r.text with
  | none => []
  | some text => distinctTokens text

namespace MemTable

variable {ν : Type}

/-- Remove `key` from the key set of one token, dropping the set when it empties. -/
def removeTokenKey (key : String) (tk : OrdMap String StrSet) (t : String) : OrdMap String StrSet :=
  match tk[t]? with
  | none => tk
  | some keys =>
      let keys := keys.erase key
      if keys.isEmpty then tk.erase t else tk.insert t keys

def addTokenKey (key : String) (tk : OrdMap String StrSet) (t : String) : OrdMap String StrSet :=
  tk.insert t ((tk[t]?.getD ∅).insert key)

/-- Newest-wins upsert, keeping the token map consistent. -/
def insert [Unicode] (m : MemTable ν) (record : Record ν) : MemTable ν :=
  let key := record.key
  let deltaKeys :=
    match m.records[key]? with
    | some old => if old.isDelta then m.deltaKeys - 1 else m.deltaKeys
    | none => m.deltaKeys
  let oldTokens := m.keyTokens[key]?.getD []
  let newTokens := record.tokens
  { records := m.records.insert key record
    tokenKeys :=
      newTokens.foldl (addTokenKey key) (oldTokens.foldl (removeTokenKey key) m.tokenKeys)
    keyTokens :=
      if newTokens.isEmpty then m.keyTokens.erase key
      else (m.keyTokens.erase key).insert key newTokens
    deltaKeys := if record.isDelta then deltaKeys + 1 else deltaKeys
    deltaKeyRange :=
      if record.isDelta then
        match m.deltaKeyRange with
        | none => some (key, key)
        | some (lo, hi) => some (min lo key, max hi key)
      else
        m.deltaKeyRange }

/-- Fold a delta record onto the resident version, if any, and store the result. -/
def insertDelta [Unicode] [Numeral ν] (m : MemTable ν) (delta : Record ν) : MemTable ν :=
  m.insert (mergeDelta m.records[delta.key]? delta)

def get (m : MemTable ν) (key : String) : Option (Record ν) := m.records[key]?

def len (m : MemTable ν) : Nat := m.records.size

def isEmpty (m : MemTable ν) : Bool := m.records.isEmpty

/-- Key-ascending record iteration. -/
def values (m : MemTable ν) : List (Record ν) := rowsOf m.records

def hasDeltas (m : MemTable ν) : Bool := decide (0 < m.deltaKeys)

def deltaRange (m : MemTable ν) : Option (String × String) := m.deltaKeyRange

/-- Keys whose text contains all of `want`: start from the smallest key set, check the rest. -/
def textCandidates (m : MemTable ν) (want : List String) : StrSet :=
  if want.isEmpty then
    ∅
  else
    match want.mapM (fun t => m.tokenKeys[t]?) with
    | none => ∅
    | some sets =>
        match sortAsc Std.ExtTreeSet.size sets with
        | [] => ∅
        | first :: rest => first.filter (fun k => rest.all (fun s => s.contains k))

/-! ## The representation invariant -/

/-- Does the token map file `k` under `t`? -/
def TokenHas (tk : OrdMap String StrSet) (t k : String) : Prop :=
  ∃ set, tk[t]? = some set ∧ k ∈ set

/-- How the parts of a memtable fit together. -/
structure Consistent [Unicode] (m : MemTable ν) : Prop where
  key_eq {k : String} {r : Record ν} : m.records[k]? = some r → r.key = k
  token_iff (t k : String) :
    TokenHas m.tokenKeys t k ↔ ∃ r, m.records[k]? = some r ∧ t ∈ r.tokens
  token_nonempty {t : String} {set : StrSet} : m.tokenKeys[t]? = some set → set.isEmpty = false
  keyTokens_eq (k : String) :
    m.keyTokens[k]? = (m.records[k]?.map Record.tokens).filter (fun ts => !ts.isEmpty)
  deltaKeys_eq : m.deltaKeys = (m.records.filter (fun _ r => r.isDelta)).size
  deltaRange_covers {k : String} {r : Record ν} : m.records[k]? = some r → r.isDelta = true →
    ∃ lo hi, m.deltaKeyRange = some (lo, hi) ∧ lo ≤ k ∧ k ≤ hi

theorem tokenHas_removeTokenKey (key : String) (tk : OrdMap String StrSet) (t₀ t k : String) :
    TokenHas (removeTokenKey key tk t₀) t k ↔ TokenHas tk t k ∧ ¬ (k = key ∧ t = t₀) := by
  unfold removeTokenKey TokenHas
  cases htk : tk[t₀]? with
  | none =>
      constructor
      · rintro ⟨set, hset, hk⟩
        refine ⟨⟨set, hset, hk⟩, ?_⟩
        rintro ⟨-, rfl⟩
        simp [htk] at hset
      · exact fun h => h.1
  | some keys =>
      by_cases ht : t₀ = t
      · subst ht
        by_cases hempty : (keys.erase key).isEmpty = true
        · -- The key was the last one with the token, which goes with it.
          have hall : ∀ x, x ∈ keys → x = key := by
            intro x hx
            by_contra hne
            have hmem : x ∈ keys.erase key := by
              simp only [Std.ExtTreeSet.mem_erase]
              exact ⟨by simpa using fun h => hne h.symm, hx⟩
            rw [Std.ExtTreeSet.isEmpty_iff] at hempty
            simp [hempty] at hmem
          simp only [hempty, if_true]
          constructor
          · rintro ⟨set, hset, -⟩
            simp at hset
          · rintro ⟨⟨set, hset, hk⟩, hne⟩
            simp only [htk, Option.some.injEq] at hset
            subst hset
            exact absurd ⟨hall k hk, trivial⟩ hne
        · simp only [hempty]
          constructor
          · rintro ⟨set, hset, hk⟩
            simp at hset
            subst hset
            simp at hk
            exact ⟨⟨keys, htk, hk.2⟩, fun h => hk.1 h.1.symm⟩
          · rintro ⟨⟨set, hset, hk⟩, hne⟩
            simp only [htk, Option.some.injEq] at hset
            subst hset
            refine ⟨keys.erase key, by simp, ?_⟩
            simp only [Std.ExtTreeSet.mem_erase]
            exact ⟨by simpa using fun h => hne ⟨h.symm, trivial⟩, hk⟩
      · -- Another token.
        have hget : (if (keys.erase key).isEmpty then tk.erase t₀
            else tk.insert t₀ (keys.erase key))[t]? = tk[t]? := by
          split
          · simp [Std.ExtTreeMap.getElem?_erase, ht]
          · simp [Std.ExtTreeMap.getElem?_insert, ht]
        simp only [hget]
        constructor
        · exact fun h => ⟨h, fun hc => ht hc.2.symm⟩
        · exact fun h => h.1

theorem tokenHas_addTokenKey (key : String) (tk : OrdMap String StrSet) (t₀ t k : String) :
    TokenHas (addTokenKey key tk t₀) t k ↔ TokenHas tk t k ∨ (k = key ∧ t = t₀) := by
  unfold addTokenKey TokenHas
  by_cases ht : t₀ = t
  · subst ht
    constructor
    · rintro ⟨set, hset, hk⟩
      simp at hset
      subst hset
      simp only [Std.ExtTreeSet.mem_insert] at hk
      rcases hk with heq | hin
      · have hkey : key = k := by simpa using heq
        exact Or.inr ⟨hkey.symm, rfl⟩
      · cases htk : tk[t₀]? with
        | none => simp [htk] at hin
        | some keys => exact Or.inl ⟨keys, rfl, by simpa [htk] using hin⟩
    · intro h
      refine ⟨(tk[t₀]?.getD ∅).insert key, by simp, ?_⟩
      rcases h with ⟨set, hset, hk⟩ | ⟨rfl, -⟩
      · simp [hset, hk]
      · simp
  · have hget : (tk.insert t₀ ((tk[t₀]?.getD ∅).insert key))[t]? = tk[t]? := by
      simp [Std.ExtTreeMap.getElem?_insert, ht]
    simp only [hget]
    constructor
    · exact fun h => Or.inl h
    · rintro (h | ⟨-, hc⟩)
      · exact h
      · exact absurd hc.symm ht

theorem tokenHas_foldl_remove (key : String) (t k : String) :
    ∀ (ts : List String) (tk : OrdMap String StrSet),
      TokenHas (ts.foldl (removeTokenKey key) tk) t k ↔
        TokenHas tk t k ∧ ¬ (k = key ∧ t ∈ ts) := by
  intro ts
  induction ts with
  | nil => simp
  | cons t₀ ts ih =>
      intro tk
      rw [List.foldl_cons, ih, tokenHas_removeTokenKey]
      simp only [List.mem_cons]
      tauto

theorem tokenHas_foldl_add (key : String) (t k : String) :
    ∀ (ts : List String) (tk : OrdMap String StrSet),
      TokenHas (ts.foldl (addTokenKey key) tk) t k ↔
        TokenHas tk t k ∨ (k = key ∧ t ∈ ts) := by
  intro ts
  induction ts with
  | nil => simp
  | cons t₀ ts ih =>
      intro tk
      rw [List.foldl_cons, ih, tokenHas_addTokenKey]
      simp only [List.mem_cons]
      tauto

/-- No token keeps an empty key set. -/
def NonemptySets (tk : OrdMap String StrSet) : Prop :=
  ∀ (t : String) (set : StrSet), tk[t]? = some set → set.isEmpty = false

theorem nonemptySets_removeTokenKey {tk : OrdMap String StrSet} (h : NonemptySets tk)
    (key t₀ : String) : NonemptySets (removeTokenKey key tk t₀) := by
  intro t set hset
  unfold removeTokenKey at hset
  cases htk : tk[t₀]? with
  | none => exact h t set (by simpa [htk] using hset)
  | some keys =>
      simp only [htk] at hset
      by_cases ht : t₀ = t
      · subst ht
        split at hset
        · simp at hset
        · rename_i hne
          simp only [Std.ExtTreeMap.getElem?_insert_self, Option.some.injEq] at hset
          subst hset
          simpa using hne
      · refine h t set ?_
        split at hset
        · simpa [Std.ExtTreeMap.getElem?_erase, ht] using hset
        · simpa [Std.ExtTreeMap.getElem?_insert, ht] using hset

theorem nonemptySets_addTokenKey {tk : OrdMap String StrSet} (h : NonemptySets tk)
    (key t₀ : String) : NonemptySets (addTokenKey key tk t₀) := by
  intro t set hset
  unfold addTokenKey at hset
  by_cases ht : t₀ = t
  · subst ht
    simp only [Std.ExtTreeMap.getElem?_insert_self, Option.some.injEq] at hset
    subst hset
    simp
  · exact h t set (by simpa [Std.ExtTreeMap.getElem?_insert, ht] using hset)

theorem nonemptySets_foldl {f : OrdMap String StrSet → String → OrdMap String StrSet}
    (hf : ∀ tk t, NonemptySets tk → NonemptySets (f tk t)) :
    ∀ (ts : List String) (tk : OrdMap String StrSet), NonemptySets tk →
      NonemptySets (ts.foldl f tk) := by
  intro ts
  induction ts with
  | nil => exact fun _ h => h
  | cons t ts ih => exact fun tk h => ih _ (hf tk t h)

/-- The increments of a memtable after an upsert. -/
theorem filter_isDelta_insert (m : OrdMap String (Record ν)) (key : String) (r : Record ν) :
    (m.insert key r).filter (fun _ r => r.isDelta) =
      if r.isDelta then (m.filter (fun _ r => r.isDelta)).insert key r
      else (m.filter (fun _ r => r.isDelta)).erase key := by
  refine Std.ExtTreeMap.ext_getElem? (fun k => ?_)
  by_cases hk : key = k
  · subst hk
    cases hd : r.isDelta <;> simp [hd, Option.filter]
  · cases hd : r.isDelta <;>
      simp [Std.ExtTreeMap.getElem?_insert, Std.ExtTreeMap.getElem?_erase, hk]

/-- The token map answers conjunctive token queries. -/
theorem mem_textCandidates (m : MemTable ν) (want : List String) (k : String) :
    k ∈ m.textCandidates want ↔ want ≠ [] ∧ ∀ t ∈ want, TokenHas m.tokenKeys t k := by
  unfold textCandidates
  cases want with
  | nil => simp
  | cons t₀ want =>
      simp only [List.isEmpty_cons, Bool.false_eq_true, if_false, ne_eq, reduceCtorEq,
        not_false_eq_true, true_and]
      cases hsets : (t₀ :: want).mapM (fun t => m.tokenKeys[t]?) with
      | none =>
          -- A wanted token has no set.
          simp only [Std.ExtTreeSet.not_mem_empty, false_iff]
          intro hall
          obtain ⟨sets, hsome⟩ := exists_mapM_eq_some
            (fun t ht => (hall t ht).imp (fun _ hset => hset.1))
          simp [hsets] at hsome
      | some sets =>
          have hperm := sortAsc_perm Std.ExtTreeSet.size sets
          have hall : (∀ s ∈ sets, k ∈ s) ↔ ∀ t ∈ t₀ :: want, TokenHas m.tokenKeys t k :=
            forall_mem_of_mapM_eq_some hsets
          rw [← hall]
          -- The smallest set is filtered by the others.
          cases hsort : sortAsc Std.ExtTreeSet.size sets with
          | nil =>
              have hlen : sets.length = 0 := by simpa [hsort] using hperm.length_eq.symm
              have hnil : sets = [] := List.length_eq_zero_iff.1 hlen
              subst hnil
              have hfalse := (forall_mem_of_mapM_eq_some (P := fun _ => False) hsets).1 (by simp)
              obtain ⟨-, -, hf⟩ := hfalse t₀ (by simp)
              exact hf.elim
          | cons first rest =>
              have hmem : ∀ s, s ∈ sets ↔ s = first ∨ s ∈ rest := by
                intro s
                rw [← hperm.mem_iff, hsort, List.mem_cons]
              simp [hsort, hmem]

section Insert

variable [Unicode]

theorem empty_consistent : (({} : MemTable ν)).Consistent where
  key_eq h := by simp at h
  token_iff t k := by simp [TokenHas]
  token_nonempty h := by simp at h
  keyTokens_eq k := by simp
  deltaKeys_eq := by
    have hempty : (∅ : OrdMap String (Record ν)).filter (fun _ r => r.isDelta) = ∅ := by
      refine Std.ExtTreeMap.ext_getElem? (fun k => ?_)
      simp
    simp [hempty]
  deltaRange_covers h := by simp at h

/-- The delta count follows an upsert. -/
theorem deltaKeys_insert {m : MemTable ν} (h : m.Consistent) (r : Record ν) :
    (m.insert r).deltaKeys = ((m.insert r).records.filter (fun _ r => r.isDelta)).size := by
  show (if r.isDelta then _ + 1 else _) = ((m.records.insert r.key r).filter _).size
  rw [filter_isDelta_insert]
  have hcount := h.deltaKeys_eq
  -- Does the record that is replaced count?
  have hcontains : (m.records.filter (fun _ r => r.isDelta)).contains r.key =
      match m.records[r.key]? with
      | some old => old.isDelta
      | none => false := by
    rw [Std.ExtTreeMap.contains_eq_isSome_getElem?, Std.ExtTreeMap.getElem?_filter']
    cases m.records[r.key]? with
    | none => rfl
    | some old => cases hd : old.isDelta <;> simp [hd, Option.filter]
  cases hold : m.records[r.key]? with
  | none =>
      simp only [hold] at hcontains
      cases hd : r.isDelta with
      | true => simp [Std.ExtTreeMap.size_insert, hcontains, hcount]
      | false => simp [Std.ExtTreeMap.size_erase, hcontains, hcount]
  | some old =>
      simp only [hold] at hcontains
      cases hod : old.isDelta with
      | false =>
          rw [hod] at hcontains
          cases hd : r.isDelta with
          | true => simp [Std.ExtTreeMap.size_insert, hcontains, hcount, hod]
          | false => simp [Std.ExtTreeMap.size_erase, hcontains, hcount, hod]
      | true =>
          rw [hod] at hcontains
          have hpos : 0 < (m.records.filter (fun _ r => r.isDelta)).size := by
            rw [Nat.pos_iff_ne_zero]
            intro hzero
            have hemp : m.records.filter (fun _ r => r.isDelta) = ∅ := by
              rw [← Std.ExtTreeMap.isEmpty_iff, Std.ExtTreeMap.isEmpty_eq_size_beq_zero, hzero]
              rfl
            simp [hemp] at hcontains
          cases hd : r.isDelta with
          | true =>
              simp only [hod, if_true, Std.ExtTreeMap.size_insert, hcontains, hcount]
              omega
          | false => simp [Std.ExtTreeMap.size_erase, hcontains, hcount, hod]

/-- Every upsert keeps the invariant. -/
theorem insert_consistent {m : MemTable ν} (h : m.Consistent) (r : Record ν) :
    (m.insert r).Consistent where
  key_eq {k s} hs := by
    by_cases hk : r.key = k
    · subst hk
      simp [insert] at hs
      rw [← hs]
    · exact h.key_eq (by simpa [insert, Std.ExtTreeMap.getElem?_insert, hk] using hs)
  token_iff t k := by
    show TokenHas (r.tokens.foldl _ ((m.keyTokens[r.key]?.getD []).foldl _ m.tokenKeys)) t k ↔
      ∃ s, (m.records.insert r.key r)[k]? = some s ∧ t ∈ s.tokens
    -- The old tokens of the key are taken out before the new ones are put in.
    rw [tokenHas_foldl_add, tokenHas_foldl_remove, h.token_iff, h.keyTokens_eq]
    by_cases hk : r.key = k
    · subst hk
      cases hold : m.records[r.key]? with
      | none => simp
      | some old =>
          cases htoks : old.tokens with
          | nil => simp [htoks]
          | cons t₀ ts =>
              simp [htoks, Option.filter]
              tauto
    · have hk' : ¬ k = r.key := fun hc => hk hc.symm
      simp [Std.ExtTreeMap.getElem?_insert, hk, hk']
  token_nonempty {t set} hset := by
    have hstart : NonemptySets m.tokenKeys := fun t set => h.token_nonempty
    have hremoved := nonemptySets_foldl (fun tk t htk => nonemptySets_removeTokenKey htk r.key t)
      (m.keyTokens[r.key]?.getD []) m.tokenKeys hstart
    have hadded := nonemptySets_foldl (fun tk t htk => nonemptySets_addTokenKey htk r.key t)
      r.tokens _ hremoved
    exact hadded t set hset
  keyTokens_eq k := by
    show (if r.tokens.isEmpty then m.keyTokens.erase r.key
        else (m.keyTokens.erase r.key).insert r.key r.tokens)[k]? =
      ((m.records.insert r.key r)[k]?.map Record.tokens).filter _
    by_cases hk : r.key = k
    · subst hk
      cases htoks : r.tokens with
      | nil => simp [htoks, Option.filter]
      | cons t ts => simp [htoks, Option.filter]
    · have hrest := h.keyTokens_eq k
      cases htoks : r.tokens with
      | nil =>
          simpa [Std.ExtTreeMap.getElem?_insert, Std.ExtTreeMap.getElem?_erase, hk] using hrest
      | cons t ts =>
          simpa [Std.ExtTreeMap.getElem?_insert, Std.ExtTreeMap.getElem?_erase, hk] using hrest
  deltaKeys_eq := deltaKeys_insert h r
  deltaRange_covers {k s} hs hd := by
    by_cases hk : r.key = k
    · subst hk
      have hsr : r = s := by simpa [insert] using hs
      subst hsr
      cases hr : m.deltaKeyRange with
      | none => exact ⟨r.key, r.key, by simp [insert, hd, hr], le_refl _, le_refl _⟩
      | some range =>
          obtain ⟨lo, hi⟩ := range
          exact ⟨min lo r.key, max hi r.key, by simp [insert, hd, hr], min_le_right _ _,
            le_max_right _ _⟩
    · have hs' : m.records[k]? = some s := by
        simpa [insert, Std.ExtTreeMap.getElem?_insert, hk] using hs
      -- The range only grows.
      obtain ⟨lo, hi, hr, hlo, hhi⟩ := h.deltaRange_covers hs' hd
      cases hrd : r.isDelta with
      | false => exact ⟨lo, hi, by simp [insert, hrd, hr], hlo, hhi⟩
      | true =>
          exact ⟨min lo r.key, max hi r.key, by simp [insert, hrd, hr],
            (min_le_left _ _).trans hlo, hhi.trans (le_max_left _ _)⟩

theorem insertDelta_consistent [Numeral ν] {m : MemTable ν} (h : m.Consistent) (d : Record ν) :
    (m.insertDelta d).Consistent :=
  insert_consistent h _

theorem get_insert (m : MemTable ν) (r : Record ν) (k : String) :
    (m.insert r).get k = if r.key = k then some r else m.get k := by
  simp [get, insert, Std.ExtTreeMap.getElem?_insert]

/-! ## What the parts answer -/

theorem Consistent.keyed {m : MemTable ν} (h : m.Consistent) : Keyed m.records :=
  fun _ _ hr => h.key_eq hr

theorem mem_values {m : MemTable ν} (h : m.Consistent) {r : Record ν} :
    r ∈ m.values ↔ m.get r.key = some r :=
  h.keyed.mem_rowsOf

theorem values_sorted {m : MemTable ν} (h : m.Consistent) :
    m.values.Pairwise (fun a b => a.key < b.key) :=
  h.keyed.rowsOf_sorted

theorem isDelta_false_of_hasDeltas_false {m : MemTable ν} (h : m.Consistent)
    (hd : m.hasDeltas = false) {k : String} {r : Record ν} (hr : m.get k = some r) :
    r.isDelta = false := by
  have hzero : (m.records.filter (fun _ r => r.isDelta)).size = 0 := by
    rw [← h.deltaKeys_eq]
    simpa [hasDeltas] using hd
  have hemp : m.records.filter (fun _ r => r.isDelta) = ∅ := by
    rw [← Std.ExtTreeMap.isEmpty_iff, Std.ExtTreeMap.isEmpty_eq_size_beq_zero, hzero]
    rfl
  have hget : (m.records.filter (fun _ r => r.isDelta))[k]? = none := by simp [hemp]
  have hr' : m.records[k]? = some r := hr
  cases hrd : r.isDelta with
  | false => rfl
  | true => simp [hr', Option.filter, hrd] at hget

theorem mem_distinctTokens {text t : String} : t ∈ distinctTokens text ↔ t ∈ ftsTokens text := by
  rw [distinctTokens, mem_destutter_ne]
  exact mem_sortAsc _

/-- A record's token list is sorted, without repetition. -/
theorem tokens_sorted (r : Record ν) : r.tokens.Pairwise (· < ·) := by
  unfold Record.tokens
  cases r.text with
  | none => exact List.Pairwise.nil
  | some text => exact pairwise_lt_destutter (sortAsc_pairwise id _)

theorem mem_tokens {r : Record ν} {t : String} :
    t ∈ r.tokens ↔ ∃ text, r.text = some text ∧ t ∈ ftsTokens text := by
  unfold Record.tokens
  cases r.text with
  | none => simp
  | some text => simp [mem_distinctTokens]

/-- The count is that of the increments among the rows. -/
theorem Consistent.deltaKeys_values {m : MemTable ν} (h : m.Consistent) :
    m.deltaKeys = (m.values.filter Record.isDelta).length := by
  rw [h.deltaKeys_eq, ← Std.ExtTreeMap.length_toList, Std.ExtTreeMap.toList_filter, values, rowsOf,
    List.filter_map, List.length_map]
  rfl

/-- A key's token list is there when its record has tokens. -/
theorem Consistent.keyTokens_iff {m : MemTable ν} (h : m.Consistent) {k : String}
    {ts : List String} : m.keyTokens[k]? = some ts ↔
      ts ≠ [] ∧ ∃ r, m.get k = some r ∧ ts = r.tokens := by
  rw [h.keyTokens_eq, Option.filter_eq_some_iff, Option.map_eq_some_iff]
  constructor
  · rintro ⟨⟨r, hr, rfl⟩, hne⟩
    exact ⟨by simpa using hne, r, hr, rfl⟩
  · rintro ⟨hne, r, hr, rfl⟩
    exact ⟨⟨r, hr, rfl⟩, by simpa using hne⟩

/-- The token map agrees with the naive text predicate. -/
theorem mem_textCandidates_iff {m : MemTable ν} (h : m.Consistent) {r : Record ν}
    (hr : m.get r.key = some r) (want : List String) :
    r.key ∈ m.textCandidates want ↔ textContainsAll r.text want = true := by
  have hget : m.records[r.key]? = some r := hr
  rw [mem_textCandidates]
  simp only [h.token_iff, hget, Option.some.injEq, exists_eq_left']
  unfold textContainsAll
  cases want with
  | nil => simp
  | cons t₀ want =>
      cases ht : r.text with
      | none =>
          constructor
          · exact fun hall => absurd (hall.2 t₀ (by simp)) (by simp [mem_tokens, ht])
          · simp
      | some text => simp [mem_tokens, ht]

/-- The keys the token map answers with have a record. -/
theorem exists_get_of_mem_textCandidates {m : MemTable ν} (h : m.Consistent) {want : List String}
    {k : String} (hk : k ∈ m.textCandidates want) : ∃ r, m.get k = some r := by
  obtain ⟨hne, hall⟩ := (mem_textCandidates m want k).1 hk
  obtain ⟨t, ht⟩ := List.exists_mem_of_ne_nil want hne
  obtain ⟨r, hr, -⟩ := (h.token_iff t k).1 (hall t ht)
  exact ⟨r, hr⟩

end Insert

end MemTable

end Girder
