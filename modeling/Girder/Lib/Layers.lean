import Mathlib.Data.List.Induction

/-!
# Layers — folding the versions of one key

A log-structured store keeps several *versions* of a key in layers of different age.  A version is
either **full** (it replaces everything older) or **partial** (an increment that needs something
older underneath).  Three folds appear in such a store:

* `replay` applies versions oldest first, as a write buffer or a log replay does;
* `foldNewest` walks the layers newest first, keeping a *pending* partial version until a full one
  ends the walk, as a reader does;
* `stack` is the specification both are compared with.

Under the two laws of `Layering.Lawful` the three agree (`readNewest_eq_stack`,
`replay_eq_stack`), and the outcome does not depend on how the versions are grouped into layers
(`stack_flatten`).  What a walk does beneath a full version needs neither law
(`foldNewest_cut_below_full`), so a group whose newest version is full may be folded in any
arithmetic (`readNewest_collapse_of_not_regroups`).
-/

namespace Girder
namespace Lib

universe u

/-- How versions are layered: which are partial, and how a newer partial version lies on an older
version. -/
structure Layering (V : Type u) where
  isPartial : V → Bool
  merge : V → V → V

namespace Layering

variable {V : Type u} (L : Layering V)

/-! ## The three folds -/

/-- The newer version `n` on top of the older version `o`. -/
def layer (o n : V) : V :=
  if L.isPartial n then L.merge o n else n

/-- `n` on top of whatever is there. -/
def layerOpt : Option V → V → V
  | none, n => n
  | some o, n => L.layer o n

/-- Apply versions in write order. -/
def replay (vs : List V) : Option V :=
  vs.foldl (fun acc v => some (L.layerOpt acc v)) none

/-- The value of a list of versions, newest first. -/
def stack : List V → Option V
  | [] => none
  | v :: vs => some (L.layerOpt (stack vs) v)

/-- An older value underneath a newer one. -/
def combine : Option V → Option V → Option V
  | o, none => o
  | o, some n => some (L.layerOpt o n)

/-- Where a newest-first walk stands on a key it has met. -/
inductive Fold (V : Type u)
  | pending (p : V)
  | done (r : V)
  deriving DecidableEq, Repr

namespace Fold

def value : Fold V → V
  | pending p => p
  | done r => r

def map (f : V → V) : Fold V → Fold V
  | pending p => pending (f p)
  | done r => done (f r)

@[simp]
theorem value_map (f : V → V) (fold : Fold V) : (fold.map f).value = f fold.value := by
  cases fold <;> rfl

end Fold

/-- File a version by whether the walk must go on beneath it. -/
def settle (v : V) : Fold V :=
  if L.isPartial v then .pending v else .done v

/-- One step of the newest-first walk. -/
def feed : Option (Fold V) → V → Option (Fold V)
  | none, v => some (L.settle v)
  | some (.pending p), v => some (L.settle (L.merge v p))
  | some (.done r), _ => some (.done r)

/-- The newest-first walk over all the versions of a key. -/
def foldNewest (vs : List V) : Option (Fold V) :=
  vs.foldl L.feed none

def readNewest (vs : List V) : Option V :=
  (L.foldNewest vs).map Fold.value

@[simp]
theorem stack_nil : L.stack [] = none := rfl

@[simp]
theorem stack_cons (v : V) (vs : List V) :
    L.stack (v :: vs) = some (L.layerOpt (L.stack vs) v) := rfl

@[simp]
theorem stack_eq_none_iff {vs : List V} : L.stack vs = none ↔ vs = [] := by
  cases vs with
  | nil => simp
  | cons v vs => simp

@[simp]
theorem layerOpt_none (n : V) : L.layerOpt none n = n := rfl

@[simp]
theorem layerOpt_some (o n : V) : L.layerOpt (some o) n = L.layer o n := rfl

theorem layer_of_full {o n : V} (hn : L.isPartial n = false) : L.layer o n = n := by
  simp [layer, hn]

theorem layer_of_isPartial {o n : V} (hn : L.isPartial n = true) : L.layer o n = L.merge o n := by
  simp [layer, hn]

theorem replay_eq_stack (vs : List V) : L.replay vs = L.stack vs.reverse := by
  induction vs using List.reverseRecOn with
  | nil => rfl
  | append_singleton vs v ih =>
      have hstep : L.replay (vs ++ [v]) = some (L.layerOpt (L.replay vs) v) := by
        simp [replay]
      rw [hstep, ih]
      simp

theorem foldNewest_append (xs ys : List V) :
    L.foldNewest (xs ++ ys) = ys.foldl L.feed (L.foldNewest xs) := by
  simp [foldNewest]

/-- What holds of every version and survives merging holds of their stack. -/
theorem stack_induction {P : V → Prop} {vs : List V} (hvs : ∀ v ∈ vs, P v)
    (hm : ∀ o n, P o → P n → P (L.merge o n)) : ∀ {r : V}, L.stack vs = some r → P r := by
  induction vs with
  | nil => exact fun hr => by cases hr
  | cons v vs ih =>
      intro r hr
      rw [stack_cons, Option.some.injEq] at hr
      subst hr
      have hv := hvs v List.mem_cons_self
      cases hst : L.stack vs with
      | none => exact hv
      | some o =>
          have ho := ih (fun w hw => hvs w (List.mem_cons_of_mem v hw)) hst
          rw [layerOpt_some, layer]
          split
          · exact hm o v ho hv
          · exact hv

/-- What holds of every version and survives merging holds of what a walk reads. -/
theorem readNewest_induction {P : V → Prop} {vs : List V} (hvs : ∀ v ∈ vs, P v)
    (hm : ∀ o n, P o → P n → P (L.merge o n)) {r : V} (hr : L.readNewest vs = some r) : P r := by
  have hsettle : ∀ v, P v → P (L.settle v).value := by
    intro v hv
    unfold settle
    split <;> exact hv
  have hgo : ∀ (ws : List V) (st : Option (Fold V)), (∀ w ∈ ws, P w) →
      (∀ fold, st = some fold → P fold.value) →
      ∀ fold, ws.foldl L.feed st = some fold → P fold.value := by
    intro ws
    induction ws with
    | nil => exact fun _ _ hst => hst
    | cons w ws ih =>
        intro st hws hst
        have hw : P w := hws w (by simp)
        refine ih (L.feed st w) (fun x hx => hws x (by simp [hx])) ?_
        intro fold hfold
        rcases st with _ | ⟨p⟩ | ⟨r⟩
        · simp only [feed, Option.some.injEq] at hfold
          exact hfold ▸ hsettle w hw
        · simp only [feed, Option.some.injEq] at hfold
          exact hfold ▸ hsettle _ (hm w p hw (hst _ rfl))
        · exact hst fold hfold
  obtain ⟨fold, hfold, rfl⟩ := Option.map_eq_some_iff.1 hr
  exact hgo vs none hvs (by simp) fold hfold

/-- A map that respects the layering commutes with the newest-first walk. -/
theorem foldl_feed_map {f : V → V} (hp : ∀ v, L.isPartial (f v) = L.isPartial v)
    (hm : ∀ o n, L.merge (f o) (f n) = f (L.merge o n)) :
    ∀ (vs : List V) (st : Option (Fold V)),
      (vs.map f).foldl L.feed (st.map (Fold.map f)) = (vs.foldl L.feed st).map (Fold.map f) := by
  have hsettle : ∀ v, L.settle (f v) = (L.settle v).map f := by
    intro v
    unfold settle
    rw [hp]
    split <;> rfl
  intro vs
  induction vs with
  | nil => exact fun _ => rfl
  | cons v vs ih =>
      intro st
      have hstep : L.feed (st.map (Fold.map f)) (f v) = (L.feed st v).map (Fold.map f) := by
        rcases st with _ | ⟨p⟩ | ⟨r⟩
        · simp [feed, hsettle]
        · simp [feed, Fold.map, hm, hsettle]
        · simp [feed, Fold.map]
      rw [List.map_cons, List.foldl_cons, List.foldl_cons, hstep, ih]

theorem readNewest_map {f : V → V} (hp : ∀ v, L.isPartial (f v) = L.isPartial v)
    (hm : ∀ o n, L.merge (f o) (f n) = f (L.merge o n)) (vs : List V) :
    L.readNewest (vs.map f) = (L.readNewest vs).map f := by
  have h := L.foldl_feed_map hp hm vs none
  simp only [Option.map_none] at h
  rw [readNewest, foldNewest, h, readNewest, foldNewest, Option.map_map, Option.map_map]
  congr 1
  funext fold
  exact Fold.value_map f fold

/-! ## Beneath a full version

A walk that has met a full version is done: what lies further down is never read. -/

theorem foldl_feed_done (r : V) (vs : List V) :
    vs.foldl L.feed (some (.done r)) = some (.done r) := by
  induction vs with
  | nil => rfl
  | cons v vs ih => simpa [feed] using ih

/-- A full version stays full whatever is merged onto it. -/
def FullBase : Prop :=
  ∀ o n : V, L.isPartial o = false → L.isPartial (L.merge o n) = false

variable {L}

theorem settle_full {v : V} (hv : L.isPartial v = false) : L.settle v = .done v := by
  simp [settle, hv]

theorem settle_of_isPartial {v : V} (hv : L.isPartial v = true) : L.settle v = .pending v := by
  simp [settle, hv]

theorem settle_value (v : V) : (L.settle v).value = v := by
  unfold settle
  split <;> rfl

theorem feed_full_isDone (hL : L.FullBase) (st : Option (Fold V)) {v : V}
    (hv : L.isPartial v = false) : ∃ r, L.feed st v = some (.done r) := by
  rcases st with _ | ⟨p⟩ | ⟨r⟩
  · exact ⟨v, by simp [feed, settle_full hv]⟩
  · exact ⟨L.merge v p, by simp [feed, settle_full (hL v p hv)]⟩
  · exact ⟨r, rfl⟩

theorem foldl_feed_isDone (hL : L.FullBase) {vs : List V} {v : V} (hmem : v ∈ vs)
    (hv : L.isPartial v = false) :
    ∀ st : Option (Fold V), ∃ r, vs.foldl L.feed st = some (.done r) := by
  intro st
  obtain ⟨xs, ys, rfl⟩ := List.append_of_mem hmem
  obtain ⟨r, hr⟩ := feed_full_isDone hL (xs.foldl L.feed st) hv
  refine ⟨r, ?_⟩
  simp [hr, L.foldl_feed_done]

/-- Versions beneath a full one can be cut away. -/
theorem foldNewest_cut_below_full (hL : L.FullBase) {xs : List V} {v : V} (hmem : v ∈ xs)
    (hv : L.isPartial v = false) (ys zs : List V) :
    L.foldNewest (xs ++ ys) = L.foldNewest (xs ++ zs) := by
  obtain ⟨r, hr⟩ := foldl_feed_isDone hL hmem hv none
  have hxs : L.foldNewest xs = some (.done r) := hr
  simp [L.foldNewest_append, hxs, L.foldl_feed_done]

/-- A full newest version is all a walk reads. -/
theorem readNewest_cons_of_full {v : V} (hv : L.isPartial v = false) (vs : List V) :
    L.readNewest (v :: vs) = some v := by
  simp [readNewest, foldNewest, feed, settle_full hv, L.foldl_feed_done, Fold.value]

variable (L) in
/-- Does folding these versions into one move a merge?  Only when the newest is partial and lies on
another one. -/
def regroups : List V → Bool
  | v :: _ :: _ => L.isPartial v
  | _ => false

/-- A group whose newest version is full, or that has one version only, may be replaced by its
value: no merge is moved, so no law is needed. -/
theorem readNewest_collapse_of_not_regroups (hL : L.FullBase) {run : List V}
    (hrun : L.regroups run = false) (above below : List V) :
    L.readNewest (above ++ ((L.stack run).toList ++ below)) =
      L.readNewest (above ++ (run ++ below)) := by
  match run, hrun with
  | [], _ => rfl
  | [v], _ => rfl
  | v :: w :: rest, hrun =>
      have hv : L.isPartial v = false := hrun
      have hstack : L.stack (v :: w :: rest) = some v := by
        simp [L.layer_of_full hv]
      have hmem : v ∈ above ++ [v] := by simp
      have hcut := foldNewest_cut_below_full hL hmem hv below (w :: rest ++ below)
      rw [hstack, readNewest, readNewest]
      simpa using congrArg (Option.map Fold.value) hcut

/-! ## Partial versions stay partial -/

variable (L) in
/-- Merging onto a partial version gives a partial version, on the versions satisfying `Ok`. -/
structure KeepsPartial (Ok : V → Prop) : Prop where
  ok_merge {o n : V} : Ok o → Ok n → Ok (L.merge o n)
  isPartial_merge {o n : V} : Ok o → Ok n → L.isPartial o = true →
    L.isPartial (L.merge o n) = true

namespace KeepsPartial

variable {Ok : V → Prop}

theorem ok_stack (hL : L.KeepsPartial Ok) :
    ∀ {vs : List V}, (∀ v ∈ vs, Ok v) → ∀ {s : V}, L.stack vs = some s → Ok s := by
  intro vs
  induction vs with
  | nil =>
      intro _ s hs
      simp at hs
  | cons v vs ih =>
      intro hok s hs
      have hv : Ok v := hok v (by simp)
      have hvs : ∀ w ∈ vs, Ok w := fun w hw => hok w (by simp [hw])
      rw [stack_cons, Option.some.injEq] at hs
      subst hs
      cases hst : L.stack vs with
      | none => exact hv
      | some o =>
          have ho : Ok o := ih hvs hst
          rw [layerOpt_some, layer]
          split
          · exact hL.ok_merge ho hv
          · exact hv

end KeepsPartial

/-! ## Associativity and regrouping -/

/-- The laws that make layering associative, on the versions satisfying `Ok`. -/
structure Lawful (L : Layering V) (Ok : V → Prop) : Prop where
  ok_merge {o n : V} : Ok o → Ok n → Ok (L.merge o n)
  partial_merge {o n : V} : Ok o → Ok n → L.isPartial (L.merge o n) = L.isPartial o
  merge_assoc {a b c : V} : Ok a → Ok b → Ok c →
    L.isPartial b = true → L.isPartial c = true →
    L.merge (L.merge a b) c = L.merge a (L.merge b c)

namespace Lawful

variable {Ok : V → Prop}

theorem keepsPartial (hL : L.Lawful Ok) : L.KeepsPartial Ok where
  ok_merge := hL.ok_merge
  isPartial_merge ho hn hop := (hL.partial_merge ho hn).trans hop

theorem layer_assoc (hL : L.Lawful Ok) {a b c : V} (ha : Ok a) (hb : Ok b) (hc : Ok c) :
    L.layer (L.layer a b) c = L.layer a (L.layer b c) := by
  cases hcp : L.isPartial c with
  | false => simp [L.layer_of_full hcp]
  | true =>
      have hmerge : L.isPartial (L.merge b c) = L.isPartial b := hL.partial_merge hb hc
      cases hbp : L.isPartial b with
      | false =>
          have hfull : L.isPartial (L.merge b c) = false := by rw [hmerge, hbp]
          rw [L.layer_of_full hbp, L.layer_of_isPartial hcp, L.layer_of_full hfull]
      | true =>
          have hpart : L.isPartial (L.merge b c) = true := by rw [hmerge, hbp]
          rw [L.layer_of_isPartial hbp, L.layer_of_isPartial hcp, L.layer_of_isPartial hcp,
            L.layer_of_isPartial hpart]
          exact hL.merge_assoc ha hb hc hbp hcp

theorem ok_stack (hL : L.Lawful Ok) {vs : List V} (hvs : ∀ v ∈ vs, Ok v) {s : V}
    (hs : L.stack vs = some s) : Ok s :=
  hL.keepsPartial.ok_stack hvs hs

/-- A pending version absorbs the rest of the walk as one more layer on top of it. -/
theorem foldl_feed_pending (hL : L.Lawful Ok) :
    ∀ {vs : List V}, (∀ v ∈ vs, Ok v) → ∀ {p : V}, Ok p → L.isPartial p = true →
      (vs.foldl L.feed (some (.pending p))).map Fold.value =
        some (L.layerOpt (L.stack vs) p) := by
  intro vs
  induction vs with
  | nil =>
      intro _ p _ _
      rfl
  | cons v vs ih =>
      intro hok p hp hpp
      have hv : Ok v := hok v (by simp)
      have hvs : ∀ w ∈ vs, Ok w := fun w hw => hok w (by simp [hw])
      have hmp : L.isPartial (L.merge v p) = L.isPartial v := hL.partial_merge hv hp
      cases hvp : L.isPartial v with
      | false =>
          -- A full version ends the walk, and hides what is underneath it.
          have hfull : L.isPartial (L.merge v p) = false := by rw [hmp, hvp]
          have hstack : L.stack (v :: vs) = some v := by
            cases hst : L.stack vs with
            | none => simp [hst]
            | some o => simp [hst, L.layer_of_full hvp]
          rw [hstack]
          simp [feed, settle_full hfull, L.foldl_feed_done, Fold.value,
            L.layer_of_isPartial hpp]
      | true =>
          have hpart : L.isPartial (L.merge v p) = true := by rw [hmp, hvp]
          have hrest := ih hvs (hL.ok_merge hv hp) hpart
          simp only [List.foldl_cons, feed, settle_of_isPartial hpart]
          rw [hrest]
          cases hst : L.stack vs with
          | none => simp [hst, L.layer_of_isPartial hpp]
          | some o =>
              have ho : Ok o := hL.ok_stack hvs hst
              have hassoc := hL.layer_assoc ho hv hp
              simp only [stack_cons, hst, layerOpt_some, Option.some.injEq]
              rw [hassoc, L.layer_of_isPartial (o := v) hpp]

/-- The newest-first walk computes the specified value. -/
theorem readNewest_eq_stack (hL : L.Lawful Ok) {vs : List V} (hok : ∀ v ∈ vs, Ok v) :
    L.readNewest vs = L.stack vs := by
  cases vs with
  | nil => rfl
  | cons v vs =>
      have hv : Ok v := hok v (by simp)
      have hvs : ∀ w ∈ vs, Ok w := fun w hw => hok w (by simp [hw])
      cases hvp : L.isPartial v with
      | false =>
          rw [readNewest_cons_of_full hvp]
          cases hst : L.stack vs with
          | none => simp [hst]
          | some o => simp [hst, L.layer_of_full hvp]
      | true =>
          have hpend := hL.foldl_feed_pending hvs hv hvp
          simpa [readNewest, foldNewest, feed, settle_of_isPartial hvp] using hpend

theorem stack_append (hL : L.Lawful Ok) {xs ys : List V}
    (hxs : ∀ v ∈ xs, Ok v) (hys : ∀ v ∈ ys, Ok v) :
    L.stack (xs ++ ys) = L.combine (L.stack ys) (L.stack xs) := by
  induction xs with
  | nil => rfl
  | cons x xs ih =>
      have hx : Ok x := hxs x (by simp)
      have hxs' : ∀ v ∈ xs, Ok v := fun v hv => hxs v (by simp [hv])
      have ih' := ih hxs'
      simp only [List.cons_append, stack_cons, ih']
      cases hst : L.stack xs with
      | none => rfl
      | some n =>
          cases hsy : L.stack ys with
          | none => rfl
          | some o =>
              have hn : Ok n := hL.ok_stack hxs' hst
              have ho : Ok o := hL.ok_stack hys hsy
              simp [combine, hL.layer_assoc ho hn hx]

/-- Folding each layer on its own first changes nothing. -/
theorem stack_flatten (hL : L.Lawful Ok) :
    ∀ {pieces : List (List V)}, (∀ vs ∈ pieces, ∀ v ∈ vs, Ok v) →
      L.stack (pieces.filterMap L.stack) = L.stack pieces.flatten := by
  intro pieces
  induction pieces with
  | nil =>
      intro _
      rfl
  | cons vs pieces ih =>
      intro hok
      have hvs : ∀ v ∈ vs, Ok v := hok vs (by simp)
      have hrest : ∀ ws ∈ pieces, ∀ v ∈ ws, Ok v := fun ws hws => hok ws (by simp [hws])
      have hflat : ∀ v ∈ pieces.flatten, Ok v := by
        intro v hv
        obtain ⟨ws, hws, hvw⟩ := List.mem_flatten.1 hv
        exact hrest ws hws v hvw
      have ih' := ih hrest
      rw [List.flatten_cons, hL.stack_append hvs hflat]
      cases hst : L.stack vs with
      | none => simpa [combine, hst] using ih'
      | some n => simp [combine, hst, ih']

/-- A contiguous group of versions may be replaced by its value. -/
theorem stack_collapse (hL : L.Lawful Ok) {above run below : List V}
    (ha : ∀ v ∈ above, Ok v) (hr : ∀ v ∈ run, Ok v) (hb : ∀ v ∈ below, Ok v) :
    L.stack (above ++ ((L.stack run).toList ++ below)) = L.stack (above ++ (run ++ below)) := by
  have hrb : ∀ v ∈ run ++ below, Ok v := by
    intro v hv
    rcases List.mem_append.1 hv with h | h
    · exact hr v h
    · exact hb v h
  have hinner : L.stack ((L.stack run).toList ++ below) = L.stack (run ++ below) := by
    rw [hL.stack_append hr hb]
    cases hst : L.stack run with
    | none => rfl
    | some n => rfl
  have hob : ∀ v ∈ (L.stack run).toList ++ below, Ok v := by
    intro v hv
    rcases List.mem_append.1 hv with h | h
    · exact hL.ok_stack hr (by simpa using h)
    · exact hb v h
  rw [hL.stack_append ha hob, hL.stack_append ha hrb, hinner]

end Lawful

end Layering

end Lib
end Girder
