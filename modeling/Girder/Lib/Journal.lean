import Girder.Lib.Layers

/-!
# Journal — flushed layers under a replayed log

A store that checkpoints a log into layers has, for one key, some *flushed* versions (newest first)
and a *log* of versions not flushed yet (oldest first).  Two predicates relate them to the history
of the key:

* `Tiles vs history` — the flushed versions read as consecutive pieces of the history, each
  replayed on its own, so every version of the history is folded exactly once;
* `Durable vs log history` — replaying the log and flushing the outcome gives versions that tile
  the history.  Either the log continues what is flushed, or its replay is a full version that is
  already the replay of the whole history, and then whatever lies underneath is hidden.

The second alternative is what a crash may leave when part of the log was flushed before the log
was deleted.  Replaying a *partial* version twice is not repairable, so the lemmas on crashes
(`Tiles.durable_of_overlap`, `Durable.reappend`, `Durable.of_suffix`) ask that the replay be full.
-/

namespace Girder
namespace Lib
namespace Layering

universe u

variable {V : Type u} (L : Layering V)

/-! ## What a walk reaches -/

/-- The versions a newest-first walk reads: down to the newest full one. -/
def live : List V → List V
  | [] => []
  | v :: vs => if L.isPartial v then v :: live vs else [v]

variable {L}

theorem live_of_full {v : V} (hv : L.isPartial v = false) (vs : List V) :
    L.live (v :: vs) = [v] := by
  simp [live, hv]

theorem head?_live (vs : List V) : (L.live vs).head? = vs.head? := by
  cases vs with
  | nil => rfl
  | cons v vs =>
      rw [live]
      split <;> rfl

theorem mem_of_mem_live {vs : List V} {v : V} (h : v ∈ L.live vs) : v ∈ vs := by
  induction vs with
  | nil => exact h
  | cons u us ih =>
      unfold live at h
      split at h
      · rcases List.mem_cons.1 h with rfl | h
        · simp
        · simp [ih h]
      · rw [List.mem_singleton.1 h]
        simp

theorem live_append_congr {vs ws : List V} (h : L.live vs = L.live ws) (us : List V) :
    L.live (us ++ vs) = L.live (us ++ ws) := by
  induction us with
  | nil => exact h
  | cons u us ih => simp [live, ih]

/-- A full version cuts off what lies beneath it. -/
theorem live_append_of_mem {us : List V} {u : V} (hmem : u ∈ us) (hu : L.isPartial u = false)
    (vs ws : List V) : L.live (us ++ vs) = L.live (us ++ ws) := by
  induction us with
  | nil => cases hmem
  | cons v us ih =>
      cases hv : L.isPartial v with
      | false => simp [live, hv]
      | true =>
          rcases List.mem_cons.1 hmem with rfl | hmem
          · rw [hu] at hv
            cases hv
          · simp [live, hv, ih hmem]

theorem foldl_feed_live (hL : L.FullBase) :
    ∀ (vs : List V) (st : Option (Fold V)), (L.live vs).foldl L.feed st = vs.foldl L.feed st := by
  intro vs
  induction vs with
  | nil => exact fun _ => rfl
  | cons v vs ih =>
      intro st
      cases hv : L.isPartial v with
      | true => simp [live, hv, ih]
      | false =>
          obtain ⟨r, hr⟩ := feed_full_isDone hL st hv
          simp [live, hv, hr, L.foldl_feed_done]

theorem readNewest_live (hL : L.FullBase) (vs : List V) :
    L.readNewest (L.live vs) = L.readNewest vs := by
  rw [readNewest, readNewest, foldNewest, foldNewest, foldl_feed_live hL]

/-! ## Replays -/

theorem replay_concat (vs : List V) (v : V) :
    L.replay (vs ++ [v]) = some (L.layerOpt (L.replay vs) v) := by
  simp [replay]

theorem replay_eq_none {vs : List V} (h : L.replay vs = none) : vs = [] := by
  rcases List.eq_nil_or_concat vs with rfl | ⟨us, v, rfl⟩
  · rfl
  · rw [List.concat_eq_append, replay_concat] at h
    cases h

theorem layerOpt_full {v : V} (hv : L.isPartial v = false) (o : Option V) :
    L.layerOpt o v = v := by
  cases o with
  | none => rfl
  | some o => exact L.layer_of_full hv

/-- What is laid on a full version is full. -/
theorem isPartial_layer_of_full (hL : L.FullBase) {o : V} (ho : L.isPartial o = false) (n : V) :
    L.isPartial (L.layer o n) = false := by
  cases hn : L.isPartial n with
  | true =>
      rw [L.layer_of_isPartial hn]
      exact hL o n ho
  | false =>
      rw [L.layer_of_full hn]
      exact hn

theorem replay_append_full (hL : L.FullBase) {us : List V} {o : V} (hus : L.replay us = some o)
    (ho : L.isPartial o = false) (vs : List V) :
    ∃ r, L.replay (us ++ vs) = some r ∧ L.isPartial r = false := by
  induction vs using List.reverseRecOn with
  | nil => exact ⟨o, by simpa using hus, ho⟩
  | append_singleton vs v ih =>
      obtain ⟨r, hr, hfull⟩ := ih
      refine ⟨L.layer r v, ?_, isPartial_layer_of_full hL hfull v⟩
      rw [← List.append_assoc, replay_concat, hr]
      rfl

/-- One full version makes the replay full. -/
theorem isPartial_replay_of_mem (hL : L.FullBase) {vs : List V} {v : V} (hmem : v ∈ vs)
    (hv : L.isPartial v = false) {r : V} (hr : L.replay vs = some r) : L.isPartial r = false := by
  obtain ⟨us, ws, rfl⟩ := List.append_of_mem hmem
  have hus : L.replay (us ++ [v]) = some v := by rw [replay_concat, layerOpt_full hv]
  obtain ⟨r', hr', hfull⟩ := replay_append_full hL hus hv ws
  have heq : some r = some r' := by
    rw [← hr, ← hr', List.append_assoc]
    rfl
  rw [Option.some.inj heq]
  exact hfull

namespace KeepsPartial

variable {Ok : V → Prop}

theorem ok_replay (hL : L.KeepsPartial Ok) {vs : List V} (hok : ∀ v ∈ vs, Ok v) {s : V}
    (hs : L.replay vs = some s) : Ok s := by
  rw [replay_eq_stack] at hs
  exact hL.ok_stack (fun v hv => hok v (List.mem_reverse.1 hv)) hs

/-- A full value rests on a full version: nothing older shows. -/
theorem stack_append_of_full (hL : L.KeepsPartial Ok) (ys : List V) :
    ∀ {xs : List V}, (∀ v ∈ xs, Ok v) → ∀ {v : V}, L.stack xs = some v → L.isPartial v = false →
      L.stack (xs ++ ys) = some v := by
  intro xs
  induction xs with
  | nil =>
      intro _ v hv
      simp at hv
  | cons x xs ih =>
      intro hok v hv hfull
      have hxs : ∀ w ∈ xs, Ok w := fun w hw => hok w (by simp [hw])
      rw [stack_cons, Option.some.injEq] at hv
      rw [List.cons_append, stack_cons, Option.some.injEq]
      cases hx : L.isPartial x with
      | false =>
          rw [layerOpt_full hx] at hv ⊢
          exact hv
      | true =>
          -- `x` is partial and the outcome is not, so it lies on a full value.
          cases hst : L.stack xs with
          | none =>
              rw [hst, layerOpt_none] at hv
              rw [← hv, hx] at hfull
              cases hfull
          | some o =>
              rw [hst, layerOpt_some, L.layer_of_isPartial hx] at hv
              have ho : L.isPartial o = false := by
                cases hop : L.isPartial o with
                | false => rfl
                | true =>
                    have hmerge := hL.isPartial_merge (hL.ok_stack hxs hst) (hok x (by simp)) hop
                    rw [hv, hfull] at hmerge
                    cases hmerge
              rw [ih hxs hst ho, layerOpt_some, L.layer_of_isPartial hx]
              exact hv

/-- A suffix of the history that replays to a full version replays like the whole. -/
theorem replay_append_of_full (hL : L.KeepsPartial Ok) (us : List V) {vs : List V}
    (hok : ∀ v ∈ vs, Ok v) {v : V} (hv : L.replay vs = some v) (hfull : L.isPartial v = false) :
    L.replay (us ++ vs) = some v := by
  rw [replay_eq_stack] at hv ⊢
  rw [List.reverse_append]
  exact hL.stack_append_of_full us.reverse (fun v hv => hok v (List.mem_reverse.1 hv)) hv hfull

end KeepsPartial

/-! Full versions only -/

theorem replay_of_full {vs : List V} (h : ∀ v ∈ vs, L.isPartial v = false) :
    L.replay vs = vs.getLast? := by
  rcases List.eq_nil_or_concat vs with rfl | ⟨us, v, rfl⟩
  · rfl
  · rw [List.concat_eq_append] at h ⊢
    rw [replay_concat, layerOpt_full (h v (by simp)), List.getLast?_concat]

/-- Without partial versions there is nothing to associate. -/
theorem lawful_of_full (hL : L.FullBase) : L.Lawful (fun v => L.isPartial v = false) where
  ok_merge ho _ := hL _ _ ho
  partial_merge ho _ := (hL _ _ ho).trans ho.symm
  merge_assoc _ hb _ hbp _ := by simp [hb] at hbp

/-! ## Flushed versions and the history -/

variable (L) in
/-- The versions `vs`, newest first, read as consecutive pieces of `history`, each replayed. -/
def Tiles (vs history : List V) : Prop :=
  ∃ pieces : List (List V), pieces.flatten = history ∧
    L.live vs = L.live (pieces.reverse.filterMap L.replay)

theorem Tiles.nil : L.Tiles [] [] := ⟨[], rfl, rfl⟩

/-- Versions tile themselves, one by one. -/
theorem Tiles.self (vs : List V) : L.Tiles vs vs.reverse := by
  refine ⟨vs.reverse.map (fun v => [v]), List.flatMap_singleton' vs.reverse, ?_⟩
  rw [← List.map_reverse, List.reverse_reverse, List.filterMap_map]
  have hsome : L.replay ∘ (fun v => [v]) = some := rfl
  rw [hsome, List.filterMap_some]

/-- Flushing the next piece of the history. -/
theorem Tiles.push {vs history : List V} (h : L.Tiles vs history) (piece : List V) :
    L.Tiles ((L.replay piece).toList ++ vs) (history ++ piece) := by
  obtain ⟨pieces, rfl, hlive⟩ := h
  refine ⟨pieces ++ [piece], by simp, ?_⟩
  rw [List.reverse_append, List.reverse_singleton, List.singleton_append, List.filterMap_cons]
  cases hp : L.replay piece with
  | none => simpa using hlive
  | some v => exact live_append_congr hlive [v]

/-- Flushing one piece after the other. -/
theorem Tiles.pushAll {vs history : List V} (h : L.Tiles vs history) (pieces : List (List V)) :
    L.Tiles (pieces.reverse.filterMap L.replay ++ vs) (history ++ pieces.flatten) := by
  induction pieces generalizing vs history with
  | nil => simpa using h
  | cons piece pieces ih =>
      have hpush := ih (h.push piece)
      have hhead : [piece].filterMap L.replay = (L.replay piece).toList := by
        cases hr : L.replay piece <;> simp [hr]
      rw [List.reverse_cons, List.filterMap_append, hhead, List.append_assoc, List.flatten_cons,
        ← List.append_assoc history]
      exact hpush

/-- Tiling depends on what a walk reaches only. -/
theorem Tiles.congr {vs ws history : List V} (h : L.Tiles vs history)
    (hlive : L.live ws = L.live vs) : L.Tiles ws history := by
  obtain ⟨pieces, hflat, hpieces⟩ := h
  exact ⟨pieces, hflat, hlive.trans hpieces⟩

theorem Tiles.of_full {history : List V} {v : V} (hv : L.replay history = some v)
    (hfull : L.isPartial v = false) (vs : List V) : L.Tiles (v :: vs) history := by
  refine ⟨[history], by simp, ?_⟩
  simp [hv, live_of_full hfull]

/-- A full version flushed twice in a row reads like one. -/
theorem Tiles.of_double {v : V} {above vs history : List V} (hfull : L.isPartial v = false)
    (h : L.Tiles (above ++ v :: vs) history) : L.Tiles (above ++ v :: v :: vs) history := by
  obtain ⟨pieces, hflat, hlive⟩ := h
  refine ⟨pieces, hflat, ?_⟩
  rw [← hlive]
  exact live_append_congr (by simp [live_of_full hfull]) above

/-- The walk over tiling versions is the walk over the replayed pieces. -/
theorem Tiles.readNewest_eq (hL : L.FullBase) {vs history : List V} (h : L.Tiles vs history) :
    ∃ pieces : List (List V), pieces.flatten = history ∧
      L.readNewest vs = L.readNewest (pieces.reverse.filterMap L.replay) := by
  obtain ⟨pieces, hflat, hlive⟩ := h
  exact ⟨pieces, hflat, by rw [← readNewest_live hL, hlive, readNewest_live hL]⟩

/-- Where layering is associative, tiling versions read as the replay of the history. -/
theorem Tiles.readNewest_eq_replay {Ok : V → Prop} (hL : L.Lawful Ok) (hfull : L.FullBase)
    {vs history : List V} (h : L.Tiles vs history) (hok : ∀ v ∈ history, Ok v) :
    L.readNewest vs = L.replay history := by
  obtain ⟨pieces, rfl, hread⟩ := h.readNewest_eq hfull
  have hpiece : ∀ piece ∈ pieces, ∀ v ∈ piece, Ok v :=
    fun piece hp v hv => hok v (List.mem_flatten.2 ⟨piece, hp, hv⟩)
  have hfun : L.replay = fun piece => L.stack piece.reverse := by
    funext piece
    exact L.replay_eq_stack piece
  have hreplays : ∀ v ∈ pieces.reverse.filterMap L.replay, Ok v := by
    intro v hv
    obtain ⟨piece, hp, hv⟩ := List.mem_filterMap.1 hv
    rw [L.replay_eq_stack] at hv
    have hpiece' := hpiece piece (List.mem_reverse.1 hp)
    exact hL.ok_stack (fun w hw => hpiece' w (List.mem_reverse.1 hw)) hv
  have hrev : ∀ vs ∈ pieces.reverse.map List.reverse, ∀ v ∈ vs, Ok v := by
    intro vs hvs v hv
    obtain ⟨piece, hp, rfl⟩ := List.mem_map.1 hvs
    exact hpiece piece (List.mem_reverse.1 hp) v (List.mem_reverse.1 hv)
  calc L.readNewest vs
      = L.stack (pieces.reverse.filterMap L.replay) := by
        rw [hread, hL.readNewest_eq_stack hreplays]
    _ = L.stack ((pieces.reverse.map List.reverse).filterMap L.stack) := by
        rw [List.filterMap_map, hfun]
        rfl
    _ = L.stack (pieces.reverse.map List.reverse).flatten := hL.stack_flatten hrev
    _ = L.replay pieces.flatten := by
        rw [L.replay_eq_stack, List.reverse_flatten, List.map_reverse]

/-! ## A log on top -/

variable (L) in
/-- Replaying `log` over the flushed versions `vs` restores the history. -/
inductive Durable (vs log history : List V) : Prop
  /-- The log continues what is flushed. -/
  | cut (flushed : List V) (htiles : L.Tiles vs flushed) (hsplit : flushed ++ log = history)
  /-- The log hides what is flushed. -/
  | full (v : V) (hfull : L.isPartial v = false) (hlog : L.replay log = some v)
      (hhistory : L.replay history = some v)

namespace Durable

variable {Ok : V → Prop} {vs log history : List V}

/-- A log that replays to a full version holds the value of the history. -/
theorem replay_history (hL : L.KeepsPartial Ok) (hok : ∀ v ∈ log, Ok v)
    (h : L.Durable vs log history) {v : V} (hv : L.replay log = some v)
    (hfull : L.isPartial v = false) : L.replay history = some v := by
  cases h with
  | cut flushed htiles hsplit =>
      rw [← hsplit]
      exact hL.replay_append_of_full flushed hok hv hfull
  | full w hwfull hlog hhistory =>
      rw [hhistory, ← hlog, hv]

/-- Flushing the replay of the log. -/
theorem tiles (h : L.Durable vs log history) :
    L.Tiles ((L.replay log).toList ++ vs) history := by
  cases h with
  | cut flushed htiles hsplit =>
      rw [← hsplit]
      exact htiles.push log
  | full v hfull hlog hhistory =>
      rw [hlog]
      exact Tiles.of_full hhistory hfull vs

theorem of_tiles (h : L.Tiles vs history) : L.Durable vs [] history :=
  .cut history h (by simp)

/-- With nothing left to replay, the flushed versions tile the history. -/
theorem tiles_of_nil (h : L.Durable vs [] history) : L.Tiles vs history := by
  simpa [replay] using h.tiles

/-- A crash while the replay of the log was being appended to it. -/
theorem reappend (hL : L.KeepsPartial Ok) (hok : ∀ v ∈ log, Ok v) (h : L.Durable vs log history)
    {v : V} (hv : L.replay log = some v) (hfull : L.isPartial v = false) (us : List V) :
    L.Durable us (log ++ [v]) history :=
  .full v hfull (by rw [replay_concat, layerOpt_full hfull]) (h.replay_history hL hok hv hfull)

/-- A crash while the flushed log was being deleted, oldest part first. -/
theorem of_suffix (hL : L.KeepsPartial Ok) {gone rest : List V} (hok : ∀ v ∈ gone ++ rest, Ok v)
    (h : L.Durable vs (gone ++ rest) history)
    (hrest : ∀ v, L.replay rest = some v → L.isPartial v = false) :
    L.Durable ((L.replay (gone ++ rest)).toList ++ vs) rest history := by
  cases hr : L.replay rest with
  | none =>
      rw [replay_eq_none hr] at h ⊢
      exact of_tiles h.tiles
  | some v =>
      have hfull := hrest v hr
      have hok' : ∀ w ∈ rest, Ok w := fun w hw => hok w (List.mem_append_right _ hw)
      have hall := hL.replay_append_of_full gone hok' hr hfull
      exact .full v hfull hr (h.replay_history hL hok hall hfull)

end Durable

/-- A crash between flushing the oldest part of the log and deleting it. -/
theorem Tiles.durable_of_overlap {Ok : V → Prop} (hL : L.KeepsPartial Ok)
    {vs flushed part rest : List V} (h : L.Tiles vs flushed) (hok : ∀ v ∈ part ++ rest, Ok v)
    (hfull : part ≠ [] → ∀ v, L.replay (part ++ rest) = some v → L.isPartial v = false) :
    L.Durable ((L.replay part).toList ++ vs) (part ++ rest) (flushed ++ (part ++ rest)) := by
  cases hp : part with
  | nil => exact .cut flushed h rfl
  | cons p ps =>
      rw [← hp]
      have hne : part ≠ [] := by simp [hp]
      cases hr : L.replay (part ++ rest) with
      | none => simp [hp] at hr; exact absurd (replay_eq_none hr) (by simp)
      | some v =>
          have hv := hfull hne v hr
          exact .full v hv hr (hL.replay_append_of_full flushed hok hr hv)

end Layering
end Lib
end Girder
