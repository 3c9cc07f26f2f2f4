import Mathlib.Logic.Function.Iterate
import Mathlib.Data.List.Basic

/-!
# Crc — checksums by a shift register

A register of `w` bits takes in one bit of the message at a time: the bit is added at the low end,
and the register moves down one place, adding a fixed polynomial when the bit that leaves is set.

A shift is linear, and invertible when the polynomial has its high bit.  So a difference in the
register never dies out, and taking in up to `w` bits is the same as adding them all at once and
shifting that often (`foldl_feed`).  Two messages that differ within `w` consecutive bits only
therefore leave different registers (`feed_detects`).
-/

namespace Girder
namespace Lib

variable {w : Nat}

/-- Bits as a number, the first one lowest. -/
def bitsWord (w : Nat) : List Bool → BitVec w
  | [] => 0
  | b :: bits => (bitsWord w bits <<< 1) ^^^ (BitVec.ofBool b).setWidth w

/-- The register moves down one place. -/
def shiftOut (poly c : BitVec w) : BitVec w :=
  if c.getLsbD 0 then (c >>> 1) ^^^ poly else c >>> 1

/-- The register takes in one bit. -/
def feed (poly c : BitVec w) (b : Bool) : BitVec w :=
  shiftOut poly (c ^^^ (BitVec.ofBool b).setWidth w)

/-- Two messages of one length that differ within some `n` consecutive bits only. -/
def Burst (n : Nat) (xs ys : List Bool) : Prop :=
  xs.length = ys.length ∧ ∃ k, ∀ i, i < k ∨ k + n ≤ i → xs[i]? = ys[i]?

/-- What comes before and after a burst is the same. -/
theorem Burst.split {n : Nat} {xs ys : List Bool} (h : Burst n xs ys) :
    ∃ front mid mid' back, xs = front ++ (mid ++ back) ∧ ys = front ++ (mid' ++ back) ∧
      mid.length = mid'.length ∧ mid.length ≤ n := by
  obtain ⟨hlen, k, hsame⟩ := h
  have hfront : xs.take k = ys.take k := by
    apply List.ext_getElem?
    intro i
    rw [List.getElem?_take, List.getElem?_take]
    split
    · exact hsame i (Or.inl ‹_›)
    · rfl
  have hback : xs.drop (k + n) = ys.drop (k + n) := by
    apply List.ext_getElem?
    intro i
    rw [List.getElem?_drop, List.getElem?_drop]
    exact hsame _ (Or.inr (Nat.le_add_right _ _))
  have hcut : ∀ zs : List Bool,
      zs = zs.take k ++ ((zs.drop k).take n ++ zs.drop (k + n)) := by
    intro zs
    rw [← List.drop_drop, List.take_append_drop, List.take_append_drop]
  refine ⟨xs.take k, (xs.drop k).take n, (ys.drop k).take n, xs.drop (k + n), hcut xs, ?_, ?_,
    ?_⟩
  · rw [hfront, hback]
    exact hcut ys
  · simp [hlen]
  · rw [List.length_take]
    exact Nat.min_le_left _ _

theorem burst_of_split {n : Nat} {front mid mid' back : List Bool} (hlen : mid.length = mid'.length)
    (hfit : mid.length ≤ n) : Burst n (front ++ (mid ++ back)) (front ++ (mid' ++ back)) := by
  refine ⟨by simp [hlen], front.length, fun i hi => ?_⟩
  rcases hi with hi | hi
  · rw [List.getElem?_append_left hi, List.getElem?_append_left hi]
  · rw [List.getElem?_append_right (by omega), List.getElem?_append_right (by omega),
      List.getElem?_append_right (by omega), List.getElem?_append_right (by omega), hlen]

theorem getLsbD_bitsWord {bits : List Bool} :
    ∀ {i : Nat}, i < w → (bitsWord w bits).getLsbD i = bits.getD i false := by
  induction bits with
  | nil =>
      intro i _
      simp [bitsWord]
  | cons b bits ih =>
      intro i hi
      cases i with
      | zero => simp [bitsWord, hi]
      | succ i =>
          have hrest := ih (Nat.lt_of_succ_lt hi)
          rw [BitVec.getLsbD_eq_getElem (Nat.lt_of_succ_lt hi), List.getD_eq_getElem?_getD] at hrest
          simp [bitsWord, hi, hrest]

/-- As many bits as fit are told apart. -/
theorem bitsWord_inj {xs ys : List Bool} (hlen : xs.length = ys.length) (hfit : xs.length ≤ w)
    (h : bitsWord w xs = bitsWord w ys) : xs = ys := by
  refine List.ext_getElem hlen fun i hi hi' => ?_
  have hbit := congrArg (fun x => x.getLsbD i) h
  have hroom : i < w := Nat.lt_of_lt_of_le hi hfit
  simp only [getLsbD_bitsWord hroom] at hbit
  simpa [List.getD_eq_getElem?_getD, hi, hi'] using hbit

section Shift

variable {poly : BitVec w}

theorem getLsbD_shiftOut (c : BitVec w) (i : Nat) :
    (shiftOut poly c).getLsbD i = ((c.getLsbD (1 + i)) ^^ (c.getLsbD 0 && poly.getLsbD i)) := by
  unfold shiftOut
  cases hlow : c.getLsbD 0 <;> simp

/-- A shift is linear. -/
theorem shiftOut_xor (c d : BitVec w) :
    shiftOut poly (c ^^^ d) = shiftOut poly c ^^^ shiftOut poly d := by
  apply BitVec.eq_of_getLsbD_eq
  intro i _
  rw [BitVec.getLsbD_xor, getLsbD_shiftOut, getLsbD_shiftOut, getLsbD_shiftOut, BitVec.getLsbD_xor,
    BitVec.getLsbD_xor]
  cases c.getLsbD (1 + i) <;> cases d.getLsbD (1 + i) <;> cases c.getLsbD 0 <;>
    cases d.getLsbD 0 <;> cases poly.getLsbD i <;> rfl

/-- The bit that left is at the high end afterwards, so nothing is lost. -/
theorem shiftOut_injective (hw : 0 < w) (hpoly : poly.getLsbD (w - 1) = true) :
    Function.Injective (shiftOut poly) := by
  intro c d h
  have hbit : ∀ i, (c.getLsbD (1 + i) ^^ (c.getLsbD 0 && poly.getLsbD i)) =
      (d.getLsbD (1 + i) ^^ (d.getLsbD 0 && poly.getLsbD i)) := by
    intro i
    rw [← getLsbD_shiftOut, ← getLsbD_shiftOut, h]
  -- The high bit after the shift is set exactly when the polynomial was added.
  have hlow : c.getLsbD 0 = d.getLsbD 0 := by
    have hhigh := hbit (w - 1)
    rw [BitVec.getLsbD_of_ge c _ (by omega), BitVec.getLsbD_of_ge d _ (by omega), hpoly] at hhigh
    simpa using hhigh
  apply BitVec.eq_of_getLsbD_eq
  intro i _
  cases i with
  | zero => exact hlow
  | succ i =>
      have hnext := hbit i
      rw [hlow, Nat.add_comm 1 i] at hnext
      exact Bool.xor_left_inj.1 hnext

/-- A word with room at the high end moves up and down again. -/
theorem shiftOut_shiftLeft {c : BitVec w} (hroom : c.getLsbD (w - 1) = false) :
    shiftOut poly (c <<< 1) = c := by
  apply BitVec.eq_of_getLsbD_eq
  intro i hi
  rw [getLsbD_shiftOut]
  by_cases hlast : i = w - 1
  · subst hlast
    rw [BitVec.getLsbD_of_ge _ _ (by omega), hroom]
    simp
  · have hlt : 1 + i < w := by omega
    simp [hlt, BitVec.getLsbD_eq_getElem hi]

theorem getLsbD_bitsWord_high {bits : List Bool} (hfit : bits.length < w) :
    (bitsWord w bits).getLsbD (w - 1) = false := by
  rw [getLsbD_bitsWord (by omega), List.getD_eq_getElem?_getD, List.getElem?_eq_none (by omega)]
  rfl

/-- Taking in bits that fit the register is adding them at once and shifting that often. -/
theorem foldl_feed {bits : List Bool} :
    ∀ {c : BitVec w}, bits.length ≤ w →
      bits.foldl (feed poly) c = (shiftOut poly)^[bits.length] (c ^^^ bitsWord w bits) := by
  induction bits with
  | nil =>
      intro c _
      simp [bitsWord]
  | cons b bits ih =>
      intro c hfit
      have hroom : bits.length < w := hfit
      -- The later bits may be added before the shift, one place higher.
      have hlater : shiftOut poly (bitsWord w bits <<< 1) = bitsWord w bits :=
        shiftOut_shiftLeft (getLsbD_bitsWord_high hroom)
      calc (b :: bits).foldl (feed poly) c
          = (shiftOut poly)^[bits.length] (feed poly c b ^^^ bitsWord w bits) :=
            ih (Nat.le_of_lt hroom)
        _ = (shiftOut poly)^[bits.length] (shiftOut poly
              ((c ^^^ (BitVec.ofBool b).setWidth w) ^^^ (bitsWord w bits <<< 1))) := by
            rw [shiftOut_xor, hlater]
            rfl
        _ = (shiftOut poly)^[(b :: bits).length] (c ^^^ bitsWord w (b :: bits)) := by
            rw [BitVec.xor_assoc, BitVec.xor_comm _ (bitsWord w bits <<< 1)]
            rfl

/-- A difference in the register never dies out. -/
theorem foldl_feed_injective (hw : 0 < w) (hpoly : poly.getLsbD (w - 1) = true) (bits : List Bool) :
    Function.Injective (fun c => bits.foldl (feed poly) c) := by
  induction bits with
  | nil => exact fun _ _ h => h
  | cons b bits ih =>
      intro c d h
      have hstep : feed poly c b = feed poly d b := ih h
      have hsum := shiftOut_injective hw hpoly hstep
      exact (BitVec.xor_left_inj _).1 hsum

/-- Messages that differ in a burst no longer than the register leave different registers. -/
theorem feed_detects (hw : 0 < w) (hpoly : poly.getLsbD (w - 1) = true) {xs ys : List Bool}
    (hburst : Burst w xs ys) {c : BitVec w}
    (h : xs.foldl (feed poly) c = ys.foldl (feed poly) c) : xs = ys := by
  obtain ⟨front, mid, mid', back, rfl, rfl, hlen, hfit⟩ := hburst.split
  -- What follows the burst keeps the registers apart, and the burst fits the register.
  simp only [List.foldl_append] at h
  have hmid := foldl_feed_injective hw hpoly back h
  have hfit' : mid'.length ≤ w := hlen ▸ hfit
  simp only [foldl_feed hfit, foldl_feed hfit', hlen] at hmid
  have hsum := (shiftOut_injective hw hpoly).iterate mid'.length hmid
  rw [bitsWord_inj hlen hfit ((BitVec.xor_right_inj _).1 hsum)]

end Shift

end Lib
end Girder
