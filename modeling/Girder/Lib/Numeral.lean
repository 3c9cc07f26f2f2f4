import Mathlib.Order.Lattice
import Mathlib.Algebra.Order.Ring.Int

/-!
# Numeral — number formats an engine stores, compares and adds

A storage engine touches numbers in three ways: it adds them, it compares them (to prune and to
filter), and it ranks them (to sort).  This module isolates what each use needs:

* `Numeral` — the operations themselves, as a machine number format offers them;
* `LawfulNumeral` — what the comparisons of a format promise (not-a-number included);
* `ExactNumeral` — addition without rounding.

`Binary64` is the IEEE 754 double format on its bit patterns, with correctly rounded addition: it
is lawful and not exact.  `ℤ` is lawful and exact.  The module also puts the signed 64-bit machine
integers under Mathlib's order lemmas.
-/

namespace Girder
namespace Lib

/-! ## Signed 64-bit integers -/

instance instLinearOrderInt64 : LinearOrder Int64 where
  le_refl a := Int64.le_refl a
  le_trans _ _ _ := Int64.le_trans
  le_antisymm _ _ := Int64.le_antisymm
  le_total a b := Int64.le_total a b
  lt_iff_le_not_ge a b := by
    rw [Int64.lt_iff_toInt_lt, Int64.le_iff_toInt_le, Int64.le_iff_toInt_le]
    omega
  toDecidableLE := inferInstance
  toDecidableEq := inferInstance
  toDecidableLT := inferInstance
  compare_eq_compareOfLessAndEq _ _ := rfl

/-- Subtraction that saturates at the ends of the signed 64-bit range. -/
def satSub (a b : Int64) : Int64 :=
  let d := a.toInt - b.toInt
  if d < Int64.minValue.toInt then
    Int64.minValue
  else if Int64.maxValue.toInt < d then
    Int64.maxValue
  else
    Int64.ofInt d

/-! ## Operations and laws -/

/-- The operations of a machine number format. -/
class Numeral (ν : Type) extends Add ν, Zero ν where
  /-- `a < b`; false when either side is not a number. -/
  lt : ν → ν → Bool
  /-- `a <= b`; false when either side is not a number. -/
  le : ν → ν → Bool
  isNan : ν → Bool
  /-- The smaller operand; the other one when one is not a number. -/
  fmin : ν → ν → ν
  /-- The larger operand; the other one when one is not a number. -/
  fmax : ν → ν → ν
  /-- A rank in the total order of the format. -/
  ordered : ν → Nat

/-- What the comparisons of a number format promise. -/
class LawfulNumeral (ν : Type) [Numeral ν] : Prop where
  not_lt_of_le {a b : ν} : Numeral.le a b = true → Numeral.lt b a = false
  le_fmax_left {lo a : ν} (b : ν) :
    Numeral.le lo a = true → Numeral.le lo (Numeral.fmax a b) = true
  le_fmax_right {lo b : ν} (a : ν) :
    Numeral.le lo b = true → Numeral.le lo (Numeral.fmax a b) = true
  fmin_le_left {hi a : ν} (b : ν) :
    Numeral.le a hi = true → Numeral.le (Numeral.fmin a b) hi = true
  fmin_le_right {hi b : ν} (a : ν) :
    Numeral.le b hi = true → Numeral.le (Numeral.fmin a b) hi = true

/-- Addition without rounding. -/
class ExactNumeral (ν : Type) [Numeral ν] : Prop where
  add_assoc (a b c : ν) : a + b + c = a + (b + c)
  zero_add (a : ν) : 0 + a = a

/-! ## The integers -/

instance instNumeralInt : Numeral Int where
  lt a b := decide (a < b)
  le a b := decide (a ≤ b)
  isNan _ := false
  fmin a b := min a b
  fmax a b := max a b
  ordered a := (a + 2 ^ 63).toNat

instance instLawfulNumeralInt : LawfulNumeral Int where
  not_lt_of_le {a b} h := by
    have h' : a ≤ b := by simpa [Numeral.le] using h
    simpa [Numeral.lt] using h'
  le_fmax_left b h := by
    simp only [Numeral.le, Numeral.fmax, decide_eq_true_eq] at h ⊢
    exact le_max_of_le_left h
  le_fmax_right a h := by
    simp only [Numeral.le, Numeral.fmax, decide_eq_true_eq] at h ⊢
    exact le_max_of_le_right h
  fmin_le_left b h := by
    simp only [Numeral.le, Numeral.fmin, decide_eq_true_eq] at h ⊢
    exact min_le_of_left_le h
  fmin_le_right a h := by
    simp only [Numeral.le, Numeral.fmin, decide_eq_true_eq] at h ⊢
    exact min_le_of_right_le h

instance instExactNumeralInt : ExactNumeral Int where
  add_assoc := Int.add_assoc
  zero_add := Int.zero_add

/-! ## IEEE 754 doubles -/

/-- An IEEE 754 double, as its bit pattern: sign, eleven exponent bits, fifty-two fraction bits. -/
structure Binary64 where
  bits : BitVec 64
  deriving DecidableEq, Repr

namespace Binary64

def negative (a : Binary64) : Bool := a.bits.msb

/-- The bit pattern without its sign: increasing in the absolute value. -/
def magnitude (a : Binary64) : Nat := a.bits.toNat % 2 ^ 63

/-- The magnitude of the infinities; everything above it is not a number. -/
def infinity : Nat := 0x7ff0000000000000

def isNan (a : Binary64) : Bool := decide (infinity < a.magnitude)

/-- The signed magnitude: the two zeros are both `0`, and numbers compare as it does. -/
def key (a : Binary64) : Int :=
  if a.negative then -(a.magnitude : Int) else a.magnitude

def lt (a b : Binary64) : Bool := !a.isNan && !b.isNan && decide (a.key < b.key)

def le (a b : Binary64) : Bool := !a.isNan && !b.isNan && decide (a.key ≤ b.key)

def fmin (a b : Binary64) : Binary64 :=
  if a.isNan then b else if b.isNan then a else if b.lt a then b else a

def fmax (a b : Binary64) : Binary64 :=
  if a.isNan then b else if b.isNan then a else if a.lt b then b else a

/-- The rank of `f64::total_cmp`: flip everything below zero, the sign bit above it. -/
def ordered (a : Binary64) : Nat :=
  if a.negative then (~~~a.bits).toNat else (a.bits ||| BitVec.ofNat 64 (2 ^ 63)).toNat

/-- The value of a finite magnitude in units of the smallest subnormal, `2 ^ (-1074)`. -/
def units (m : Nat) : Nat :=
  if m < 2 ^ 52 then m else (2 ^ 52 + m % 2 ^ 52) * 2 ^ (m / 2 ^ 52 - 1)

/-- The magnitude nearest to `n` units, ties to even; overflow goes to infinity. -/
def round (n : Nat) : Nat :=
  if n < 2 ^ 53 then
    n
  else
    let shift := n.log2 - 52
    let q := n / 2 ^ shift
    let r := n % 2 ^ shift
    let up := 2 ^ shift < 2 * r ∨ (2 ^ shift = 2 * r ∧ q % 2 = 1)
    min infinity (shift * 2 ^ 52 + (if up then q + 1 else q))

def ofParts (neg : Bool) (m : Nat) : Binary64 :=
  ⟨BitVec.ofNat 64 (if neg then 2 ^ 63 + m else m)⟩

def nan : Binary64 := ⟨0x7ff8000000000000⟩

/-- Correctly rounded addition. -/
def add (a b : Binary64) : Binary64 :=
  if a.isNan || b.isNan then
    nan
  else if a.magnitude = infinity then
    if b.magnitude = infinity ∧ a.negative ≠ b.negative then nan else a
  else if b.magnitude = infinity then
    b
  else
    let signed (x : Binary64) : Int :=
      if x.negative then -(units x.magnitude) else units x.magnitude
    let z := signed a + signed b
    if z = 0 then
      ofParts (a.negative && b.negative) 0
    else
      ofParts (decide (z < 0)) (round z.natAbs)

end Binary64

instance instNumeralBinary64 : Numeral Binary64 where
  add := Binary64.add
  zero := ⟨0⟩
  lt := Binary64.lt
  le := Binary64.le
  isNan := Binary64.isNan
  fmin := Binary64.fmin
  fmax := Binary64.fmax
  ordered := Binary64.ordered

namespace Binary64

theorem le_iff {a b : Binary64} :
    a.le b = true ↔ a.isNan = false ∧ b.isNan = false ∧ a.key ≤ b.key := by
  simp [le, and_assoc]

theorem lt_iff {a b : Binary64} :
    a.lt b = true ↔ a.isNan = false ∧ b.isNan = false ∧ a.key < b.key := by
  simp [lt, and_assoc]

theorem fmax_cases (a b : Binary64) :
    (a.isNan = true ∧ fmax a b = b) ∨ (b.isNan = true ∧ fmax a b = a) ∨
      (a.key ≤ b.key ∧ b.isNan = false ∧ fmax a b = b) ∨
      (b.key ≤ a.key ∧ a.isNan = false ∧ fmax a b = a) := by
  unfold fmax
  cases ha : a.isNan with
  | true => simp
  | false =>
      cases hb : b.isNan with
      | true => simp
      | false =>
          by_cases hlt : a.lt b = true
          · have hkey := (lt_iff.1 hlt).2.2
            simp [hlt, hkey.le]
          · have hkey : b.key ≤ a.key := by
              by_contra hcon
              exact hlt (lt_iff.2 ⟨ha, hb, not_le.1 hcon⟩)
            simp [hlt, hkey]

theorem fmin_cases (a b : Binary64) :
    (a.isNan = true ∧ fmin a b = b) ∨ (b.isNan = true ∧ fmin a b = a) ∨
      (b.key ≤ a.key ∧ b.isNan = false ∧ fmin a b = b) ∨
      (a.key ≤ b.key ∧ a.isNan = false ∧ fmin a b = a) := by
  unfold fmin
  cases ha : a.isNan with
  | true => simp
  | false =>
      cases hb : b.isNan with
      | true => simp
      | false =>
          by_cases hlt : b.lt a = true
          · have hkey := (lt_iff.1 hlt).2.2
            simp [hlt, hkey.le]
          · have hkey : a.key ≤ b.key := by
              by_contra hcon
              exact hlt (lt_iff.2 ⟨hb, ha, not_le.1 hcon⟩)
            simp [hlt, hkey]

theorem le_fmax_left {lo a : Binary64} (b : Binary64) (h : lo.le a = true) :
    lo.le (fmax a b) = true := by
  have hle := le_iff.1 h
  rcases fmax_cases a b with ⟨hn, -⟩ | ⟨-, he⟩ | ⟨hk, hb, he⟩ | ⟨-, -, he⟩
  · simp [hle.2.1] at hn
  · rw [he]
    exact h
  · rw [he]
    exact le_iff.2 ⟨hle.1, hb, hle.2.2.trans hk⟩
  · rw [he]
    exact h

theorem le_fmax_right {lo b : Binary64} (a : Binary64) (h : lo.le b = true) :
    lo.le (fmax a b) = true := by
  have hle := le_iff.1 h
  rcases fmax_cases a b with ⟨-, he⟩ | ⟨hn, -⟩ | ⟨-, -, he⟩ | ⟨hk, ha, he⟩
  · rw [he]
    exact h
  · simp [hle.2.1] at hn
  · rw [he]
    exact h
  · rw [he]
    exact le_iff.2 ⟨hle.1, ha, hle.2.2.trans hk⟩

theorem fmin_le_left {hi a : Binary64} (b : Binary64) (h : a.le hi = true) :
    (fmin a b).le hi = true := by
  have hle := le_iff.1 h
  rcases fmin_cases a b with ⟨hn, -⟩ | ⟨-, he⟩ | ⟨hk, hb, he⟩ | ⟨-, -, he⟩
  · simp [hle.1] at hn
  · rw [he]
    exact h
  · rw [he]
    exact le_iff.2 ⟨hb, hle.2.1, hk.trans hle.2.2⟩
  · rw [he]
    exact h

theorem fmin_le_right {hi b : Binary64} (a : Binary64) (h : b.le hi = true) :
    (fmin a b).le hi = true := by
  have hle := le_iff.1 h
  rcases fmin_cases a b with ⟨-, he⟩ | ⟨hn, -⟩ | ⟨-, -, he⟩ | ⟨hk, ha, he⟩
  · rw [he]
    exact h
  · simp [hle.1] at hn
  · rw [he]
    exact h
  · rw [he]
    exact le_iff.2 ⟨ha, hle.2.1, hk.trans hle.2.2⟩

theorem not_lt_of_le {a b : Binary64} (h : a.le b = true) : b.lt a = false := by
  have hle := le_iff.1 h
  cases hlt : b.lt a with
  | true => exact absurd (lt_iff.1 hlt).2.2 (not_lt.2 hle.2.2)
  | false => rfl

end Binary64

instance instLawfulNumeralBinary64 : LawfulNumeral Binary64 where
  not_lt_of_le := Binary64.not_lt_of_le
  le_fmax_left := Binary64.le_fmax_left
  le_fmax_right := Binary64.le_fmax_right
  fmin_le_left := Binary64.fmin_le_left
  fmin_le_right := Binary64.fmin_le_right

/-! ## Bit patterns -/

/-- A number format of 64 bits, with the values outside the ordinary range. -/
class FloatBits (ν : Type) where
  toBits : ν → BitVec 64
  ofBits : BitVec 64 → ν
  nan : ν
  infinity : ν
  negInfinity : ν

/-- A number is its bit pattern. -/
class LawfulFloatBits (ν : Type) [FloatBits ν] : Prop where
  ofBits_toBits : ∀ v : ν, FloatBits.ofBits (FloatBits.toBits v) = v

instance instFloatBitsBinary64 : FloatBits Binary64 where
  toBits := Binary64.bits
  ofBits := Binary64.mk
  nan := Binary64.nan
  infinity := Binary64.ofParts false Binary64.infinity
  negInfinity := Binary64.ofParts true Binary64.infinity

instance instLawfulFloatBitsBinary64 : LawfulFloatBits Binary64 where
  ofBits_toBits _ := rfl

end Lib
end Girder
