import Girder.Lib.Lists
import Girder.Lib.Utf8
import Girder.Segment

/-!
# Cursor — the checked reads the segment decoders are made of

Decoding a segment can fail in two ways: a decoder returns an error, or it panics (an index out of
range, an arithmetic overflow, a string cut inside a character).  `Res` keeps the two apart.  `Cur` is
the checked little-endian cursor over a section body; its reads past the end are errors.
-/

namespace Girder

open Lib

/-- How decoding ends other than in a value. -/
inductive Fault
  | err (e : GirderError)
  | panic
  deriving DecidableEq, Repr

abbrev Res := Except Fault

def corrupt (detail : String) : Fault := .err (.corrupt "segment" detail)

namespace Res

variable {α : Type}

/-- Fail unless `c`. -/
def check (c : Prop) [Decidable c] (e : Fault) : Res Unit :=
  if c then .ok () else .error e

/-- Room for `n` items of `size` bytes. -/
def capacity (n size : Nat) : Res Unit := check (n * size < 2 ^ 63) .panic

/-- A value that must be there. -/
def unwrap (a : Option α) : Res α :=
  match a with
  | some a => .ok a
  | none => .error .panic

/-- `l[i]`. -/
def index (l : List α) (i : Nat) : Res α := unwrap l[i]?

/-- A sum of two 64-bit offsets. -/
def add64 (a b : Nat) : Res Nat := if a + b < 2 ^ 64 then .ok (a + b) else .error .panic

/-- The length between two offsets. -/
def sub64 (a b : Nat) : Res Nat := if b ≤ a then .ok (a - b) else .error .panic

/-- `&s[a..b]`. -/
def sliceStr (s : String) (a b : Nat) : Res String := unwrap (Lib.sliceStr s a b)

/-- `String::from_utf8`. -/
def utf8 (bs : Bytes) (detail : String) : Res String :=
  match fromUtf8 bs with
  | some s => .ok s
  | none => .error (corrupt detail)

theorem ok_bind {β : Type} (a : α) (f : α → Res β) : ((.ok a : Res α) >>= f) = f a := rfl

theorem ok_ne_panic {a : α} : (.ok a : Res α) ≠ .error .panic := by
  intro h
  cases h

@[simp]
theorem check_true {c : Prop} [Decidable c] {e : Fault} (h : c) : check c e = .ok () := if_pos h

theorem unwrap_of_eq_some {o : Option α} {a : α} (h : o = some a) : unwrap o = .ok a := by
  rw [h]
  rfl

theorem index_of_getElem? {l : List α} {i : Nat} {a : α} (h : l[i]? = some a) :
    index l i = .ok a := unwrap_of_eq_some h

theorem add64_of_lt {a b : Nat} (h : a + b < 2 ^ 64) : add64 a b = .ok (a + b) := if_pos h

@[simp]
theorem sub64_add (a b : Nat) : sub64 (a + b) a = .ok b := by
  simp [sub64]

@[simp]
theorem utf8_utf8 (s : String) (detail : String) : utf8 (Lib.utf8 s) detail = .ok s := by
  simp [utf8]

theorem forM_ok {f : α → Res PUnit} :
    ∀ {l : List α}, (∀ a ∈ l, f a = .ok ()) → l.forM f = .ok () := by
  intro l
  induction l with
  | nil => exact fun _ => rfl
  | cons a l ih =>
      intro h
      show (f a >>= fun _ => l.forM f) = .ok ()
      rw [h a (by simp)]
      exact ih (fun b hb => h b (by simp [hb]))

theorem of_forM_ok {f : α → Res PUnit} {l : List α} (h : l.forM f = .ok ()) :
    ∀ a ∈ l, f a = .ok () := by
  induction l with
  | nil => exact fun a ha => absurd ha List.not_mem_nil
  | cons a l ih =>
      change (f a >>= fun _ => l.forM f) = .ok () at h
      cases hf : f a with
      | error e => rw [hf] at h; cases h
      | ok u =>
          rw [hf] at h
          intro b hb
          rcases List.mem_cons.1 hb with rfl | hb
          · exact hf
          · exact ih h b hb

theorem utf8_eq_ok {bs : Bytes} {detail : String} {s : String} (h : Res.utf8 bs detail = .ok s) :
    Lib.utf8 s = bs := by
  unfold Res.utf8 at h
  cases hdecoded : fromUtf8 bs with
  | none => rw [hdecoded] at h; cases h
  | some t =>
      rw [hdecoded] at h
      obtain rfl := Except.ok.inj h
      exact utf8_of_fromUtf8 hdecoded

theorem of_check_ok {c : Prop} [Decidable c] {e : Fault} {u : Unit} (h : check c e = .ok u) : c := by
  by_contra hc
  rw [check, if_neg hc] at h
  cases h

end Res

/-! ## The cursor -/

/-- A checked little-endian cursor over a section body.  Its state is the part not yet read. -/
abbrev Cur (α : Type) := Reader Fault α

namespace Cur

/-- A length that overflows the position exceeds the body as well. -/
def truncated : Fault := corrupt "section truncated"

def take (n : Nat) : Cur Bytes := Reader.take truncated n

def u16 : Cur Nat := Reader.word truncated 2

def u32 : Cur Nat := Reader.word truncated 4

def u64 : Cur Nat := Reader.word truncated 8

/-- `i64::from_le_bytes` -/
def i64 : Cur Int64 := (fun n => Int64.ofBitVec (BitVec.ofNat 64 n)) <$> u64

/-- A string of `len` bytes. -/
def string (len : Nat) (detail : String) : Cur String := do
  let bs ← take len
  Res.utf8 bs detail

def varintRead : Cur Nat := Reader.varint truncated (corrupt "varint too long")

end Cur

/-! ## Words on the wire -/

def le16 (n : Nat) : Bytes := leBytes 2 n

def le32 (n : Nat) : Bytes := leBytes 4 n

def le64 (n : Nat) : Bytes := leBytes 8 n

/-- `i64::to_le_bytes` -/
def leI64 (t : Int64) : Bytes := le64 t.toBitVec.toNat

@[simp] theorem length_le32 (n : Nat) : (le32 n).length = 4 := length_leBytes 4 n
@[simp] theorem length_le64 (n : Nat) : (le64 n).length = 8 := length_leBytes 8 n
@[simp] theorem length_leI64 (t : Int64) : (leI64 t).length = 8 := length_le64 _

namespace Cur

theorem reads_take {bs : Bytes} {n : Nat} (h : bs.length = n) : Reads (take n) bs bs :=
  Reads.take h

theorem reads_u16 {n : Nat} (h : n < 2 ^ 16) : Reads u16 (le16 n) n := Reads.word (by omega)

theorem reads_u32 {n : Nat} (h : n < 2 ^ 32) : Reads u32 (le32 n) n := Reads.word (by omega)

theorem reads_u64 {n : Nat} (h : n < 2 ^ 64) : Reads u64 (le64 n) n := Reads.word (by omega)

theorem reads_i64 (t : Int64) : Reads i64 (leI64 t) t := by
  have hval : Int64.ofBitVec (BitVec.ofNat 64 t.toBitVec.toNat) = t := by simp
  have h := (reads_u64 t.toBitVec.isLt).map (fun n => Int64.ofBitVec (BitVec.ofNat 64 n))
  rwa [hval] at h

theorem reads_lift {α : Type} {x : Res α} {a : α} (h : x = .ok a) :
    Reads (liftM x : Cur α) [] a := by
  subst h
  exact fun _ => rfl

theorem lift_eq_ok {α : Type} {x : Res α} {a : α} {bs rest : Bytes} :
    (liftM x : Cur α) bs = .ok (a, rest) ↔ x = .ok a ∧ bs = rest := by
  cases x with
  | error e =>
      constructor
      · intro h
        cases h
      · exact fun h => nomatch h.1
  | ok b =>
      show Except.ok (b, bs) = Except.ok (a, rest) ↔ _
      rw [Except.ok.injEq, Except.ok.injEq, Prod.mk.injEq]

theorem reads_string (s : String) (detail : String) :
    Reads (string (Lib.utf8 s).length detail) (Lib.utf8 s) s :=
  (reads_take rfl).bind_pure (reads_lift (Res.utf8_utf8 s detail))

theorem reads_varintRead {n : Nat} (h : n < 2 ^ 32) : Reads varintRead (varint n) n :=
  Reads.varint h

end Cur

end Girder
