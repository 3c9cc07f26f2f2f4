import Mathlib.Data.List.Basic
import Mathlib.Data.Nat.Bitwise
import Mathlib.Tactic.Ring

/-!
# Codec — readers over byte strings

A `Reader` takes bytes off the front of its input.  `Reads r bs a` says that `r` recognises `bs` in
front of anything and returns `a`; the rules below follow the way readers are put together, so that a
round trip is proved by naming, for every step of a decoder, the bytes its encoder wrote.

The formats covered are little-endian words, LEB128 numbers of 32 bits, bitmaps, and blobs cut by a
table of offsets.
-/

namespace Girder
namespace Lib

/-- A reader takes bytes off the front of its input, or fails. -/
abbrev Reader (ε α : Type) := StateT (List UInt8) (Except ε) α

namespace Reader

variable {ε α β : Type}

/-- Run a reader and drop what it leaves. -/
def eval (r : Reader ε α) (bs : List UInt8) : Except ε α := Prod.fst <$> r bs

/-- Exactly `n` bytes. -/
def take (short : ε) (n : Nat) : Reader ε (List UInt8) := fun bs =>
  if n ≤ bs.length then .ok (bs.take n, bs.drop n) else .error short

/-- Everything left, without taking it. -/
def rest : Reader ε (List UInt8) := fun bs => .ok (bs, bs)

/-- Fail unless `c`. -/
def check (c : Prop) [Decidable c] (e : ε) : Reader ε Unit :=
  if c then pure () else throw e

/-- Fail unless nothing is left. -/
def atEnd (e : ε) : Reader ε Unit := fun bs => if bs = [] then .ok ((), bs) else .error e

/-- The same reader `n` times. -/
def many (r : Reader ε α) : Nat → Reader ε (List α)
  | 0 => pure []
  | n + 1 => do
      let a ← r
      let as ← many r n
      pure (a :: as)

end Reader

/-- `r` recognises `bs`, whatever follows, and returns `a`. -/
def Reads {ε α : Type} (r : Reader ε α) (bs : List UInt8) (a : α) : Prop :=
  ∀ rest, r (bs ++ rest) = .ok (a, rest)

namespace Reads

variable {ε α β γ : Type} {r : Reader ε α} {bs bs' : List UInt8} {a : α}

theorem eval (h : Reads r bs a) (rest : List UInt8) : r.eval (bs ++ rest) = .ok a := by
  simp [Reader.eval, h rest]

theorem eval_self (h : Reads r bs a) : r.eval bs = .ok a := by
  simpa using h.eval []

/-- Peel the first step off a reader run. -/
theorem eval_bind {f : α → Reader ε β} (h : Reads r bs a) (bs' : List UInt8) :
    (r >>= f).eval (bs ++ bs') = (f a).eval bs' := by
  show Prod.fst <$> (r (bs ++ bs') >>= fun p => f p.1 p.2) = _
  rw [h]
  rfl

/-- A step that takes no bytes. -/
theorem eval_bind_nil {f : α → Reader ε β} (h : Reads r [] a) (bs : List UInt8) :
    (r >>= f).eval bs = (f a).eval bs := h.eval_bind bs

/-- The last bytes of a run. -/
theorem eval_bind_self {f : α → Reader ε β} (h : Reads r bs a) :
    (r >>= f).eval bs = (f a).eval [] := by
  simpa using h.eval_bind []

theorem eval_atEnd_bind {e : ε} {f : Unit → Reader ε β} :
    (Reader.atEnd e >>= f).eval [] = (f ()).eval [] := rfl

theorem eval_rest_bind {f : List UInt8 → Reader ε β} (bs : List UInt8) :
    (Reader.rest >>= f).eval bs = (f bs).eval bs := rfl

theorem eval_pure (a : α) (bs : List UInt8) : (Pure.pure a : Reader ε α).eval bs = .ok a := rfl

theorem pure (a : α) : Reads (Pure.pure a : Reader ε α) [] a := fun _ => rfl

theorem bind {f : α → Reader ε β} {b : β} (h : Reads r bs a) (h' : Reads (f a) bs' b) :
    Reads (r >>= f) (bs ++ bs') b := by
  intro rest
  show (r (bs ++ bs' ++ rest) >>= fun p => f p.1 p.2) = _
  rw [List.append_assoc, h]
  exact h' rest

/-- A step that takes no bytes. -/
theorem bind_nil {f : α → Reader ε β} {b : β} (h : Reads r [] a) (h' : Reads (f a) bs b) :
    Reads (r >>= f) bs b := h.bind h'

/-- A last step that takes no bytes. -/
theorem bind_pure {f : α → Reader ε β} {b : β} (h : Reads r bs a) (h' : Reads (f a) [] b) :
    Reads (r >>= f) bs b := by
  simpa using h.bind h'

theorem map (h : Reads r bs a) (g : α → β) : Reads (g <$> r) bs (g a) := by
  intro rest
  show (r (bs ++ rest) >>= fun p => Except.ok (g p.1, p.2)) = _
  rw [h]
  rfl

theorem check {c : Prop} [Decidable c] {e : ε} (h : c) : Reads (Reader.check c e) [] () := by
  rw [Reader.check, if_pos h]
  exact pure ()

theorem take {short : ε} {n : Nat} (h : bs.length = n) : Reads (Reader.take short n) bs bs := by
  subst h
  intro rest
  simp [Reader.take]

/-- Reading one item after the other; each item is read by its own reader. -/
theorem mapM {f : β → Reader ε α} {enc : β → List UInt8} {out : β → α} :
    ∀ {l : List β}, (∀ b ∈ l, Reads (f b) (enc b) (out b)) →
      Reads (l.mapM f) (l.flatMap enc) (l.map out) := by
  intro l
  induction l with
  | nil =>
      intro _
      simpa using pure _
  | cons b l ih =>
      intro h
      rw [List.mapM_cons, List.flatMap_cons, List.map_cons]
      have hl := ih (fun c hc => h c (by simp [hc]))
      exact (h b (by simp)).bind (hl.bind_pure (pure _))

/-- Items of which some are absent: only the present ones take bytes. -/
theorem mapM_present {f : β → Option α} {enc : α → List UInt8} {absent : α} (l : List β)
    (h : ∀ a, Reads r (enc a) a) :
    Reads ((l.map (fun b => (f b).isSome)).mapM (fun p => if p then r else Pure.pure absent))
      ((l.filterMap f).flatMap enc) (l.map (fun b => (f b).getD absent)) := by
  have hbytes : (l.filterMap f).flatMap enc = l.flatMap (fun b => (f b).elim [] enc) := by
    induction l with
    | nil => rfl
    | cons b l ih =>
        cases hb : f b with
        | none => simp [hb, ih]
        | some a => simp [hb, ih]
  rw [hbytes, List.mapM_map]
  refine mapM (fun b _ => ?_)
  show Reads (if (f b).isSome then r else Pure.pure absent) _ _
  cases f b with
  | none => exact pure absent
  | some a => exact h a

theorem many {enc : α → List UInt8} :
    ∀ {l : List α}, (∀ a ∈ l, Reads r (enc a) a) →
      Reads (Reader.many r l.length) (l.flatMap enc) l := by
  intro l
  induction l with
  | nil => exact fun _ => pure []
  | cons a l ih =>
      intro h
      rw [List.flatMap_cons]
      have hl := ih (fun b hb => h b (by simp [hb]))
      exact (h a (by simp)).bind (hl.bind_pure (pure _))

end Reads

/-! ## What a reader that succeeds has done -/

namespace Reader

variable {ε α β : Type} {r : Reader ε α} {bs rest : List UInt8} {a : α}

theorem eval_eq_ok : r.eval bs = .ok a ↔ ∃ rest, r bs = .ok (a, rest) := by
  rw [Reader.eval]
  cases r bs with
  | error e => simp [Functor.map, Except.map]
  | ok p =>
      constructor
      · intro h
        obtain rfl : p.1 = a := Except.ok.inj h
        exact ⟨p.2, rfl⟩
      · rintro ⟨rest, h⟩
        rw [Except.ok.inj h]
        rfl

/-- A sequence succeeds when its first step does and the second does on what that left. -/
theorem bind_eq_ok {f : α → Reader ε β} {b : β} :
    (r >>= f) bs = .ok (b, rest) ↔ ∃ a mid, r bs = .ok (a, mid) ∧ f a mid = .ok (b, rest) := by
  show (r bs >>= fun p => f p.1 p.2) = _ ↔ _
  cases r bs with
  | error e => simp [bind, Except.bind]
  | ok p =>
      constructor
      · exact fun h => ⟨p.1, p.2, rfl, h⟩
      · rintro ⟨a, mid, h, hf⟩
        rw [Except.ok.inj h]
        exact hf

theorem pure_eq_ok {b : α} : (pure b : Reader ε α) bs = .ok (a, rest) ↔ b = a ∧ bs = rest := by
  show Except.ok (b, bs) = Except.ok (a, rest) ↔ _
  rw [Except.ok.injEq, Prod.mk.injEq]

theorem check_eq_ok {c : Prop} [Decidable c] {e : ε} {u : Unit} :
    check c e bs = .ok (u, rest) ↔ c ∧ bs = rest := by
  unfold check
  split
  · rename_i h
    simp only [pure_eq_ok, h, true_and]
  · rename_i h
    constructor
    · intro herror
      cases herror
    · exact fun hc => absurd hc.1 h

theorem take_eq_ok {short : ε} {n : Nat} {got : List UInt8} :
    take short n bs = .ok (got, rest) ↔ n ≤ bs.length ∧ bs.take n = got ∧ bs.drop n = rest := by
  unfold take
  split
  · rename_i h
    rw [Except.ok.injEq, Prod.mk.injEq]
    exact (and_iff_right h).symm
  · rename_i h
    constructor
    · intro herror
      cases herror
    · exact fun hn => absurd hn.1 h

theorem length_of_mapM_eq_ok {f : β → Reader ε α} {l : List β} :
    ∀ {bs : List UInt8} {as : List α} {rest : List UInt8},
      l.mapM f bs = .ok (as, rest) → as.length = l.length := by
  induction l with
  | nil =>
      intro bs as rest h
      obtain ⟨rfl, -⟩ := pure_eq_ok.1 h
      rfl
  | cons b l ih =>
      intro bs as rest h
      rw [List.mapM_cons] at h
      obtain ⟨a, _, -, hmore⟩ := bind_eq_ok.1 h
      obtain ⟨as', _, hrest, hpure⟩ := bind_eq_ok.1 hmore
      obtain ⟨rfl, -⟩ := pure_eq_ok.1 hpure
      rw [List.length_cons, ih hrest, List.length_cons]

/-! ### How a reader fails -/

/-- Every failure of the reader is of the kind `P`. -/
def FailsOnly (P : ε → Prop) (r : Reader ε α) : Prop := ∀ bs e, r bs = .error e → P e

section FailsOnly

variable {P : ε → Prop}

theorem FailsOnly.pure (a : α) : FailsOnly P (Pure.pure a : Reader ε α) := by
  intro bs e h
  cases h

theorem FailsOnly.bind {f : α → Reader ε β} (h : FailsOnly P r) (h' : ∀ a, FailsOnly P (f a)) :
    FailsOnly P (r >>= f) := by
  intro bs e herror
  change (r bs >>= fun p => f p.1 p.2) = .error e at herror
  cases hr : r bs with
  | error e' =>
      rw [hr] at herror
      obtain rfl := Except.error.inj herror
      exact h bs e' hr
  | ok p =>
      rw [hr] at herror
      exact h' p.1 p.2 e herror

theorem FailsOnly.take {short : ε} (h : P short) (n : Nat) : FailsOnly P (take short n) := by
  intro bs e herror
  unfold Reader.take at herror
  split at herror
  · cases herror
  · obtain rfl := Except.error.inj herror
    exact h

theorem failsOnly_rest : FailsOnly P (Reader.rest : Reader ε (List UInt8)) := by
  intro bs e herror
  cases herror

theorem FailsOnly.check {c : Prop} [Decidable c] {e : ε} (h : P e) : FailsOnly P (check c e) := by
  intro bs e' herror
  unfold Reader.check at herror
  split at herror
  · cases herror
  · obtain rfl := Except.error.inj herror
    exact h

theorem FailsOnly.many (h : FailsOnly P r) : ∀ n : Nat, FailsOnly P (many r n) := by
  intro n
  induction n with
  | zero => exact FailsOnly.pure []
  | succ n ih => exact h.bind (fun a => ih.bind (fun as => FailsOnly.pure _))

theorem FailsOnly.eval (h : FailsOnly P r) {e : ε} (herror : r.eval bs = .error e) : P e := by
  rw [Reader.eval] at herror
  cases hr : r bs with
  | ok p =>
      rw [hr] at herror
      cases herror
  | error e' =>
      rw [hr] at herror
      obtain rfl := Except.error.inj herror
      exact h bs e' hr

end FailsOnly

/-! ### Exactly which inputs a reader accepts -/

/-- The reader accepts the encodings of the values with `P`, whatever follows them, and nothing
else. -/
def Accepts (r : Reader ε α) (P : α → Prop) (enc : α → List UInt8) : Prop :=
  ∀ bs a rest, r bs = .ok (a, rest) ↔ P a ∧ bs = enc a ++ rest

theorem Accepts.take (short : ε) (n : Nat) :
    Accepts (Reader.take short n) (fun got => got.length = n) id := by
  intro bs got rest
  rw [take_eq_ok]
  constructor
  · rintro ⟨hle, rfl, rfl⟩
    exact ⟨List.length_take_of_le hle, (List.take_append_drop n bs).symm⟩
  · rintro ⟨rfl, rfl⟩
    exact ⟨by simp, List.take_left' rfl, List.drop_left' rfl⟩

/-- A list is accepted when each of its items is. -/
theorem Accepts.many {P : α → Prop} {enc : α → List UInt8} (h : Accepts r P enc) :
    ∀ n : Nat, Accepts (many r n) (fun as => as.length = n ∧ ∀ a ∈ as, P a)
      (fun as => as.flatMap enc) := by
  intro n
  induction n with
  | zero =>
      intro bs as rest
      rw [Reader.many, pure_eq_ok]
      constructor
      · rintro ⟨rfl, rfl⟩
        simp
      · rintro ⟨⟨hlen, -⟩, rfl⟩
        obtain rfl := List.length_eq_zero_iff.1 hlen
        exact ⟨rfl, rfl⟩
  | succ n ih =>
      intro bs as rest
      simp only [Reader.many, bind_eq_ok, pure_eq_ok]
      constructor
      · rintro ⟨a, mid, hfirst, as', mid', hmore, rfl, rfl⟩
        obtain ⟨ha, rfl⟩ := (h _ _ _).1 hfirst
        obtain ⟨⟨rfl, has⟩, rfl⟩ := (ih _ _ _).1 hmore
        exact ⟨⟨rfl, List.forall_mem_cons.2 ⟨ha, has⟩⟩, by simp⟩
      · rintro ⟨⟨hlen, hall⟩, rfl⟩
        obtain ⟨a, as', rfl⟩ := List.exists_cons_of_length_eq_add_one hlen
        obtain ⟨ha, has⟩ := List.forall_mem_cons.1 hall
        refine ⟨a, as'.flatMap enc ++ rest, (h _ _ _).2 ⟨ha, by simp⟩, as', rest, ?_, rfl, rfl⟩
        exact (ih _ _ _).2 ⟨⟨by simpa using hlen, has⟩, rfl⟩

end Reader

/-! ## Little-endian words -/

/-- The `w` low bytes of `n`, lowest first. -/
def leBytes : Nat → Nat → List UInt8
  | 0, _ => []
  | w + 1, n => UInt8.ofNat n :: leBytes w (n / 256)

/-- The number some bytes are, lowest first. -/
def leNat : List UInt8 → Nat
  | [] => 0
  | b :: bs => b.toNat + 256 * leNat bs

@[simp]
theorem length_leBytes (w n : Nat) : (leBytes w n).length = w := by
  induction w generalizing n with
  | zero => rfl
  | succ w ih => simp [leBytes, ih]

theorem leNat_leBytes (w n : Nat) : leNat (leBytes w n) = n % 256 ^ w := by
  induction w generalizing n with
  | zero => simp [leBytes, leNat, Nat.mod_one]
  | succ w ih =>
      have hbyte : (UInt8.ofNat n).toNat = n % 256 := by simp
      rw [leBytes, leNat, ih, hbyte, Nat.pow_succ, Nat.mul_comm (256 ^ w), Nat.mod_mul]

theorem leNat_leBytes_of_lt {w n : Nat} (h : n < 256 ^ w) : leNat (leBytes w n) = n := by
  rw [leNat_leBytes, Nat.mod_eq_of_lt h]

theorem leNat_lt (bs : List UInt8) : leNat bs < 256 ^ bs.length := by
  induction bs with
  | nil => simp [leNat]
  | cons b bs ih =>
      have hb : b.toNat < 256 := b.toNat_lt
      rw [leNat, List.length_cons, Nat.pow_succ]
      omega

theorem leBytes_leNat (bs : List UInt8) : leBytes bs.length (leNat bs) = bs := by
  induction bs with
  | nil => rfl
  | cons b bs ih =>
      have hb : b.toNat < 256 := b.toNat_lt
      have hlow : UInt8.ofNat (b.toNat + 256 * leNat bs) = b := by
        refine UInt8.toNat_inj.1 ?_
        rw [UInt8.toNat_ofNat']
        omega
      have hhigh : (b.toNat + 256 * leNat bs) / 256 = leNat bs := by omega
      rw [List.length_cons, leNat, leBytes, hlow, hhigh, ih]

/-- A word of `w` bytes. -/
def Reader.word {ε : Type} (short : ε) (w : Nat) : Reader ε Nat := leNat <$> Reader.take short w

/-- A word that was read fits its width. -/
theorem Reader.lt_of_word {ε : Type} {short : ε} {w n : Nat} {bs rest : List UInt8}
    (h : Reader.word short w bs = .ok (n, rest)) : n < 256 ^ w := by
  have hmap : (Reader.take short w >>= fun got => pure (leNat got)) bs = .ok (n, rest) := h
  obtain ⟨got, mid, htake, hpure⟩ := Reader.bind_eq_ok.1 hmap
  obtain ⟨hlen, rfl, -⟩ := Reader.take_eq_ok.1 htake
  obtain ⟨rfl, -⟩ := Reader.pure_eq_ok.1 hpure
  have hlt := leNat_lt (bs.take w)
  rwa [List.length_take, min_eq_left hlen] at hlt

theorem Reader.FailsOnly.word {ε : Type} {P : ε → Prop} {short : ε} (h : P short) (w : Nat) :
    FailsOnly P (word short w) :=
  (FailsOnly.take h w).bind (fun _ => FailsOnly.pure _)

theorem Reader.word_eq {ε : Type} (short : ε) (w : Nat) (bs : List UInt8) :
    word short w bs =
      if w ≤ bs.length then .ok (leNat (bs.take w), bs.drop w) else .error short := by
  change (take short w >>= fun got => pure (leNat got)) bs = _
  change (take short w bs >>= fun p => pure (leNat p.1, p.2)) = _
  unfold take
  split
  · rfl
  · rfl

theorem Reader.Accepts.word {ε : Type} (short : ε) (w : Nat) :
    Accepts (Reader.word short w) (fun n => n < 256 ^ w) (leBytes w) := by
  intro bs n rest
  rw [word_eq]
  constructor
  · intro h
    split at h
    · rename_i hle
      obtain ⟨rfl, rfl⟩ := Prod.mk.inj (Except.ok.inj h)
      have hlen : (bs.take w).length = w := List.length_take_of_le hle
      refine ⟨by simpa [hlen] using leNat_lt (bs.take w), ?_⟩
      have hbytes := leBytes_leNat (bs.take w)
      rw [hlen] at hbytes
      rw [hbytes, List.take_append_drop]
    · cases h
  · rintro ⟨hn, rfl⟩
    rw [if_pos (by simp), List.take_left' (length_leBytes w n), leNat_leBytes_of_lt hn,
      List.drop_left' (length_leBytes w n)]

/-- A table of words is read by position. -/
theorem Reader.many_word {ε : Type} (short : ε) (w : Nat) :
    ∀ (n : Nat) (bs : List UInt8), many (word short w) n bs =
      if w * n ≤ bs.length then
        .ok ((List.range n).map (fun i => leNat ((bs.drop (w * i)).take w)), bs.drop (w * n))
      else .error short := by
  intro n
  induction n with
  | zero =>
      intro bs
      rw [if_pos (by simp)]
      rfl
  | succ n ih =>
      -- The first word, then the others from where it ends.
      intro bs
      change (word short w bs >>= fun p => (many (word short w) n p.2 >>= fun q =>
        .ok (p.1 :: q.1, q.2))) = _
      rw [word_eq]
      by_cases hfirst : w ≤ bs.length
      · rw [if_pos hfirst]
        change (many (word short w) n (bs.drop w) >>= fun q =>
          Except.ok (leNat (bs.take w) :: q.1, q.2)) = _
        rw [ih, List.length_drop]
        by_cases hall : w * (n + 1) ≤ bs.length
        · have hmore : w * n ≤ bs.length - w := by
            rw [Nat.mul_succ] at hall
            omega
          rw [if_pos hmore, if_pos hall]
          change Except.ok _ = Except.ok _
          have hstep : ∀ i, w + w * i = w * (i + 1) := fun i => by rw [Nat.mul_succ, Nat.add_comm]
          simp [List.range_succ_eq_map, hstep]
        · have hmore : ¬ w * n ≤ bs.length - w := by
            rw [Nat.mul_succ] at hall
            omega
          rw [if_neg hmore, if_neg hall]
          rfl
      · have hall : ¬ w * (n + 1) ≤ bs.length := by
          rw [Nat.mul_succ]
          omega
        rw [if_neg hfirst, if_neg hall]
        rfl

theorem Reads.word {ε : Type} {short : ε} {w n : Nat} (h : n < 256 ^ w) :
    Reads (Reader.word short w) (leBytes w n) n := by
  have htake : Reads (Reader.take short w) (leBytes w n) (leBytes w n) :=
    Reads.take (length_leBytes w n)
  have hmap := htake.map leNat
  rwa [leNat_leBytes_of_lt h] at hmap

/-! ## LEB128 numbers of 32 bits -/

/-- Groups of seven bits, lowest first; every byte but the last has its high bit set.  `fuel` bounds
the number of groups. -/
def varintGroups : Nat → Nat → List UInt8
  | 0, _ => []
  | fuel + 1, v =>
      if v / 128 = 0 then [UInt8.ofNat (v % 128)]
      else UInt8.ofNat (v % 128 + 128) :: varintGroups fuel (v / 128)

/-- The bytes of a 32-bit number: five groups hold it. -/
def varint (v : Nat) : List UInt8 := varintGroups 5 v

/-- The loop that reads a number: `v` holds the bits below `shift`. -/
def varintLoop {ε : Type} (short tooLong : ε) : Nat → Nat → Nat → Reader ε Nat
  | 0, _, _ => throw tooLong
  | fuel + 1, v, shift => do
      let byte ← Reader.word short 1
      let v := v ||| ((byte % 128) <<< shift) % 2 ^ 32
      if byte / 128 = 0 then
        pure v
      else if 32 ≤ shift + 7 then
        throw tooLong
      else
        varintLoop short tooLong fuel v (shift + 7)

/-- A 32-bit number. -/
def Reader.varint {ε : Type} (short tooLong : ε) : Reader ε Nat := varintLoop short tooLong 5 0 0

theorem varintGroups_ne_nil (fuel v : Nat) : varintGroups (fuel + 1) v ≠ [] := by
  rw [varintGroups]
  split <;> simp

/-- Adding a group above the bits read so far. -/
theorem or_group {v g shift : Nat} (hv : v < 2 ^ shift) (hg : g * 2 ^ shift < 2 ^ 32) :
    v ||| (g <<< shift) % 2 ^ 32 = v + g * 2 ^ shift := by
  rw [Nat.shiftLeft_eq, Nat.mod_eq_of_lt hg, Nat.mul_comm, Nat.or_comm,
    ← Nat.two_pow_add_eq_or_of_lt hv]
  omega

/-- The last group ends the loop. -/
theorem reads_varintLoop_last {ε : Type} {short tooLong : ε} {fuel n v shift : Nat} (hn : n < 128)
    (hv : v < 2 ^ shift) (hfit : n * 2 ^ shift < 2 ^ 32) :
    Reads (varintLoop short tooLong (fuel + 1) v shift) (varintGroups (fuel + 1) n)
      (v + n * 2 ^ shift) := by
  have hdiv : n / 128 = 0 := Nat.div_eq_of_lt hn
  have hmod : n % 128 = n := Nat.mod_eq_of_lt hn
  have hbyte : Reads (Reader.word short 1) (leBytes 1 n) n := Reads.word (by omega)
  rw [varintGroups, if_pos hdiv, hmod]
  refine hbyte.bind_pure ?_
  simp only [hdiv, hmod, if_pos, or_group hv hfit]
  exact Reads.pure _

/-- The loop reads what the groups spell, added to the bits it already holds. -/
theorem reads_varintLoop {ε : Type} {short tooLong : ε} :
    ∀ (fuel n v shift : Nat), n < 128 ^ (fuel + 1) → v < 2 ^ shift → n * 2 ^ shift < 2 ^ 32 →
      Reads (varintLoop short tooLong (fuel + 1) v shift) (varintGroups (fuel + 1) n)
        (v + n * 2 ^ shift) := by
  intro fuel
  induction fuel with
  | zero =>
      intro n v shift hn hv hfit
      exact reads_varintLoop_last (by simpa using hn) hv hfit
  | succ fuel ih =>
      intro n v shift hn hv hfit
      by_cases hdiv : n / 128 = 0
      · exact reads_varintLoop_last (by omega) hv hfit
      · have hsplit : 128 * (n / 128) + n % 128 = n := Nat.div_add_mod n 128
        have hlowfit : n % 128 * 2 ^ shift < 2 ^ 32 :=
          lt_of_le_of_lt (Nat.mul_le_mul_right _ (Nat.mod_le n 128)) hfit
        have hbyte : Reads (Reader.word short 1) (leBytes 1 (n % 128 + 128)) (n % 128 + 128) :=
          Reads.word (by omega)
        rw [varintGroups, if_neg hdiv]
        refine hbyte.bind ?_
        have hcont : ¬ (n % 128 + 128) / 128 = 0 := by omega
        have hbits : (n % 128 + 128) % 128 = n % 128 := by omega
        -- A group above this one leaves room for seven more bits.
        have hroom : ¬ 32 ≤ shift + 7 := by
          intro hcon
          have hpow : 2 ^ 32 ≤ 128 * 2 ^ shift := by
            calc 2 ^ 32 ≤ 2 ^ (shift + 7) := Nat.pow_le_pow_right (by decide) hcon
              _ = 128 * 2 ^ shift := by rw [Nat.pow_add]; omega
          have hbig : 128 * 2 ^ shift ≤ n * 2 ^ shift := Nat.mul_le_mul_right _ (by omega)
          omega
        have hshift : 2 ^ (shift + 7) = 128 * 2 ^ shift := by rw [Nat.pow_add]; omega
        have hv' : v + n % 128 * 2 ^ shift < 2 ^ (shift + 7) := by
          have hle : n % 128 * 2 ^ shift ≤ 127 * 2 ^ shift := Nat.mul_le_mul_right _ (by omega)
          omega
        have hval : n * 2 ^ shift = n / 128 * 2 ^ (shift + 7) + n % 128 * 2 ^ shift := by
          rw [hshift]
          nth_rewrite 1 [← hsplit]
          ring
        have hnext := ih (n / 128) _ (shift + 7) (by rw [Nat.pow_succ] at hn; omega) hv' (by omega)
        simp only [hbits, if_neg hcont, if_neg hroom, or_group hv hlowfit]
        rw [hval, show v + (n / 128 * 2 ^ (shift + 7) + n % 128 * 2 ^ shift) =
          v + n % 128 * 2 ^ shift + n / 128 * 2 ^ (shift + 7) by omega]
        exact hnext

theorem Reads.varint {ε : Type} {short tooLong : ε} {n : Nat} (h : n < 2 ^ 32) :
    Reads (Reader.varint short tooLong) (varint n) n := by
  have hloop : Reads (varintLoop short tooLong 5 0 0) (varintGroups 5 n) (0 + n * 2 ^ 0) :=
    reads_varintLoop 4 n 0 0 (by omega) (by simp) (by omega)
  rwa [Nat.zero_add, Nat.pow_zero, Nat.mul_one] at hloop

theorem length_varint_pos (n : Nat) : 0 < (varint n).length :=
  List.length_pos_iff.2 (varintGroups_ne_nil 4 n)

/-! ## Bitmaps -/

/-- Set bit `i`, eight to a byte. -/
def setBit (m : List UInt8) (i : Nat) : List UInt8 :=
  m.modify (i / 8) (fun b => b ||| UInt8.ofNat (2 ^ (i % 8)))

/-- The bitmap of some flags. -/
def bitmap (flags : List Bool) : List UInt8 :=
  flags.zipIdx.foldl (fun m fi => if fi.1 then setBit m fi.2 else m)
    (List.replicate ((flags.length + 7) / 8) 0)

/-- Bit `i`, when the bitmap is long enough. -/
def bitAt (m : List UInt8) (i : Nat) : Option Bool :=
  m[i / 8]?.map (fun b => b.toNat.testBit (i % 8))

@[simp]
theorem length_setBit (m : List UInt8) (i : Nat) : (setBit m i).length = m.length := by
  simp [setBit]

theorem testBit_two_pow_byte {i j : Nat} (hi : i < 8) :
    (UInt8.ofNat (2 ^ i)).toNat.testBit j = decide (i = j) := by
  have hlt : 2 ^ i < 256 := by
    calc 2 ^ i < 2 ^ 8 := Nat.pow_lt_pow_right (by decide) hi
      _ = 256 := rfl
  rw [UInt8.toNat_ofNat_of_lt' hlt, Nat.testBit_two_pow]

theorem bitAt_setBit {m : List UInt8} {i : Nat} (hi : i < 8 * m.length) (j : Nat) :
    bitAt (setBit m i) j = if i = j then some true else bitAt m j := by
  unfold bitAt setBit
  rw [List.getElem?_modify]
  by_cases hbyte : i / 8 = j / 8
  · have hget : m[j / 8]? = some m[j / 8] := List.getElem?_eq_getElem (by omega)
    simp only [hbyte, hget, if_pos, Option.map_eq_map, Option.map_some, UInt8.toNat_or,
      Nat.testBit_or, testBit_two_pow_byte (Nat.mod_lt i (by decide : 0 < 8))]
    by_cases hij : i = j
    · simp [hij]
    · have hne : i % 8 ≠ j % 8 := by omega
      simp [hij, hne]
  · have hne : i ≠ j := fun h => hbyte (by rw [h])
    simp [hbyte, hne]

/-- The loop sets the bits of the flags it has seen and no others. -/
theorem bitAt_foldl_setBit :
    ∀ (flags : List Bool) (k : Nat) (m : List UInt8), k + flags.length ≤ 8 * m.length →
      ∀ j, bitAt ((flags.zipIdx k).foldl (fun m fi => if fi.1 then setBit m fi.2 else m) m) j =
        if k ≤ j ∧ flags[j - k]? = some true then some true else bitAt m j := by
  intro flags
  induction flags with
  | nil =>
      intro k m _ j
      simp
  | cons f flags ih =>
      intro k m hlen j
      rw [List.length_cons] at hlen
      rw [List.zipIdx_cons, List.foldl_cons]
      rw [ih (k + 1) _ (by cases f <;> simp <;> omega)]
      rcases Nat.lt_trichotomy j k with hlt | rfl | hgt
      · have hk : ¬ k ≤ j := by omega
        have hk' : ¬ k + 1 ≤ j := by omega
        have hne : k ≠ j := by omega
        cases f <;> simp [hk, hk', bitAt_setBit (show k < 8 * m.length by omega), hne]
      · cases f <;> simp [bitAt_setBit (show j < 8 * m.length by omega)]
      · obtain ⟨d, rfl⟩ : ∃ d, j = k + 1 + d := ⟨j - (k + 1), by omega⟩
        have hsub : k + 1 + d - k = d + 1 := by omega
        have hsub' : k + 1 + d - (k + 1) = d := by omega
        have hne : k ≠ k + 1 + d := by omega
        have hk : k ≤ k + 1 + d := by omega
        simp only [hsub, hsub', hk, Nat.le_add_right, true_and, List.getElem?_cons_succ]
        cases f <;> simp [bitAt_setBit (show k < 8 * m.length by omega), hne]

theorem length_foldl_setBit (fis : List (Bool × Nat)) (m : List UInt8) :
    (fis.foldl (fun m fi => if fi.1 then setBit m fi.2 else m) m).length = m.length := by
  induction fis generalizing m with
  | nil => rfl
  | cons fi fis ih =>
      rw [List.foldl_cons, ih]
      split <;> simp

@[simp]
theorem length_bitmap (flags : List Bool) : (bitmap flags).length = (flags.length + 7) / 8 := by
  rw [bitmap, length_foldl_setBit, List.length_replicate]

/-- A bitmap holds its flags. -/
theorem bitAt_bitmap {flags : List Bool} {i : Nat} (hi : i < flags.length) :
    bitAt (bitmap flags) i = some flags[i] := by
  have hbyte : i / 8 < (flags.length + 7) / 8 := by omega
  have hzero : bitAt (List.replicate ((flags.length + 7) / 8) 0) i = some false := by
    simp [bitAt, hbyte]
  have hfold := bitAt_foldl_setBit flags 0 (List.replicate ((flags.length + 7) / 8) 0)
    (by rw [List.length_replicate]; omega) i
  rw [bitmap, hfold, hzero]
  cases hf : flags[i] <;> simp [hi, hf]

theorem bitAt_append {m : List UInt8} (m' : List UInt8) {i : Nat} (hi : i / 8 < m.length) :
    bitAt (m ++ m') i = bitAt m i := by
  simp [bitAt, List.getElem?_append_left hi]

/-! ## Offset tables -/

/-- Where each item of a concatenation starts, and where the last one ends. -/
def offsetsFrom (off : Nat) : List (List UInt8) → List Nat
  | [] => [off]
  | item :: items => off :: offsetsFrom (off + item.length) items

def offsets (items : List (List UInt8)) : List Nat := offsetsFrom 0 items

theorem length_offsetsFrom (off : Nat) (items : List (List UInt8)) :
    (offsetsFrom off items).length = items.length + 1 := by
  induction items generalizing off with
  | nil => rfl
  | cons item items ih => simp [offsetsFrom, ih]

@[simp]
theorem length_offsets (items : List (List UInt8)) :
    (offsets items).length = items.length + 1 := length_offsetsFrom 0 items

theorem getElem?_offsetsFrom (off : Nat) (items : List (List UInt8)) {i : Nat}
    (hi : i ≤ items.length) :
    (offsetsFrom off items)[i]? = some (off + (items.take i).flatten.length) := by
  induction items generalizing off i with
  | nil =>
      obtain rfl : i = 0 := by simpa using hi
      simp [offsetsFrom]
  | cons item items ih =>
      cases i with
      | zero => simp [offsetsFrom]
      | succ i =>
          rw [offsetsFrom, List.getElem?_cons_succ, ih _ (by simpa using hi)]
          simp [Nat.add_assoc]

/-- Item `i` starts after the items before it. -/
theorem getElem?_offsets {items : List (List UInt8)} {i : Nat} (hi : i ≤ items.length) :
    (offsets items)[i]? = some (items.take i).flatten.length := by
  rw [offsets, getElem?_offsetsFrom 0 items hi, Nat.zero_add]

theorem mem_offsets_le {items : List (List UInt8)} {o : Nat} (h : o ∈ offsets items) :
    o ≤ items.flatten.length := by
  obtain ⟨i, hi⟩ := List.mem_iff_getElem?.1 h
  obtain ⟨hlt, -⟩ := List.getElem?_eq_some_iff.1 hi
  rw [length_offsets] at hlt
  rw [getElem?_offsets (by omega)] at hi
  obtain rfl := Option.some.inj hi
  calc (items.take i).flatten.length
      ≤ (items.take i).flatten.length + (items.drop i).flatten.length := Nat.le_add_right _ _
    _ = items.flatten.length := by
        rw [← List.length_append, ← List.flatten_append, List.take_append_drop]

theorem head?_offsets (items : List (List UInt8)) : (offsets items).head? = some 0 := by
  cases items <;> rfl

theorem getLast?_offsets (items : List (List UInt8)) :
    (offsets items).getLast? = some items.flatten.length := by
  rw [List.getLast?_eq_getElem?, length_offsets, Nat.add_sub_cancel, getElem?_offsets le_rfl,
    List.take_length]

/-- Offsets never decrease. -/
theorem offsets_monotone (items : List (List UInt8)) :
    ∀ w ∈ (offsets items).zip (offsets items).tail, w.1 ≤ w.2 := by
  have hfrom : ∀ (items : List (List UInt8)) (off : Nat),
      ∀ w ∈ (offsetsFrom off items).zip (offsetsFrom off items).tail, w.1 ≤ w.2 := by
    intro items
    induction items with
    | nil => simp [offsetsFrom]
    | cons item items ih =>
        intro off w hw
        have hhead : ∃ rest, offsetsFrom (off + item.length) items = (off + item.length) :: rest := by
          cases items <;> exact ⟨_, rfl⟩
        obtain ⟨rest, hrest⟩ := hhead
        rw [offsetsFrom, List.tail_cons, hrest, List.zip_cons_cons, List.mem_cons] at hw
        rcases hw with rfl | hw
        · exact Nat.le_add_right _ _
        · refine ih (off + item.length) w ?_
          rw [hrest]
          exact hw
  exact hfrom items 0

/-- Cutting a concatenation at two neighbouring offsets gives the item between them. -/
theorem flatten_eq_append_getElem {items : List (List UInt8)} {i : Nat} (hi : i < items.length) :
    items.flatten = (items.take i).flatten ++ items[i] ++ (items.drop (i + 1)).flatten := by
  calc items.flatten = (items.take i ++ items.drop i).flatten := by rw [List.take_append_drop]
    _ = (items.take i).flatten ++ items[i] ++ (items.drop (i + 1)).flatten := by
        rw [List.drop_eq_getElem_cons hi]
        simp only [List.flatten_append, List.flatten_cons, List.append_assoc]

/-! ## Parts of a file -/

/-- `bs` stands in `file` at offset `off`. -/
def LiesAt (file : List UInt8) (off : Nat) (bs : List UInt8) : Prop :=
  ∃ before after, file = before ++ bs ++ after ∧ before.length = off

namespace LiesAt

variable {file bs bs' : List UInt8} {off : Nat}

theorem self (bs : List UInt8) : LiesAt bs 0 bs := ⟨[], [], by simp, rfl⟩

theorem slice (h : LiesAt file off bs) : (file.drop off).take bs.length = bs := by
  obtain ⟨before, after, rfl, rfl⟩ := h
  rw [List.append_assoc, List.drop_left, List.take_left]

theorem le_length (h : LiesAt file off bs) : off + bs.length ≤ file.length := by
  obtain ⟨before, after, rfl, rfl⟩ := h
  rw [List.length_append, List.length_append]
  omega

theorem left (h : LiesAt file off (bs ++ bs')) : LiesAt file off bs := by
  obtain ⟨before, after, rfl, rfl⟩ := h
  exact ⟨before, bs' ++ after, by simp only [List.append_assoc], rfl⟩

theorem right (h : LiesAt file off (bs ++ bs')) : LiesAt file (off + bs.length) bs' := by
  obtain ⟨before, after, rfl, rfl⟩ := h
  exact ⟨before ++ bs, after, by simp only [List.append_assoc], by rw [List.length_append]⟩

/-- An item of a concatenation starts at its offset. -/
theorem item {items : List (List UInt8)} (h : LiesAt file off items.flatten) {i : Nat}
    (hi : i < items.length) :
    LiesAt file (off + (items.take i).flatten.length) items[i] := by
  rw [flatten_eq_append_getElem hi] at h
  exact h.left.right

end LiesAt

theorem length_flatten_take_succ {items : List (List UInt8)} {i : Nat} (hi : i < items.length) :
    (items.take (i + 1)).flatten.length = (items.take i).flatten.length + items[i].length := by
  rw [List.take_succ_eq_append_getElem hi, List.flatten_append, List.length_append]
  simp

end Lib
end Girder
