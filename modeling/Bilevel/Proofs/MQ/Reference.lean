import Mathlib.Algebra.Group.Nat.Defs
import Bilevel.MQ

/-!
# The plain arithmetic decoder

The decoder as standards describe it: the register `c` is the distance of the coded point from the
lower end of the interval, where the part of the less probable symbol lies, and the coded bytes
enter as they are.  Its registers are numbers without bounds.  The other decoder counts from the
upper end, and the two are compared register by register.

* `Reference` — the registers.
* `Reference.init`, `byteIn`, `shift`, `renormalise`, `lpsExchange`, `mpsExchange`, `decode` — the
  procedures.
* `renormalise_stop`, `renormalise_next` — one round of the loop that scales the interval up.
* `Decoder.Stalled` — the only states in which the registers of the two decoders part: a seven-bit
  byte is taken in that carries into the bit above it, while the distance is zero.
* `Mirrors` — the registers of the two decoders measure one point from the two ends of one interval,
  whose length differs from the sum of the distances by one unit of the bits left.
* `Mirrors.takeByte`, `Mirrors.scale` — taking in a byte and doubling keep that.
* `Mirrors.high_lt_iff` — both decoders choose the same part of the interval; `Mirrors.cutLower`,
  `Mirrors.cutUpper` — what is left of it then is mirrored again.
-/

set_option autoImplicit false

namespace Bilevel.MQ

/-- The state of a plain decoder, with the registers of `Decoder`; here `c` is the distance of the
coded point from the lower end of the interval. -/
structure Reference where
  data : Array UInt8
  c : Nat
  a : Nat
  pointer : Nat
  count : Nat
  deriving Repr

namespace Reference

/-! ## Registers -/

def byteAt (e : Reference) (i : Nat) : Nat := (e.data.getD i 0xff).toNat

/-- Takes in one byte, of which a byte after `0xff` has only seven bits of its own; at a marker the
pointer stays and ones are supplied. -/
def byteIn (e : Reference) : Reference :=
  if e.byteAt e.pointer = 0xff then
    if e.byteAt (e.pointer + 1) > 0x8f then { e with c := e.c + 0xff00, count := 8 }
    else
      { e with
        pointer := e.pointer + 1
        c := e.c + e.byteAt (e.pointer + 1) <<< 9
        count := 7 }
  else
    { e with
      pointer := e.pointer + 1
      c := e.c + e.byteAt (e.pointer + 1) <<< 8
      count := 8 }

/-- Doubles the interval, after taking in a byte if no bits are left. -/
def shift (e : Reference) : Reference :=
  let e := if e.count = 0 then e.byteIn else e
  { e with a := e.a <<< 1, c := e.c <<< 1, count := e.count - 1 }

theorem a_byteIn (e : Reference) : e.byteIn.a = e.a := by
  unfold byteIn
  split
  · split <;> rfl
  · rfl

theorem a_shift (e : Reference) : e.shift.a = 2 * e.a := by
  unfold shift
  simp only
  split
  · rw [a_byteIn, Nat.shiftLeft_eq, Nat.mul_comm]
  · rw [Nat.shiftLeft_eq, Nat.mul_comm]

/-- Doubles the interval at least once, and on until its length has reached `0x8000`.  An interval
of length 0 would be doubled for ever. -/
def renormalise (e : Reference) : Reference :=
  if 0 < e.shift.a ∧ e.shift.a < 0x8000 then renormalise e.shift else e.shift
termination_by 0x8000 - e.a
decreasing_by
  have ha := e.a_shift
  omega

def init (data : Array UInt8) : Reference :=
  let e : Reference := ⟨data, 0, 0, 0, 0⟩
  let e := { e with c := e.byteAt 0 <<< 16 }
  let e := e.byteIn
  { e with c := e.c <<< 7, count := e.count - 7, a := 0x8000 }

theorem renormalise_stop {e : Reference} (h : 0x8000 ≤ e.shift.a) : e.renormalise = e.shift := by
  rw [renormalise, if_neg (by omega)]

theorem renormalise_next {e : Reference} (hpos : 0 < e.shift.a) (h : e.shift.a < 0x8000) :
    e.renormalise = e.shift.renormalise := by
  rw [renormalise, if_pos ⟨hpos, h⟩]

/-- The part of length `qe` has been chosen: it belongs to the less probable symbol unless it is the
longer one. -/
def lpsExchange (row : Row) (cx : Context) (e : Reference) : Bool × Context × Reference :=
  if e.a < row.qe.toNat then (cx.mps, Decoder.afterMps row cx, { e with a := row.qe.toNat })
  else (!cx.mps, Decoder.afterLps row cx, { e with a := row.qe.toNat })

/-- The other part has been chosen: it belongs to the more probable symbol unless it is the shorter
one. -/
def mpsExchange (row : Row) (cx : Context) (e : Reference) : Bool × Context × Reference :=
  if e.a < row.qe.toNat then (!cx.mps, Decoder.afterLps row cx, e)
  else (cx.mps, Decoder.afterMps row cx, e)

/-- One symbol under one context: the symbol, the context after it and the decoder after it. -/
def decode (e : Reference) (cx : Context) : Bool × Context × Reference :=
  let row := Row.at cx.index
  let e := { e with a := e.a - row.qe.toNat }
  if e.c >>> 16 < row.qe.toNat then
    match lpsExchange row cx e with
    | (bit, cx, e) => (bit, cx, e.renormalise)
  else
    let e := { e with c := e.c - row.qe.toNat <<< 16 }
    if e.a < 0x8000 then
      match mpsExchange row cx e with
      | (bit, cx, e) => (bit, cx, e.renormalise)
    else (cx.mps, cx, e)

end Reference

instance : BitSource Reference where
  decode := Reference.decode
  isComplete _ := false

/-! ## Where the registers part -/

/-- The next shift takes in a byte above `0x7f` after `0xff` that is not part of a marker, while the
distance is zero. -/
def Decoder.Stalled (d : Decoder) : Prop :=
  d.count = 0 ∧ d.byteAt d.pointer = 0xff ∧ 0x80 ≤ d.byteAt (d.pointer + 1) ∧
    d.byteAt (d.pointer + 1) ≤ 0x8f ∧ d.c = 0

instance (d : Decoder) : Decidable d.Stalled := inferInstanceAs (Decidable (_ ∧ _))

theorem toNat_byte_shiftLeft (byte : UInt8) {k : UInt32} (hk : k ≤ 24) :
    (byte.toUInt32 <<< k).toNat = byte.toNat * 2 ^ k.toNat := by
  have hlt := byte.toNat_lt
  have hk' : k.toNat ≤ 24 := hk
  have hp : 2 ^ k.toNat ≤ 2 ^ 24 := Nat.pow_le_pow_right (by decide) hk'
  have hmul : byte.toNat * 2 ^ k.toNat ≤ 255 * 2 ^ 24 := Nat.mul_le_mul (by omega) hp
  rw [UInt32.toNat_shiftLeft, UInt8.toNat_toUInt32, Nat.mod_eq_of_lt (by omega : k.toNat < 32),
    Nat.shiftLeft_eq, Nat.mod_eq_of_lt (by omega)]

theorem toNat_shiftLeft_of_lt {u : UInt32} {k : Nat} (hk : k < 32) (h : u.toNat * 2 ^ k < 2 ^ 32) :
    (u <<< UInt32.ofNat k).toNat = u.toNat * 2 ^ k := by
  have hk' : (UInt32.ofNat k).toNat % 32 = k := by
    rw [UInt32.toNat_ofNat']
    omega
  rw [UInt32.toNat_shiftLeft, hk', Nat.shiftLeft_eq, Nat.mod_eq_of_lt h]

theorem toNat_add_sub (c top x : UInt32) (h : c.toNat + top.toNat < 2 ^ 32)
    (hx : x.toNat ≤ c.toNat + top.toNat) :
    (c + top - x).toNat = c.toNat + top.toNat - x.toNat := by
  have hsum : (c + top).toNat = c.toNat + top.toNat := by
    rw [UInt32.toNat_add, Nat.mod_eq_of_lt h]
  rw [UInt32.toNat_sub_of_le _ _ (by rw [UInt32.le_iff_toNat_le, hsum]; exact hx), hsum]

theorem and_eq_zero_of_lt {rest : UInt32} (h : rest.toNat < 0x8000) : rest &&& 0x8000 = 0 := by
  apply UInt32.toNat_inj.1
  rw [UInt32.toNat_and, UInt32.toNat_zero]
  apply Nat.eq_of_testBit_eq
  intro i
  rw [Nat.testBit_and, Nat.zero_testBit]
  have hbit : (0x8000 : UInt32).toNat.testBit i = decide (15 = i) := Nat.testBit_two_pow (n := 15)
  rw [hbit]
  by_cases hi : 15 = i
  · subst hi
    rw [Nat.testBit_lt_two_pow h, Bool.false_and]
  · rw [decide_eq_false hi, Bool.and_false]

theorem and_eq_zero_iff {rest : UInt32} (h : rest.toNat < 0x10000) :
    rest &&& 0x8000 = 0 ↔ rest.toNat < 0x8000 := by
  refine ⟨fun hzero => Nat.lt_of_not_le fun hge => ?_, and_eq_zero_of_lt⟩
  have hbit : rest.toNat.testBit 15 = true :=
    Nat.testBit_of_two_pow_le_and_two_pow_add_one_gt hge h
  have hand : (rest &&& 0x8000).toNat.testBit 15 = true := by
    rw [UInt32.toNat_and, Nat.testBit_and, hbit]
    rfl
  rw [hzero] at hand
  cases hand

theorem add_le_of_dvd {u x y : Nat} (hx : u ∣ x) (hy : u ∣ y) (h : x < y) : x + u ≤ y := by
  obtain ⟨m, rfl⟩ := hx
  obtain ⟨n, rfl⟩ := hy
  have hmn : m + 1 ≤ n := Nat.lt_of_mul_lt_mul_left h
  have hle := Nat.mul_le_mul_left u hmn
  rw [Nat.mul_add, Nat.mul_one] at hle
  exact hle

/-! ## Two ends of one interval -/

variable {d : Decoder} {e : Reference} {length : Nat}

/-- The two decoders measure one point from the two ends of an interval of this length: the
distances and one unit of the bits left make it up. -/
structure Mirrors (d : Decoder) (e : Reference) (length : Nat) : Prop where
  data : e.data = d.data
  pointer : e.pointer = d.pointer
  count : e.count = d.count
  count_le : d.count ≤ 8
  sum : d.c.toNat + e.c + 2 ^ (16 - d.count) = length * 2 ^ 16
  unit : 2 ^ (16 - d.count) ∣ e.c

theorem byteAt_eq (h : e.data = d.data) (i : Nat) : e.byteAt i = (d.byteAt i).toNat := by
  unfold Reference.byteAt Decoder.byteAt
  rw [h]

theorem Mirrors.refill (h : Mirrors d e length) (hempty : d.count = 0) {c : UInt32}
    {y pointer count : Nat} {supply : Supply} (hcount : count ≤ 8)
    (hsum : c.toNat + y + 2 ^ (16 - count) = d.c.toNat + 2 ^ 16) (hunit : 2 ^ (16 - count) ∣ y) :
    Mirrors { d with pointer := pointer, c := c, count := count, supply := supply }
      { e with pointer := pointer, c := e.c + y, count := count } length := by
  have hold := h.sum
  have hdvd := h.unit
  rw [hempty] at hold hdvd
  refine ⟨h.data, rfl, rfl, hcount, ?_, ?_⟩
  · simp only
    omega
  · exact Nat.dvd_add (Nat.dvd_trans (Nat.pow_dvd_pow 2 (by omega)) hdvd) hunit

/-- Taking in a byte keeps the two decoders at one point, unless the carry has nowhere to go. -/
theorem Mirrors.takeByte (h : Mirrors d e length) (hempty : d.count = 0) (hstall : ¬d.Stalled)
    (hlength : length ≤ 0x10000) : Mirrors d.takeByte e.byteIn length := by
  have hsum := h.sum
  have hunit := h.unit
  rw [hempty] at hsum hunit
  unfold Decoder.takeByte Reference.byteIn
  rw [h.pointer, byteAt_eq h.data, byteAt_eq h.data]
  have hbyte := (d.byteAt (d.pointer + 1)).toNat_lt
  have hshift9 := toNat_byte_shiftLeft (d.byteAt (d.pointer + 1)) (k := 9) (by decide)
  have hshift8 := toNat_byte_shiftLeft (d.byteAt (d.pointer + 1)) (k := 8) (by decide)
  have h9 : (9 : UInt32).toNat = 9 := rfl
  have h8 : (8 : UInt32).toNat = 8 := rfl
  have hfe : (0xfe00 : UInt32).toNat = 0xfe00 := rfl
  have hfull : (0xff00 : UInt32).toNat = 0xff00 := rfl
  rw [h9] at hshift9
  rw [h8] at hshift8
  simp only [Nat.shiftLeft_eq]
  by_cases hff : d.byteAt d.pointer = 0xff
  · have hff' : (d.byteAt d.pointer).toNat = 0xff := by
      rw [hff]
      rfl
    rw [if_pos hff, if_pos hff']
    by_cases hmarker : 0x8f < d.byteAt (d.pointer + 1)
    · have hmarker' : 0x8f < (d.byteAt (d.pointer + 1)).toNat := UInt8.lt_iff_toNat_lt.1 hmarker
      rw [if_pos hmarker, if_pos hmarker']
      exact h.refill hempty (Nat.le_refl 8) (by omega) (by decide)
    · have hmarker' : ¬0x8f < (d.byteAt (d.pointer + 1)).toNat := fun hlt =>
        hmarker (UInt8.lt_iff_toNat_lt.2 hlt)
      have hroom : (d.byteAt (d.pointer + 1)).toNat * 2 ^ 9 ≤ d.c.toNat + 0xfe00 := by
        by_cases hc : d.c = 0
        · have hsmall : ¬0x80 ≤ (d.byteAt (d.pointer + 1)).toNat := fun hge =>
            hstall ⟨hempty, hff, UInt8.le_iff_toNat_le.2 hge,
              UInt8.le_iff_toNat_le.2 (Nat.le_of_not_lt hmarker'), hc⟩
          omega
        · have hpos : d.c.toNat ≠ 0 := fun h0 => hc (UInt32.toNat_inj.1 h0)
          omega
      rw [if_neg hmarker, if_neg hmarker']
      have htake := toNat_add_sub d.c 0xfe00
        ((d.byteAt (d.pointer + 1)).toUInt32 <<< 9) (by omega) (by omega)
      exact h.refill hempty (by decide) (by omega) (Nat.dvd_mul_left _ _)
  · have hff' : ¬(d.byteAt d.pointer).toNat = 0xff := fun heq => hff (UInt8.toNat_inj.1 heq)
    rw [if_neg hff, if_neg hff']
    have htake := toNat_add_sub d.c 0xff00
      ((d.byteAt (d.pointer + 1)).toUInt32 <<< 8) (by omega) (by omega)
    exact h.refill hempty (Nat.le_refl 8) (by omega) (Nat.dvd_mul_left _ _)

theorem Mirrors.scale (h : Mirrors d e length) {k : Nat} (hk : k ≤ d.count)
    (hlength : length * 2 ^ k ≤ 0x10000) (a : UInt32) (a' : Nat) :
    Mirrors { d with a := a, c := d.c <<< UInt32.ofNat k, count := d.count - k }
      { e with a := a', c := e.c <<< k, count := e.count - k } (length * 2 ^ k) := by
  have hcount := h.count_le
  have hpow : 2 ^ (16 - (d.count - k)) = 2 ^ (16 - d.count) * 2 ^ k := by
    rw [← Nat.pow_add]
    congr 1
    omega
  have hsum : d.c.toNat * 2 ^ k + e.c * 2 ^ k + 2 ^ (16 - d.count) * 2 ^ k =
      length * 2 ^ k * 2 ^ 16 := by
    rw [← Nat.add_mul, ← Nat.add_mul, h.sum, Nat.mul_right_comm]
  have hunit : 0 < 2 ^ (16 - d.count) * 2 ^ k := Nat.mul_pos (Nat.two_pow_pos _) (Nat.two_pow_pos _)
  have hc := toNat_shiftLeft_of_lt (u := d.c) (k := k) (by omega) (by omega)
  refine ⟨h.data, h.pointer, ?_, ?_, ?_, ?_⟩
  · show e.count - k = d.count - k
    rw [h.count]
  · show d.count - k ≤ 8
    omega
  · simp only
    rw [hc, Nat.shiftLeft_eq, hpow]
    exact hsum
  · simp only
    rw [hpow, Nat.shiftLeft_eq]
    exact Nat.mul_dvd_mul_right h.unit _

theorem Mirrors.toNat_lt (h : Mirrors d e length) : d.c.toNat < length * 2 ^ 16 := by
  have hsum := h.sum
  have hunit : 0 < 2 ^ (16 - d.count) := Nat.two_pow_pos _
  omega

/-- Both decoders choose the same part: the point is in the lower `qe` of the interval if and only
if it is not in the upper rest of it. -/
theorem Mirrors.high_lt_iff (h : Mirrors d e length) {qe : Nat} (hqe : qe ≤ length) :
    d.c.toNat / 2 ^ 16 < length - qe ↔ ¬e.c / 2 ^ 16 < qe := by
  have hsum := h.sum
  have hcount := h.count_le
  have hunit : 0 < 2 ^ (16 - d.count) := Nat.two_pow_pos _
  have hdvd : 2 ^ (16 - d.count) ∣ qe * 2 ^ 16 :=
    Nat.dvd_trans (Nat.pow_dvd_pow 2 (by omega)) (Nat.dvd_mul_left _ _)
  rw [Nat.div_lt_iff_lt_mul (by decide), Nat.div_lt_iff_lt_mul (by decide), Nat.sub_mul]
  constructor
  · intro hlt hlow
    have hle := add_le_of_dvd h.unit hdvd hlow
    omega
  · intro hge
    omega

theorem Mirrors.cutLower (h : Mirrors d e length) {qe : Nat} (hqe : qe ≤ length)
    (hge : ¬e.c / 2 ^ 16 < qe) (a : UInt32) (a' : Nat) :
    Mirrors { d with a := a } { e with a := a', c := e.c - qe <<< 16 } (length - qe) := by
  have hsum := h.sum
  have hcount := h.count_le
  rw [Nat.div_lt_iff_lt_mul (by decide)] at hge
  refine ⟨h.data, h.pointer, h.count, h.count_le, ?_, ?_⟩
  · simp only [Nat.shiftLeft_eq]
    omega
  · simp only [Nat.shiftLeft_eq]
    refine Nat.dvd_sub h.unit ?_
    exact Nat.dvd_trans (Nat.pow_dvd_pow 2 (by omega)) (Nat.dvd_mul_left _ _)

theorem Mirrors.cutUpper (h : Mirrors d e length) {qe : Nat} (hqe : qe ≤ length)
    (hlow : e.c / 2 ^ 16 < qe) {rest : UInt32} (hrest : rest.toNat = length - qe)
    (hlength : length < 0x10000) (a : UInt32) (a' : Nat) :
    Mirrors { d with a := a, c := d.c - rest <<< 16 } { e with a := a' } qe := by
  have hsum := h.sum
  have hge : ¬d.c.toNat / 2 ^ 16 < length - qe := fun hlt => (h.high_lt_iff hqe).1 hlt hlow
  rw [Nat.div_lt_iff_lt_mul (by decide)] at hge
  have hshift : (rest <<< (16 : UInt32)).toNat = rest.toNat * 2 ^ 16 :=
    toNat_shiftLeft_of_lt (k := 16) (by decide) (by omega)
  have hc : (d.c - rest <<< 16).toNat = d.c.toNat - rest.toNat * 2 ^ 16 := by
    rw [← hshift]
    exact UInt32.toNat_sub_of_le _ _ (by rw [UInt32.le_iff_toNat_le, hshift]; omega)
  refine ⟨h.data, h.pointer, h.count, h.count_le, ?_, h.unit⟩
  simp only
  rw [hc]
  omega

end Bilevel.MQ
