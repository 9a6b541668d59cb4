import Bilevel.Source

/-!
# The adaptive binary arithmetic decoder

Coded data stand for a point in an interval, which every decoded symbol narrows.  The decoder
keeps the length `a` of the interval and the distance `c` of the point, both scaled up so that `a`
stays between `0x8000` and `0xffff`; scaling up uses up coded bits, and a byte is taken in whenever
eight of them are gone.

The distance is counted from the upper end of the interval, so that the coded bytes enter
complemented; the part of the less probable symbol lies at the far end.

A byte `0xff` is followed by seven bits instead of eight, and by a byte above `0x8f` only at the
end of the data, where the two form a marker.  Bytes behind the data read as `0xff`, so that the end
of the data looks like a marker too.  At a marker nothing more is taken in; when that has happened
often enough, the decoder says that it is complete.

* `Supply` — how often a byte was wanted at a marker.
* `Decoder.init`, `Decoder.takeByte`, `Decoder.shift`, `Decoder.renormalise` — the registers.
* `Decoder.decode` — one symbol under one context.
-/

set_option autoImplicit false

namespace Bilevel.MQ

/-! ## The probability table -/

/-- One row of the probability table: the part of the interval given to the less probable symbol,
the rows to go to after the two symbols, and whether the less probable one then becomes the more
probable one. -/
structure Row where
  qe : UInt32
  nextMps : Nat
  nextLps : Nat
  switch : Bool
  deriving DecidableEq, Repr

def rows : Array Row :=
  #[
    ⟨0x5601, 1, 1, true⟩,
    ⟨0x3401, 2, 6, false⟩,
    ⟨0x1801, 3, 9, false⟩,
    ⟨0x0ac1, 4, 12, false⟩,
    ⟨0x0521, 5, 29, false⟩,
    ⟨0x0221, 38, 33, false⟩,
    ⟨0x5601, 7, 6, true⟩,
    ⟨0x5401, 8, 14, false⟩,
    ⟨0x4801, 9, 14, false⟩,
    ⟨0x3801, 10, 14, false⟩,
    ⟨0x3001, 11, 17, false⟩,
    ⟨0x2401, 12, 18, false⟩,
    ⟨0x1c01, 13, 20, false⟩,
    ⟨0x1601, 29, 21, false⟩,
    ⟨0x5601, 15, 14, true⟩,
    ⟨0x5401, 16, 14, false⟩,
    ⟨0x5101, 17, 15, false⟩,
    ⟨0x4801, 18, 16, false⟩,
    ⟨0x3801, 19, 17, false⟩,
    ⟨0x3401, 20, 18, false⟩,
    ⟨0x3001, 21, 19, false⟩,
    ⟨0x2801, 22, 19, false⟩,
    ⟨0x2401, 23, 20, false⟩,
    ⟨0x2201, 24, 21, false⟩,
    ⟨0x1c01, 25, 22, false⟩,
    ⟨0x1801, 26, 23, false⟩,
    ⟨0x1601, 27, 24, false⟩,
    ⟨0x1401, 28, 25, false⟩,
    ⟨0x1201, 29, 26, false⟩,
    ⟨0x1101, 30, 27, false⟩,
    ⟨0x0ac1, 31, 28, false⟩,
    ⟨0x09c1, 32, 29, false⟩,
    ⟨0x08a1, 33, 30, false⟩,
    ⟨0x0521, 34, 31, false⟩,
    ⟨0x0441, 35, 32, false⟩,
    ⟨0x02a1, 36, 33, false⟩,
    ⟨0x0221, 37, 34, false⟩,
    ⟨0x0141, 38, 35, false⟩,
    ⟨0x0111, 39, 36, false⟩,
    ⟨0x0085, 40, 37, false⟩,
    ⟨0x0049, 41, 38, false⟩,
    ⟨0x0025, 42, 39, false⟩,
    ⟨0x0015, 43, 40, false⟩,
    ⟨0x0009, 44, 41, false⟩,
    ⟨0x0005, 45, 42, false⟩,
    ⟨0x0001, 45, 43, false⟩,
    ⟨0x5601, 46, 46, false⟩]

theorem rows_size : rows.size = 47 := rfl

/-- The row with a given number; past the end of the table it is the last one. -/
def Row.at (index : Nat) : Row := rows.getD index ⟨0x5601, 46, 46, false⟩

theorem nextMps_lt (index : Nat) (h : index < 47) : (Row.at index).nextMps < 47 := by
  have : ∀ i : Fin 47, (Row.at i).nextMps < 47 := by decide
  exact this ⟨index, h⟩

theorem nextLps_lt (index : Nat) (h : index < 47) : (Row.at index).nextLps < 47 := by
  have : ∀ i : Fin 47, (Row.at i).nextLps < 47 := by decide
  exact this ⟨index, h⟩

/-- How often a byte was wanted where there is none left. -/
inductive Supply where
  | plenty
  | missedOnce
  | missedTwice
  | exhausted
  deriving DecidableEq, Repr

def Supply.miss : Supply → Supply
  | .plenty => .missedOnce
  | .missedOnce => .missedTwice
  | .missedTwice => .exhausted
  | .exhausted => .exhausted

/-! ## Registers -/

/-- The state of a decoder: the coded bytes, the distance `c` of the coded point from the upper end
of the interval and the length `a` of the interval, the place of the byte taken in last and the bits
left of it, and how often the data ran short.  A place is a number without bounds here; it is one of
32 bits, and so is the next place, on data of fewer than `2 ^ 32 - 1` bytes. -/
structure Decoder where
  data : Array UInt8
  c : UInt32
  a : UInt32
  pointer : Nat
  count : Nat
  supply : Supply
  deriving Repr

namespace Decoder

/-- The byte at a place; behind the data it is `0xff`. -/
def byteAt (d : Decoder) (i : Nat) : UInt8 := d.data.getD i 0xff

/-- Takes in one byte: eight bits of it, or seven after a `0xff`.  At a marker the pointer stays and
eight bits without content are supplied. -/
def takeByte (d : Decoder) : Decoder :=
  let following := d.byteAt (d.pointer + 1)
  if d.byteAt d.pointer = 0xff then
    if following > 0x8f then { d with count := 8, supply := d.supply.miss }
    else
      { d with
        pointer := d.pointer + 1
        c := d.c + 0xfe00 - (following.toUInt32 <<< (9 : UInt32))
        count := 7 }
  else
    { d with
      pointer := d.pointer + 1
      c := d.c + 0xff00 - (following.toUInt32 <<< (8 : UInt32))
      count := 8 }

/-- Doubles the interval, after taking in a byte if no bits are left. -/
def shift (d : Decoder) : Decoder :=
  let d := if d.count = 0 then d.takeByte else d
  { d with a := d.a <<< 1, c := d.c <<< 1, count := d.count - 1 }

def shiftBy : Nat → Decoder → Decoder
  | 0, d => d
  | n + 1, d => shiftBy n d.shift

/-- Doubles the interval until its length has reached `0x8000` again. -/
def renormalise (d : Decoder) : Decoder := d.shiftBy (15 - d.a.toNat.log2)

def init (data : Array UInt8) : Decoder :=
  let d : Decoder := ⟨data, 0, 0x8000, 0, 0, .plenty⟩
  let d := { d with c := ((d.byteAt 0).toUInt32 ^^^ 0xff) <<< 16 }
  let d := d.takeByte
  { d with c := d.c <<< 7, count := d.count - 7 }

/-- Number of bytes taken in so far. -/
def position (d : Decoder) : Nat := min d.pointer d.data.size

/-- Whether the data have run short too often to go on. -/
def isComplete (d : Decoder) : Bool := d.supply = .exhausted

def afterMps (row : Row) (cx : Context) : Context := { cx with index := row.nextMps }

/-- The context after its less probable symbol. -/
def afterLps (row : Row) (cx : Context) : Context :=
  ⟨row.nextLps, if row.switch then !cx.mps else cx.mps⟩

/-- One symbol under one context: the symbol, the context after it and the decoder after it.  The
part `qe` of the interval is cut off for the less probable symbol; where it is longer than what is
left, the two symbols change parts. -/
def decode (d : Decoder) (cx : Context) : Bool × Context × Decoder :=
  let row := Row.at cx.index
  let rest := d.a - row.qe
  if d.c >>> 16 < rest then
    if rest &&& 0x8000 = 0 then
      let d := ({ d with a := rest } : Decoder).renormalise
      if rest < row.qe then (!cx.mps, afterLps row cx, d)
      else (cx.mps, afterMps row cx, d)
    else (cx.mps, cx, { d with a := rest })
  else
    let d := ({ d with a := row.qe, c := d.c - (rest <<< (16 : UInt32)) } : Decoder).renormalise
    if rest < row.qe then (cx.mps, afterMps row cx, d)
    else (!cx.mps, afterLps row cx, d)

end Decoder

instance : BitSource Decoder where
  decode := Decoder.decode
  isComplete := Decoder.isComplete

end Bilevel.MQ
