import Bilevel.Proofs.Region.Canvas

/-!
# What decoding a row writes

Whatever the region and the source are, decoding a row writes to that row and to nothing else, also
where it breaks off.

* `Canvas.Wrote` — a canvas with no more than a number of rows written to, in its old size and with
  zero padding if that was zero before; `Wrote.trans` puts two such together, and `Wrote.row?_eq`
  has the bytes of all other rows.
* `Canvas.OnRow` — the same where only the next row has been written to, and is still the next.
* `onRow_put`, `onRow_putByte`, `onRow_repeatRow` — the steps of a decode.
* `decodeRow_holds` — so it is with all that is held while a row is decoded; `decodeRows_holds` —
  and with what a number of rows leads to.
-/

set_option autoImplicit false

namespace Bilevel

namespace Canvas

variable {c h k : Canvas} {m n : Nat}

/-! ## Canvases that differ in some rows -/

/-- The second canvas is the first one with nothing written to but a number of rows from the next
one on. -/
structure Wrote (c : Canvas) (rows : Nat) (h : Canvas) : Prop where
  width : h.bitmap.width = c.bitmap.width
  height : h.bitmap.height = c.bitmap.height
  size : h.bitmap.data.size = c.bitmap.data.size
  packed : c.bitmap.Packed → h.bitmap.Packed
  others : c.bitmap.Packed → ∀ x y, x < 8 * c.bitmap.stride → y < c.row ∨ c.row + rows ≤ y →
    h.bitmap.bit x y = c.bitmap.bit x y

theorem Wrote.stride (hc : c.Wrote n h) : h.bitmap.stride = c.bitmap.stride :=
  congrArg Bitmap.bytesFor hc.width

theorem wrote_same (b : Bitmap) (row row' : Nat) (typical typical' : Bool) (n : Nat) :
    Wrote ⟨b, row, typical⟩ n ⟨b, row', typical'⟩ :=
  ⟨rfl, rfl, rfl, id, fun _ _ _ _ _ => rfl⟩

/-- What has been written to in two goes lies within any rows that hold both. -/
theorem Wrote.trans (hh : c.Wrote m h) (hk : h.Wrote n k) {rows : Nat} (hm : m ≤ rows)
    (hrow : c.row ≤ h.row) (hn : h.row + n ≤ c.row + rows) : c.Wrote rows k := by
  refine ⟨hk.width.trans hh.width, hk.height.trans hh.height, hk.size.trans hh.size,
    fun hc => hk.packed (hh.packed hc), fun hc x y hx hy => ?_⟩
  rw [hk.others (hh.packed hc) x y (by rw [hh.stride]; exact hx) (by omega)]
  exact hh.others hc x y hx (by omega)

/-- All pixels above these rows are the same. -/
theorem Wrote.get_eq (hh : c.Wrote n h) (hc : c.bitmap.Packed) {y : Int} (hy : y < c.row)
    (x : Int) :
    h.bitmap.get x y = c.bitmap.get x y := by
  have hwidth := c.bitmap.width_le
  rw [Bitmap.get_eq_bit, Bitmap.get_eq_bit, hh.width, hh.height]
  by_cases hin : 0 ≤ x ∧ x < c.bitmap.width ∧ 0 ≤ y ∧ y < c.bitmap.height
  · rw [hh.others hc _ _ (by omega) (.inl (by omega))]
  · rw [decide_eq_false hin, Bool.false_and, Bool.false_and]

theorem Wrote.row?_eq (hh : c.Wrote n h) (hc : c.bitmap.Packed) (hpos : 0 < c.bitmap.width)
    {y : Nat} (hy : y < c.bitmap.height) (hother : y < c.row ∨ c.row + n ≤ y) :
    h.bitmap.row? y = c.bitmap.row? y := by
  have hwidth := c.bitmap.width_le
  refine (hh.packed hc).row?_congr hc hh.width (hh.width ▸ hpos) (hh.height ▸ hy) hy fun x hx => ?_
  rw [hh.width] at hx
  exact hh.others hc x y (by omega) hother

/-- The second canvas is the first one with nothing written to but the next row, which still is the
next. -/
structure OnRow (c h : Canvas) : Prop where
  row : h.row = c.row
  wrote : c.Wrote 1 h

theorem OnRow.refl (c : Canvas) : c.OnRow c := ⟨rfl, wrote_same _ _ _ _ _ 1⟩

theorem OnRow.trans (hh : c.OnRow h) (hk : h.OnRow k) : c.OnRow k := by
  have hrow := hh.row
  exact ⟨hk.row.trans hrow, hh.wrote.trans hk.wrote (Nat.le_refl 1) (by omega) (by omega)⟩

theorem onRow_withTypical (c : Canvas) (typical : Bool) : c.OnRow { c with typical := typical } :=
  ⟨rfl, wrote_same _ _ _ _ _ 1⟩

/-! ## Steps -/

theorem onRow_put (c : Canvas) (x : Nat) (value : Bool) : c.OnRow (c.put x value) := by
  refine ⟨rfl, Bitmap.width_set _ _ _ _, Bitmap.height_set _ _ _ _, Bitmap.size_set _ _ _ _,
    fun hc => hc.set _ _ _, fun hc x' y' hx' hy' => ?_⟩
  unfold put
  by_cases hin : x < c.bitmap.width ∧ c.row < c.bitmap.height
  · rw [Bitmap.bit_set hc hin.1 hin.2 value x' y' hx', if_neg (by omega)]
  · unfold Bitmap.set
    rw [if_neg hin]

/-- Writing a byte that leaves the padding zero. -/
theorem onRow_putByte {i : Nat} (hi : c.bitmap.StoresByte c.row i) {byte : UInt8}
    (hbyte : ∀ x, c.bitmap.width ≤ x → x / 8 = i →
      byte.toNat.testBit (Bitmap.bitPlace x) = false) : c.OnRow (c.putByte i byte) := by
  refine ⟨rfl, rfl, rfl, Bitmap.size_setByte _ _ _ _, fun hc => hc.setByte hi hbyte,
    fun hc x' y' hx' hy' => ?_⟩
  unfold putByte
  rw [Bitmap.bit_setByte hi byte x' y' hx', if_neg (by omega)]

theorem onRow_repeatRow (c : Canvas) : c.OnRow c.repeatRow := by
  refine ⟨rfl, Bitmap.width_copyRow _ _ _, Bitmap.height_copyRow _ _ _, Bitmap.size_copyRow _ _ _,
    fun hc => hc.copyRow _ _, fun hc x' y' hx' hy' => ?_⟩
  unfold repeatRow
  by_cases hin : c.row < c.bitmap.height
  · rw [Bitmap.bit_copyRow hc hin _ x' y' hx', if_neg (by omega)]
  · unfold Bitmap.copyRow
    rw [if_neg (fun h => hin h.1)]

end Canvas

namespace Region

open Dialogue

variable {c c₀ : Canvas}

theorem pixelsFrom_holds (r : Region) (offsets : Option (List Offset)) (left x : Nat)
    (hc : c₀.OnRow c) : (r.pixelsFrom offsets left x c).Holds c₀.OnRow c₀.OnRow := by
  induction left generalizing x c with
  | zero => exact hc
  | succ left ih =>
    have hstep : ∀ value, (r.pixelsFrom offsets left (x + 1) (c.put x value)).Holds
        c₀.OnRow c₀.OnRow := fun value => ih (x + 1) (hc.trans (c.onRow_put x value))
    cases offsets with
    | none =>
      rw [pixelsFrom]
      split
      · exact hstep false
      · exact hc
    | some places =>
      rw [pixelsFrom]
      split
      · exact hstep false
      · exact ⟨hc, hstep⟩

/-- While a byte is decoded nothing is written, and its lowest bits stay zero until their turn. -/
theorem byteFrom_holds (layout : Layout) (held : Canvas) {left free byte : Nat} (w : Window)
    (hleft : left ≤ free) (hbyte : ∀ j < free, byte.testBit j = false) :
    (byteFrom layout held left (free - 1) byte w).Holds (· = held)
      fun p => ∀ j < free - left, p.1.testBit j = false := by
  induction left generalizing free byte w with
  | zero => exact hbyte
  | succ left ih =>
    refine ⟨rfl, fun bit => ?_⟩
    have hnext : ∀ j < free - 1, (byte ||| bit.toNat <<< (free - 1)).testBit j = false := by
      intro j hj
      rw [Nat.testBit_or, hbyte j (by omega), Nat.testBit_shiftLeft, decide_eq_false (by omega)]
      rfl
    have h := ih (w.next layout bit (free - 1)) (by omega) hnext
    rw [show free - 1 - left = free - (left + 1) by omega] at h
    exact h

/-- A byte is written when all its pixels are known, and has no more of them than the row. -/
theorem windowByte_holds (layout : Layout) {size : Nat} (hsize : size ≤ 8) (i : Nat) (w : Window)
    (c : Canvas) (hend : ∀ x, c.bitmap.width ≤ x → x / 8 = i → 8 * i + size ≤ x) :
    (windowByte layout size i w c).Holds (· = c) fun p => c.OnRow p.2 := by
  have hbyte := byteFrom_holds layout c w hsize fun j _ => Nat.zero_testBit j
  refine hbyte.bind fun p hp => ?_
  by_cases hi : c.bitmap.StoresByte c.row i
  · simp only [if_pos hi]
    refine Canvas.onRow_putByte hi fun x hx hcol => ?_
    have hlast := hend x hx hcol
    unfold Bitmap.bitPlace
    rw [UInt8.toNat_ofNat', Nat.testBit_mod_two_pow, hp (7 - x % 8) (by omega), Bool.and_false]
  · simp only [if_neg hi]
    rfl

theorem bytesFrom_holds (layout : Layout) {left i : Nat} (w : Window)
    (hi : i + left = c.bitmap.stride - 1) (hc : c₀.OnRow c) :
    (bytesFrom layout (c.bitmap.width - 8 * (c.bitmap.stride - 1)) left i w c).Holds
      c₀.OnRow c₀.OnRow := by
  have hstride : c.bitmap.stride = (c.bitmap.width + 7) / 8 := rfl
  induction left generalizing i w c with
  | zero =>
    have hsize : c.bitmap.width - 8 * (c.bitmap.stride - 1) ≤ 8 := by omega
    have hbyte := windowByte_holds layout hsize i (w.refill layout 0 0) c (by omega)
    exact (hbyte.mono (fun held hheld => hheld ▸ hc) fun p hp => hc.trans hp).bind fun p hp => hp
  | succ left ih =>
    rw [bytesFrom]
    split
    · rename_i upper lower _ _
      have hbyte := windowByte_holds layout (Nat.le_refl 8) i (w.refill layout upper lower) c
        (by omega)
      refine (hbyte.mono (fun held hheld => hheld ▸ hc) fun p hp => hp).bind fun p hp => ?_
      have hwidth := hp.wrote.width
      have hstride' := hp.wrote.stride
      rw [← hwidth, ← hstride']
      exact ih p.1 (by omega) (hc.trans hp) (by omega)
    · exact hc

theorem windowRow_holds (r : Region) (hc : c₀.OnRow c) :
    (r.windowRow c).Holds c₀.OnRow c₀.OnRow := by
  unfold windowRow
  simp only
  split
  · exact bytesFrom_holds _ _ (Nat.zero_add _) hc
  · exact hc

/-! ## Rows -/

theorem typicalBit_holds (r : Region) (c : Canvas) :
    (r.typicalBit c).Holds c.OnRow c.OnRow := by
  unfold typicalBit
  split
  · exact ⟨.refl c, fun bit => c.onRow_withTypical _⟩
  · exact .refl c

theorem fillRow_holds (r : Region) (strategy : Strategy) (hc : c₀.OnRow c) :
    (r.fillRow strategy c).Holds c₀.OnRow c₀.OnRow := by
  unfold fillRow
  split
  · split
    · exact hc.trans c.onRow_repeatRow
    · exact hc
  · cases strategy with
    | windows => exact r.windowRow_holds hc
    | pixels => exact r.pixelsFrom_holds _ _ _ hc

/-- **Decoding a row writes only to that row**, on the way as in the end. -/
theorem decodeRow_holds (r : Region) (strategy : Strategy) (c : Canvas) :
    (r.decodeRow strategy c).Holds c.OnRow
      fun c' => c.Wrote 1 c' ∧ c'.row = c.row + 1 := by
  refine (r.typicalBit_holds c).bind fun c₁ h₁ => ?_
  refine (r.fillRow_holds strategy h₁).bind fun c₂ h₂ => ?_
  have hnext : c₂.Wrote 0 c₂.nextRow := Canvas.wrote_same _ _ _ _ _ 0
  have hrow := h₂.row
  exact ⟨h₂.wrote.trans hnext (Nat.le_refl 1) (by omega) (by omega), congrArg Nat.succ hrow⟩

/-- A number of rows writes to just as many rows, and comes to the row below them. -/
theorem decodeRows_holds (r : Region) (strategy : Strategy) (rows : Nat) (c : Canvas) :
    (r.decodeRows strategy rows c).Holds (fun _ => True)
      fun c' => c.Wrote rows c' ∧ c'.row = c.row + rows := by
  induction rows generalizing c with
  | zero => exact ⟨Canvas.wrote_same _ _ _ _ _ 0, rfl⟩
  | succ rows ih =>
    refine ((r.decodeRow_holds strategy c).mono (fun _ _ => trivial) fun _ h => h).bind ?_
    rintro c₁ ⟨hwrote, hrow⟩
    refine (ih c₁).mono (fun _ h => h) ?_
    rintro c₂ ⟨hwrote', hrow'⟩
    exact ⟨hwrote.trans hwrote' (by omega) (by omega) (by omega), by omega⟩

end Region

end Bilevel
