import Bilevel.Proofs.Source.Dialogue
import Bilevel.Proofs.Template.Windows
import Bilevel.Region

/-!
# What holds of a canvas on the way

A row is decoded from left to right into a bitmap that is still blank behind the pixel that comes
next.

* `Canvas.Fits r x c` — the canvas has the size of the region, its bitmap is packed, and it is blank
  from column `x` of the next row on.
* `Fits.put`, `Fits.repeatRow`, `Fits.nextRow` — the steps of a decode keep this.
* `pixelsFrom_within`, `pixelRow_within` — decoding pixel by pixel asks only for contexts of the
  template, never gives up, and leaves a canvas that fits.
* `Bitmap.byteAbove` — a byte of a row above, and `Packed.byteCovers` its pixels; `Fits.byteAbove?`:
  these are the bytes that the windows take in.
-/

set_option autoImplicit false

namespace Bilevel

/-- The canvas has the size of the region and is blank from column `x` of its next row on. -/
structure Canvas.Fits (r : Region) (x : Nat) (c : Canvas) : Prop where
  width : c.bitmap.width = r.width
  height : c.bitmap.height = r.height
  packed : c.bitmap.Packed
  blank : ∀ x' y', x' < 8 * c.bitmap.stride → c.row < y' ∨ y' = c.row ∧ x ≤ x' →
    c.bitmap.bit x' y' = false

namespace Canvas

variable {r : Region} {c : Canvas} {x : Nat}

/-- A blank bitmap of the region's size is a canvas to start with. -/
theorem Fits.start {b : Bitmap} (hb : Bitmap.blank r.width r.height = .ok b) (typical : Bool) :
    Fits r 0 ⟨b, 0, typical⟩ :=
  ⟨Bitmap.width_blank hb, Bitmap.height_blank hb, .blank hb,
    fun x' y' _ _ => Bitmap.bit_blank hb x' y'⟩

theorem Fits.withTypical (h : c.Fits r x) (typical : Bool) :
    Fits r x { c with typical := typical } :=
  ⟨h.width, h.height, h.packed, h.blank⟩

theorem stride_put (c : Canvas) (x : Nat) (value : Bool) :
    (c.put x value).bitmap.stride = c.bitmap.stride := by
  unfold put Bitmap.stride
  rw [Bitmap.width_set]

theorem Fits.put (h : c.Fits r x) (hx : x < r.width) (hrow : c.row < r.height) (value : Bool) :
    (c.put x value).Fits r (x + 1) := by
  refine ⟨?_, ?_, h.packed.set _ _ _, fun x' y' hx' hy' => ?_⟩
  · exact (Bitmap.width_set _ _ _ _).trans h.width
  · exact (Bitmap.height_set _ _ _ _).trans h.height
  · rw [stride_put] at hx'
    have hrow' : (c.put x value).row = c.row := rfl
    rw [hrow'] at hy'
    unfold Canvas.put
    rw [Bitmap.bit_set h.packed (by rw [h.width]; exact hx) (by rw [h.height]; exact hrow) value
      x' y' hx', if_neg (by omega)]
    exact h.blank x' y' hx' (by omega)

/-- Where a pixel is put, that pixel changes and no other. -/
theorem Fits.get_put (h : c.Fits r x) {x₁ : Nat} (hx : x₁ < r.width) (hrow : c.row < r.height)
    (value : Bool) (x' y' : Int) :
    (c.put x₁ value).bitmap.get x' y' =
      if y' = c.row ∧ x' = x₁ then value else c.bitmap.get x' y' :=
  Bitmap.get_set h.packed (by rw [h.width]; exact hx) (by rw [h.height]; exact hrow) value x' y'

theorem Fits.repeatRow (h : c.Fits r x) (hrow : c.row < r.height) : c.repeatRow.Fits r r.width := by
  have hstride : c.repeatRow.bitmap.stride = c.bitmap.stride := by
    unfold Canvas.repeatRow Bitmap.stride
    rw [Bitmap.width_copyRow]
  refine ⟨?_, ?_, h.packed.copyRow _ _, fun x' y' hx' hy' => ?_⟩
  · exact (Bitmap.width_copyRow _ _ _).trans h.width
  · exact (Bitmap.height_copyRow _ _ _).trans h.height
  · rw [hstride] at hx'
    have hrow' : c.repeatRow.row = c.row := rfl
    rw [hrow'] at hy'
    unfold Canvas.repeatRow
    rw [Bitmap.bit_copyRow h.packed (by rw [h.height]; exact hrow) _ x' y' hx']
    split
    · rw [h.packed.padding x' _ (by rw [h.width]; omega) hx', Bool.and_false]
    · exact h.blank x' y' hx' (by omega)

theorem Fits.nextRow (h : c.Fits r x) : c.nextRow.Fits r 0 := by
  refine ⟨h.width, h.height, h.packed, fun x' y' hx' hy' => h.blank x' y' hx' ?_⟩
  have hrow' : c.nextRow.row = c.row + 1 := rfl
  rw [hrow'] at hy'
  omega

end Canvas

/-! ## The bytes of the rows above -/

/-- Byte `i` of the row so many rows above row `y`; above the first row all is white. -/
def Bitmap.byteAbove (b : Bitmap) (y distance i : Nat) : UInt8 :=
  if y < distance then 0 else (b.byte? (y - distance) i).getD 0

/-- The byte holds the eight columns up to `8 * i + 7`. -/
theorem Bitmap.Packed.byteCovers {b : Bitmap} (hb : b.Packed) {y distance i : Nat}
    (hd : 0 < distance) (hy : y < b.height) (hi : i < b.stride) :
    ByteCovers (b.byteAbove y distance i) (fun x => b.get x (y - distance)) (8 * i + 7) := by
  intro m hm
  unfold byteAbove
  simp only
  by_cases htop : y < distance
  · rw [if_pos htop, get_outside (.inr (.inl (by omega)))]
    exact Nat.zero_testBit m
  · have hlt := (hb.storesByte (y := y - distance) hi (by omega)).2
    have hbit : b.bit (8 * i + 7 - m) (y - distance) =
        b.data[(y - distance) * b.stride + i].toNat.testBit m := by
      unfold bit
      rw [show (8 * i + 7 - m) / 8 = i by omega, Array.getElem?_eq_getElem hlt]
      simp only
      rw [show bitPlace (8 * i + 7 - m) = m by unfold bitPlace; omega]
    unfold byte?
    rw [if_neg htop, if_pos hi, Array.getElem?_eq_getElem hlt, Option.getD_some, ← hbit,
      get_eq_bit, show ((8 * i + 7 : Int) - m).toNat = 8 * i + 7 - m by omega,
      show ((y : Int) - distance).toNat = y - distance by omega]
    by_cases hw : 8 * i + 7 - m < b.width
    · rw [decide_eq_true (by omega), Bool.true_and]
    · rw [hb.padding _ _ (by omega) (by omega), Bool.and_false]

namespace Canvas

variable {r : Region} {c : Canvas} {x : Nat}

theorem byteAbove?_eq (hpacked : c.bitmap.Packed) {distance i : Nat} (hd : 0 < distance)
    (hrow : c.row < c.bitmap.height) (hi : i < c.bitmap.stride) :
    c.byteAbove? distance i = some (c.bitmap.byteAbove c.row distance i) := by
  unfold byteAbove? Bitmap.byteAbove
  by_cases htop : c.row < distance
  · rw [if_pos htop, if_pos htop]
  · have hlt := (hpacked.storesByte (y := c.row - distance) hi (by omega)).2
    unfold Bitmap.byte?
    rw [if_neg htop, if_neg htop, if_pos hi, Array.getElem?_eq_getElem hlt]
    rfl

/-- The windows find a byte for each of the eight columns up to `8 * i + 7`, and above the first row
zeros. -/
theorem Fits.byteAbove? (h : c.Fits r x) (distance i : Nat) (hd : 0 < distance)
    (hrow : c.row < r.height) (hi : i < c.bitmap.stride) :
    ∃ byte, c.byteAbove? distance i = some byte ∧
      ByteCovers byte (fun x => c.bitmap.get x (c.row - distance)) (8 * i + 7) := by
  have hheight : c.row < c.bitmap.height := by
    rw [h.height]
    exact hrow
  exact ⟨_, byteAbove?_eq h.packed hd hheight hi, h.packed.byteCovers hd hheight hi⟩

/-- Behind the last byte of a row nothing is left. -/
theorem byteCovers_zero (b : Bitmap) (y last : Int) (hlast : (b.width : Int) + 7 ≤ last) :
    ByteCovers 0 (fun x => b.get x y) last := by
  intro m hm
  simp only
  rw [Bitmap.get_outside (.inr (.inr (.inl (by omega))))]
  exact Nat.zero_testBit m

end Canvas

namespace Region

variable {r : Region} {c : Canvas} {offsets : List Offset}

theorem pixelsFrom_within (ho : r.template.offsets? r.adaptivePixels = some offsets) {left x : Nat}
    (hfit : c.Fits r x) (hx : x + left = r.width) (hrow : c.row < r.height) :
    (r.pixelsFrom (some offsets) left x c).Within r.template.contextCount
      fun c' => c'.Fits r r.width ∧ c'.row = c.row ∧ c'.typical = c.typical := by
  induction left generalizing x c with
  | zero =>
    subst hx
    exact ⟨hfit, rfl, rfl⟩
  | succ left ih =>
    have step : ∀ value, (r.pixelsFrom (some offsets) left (x + 1) (c.put x value)).Within
        r.template.contextCount
        fun c' => c'.Fits r r.width ∧ c'.row = c.row ∧ c'.typical = c.typical :=
      fun value => ih (hfit.put (by omega) hrow value) (by omega) hrow
    rw [pixelsFrom]
    split
    · exact step false
    · exact ⟨contextNumber_lt ho _ _, step⟩

theorem pixelRow_within (hcount : r.adaptivePixels.length = r.template.adaptiveCount)
    (hfit : c.Fits r 0) (hrow : c.row < r.height) :
    (r.pixelRow c).Within r.template.contextCount
      fun c' => c'.Fits r r.width ∧ c'.row = c.row ∧ c'.typical = c.typical := by
  obtain ⟨offsets, ho⟩ := Template.exists_offsets? hcount
  unfold pixelRow
  rw [ho]
  exact pixelsFrom_within ho hfit (by rw [hfit.width, Nat.zero_add]) hrow

end Region

end Bilevel
