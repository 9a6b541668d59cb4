import Bilevel.Proofs.Region.Canvas

/-!
# Windows decode the same rows

With nominal adaptive pixels and without skipped pixels, a row decoded through windows is the row
decoded pixel by pixel: the same questions, and after the same answers the same canvas.  Only what
is held on the way differs, since the windows write a byte when all its pixels are known.

* `replaceBit_ofNat`, `Canvas.putByte_put` — a byte that grows by one pixel.
* `byteFrom_forget` — a byte, whatever follows it.
* `bytesFrom_forget`, `windowRow_forget` — a row.
-/

set_option autoImplicit false

namespace Bilevel

/-! ## Growing a byte -/

/-- Adding a pixel to the number that a byte is assembled in sets the bit of that pixel. -/
theorem replaceBit_ofNat {byte place : Nat} (hplace : place < 8)
    (hclear : (UInt8.ofNat byte).toNat.testBit place = false) (pixel : Bool) :
    Bitmap.replaceBit (UInt8.ofNat byte) place pixel =
      UInt8.ofNat (byte ||| (pixel.toNat <<< place)) := by
  apply Bitmap.byte_ext
  intro i hi
  have hreplace := Bitmap.testBit_replaceBit (UInt8.ofNat byte) pixel ⟨place, hplace⟩ ⟨i, hi⟩
  simp only [Fin.mk.injEq] at hreplace
  rw [hreplace, Bitmap.testBit_toNat_ofNat _ hi, Bitmap.testBit_toNat_ofNat _ hi, Nat.testBit_or,
    Nat.testBit_shiftLeft, Nat.testBit_bool_toNat]
  by_cases h : i = place
  · subst h
    rw [Bitmap.testBit_toNat_ofNat _ hi] at hclear
    rw [if_pos rfl, hclear]
    simp
  · rw [if_neg h]
    by_cases hle : place ≤ i
    · rw [decide_eq_false (p := i - place = 0) (by omega)]
      simp
    · rw [decide_eq_false (p := i ≥ place) (by omega)]
      simp

namespace Canvas

variable {r : Region} {c : Canvas} {i x : Nat}

/-- Putting a pixel after its byte has been written. -/
theorem putByte_put (hi : c.bitmap.StoresByte c.row i) (hx : x < c.bitmap.width)
    (hrow : c.row < c.bitmap.height) (hcol : x / 8 = i) (byte : UInt8) (value : Bool) :
    (c.putByte i byte).put x value =
      c.putByte i (Bitmap.replaceBit byte (Bitmap.bitPlace x) value) := by
  have hbyte : (c.putByte i byte).bitmap.data[c.row * c.bitmap.stride + x / 8]? = some byte := by
    rw [hcol]
    exact Array.getElem?_setIfInBounds_self_of_lt hi.2
  have hset : (c.putByte i byte).bitmap.set x c.row value = (c.putByte i byte).bitmap.setByte c.row
      (x / 8) (Bitmap.replaceBit byte (Bitmap.bitPlace x) value) :=
    Bitmap.set_eq_setByte (b := (c.putByte i byte).bitmap) hx hrow hbyte value
  have htwice : (c.putByte i byte).bitmap.setByte c.row (x / 8)
      (Bitmap.replaceBit byte (Bitmap.bitPlace x) value) =
      c.bitmap.setByte c.row i (Bitmap.replaceBit byte (Bitmap.bitPlace x) value) := by
    unfold putByte Bitmap.setByte
    simp only [Bitmap.stride, hcol, Array.setIfInBounds_setIfInBounds]
  have hput : (c.putByte i byte).put x value =
      { c with bitmap := (c.putByte i byte).bitmap.set x c.row value } := rfl
  rw [hput, hset, htwice]
  rfl

/-- The byte that comes next is still zero. -/
theorem Fits.putByte_zero (h : c.Fits r (8 * i)) (hi : i < c.bitmap.stride)
    (hrow : c.row < r.height) : c.putByte i 0 = c := by
  have hlt := (h.packed.storesByte hi (by rw [h.height]; exact hrow)).2
  have hbyte : c.bitmap.data[c.row * c.bitmap.stride + i] = 0 := by
    apply Bitmap.byte_ext
    intro j hj
    have hb := h.blank (8 * i + 7 - j) c.row (by omega) (.inr ⟨rfl, by omega⟩)
    unfold Bitmap.bit at hb
    rw [show (8 * i + 7 - j) / 8 = i by omega, Array.getElem?_eq_getElem hlt] at hb
    simp only at hb
    rw [show Bitmap.bitPlace (8 * i + 7 - j) = j by unfold Bitmap.bitPlace; omega] at hb
    rw [hb]
    exact (Nat.zero_testBit j).symm
  have hdata : c.bitmap.data.setIfInBounds (c.row * c.bitmap.stride + i) 0 = c.bitmap.data := by
    apply Array.ext_getElem?
    intro j
    rw [Array.getElem?_setIfInBounds]
    split
    · rename_i hj
      subst hj
      rw [Array.getElem?_eq_getElem hlt, hbyte]
    · rfl
  unfold putByte Bitmap.setByte
  rw [hdata]

end Canvas

/-! ## A window at its place -/

/-- What the windows rely on: nominal adaptive pixels, no skipped pixels, and coordinates of 32
bits. -/
structure Region.Nominal (r : Region) (offsets : List Offset) : Prop where
  skip : r.skip = none
  adaptive : r.adaptivePixels = r.template.nominalPixels
  offsets : r.template.offsets? r.template.nominalPixels = some offsets
  width : r.width ≤ 2147483647
  height : r.height ≤ 2147483647

/-- The window stands at column `x` of the next row: its context number is the one read from the
bitmap, and its words hold `n` pixels of each row above, up to column `last`. -/
structure Window.At (r : Region) (offsets : List Offset) (c : Canvas) (n : Nat) (last : Int)
    (x : Nat) (w : Window) : Prop where
  tracks : w.Tracks r.template c.bitmap c.row n last
  context : w.context = contextNumber c.bitmap offsets x c.row

namespace Window.At

variable {r : Region} {offsets : List Offset} {c : Canvas} {x : Nat} {w : Window}

theorem next (hr : r.Nominal offsets) (hfit : c.Fits r x) (hx : x < r.width)
    (hrow : c.row < r.height) {place : Nat} (hplace : place < 8)
    (hw : w.At r offsets c 16 (x + place + 8) x) (pixel : Bool) :
    (w.next r.template.layout pixel place).At r offsets (c.put x pixel) 16 (x + place + 8)
      (x + 1) := by
  have hget := hfit.get_put hx hrow pixel
  refine ⟨(hw.tracks.congr fun x' y' hy' => ?_).next pixel place, ?_⟩
  · rw [hget, if_neg (by omega)]
  · exact context_next (by rw [hfit.width]; exact hr.width) (by rw [hfit.height]; exact hr.height)
      hr.offsets hplace hw.tracks hw.context (Bitmap.width_set _ _ _ _) (Bitmap.height_set _ _ _ _)
      fun x' y' _ => hget x' y'

end Window.At

namespace Region

variable {r : Region} {offsets : List Offset} {c : Canvas} {i : Nat}

theorem testBit_of_fits {k byte : Nat} (hk : k < 8) (hi : c.bitmap.StoresByte c.row i)
    (hfit : (c.putByte i (UInt8.ofNat byte)).Fits r (8 * i + k)) :
    (UInt8.ofNat byte).toNat.testBit (7 - k) = false := by
  have hx : 8 * i + k < 8 * c.bitmap.stride := by
    have hstride := hi.1
    omega
  have hblank := hfit.blank (8 * i + k) c.row hx (.inr ⟨rfl, Nat.le_refl _⟩)
  have hset := Bitmap.bit_setByte hi (UInt8.ofNat byte) (8 * i + k) c.row hx
  rw [if_pos ⟨rfl, by omega⟩, show Bitmap.bitPlace (8 * i + k) = 7 - k by
    unfold Bitmap.bitPlace; omega] at hset
  exact hset.symm.trans hblank

/-- From pixel `k` of byte `i` on: whatever follows the byte, if it goes on from the finished byte
as decoding pixel by pixel does, then so does the whole.  The canvas on the right always is the one
on the left with the pixels known so far written into it. -/
theorem byteFrom_forget (hr : r.Nominal offsets) (hi : c.bitmap.StoresByte c.row i)
    (hrow : c.row < r.height) (more : Nat) (next : Nat × Window → Dialogue Unit Canvas)
    (left k byte : Nat) {w : Window} (hleft : k + left ≤ 8) (hmore : 8 * i + k + left ≤ r.width)
    (hfit : (c.putByte i (UInt8.ofNat byte)).Fits r (8 * i + k))
    (hw : w.At r offsets (c.putByte i (UInt8.ofNat byte)) 16 (8 * i + 15) (8 * i + k))
    (hnext : ∀ byte' w', (c.putByte i (UInt8.ofNat byte')).Fits r (8 * i + k + left) →
      Window.At r offsets (c.putByte i (UInt8.ofNat byte')) 16 (8 * i + 15) (8 * i + k + left) w' →
      next (byte', w') = (r.pixelsFrom (some offsets) more (8 * i + k + left)
        (c.putByte i (UInt8.ofNat byte'))).forget) :
    (byteFrom r.template.layout c left (7 - k) byte w).forget.bind next =
      (r.pixelsFrom (some offsets) (left + more) (8 * i + k)
        (c.putByte i (UInt8.ofNat byte))).forget := by
  induction left generalizing k byte w with
  | zero =>
    rw [Nat.zero_add]
    exact hnext byte w hfit hw
  | succ left ih =>
    have hx : 8 * i + k < r.width := by omega
    have hskips : r.skips (8 * i + k) (c.putByte i (UInt8.ofNat byte)).row = false := by
      unfold skips
      rw [hr.skip]
    rw [show left + 1 + more = left + more + 1 by omega, byteFrom, pixelsFrom, hskips,
      if_neg (by decide), Dialogue.forget_ask, Dialogue.forget_ask, Dialogue.bind_ask, hw.context]
    refine congrArg (Dialogue.ask () _) (funext fun pixel => ?_)
    have hput : (c.putByte i (UInt8.ofNat byte)).put (8 * i + k) pixel =
        c.putByte i (UInt8.ofNat (byte ||| (pixel.toNat <<< (7 - k)))) := by
      have hplace : Bitmap.bitPlace (8 * i + k) = 7 - k := by
        unfold Bitmap.bitPlace
        omega
      rw [Canvas.putByte_put hi (by rw [← hfit.width] at hx; exact hx)
        (by rw [← hfit.height] at hrow; exact hrow) (by omega), hplace,
        replaceBit_ofNat (by omega) (testBit_of_fits (by omega) hi hfit)]
    have hlast : ((8 * i + k : Nat) : Int) + (7 - k : Nat) + 8 = 8 * i + 15 := by omega
    rw [← hlast] at hw
    have hw' := hw.next hr hfit hx hrow (by omega) pixel
    rw [hput, hlast] at hw'
    have hfit' := hfit.put hx hrow pixel
    rw [hput] at hfit'
    rw [hput, show 7 - k - 1 = 7 - (k + 1) by omega, Nat.add_assoc (8 * i) k 1]
    refine ih _ _ (by omega) (by omega) hfit' hw' ?_
    rw [show 8 * i + (k + 1) + left = 8 * i + k + (left + 1) by omega]
    exact hnext

theorem windowByte_forget (hr : r.Nominal offsets) (hfit : c.Fits r (8 * i))
    (hi : i < c.bitmap.stride) (hrow : c.row < r.height) (size more : Nat) {w : Window}
    (hsize : size ≤ 8) (hmore : 8 * i + size ≤ r.width)
    (hw : w.At r offsets c 16 (8 * i + 15) (8 * i))
    (next : Window × Canvas → Dialogue Canvas Canvas)
    (hnext : ∀ byte w', (c.putByte i byte).Fits r (8 * i + size) →
      Window.At r offsets (c.putByte i byte) 16 (8 * i + 15) (8 * i + size) w' →
      (next (w', c.putByte i byte)).forget =
        (r.pixelsFrom (some offsets) more (8 * i + size) (c.putByte i byte)).forget) :
    ((windowByte r.template.layout size i w c).bind next).forget =
      (r.pixelsFrom (some offsets) (size + more) (8 * i) c).forget := by
  have hstores := hfit.packed.storesByte hi (by rw [hfit.height]; exact hrow)
  have hzero : c.putByte i (UInt8.ofNat 0) = c := hfit.putByte_zero hi hrow
  have h := byteFrom_forget hr hstores hrow more
    (fun p => ((if c.bitmap.StoresByte c.row i then .done (p.2, c.putByte i (UInt8.ofNat p.1))
      else .fail c (.fault .storage) : Dialogue Canvas (Window × Canvas)).bind next).forget)
    size 0 0 (w := w) (by omega) (by omega)
    (by rw [hzero]; exact hfit) (by rw [hzero]; exact hw)
    (fun byte' w' hfit' hw' => by
      rw [if_pos hstores, Dialogue.bind_done_left]
      exact hnext (UInt8.ofNat byte') w' hfit' hw')
  rw [hzero] at h
  unfold windowByte
  rw [Dialogue.bind_assoc, Dialogue.forget_bind]
  exact h

/-! ## A row -/

/-- From byte `i` on, the windows ask what decoding pixel by pixel asks. -/
theorem bytesFrom_forget (hr : r.Nominal offsets) {left : Nat} {w : Window}
    (hfit : c.Fits r (8 * i)) (hrow : c.row < r.height) (hi : i + left + 1 = c.bitmap.stride)
    (hw : w.At r offsets c 8 (8 * i + 7) (8 * i)) :
    (bytesFrom r.template.layout (r.width - 8 * (c.bitmap.stride - 1)) left i w c).forget =
      (r.pixelsFrom (some offsets) (r.width - 8 * i) (8 * i) c).forget := by
  have hwidth := hfit.width
  have hstride : c.bitmap.stride = (c.bitmap.width + 7) / 8 := rfl
  induction left generalizing i w c with
  | zero =>
    have hcovers : ∀ y : Int, ByteCovers 0 (fun x => c.bitmap.get x y) (8 * i + 7 + 8) :=
      fun y => Canvas.byteCovers_zero c.bitmap y _ (by omega)
    have hrefill : (w.refill r.template.layout 0 0).At r offsets c 16 (8 * i + 15) (8 * i) :=
      ⟨hw.tracks.refill (hcovers _) (hcovers _), hw.context⟩
    rw [bytesFrom, show r.width - 8 * (c.bitmap.stride - 1) = r.width - 8 * i by omega]
    exact windowByte_forget hr hfit (by omega) hrow _ 0 (by omega) (by omega) hrefill _
      fun byte w' _ _ => rfl
  | succ left ih =>
    obtain ⟨upper, hupper, hcu⟩ := hfit.byteAbove? 2 (i + 1) (by decide) hrow
      (by omega)
    obtain ⟨lower, hlower, hcl⟩ := hfit.byteAbove? 1 (i + 1) (by decide) hrow
      (by omega)
    have hlast : 8 * ((i + 1 : Nat) : Int) + 7 = 8 * i + 7 + 8 := by omega
    rw [hlast] at hcu hcl
    have hrefill : (w.refill r.template.layout upper lower).At r offsets c 16 (8 * i + 15)
        (8 * i) := ⟨hw.tracks.refill hcu hcl, hw.context⟩
    rw [bytesFrom, hupper, hlower,
      show r.width - 8 * i = 8 + (r.width - 8 * (i + 1)) by omega]
    refine windowByte_forget hr hfit (by omega) hrow 8 _ (by omega) (by omega) hrefill _
      fun byte w' hfit' hw' => ?_
    have htracks := hw'.tracks.mono (k := 8) (by decide)
    rw [show 8 * (i : Int) + 15 = 8 * (i + 1 : Nat) + 7 by omega] at htracks
    exact ih (i := i + 1) hfit' hrow (by rw [Nat.add_right_comm i 1 left]; exact hi)
      ⟨htracks, hw'.context⟩ hfit'.width rfl

/-- **A row decoded through windows asks and does what the row decoded pixel by pixel does.** -/
theorem windowRow_forget (hr : r.Nominal offsets) (hfit : c.Fits r 0) (hrow : c.row < r.height)
    (hpos : 0 < r.width) : (r.windowRow c).forget = (r.pixelRow c).forget := by
  have hwidth := hfit.width
  have hstride : c.bitmap.stride = (c.bitmap.width + 7) / 8 := rfl
  obtain ⟨upper, hupper, hcu⟩ := hfit.byteAbove? 2 0 (by decide) hrow (by omega)
  obtain ⟨lower, hlower, hcl⟩ := hfit.byteAbove? 1 0 (by decide) hrow (by omega)
  have hstart : (Window.start r.template.layout upper lower).At r offsets c 8 7 0 :=
    ⟨.start hcu hcl, Window.context_start (by rw [hwidth]; exact hr.width)
      (by rw [hfit.height]; exact hr.height) hr.offsets hcu hcl⟩
  unfold windowRow pixelRow
  simp only [hupper, hlower]
  rw [hr.adaptive, hr.offsets, hwidth]
  exact bytesFrom_forget (i := 0) hr hfit hrow (by omega) hstart

end Region

end Bilevel
