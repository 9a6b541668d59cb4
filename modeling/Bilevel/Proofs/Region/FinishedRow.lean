import Bilevel.Proofs.Region.Canvas
import Bilevel.Proofs.Template.Positions

/-!
# Windows over a finished row

Where the pixels of a row are known already, windows can be moved over it without decoding
anything.  Before each pixel they hold its context number, as it is read pixel by pixel from the
finished bitmap.

* `Window.walkPixels`, `Window.walkBytes` — windows moved over the pixels of a byte and over the
  bytes of a row, with the context number before each pixel.
* `Bitmap.windowCode` — those of a row of a bitmap, from its first pixel to its last.
* `walkPixels_eq`, `walkBytes_eq` — the invariant: the words hold the pixels of the rows above and
  the context number is right, over a byte and over a row.
* `walkBytes_upper` — under a template that does not reach two rows up, the bytes found there make
  no difference.
* `windowRow_yields` — given any pixels, the decoder of a row asks what the walk over them says.
* `windowCode_contexts` — the context numbers of a finished row.
-/

set_option autoImplicit false

namespace Bilevel

/-! ## Moving over known pixels -/

namespace Window

/-- The windows moved over `left` pixels of a byte, from column `x` on, which is found at bit
`place` of the bytes taken in last: the context number before each pixel, with the pixel, and the
windows behind the last one. -/
def walkPixels (layout : Layout) (pixel : Nat → Bool) :
    (left place x : Nat) → Window → List (Nat × Bool) × Window
  | 0, _, _, w => ([], w)
  | left + 1, place, x, w =>
    let rest := walkPixels layout pixel left (place - 1) (x + 1) (w.next layout (pixel x) place)
    ((w.context, pixel x) :: rest.1, rest.2)

/-- The windows moved over a row from byte `i` on, of which `left` are full and one more has the
last `rest` pixels.  Before each byte they take in the following bytes of the rows above, and
nothing before the last one. -/
def walkBytes (layout : Layout) (upper lower : Nat → UInt8) (pixel : Nat → Bool) (rest : Nat) :
    (left i : Nat) → Window → List (Nat × Bool)
  | 0, i, w => (walkPixels layout pixel rest 7 (8 * i) (w.refill layout 0 0)).1
  | left + 1, i, w =>
    let byte := walkPixels layout pixel 8 7 (8 * i)
      (w.refill layout (upper (i + 1)) (lower (i + 1)))
    byte.1 ++ walkBytes layout upper lower pixel rest left (i + 1) byte.2

end Window

/-- The context number before each pixel of a row as the windows find it, with the pixel.  The row
two above is not read if the template does not reach it. -/
def Bitmap.windowCode (b : Bitmap) (t : Template) (y : Nat) : List (Nat × Bool) :=
  let full := b.stride - 1
  let upper := fun i => if t.layout.upperStretch = 0 then 0 else b.byteAbove y 2 i
  let lower := b.byteAbove y 1
  Window.walkBytes t.layout upper lower (fun x => b.get x y) (b.width - 8 * full) full 0
    (Window.start t.layout (upper 0) (lower 0))

namespace Window

variable {t : Template} {b : Bitmap} {offsets : List Offset} {y : Nat} {w : Window}
  {layout : Layout} {pixel : Nat → Bool}

/-- Over the pixels of byte `i` from pixel `k` on: each context number is the one read from the
bitmap, and so is that of the pixel behind them. -/
theorem walkPixels_eq (hwidth : b.width ≤ 2147483647) (hheight : b.height ≤ 2147483647)
    (ho : t.offsets? t.nominalPixels = some offsets) (left k : Nat) {i : Nat} (hk : k + left ≤ 8)
    (htracks : w.Tracks t b y 16 (8 * i + 15))
    (hctx : w.context = contextNumber b offsets (8 * i + k : Nat) y) :
    let walk := walkPixels t.layout (fun x => b.get x y) left (7 - k) (8 * i + k) w
    walk.1 = ((List.range' (8 * i + k) left).map fun x : Nat =>
        (contextNumber b offsets x y, b.get x y)) ∧
      walk.2.Tracks t b y 16 (8 * i + 15) ∧
      walk.2.context = contextNumber b offsets (8 * i + k + left : Nat) y := by
  induction left generalizing k w with
  | zero => exact ⟨rfl, htracks, hctx⟩
  | succ left ih =>
    have hlast : ((8 * i + k : Nat) : Int) + (7 - k : Nat) + 8 = 8 * i + 15 := by omega
    have hfinished : ∀ x' y' : Int, y' ≤ y → b.get x' y' =
        if y' = y ∧ x' = (8 * i + k : Nat) then b.get (8 * i + k : Nat) y else b.get x' y' := by
      intro x' y' _
      split
      · rename_i h
        rw [h.1, h.2]
      · rfl
    have hnext := context_next hwidth hheight ho (by omega) (hlast ▸ htracks) hctx rfl rfl hfinished
    obtain ⟨hcode, htracks', hctx'⟩ := ih (k + 1) (by omega)
      (htracks.next (b.get (8 * i + k : Nat) y) (7 - k)) hnext
    rw [show 8 * i + (k + 1) + left = 8 * i + k + (left + 1) by omega] at hctx'
    refine ⟨?_, htracks', hctx'⟩
    rw [List.range'_succ, List.map_cons, ← hctx]
    exact congrArg _ hcode

theorem walkBytes_eq (hwidth : b.width ≤ 2147483647) (hheight : b.height ≤ 2147483647)
    (ho : t.offsets? t.nominalPixels = some offsets) (hb : b.Packed) (hy : y < b.height)
    {left i : Nat} (hi : i + left + 1 = b.stride) (htracks : w.Tracks t b y 8 (8 * i + 7))
    (hctx : w.context = contextNumber b offsets (8 * i : Nat) y) :
    walkBytes t.layout (b.byteAbove y 2) (b.byteAbove y 1) (fun x => b.get x y)
        (b.width - 8 * (b.stride - 1)) left i w =
      (List.range' (8 * i) (b.width - 8 * i)).map fun x : Nat =>
        (contextNumber b offsets x y, b.get x y) := by
  have hle := b.width_le
  have hlt := b.lt_width_add_eight
  induction left generalizing i w with
  | zero =>
    have hcovers : ∀ y : Int, ByteCovers 0 (fun x => b.get x y) (8 * i + 7 + 8) :=
      fun y => Canvas.byteCovers_zero b y _ (by omega)
    obtain ⟨hcode, -⟩ := walkPixels_eq hwidth hheight ho (b.width - 8 * i) 0
      (by omega) (htracks.refill (hcovers _) (hcovers _)) hctx
    rw [walkBytes, show b.width - 8 * (b.stride - 1) = b.width - 8 * i by omega]
    exact hcode
  | succ left ih =>
    have hupper := hb.byteCovers (i := i + 1) (by decide : 0 < 2) hy (by omega)
    have hlower := hb.byteCovers (i := i + 1) (by decide : 0 < 1) hy (by omega)
    have hlast : 8 * ((i + 1 : Nat) : Int) + 7 = 8 * i + 7 + 8 := by omega
    rw [hlast] at hupper hlower
    obtain ⟨hcode, htracks', hctx'⟩ := walkPixels_eq hwidth hheight ho 8 0 (by omega)
      (htracks.refill hupper hlower) hctx
    have hrest := ih (i := i + 1) (by omega) (hlast ▸ htracks'.mono (by decide)) hctx'
    rw [walkBytes, show b.width - 8 * i = 8 + (b.width - 8 * (i + 1)) by omega,
      ← List.range'_append_1, List.map_append]
    exact congrArg₂ _ hcode hrest

/-! ## Templates that do not reach two rows up -/

theorem upperEntry_eq_zero : t.layout.upperStretch = 0 → t.layout.upperEntry = 0 := by
  cases t <;> decide

/-- Nothing enters the context number from a word that the template does not read. -/
theorem next_upper (h : layout.upperEntry = 0) (word place : Nat) (black : Bool) :
    { w with upper := word }.next layout black place =
      { w.next layout black place with upper := word } := by
  simp [next, h]

theorem walkPixels_upper (h : layout.upperEntry = 0) (word left place x : Nat) :
    walkPixels layout pixel left place x { w with upper := word } =
      ((walkPixels layout pixel left place x w).1,
        { (walkPixels layout pixel left place x w).2 with upper := word }) := by
  induction left generalizing place x w with
  | zero => rfl
  | succ left ih =>
    rw [walkPixels, next_upper h, ih]
    rfl

theorem walkBytes_upper (h : layout.upperEntry = 0) (upper upper' lower : Nat → UInt8)
    (word rest left i : Nat) :
    walkBytes layout upper lower pixel rest left i { w with upper := word } =
      walkBytes layout upper' lower pixel rest left i w := by
  have hrefill : ∀ (v : Window) (word : Nat) (u u' l : UInt8),
      refill layout { v with upper := word } u l =
        { v.refill layout u' l with upper := takeIn word (u.toNat <<< layout.upperShift) } :=
    fun _ _ _ _ _ => rfl
  induction left generalizing i w word with
  | zero => rw [walkBytes, walkBytes, hrefill w word 0 0 0, walkPixels_upper h]
  | succ left ih =>
    rw [walkBytes, walkBytes, hrefill w word (upper (i + 1)) (upper' (i + 1)), walkPixels_upper h]
    exact congrArg _ (ih _ _)

end Window

namespace Bitmap

variable {t : Template} {b : Bitmap} {y : Nat}

/-- Whether the row two above is left out where it is not needed makes no difference. -/
theorem windowCode_eq (b : Bitmap) (t : Template) (y : Nat) :
    b.windowCode t y =
      Window.walkBytes t.layout (b.byteAbove y 2) (b.byteAbove y 1) (fun x => b.get x y)
        (b.width - 8 * (b.stride - 1)) (b.stride - 1) 0
        (Window.start t.layout (b.byteAbove y 2 0) (b.byteAbove y 1 0)) := by
  unfold windowCode
  by_cases h : t.layout.upperStretch = 0
  · have hentry := Window.upperEntry_eq_zero h
    have hstart : ∀ u l : UInt8, Window.start t.layout 0 l =
        { Window.start t.layout u l with upper := (0 : UInt8).toNat <<< t.layout.upperShift } := by
      intro u l
      simp [Window.start, h]
    simp only [if_pos h]
    rw [hstart (b.byteAbove y 2 0), Window.walkBytes_upper hentry _ (b.byteAbove y 2)]
  · simp only [if_neg h]

end Bitmap

/-! ## The decoder of a row -/

namespace Canvas

variable {c : Canvas} {upper lower : Nat → UInt8}

/-- A byte of the next row is none of the rows above it. -/
theorem byteAbove?_putByte {i : Nat} (hi : c.bitmap.StoresByte c.row i) (byte : UInt8)
    {distance : Nat} (hd : 0 < distance) (j : Nat) :
    (c.putByte i byte).byteAbove? distance j = c.byteAbove? distance j := by
  unfold byteAbove? Bitmap.byte?
  by_cases htop : c.row < distance
  · rw [if_pos htop]
    exact if_pos htop
  · by_cases hj : j < c.bitmap.stride
    · have hne : c.row * c.bitmap.stride + i ≠ (c.row - distance) * c.bitmap.stride + j := by
        rw [Ne, Bitmap.position_inj hi.1 hj]
        omega
      have hdata : (c.putByte i byte).bitmap.data[(c.row - distance) * c.bitmap.stride + j]? =
          c.bitmap.data[(c.row - distance) * c.bitmap.stride + j]? :=
        Array.getElem?_setIfInBounds_ne hne
      simpa [putByte, htop, hj] using hdata
    · simp [putByte, htop, hj]

/-- The next row can be written, and these are the bytes of the two rows above it. -/
structure ReadsAbove (upper lower : Nat → UInt8) (c : Canvas) : Prop where
  stores : ∀ i < c.bitmap.stride, c.bitmap.StoresByte c.row i
  upper : ∀ i < c.bitmap.stride, c.byteAbove? 2 i = some (upper i)
  lower : ∀ i < c.bitmap.stride, c.byteAbove? 1 i = some (lower i)

theorem ReadsAbove.putByte (h : c.ReadsAbove upper lower) {i : Nat} (hi : i < c.bitmap.stride)
    (byte : UInt8) : (c.putByte i byte).ReadsAbove upper lower := by
  refine ⟨fun j hj => ?_, fun j hj => ?_, fun j hj => ?_⟩
  · refine ⟨hj, ?_⟩
    unfold Canvas.putByte
    rw [Bitmap.size_setByte]
    exact (h.stores j hj).2
  · rw [byteAbove?_putByte (h.stores i hi) byte (by decide)]
    exact h.upper j hj
  · rw [byteAbove?_putByte (h.stores i hi) byte (by decide)]
    exact h.lower j hj

theorem readsAbove (hpacked : c.bitmap.Packed) (hrow : c.row < c.bitmap.height) :
    c.ReadsAbove (c.bitmap.byteAbove c.row 2) (c.bitmap.byteAbove c.row 1) :=
  ⟨fun _ hi => hpacked.storesByte hi hrow,
    fun _ hi => byteAbove?_eq hpacked (by decide) hrow hi,
    fun _ hi => byteAbove?_eq hpacked (by decide) hrow hi⟩

end Canvas

namespace Region

open Window

variable {c : Canvas} {layout : Layout} {upper lower : Nat → UInt8}

theorem byteFrom_yields (layout : Layout) (pixel : Nat → Bool) (held : Canvas)
    (left place x byte : Nat) (w : Window) :
    ∃ byte', (byteFrom layout held left place byte w).Yields
      (walkPixels layout pixel left place x w).1
      (byte', (walkPixels layout pixel left place x w).2) := by
  induction left generalizing place x byte w with
  | zero => exact ⟨byte, rfl⟩
  | succ left ih =>
    obtain ⟨byte', hrest⟩ := ih (place - 1) (x + 1) (byte ||| ((pixel x).toNat <<< place))
      (w.next layout (pixel x) place)
    exact ⟨byte', rfl, hrest⟩

theorem windowByte_yields (layout : Layout) (pixel : Nat → Bool) (size : Nat) {i : Nat}
    (hi : c.bitmap.StoresByte c.row i) (w : Window) :
    ∃ byte, (windowByte layout size i w c).Yields (walkPixels layout pixel size 7 (8 * i) w).1
      ((walkPixels layout pixel size 7 (8 * i) w).2, c.putByte i byte) := by
  obtain ⟨byte, hbyte⟩ := byteFrom_yields layout pixel c size 7 (8 * i) 0 w
  refine ⟨UInt8.ofNat byte, ?_⟩
  unfold windowByte
  apply hbyte.bind_done
  simp [hi]

/-- Whatever the pixels are, from byte `i` on the decoder asks what the walk over them says. -/
theorem bytesFrom_yields (pixel : Nat → Bool) (rest : Nat) (h : c.ReadsAbove upper lower)
    {left i : Nat} (hi : i + left + 1 = c.bitmap.stride) (w : Window) :
    ∃ c', (bytesFrom layout rest left i w c).Yields
      (walkBytes layout upper lower pixel rest left i w) c' := by
  induction left generalizing i w c with
  | zero =>
    obtain ⟨byte, hbyte⟩ := windowByte_yields layout pixel rest (h.stores i (by omega))
      (w.refill layout 0 0)
    refine ⟨c.putByte i byte, ?_⟩
    rw [bytesFrom, walkBytes]
    exact hbyte.bind_done rfl
  | succ left ih =>
    obtain ⟨byte, hbyte⟩ := windowByte_yields layout pixel 8 (h.stores i (by omega))
      (w.refill layout (upper (i + 1)) (lower (i + 1)))
    obtain ⟨c', hrest⟩ := ih (h.putByte (i := i) (by omega) byte) (i := i + 1)
      (by rw [Nat.add_right_comm i 1 left]; exact hi) _
    refine ⟨c', ?_⟩
    rw [bytesFrom, h.upper (i + 1) (by omega), h.lower (i + 1) (by omega), walkBytes]
    exact hbyte.bind hrest

/-- The decoder of a row, given any pixels, asks for the context numbers that windows moved over
them hold. -/
theorem windowRow_yields (r : Region) (pixel : Nat → Bool) (hpacked : c.bitmap.Packed)
    (hrow : c.row < c.bitmap.height) (hpos : 0 < c.bitmap.width) :
    ∃ c', (r.windowRow c).Yields
      (walkBytes r.template.layout (c.bitmap.byteAbove c.row 2) (c.bitmap.byteAbove c.row 1) pixel
        (c.bitmap.width - 8 * (c.bitmap.stride - 1)) (c.bitmap.stride - 1) 0
        (Window.start r.template.layout (c.bitmap.byteAbove c.row 2 0)
          (c.bitmap.byteAbove c.row 1 0))) c' := by
  have hwidth := c.bitmap.width_le
  have hreads := Canvas.readsAbove hpacked hrow
  unfold windowRow
  simp only [hreads.upper 0 (by omega), hreads.lower 0 (by omega)]
  exact bytesFrom_yields pixel _ hreads (by omega) _

end Region

namespace Bitmap

variable {t : Template} {b : Bitmap} {y : Nat} {offsets : List Offset}

theorem windowCode_eq_map (hsize : ValidSize b.width b.height) (hb : b.Packed) (hy : y < b.height)
    (ho : t.offsets? t.nominalPixels = some offsets) :
    b.windowCode t y =
      (List.range b.width).map fun x : Nat => (contextNumber b offsets x y, b.get x y) := by
  obtain ⟨hwidth, hheight⟩ := hsize.le
  have hpos := hsize.1
  have hstride := b.width_le
  have hupper := hb.byteCovers (i := 0) (by decide : 0 < 2) hy (by omega)
  have hlower := hb.byteCovers (i := 0) (by decide : 0 < 1) hy (by omega)
  rw [windowCode_eq, List.range_eq_range']
  exact Window.walkBytes_eq hwidth hheight ho hb hy (by omega) (.start hupper hlower)
    (Window.context_start hwidth hheight ho hupper hlower)

/-- **Windows moved over a finished row hold the context number of each pixel before they reach
it.**

In any packed bitmap of valid size and for any template, a row has as many pixels as the windows
moved over it find context numbers, and the one before pixel `x` is the context number read pixel by
pixel at column `x`, with the adaptive pixels at their nominal places.  The decoder of a row that
starts from this bitmap, answered with the pixels of the row, asks for just these numbers. -/
theorem windowCode_contexts (t : Template) (hsize : ValidSize b.width b.height) (hb : b.Packed)
    (hy : y < b.height) :
    (b.windowCode t y).length = b.width ∧
      (∀ x < b.width, ∃ number, (b.windowCode t y)[x]? = some (number, b.get x y) ∧
        contextNumberAt? b t t.nominalPixels x y = some number) ∧
      ∀ r : Region, r.template = t → ∀ typical,
        ∃ c, (r.windowRow ⟨b, y, typical⟩).Yields (b.windowCode t y) c := by
  obtain ⟨offsets, ho⟩ := Template.exists_offsets? t.length_nominalPixels
  have hcode := windowCode_eq_map hsize hb hy ho
  obtain ⟨hwidth, hheight⟩ := hsize.le
  refine ⟨by simp [hcode], fun x hx => ⟨contextNumber b offsets x y, ?_, ?_⟩, ?_⟩
  · simp [hcode, hx]
  · unfold contextNumberAt?
    rw [ho, signed32_eq (by omega), signed32_eq (by omega)]
    rfl
  · rintro r rfl typical
    rw [windowCode_eq]
    exact r.windowRow_yields (c := ⟨b, y, typical⟩) _ hb hy hsize.1

/-- The last row of a picture of three rows: the number before pixel 9, the second one of its last
byte. -/
theorem windowCode_contexts_three_rows :
    let b : Bitmap := ⟨11, 3, #[0xa5, 0xe0, 0x3c, 0x40, 0x5a, 0x60]⟩
    b.Packed ∧ (b.windowCode .t1 2)[9]? = some (7236, true) ∧
      contextNumberAt? b .t1 Template.t1.nominalPixels 9 2 = some 7236 := by
  intro b
  have hb : b.Packed := by decide
  obtain ⟨-, hnumbers, -⟩ := windowCode_contexts .t1 (b := b) (y := 2) (by decide) hb (by decide)
  obtain ⟨number, hwindow, hnumber⟩ := hnumbers 9 (by decide)
  have hread : contextNumberAt? b .t1 Template.t1.nominalPixels 9 2 = some 7236 := by decide
  have hpixel : b.get (9 : Nat) (2 : Nat) = true := by decide
  cases hread.symm.trans hnumber
  rw [hpixel] at hwindow
  exact ⟨hb, hwindow, hread⟩

end Bitmap

end Bilevel
