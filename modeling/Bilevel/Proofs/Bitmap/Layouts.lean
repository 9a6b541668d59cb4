import Bilevel.Proofs.Bitmap.WellFormed
import Bilevel.Proofs.Template.ContextNumber

/-!
# Three layouts of one picture

A picture can be laid out as packed rows of bytes, as pixels by column and row, and as one
brightness byte for each pixel.  Each layout says all that the others say.

* `ofData_eq_ok_iff` — which byte strings are taken over as packed rows, and what becomes of them.
* `exists_byte_bit` — the byte that holds a bit, and its place there.
* `bit_ofData`, `get_ofData`, `row?_ofData` — the bits, pixels and rows of a bitmap taken over.
* `trimPadding_eq_iff`, `Packed.ofData_data` — byte strings with the same bitmap, and the bytes of a
  bitmap taken over again.
* `getElem?_bytes_toGray` — the brightness of a pixel, whatever library the picture is made with.
* `packBlack` — the black pixels of a grayscale picture as packed rows; `Packed.packBlack_toGray`:
  those of the picture of a bitmap are the rows of the bitmap.
* `layouts_agree` — the three layouts side by side.
-/

set_option autoImplicit false

namespace Bilevel

/-! ## Packing the black pixels of a grayscale picture -/

/-- Eight pixels in one byte, the leftmost one on top. -/
def packByte (pixel : Nat → Bool) : UInt8 := UInt8.ofNat (ofBits ((List.range 8).map pixel))

section

open GrayLibrary

variable {ι : Type} [GrayLibrary ι]

def isBlack (g : ι) (x y : Nat) : Bool := (bytes g)[y * width g + x]? == some 0

/-- The black pixels as packed rows, with white behind the last column. -/
def packBlack (g : ι) : Array UInt8 :=
  Array.ofFn fun i : Fin (Bitmap.bytesFor (width g) * height g) =>
    packByte fun k =>
      let x := 8 * (i.val % Bitmap.bytesFor (width g)) + k
      decide (x < width g) && isBlack g x (i.val / Bitmap.bytesFor (width g))

end

theorem testBit_packByte (pixel : Nat → Bool) {k : Nat} (hk : k < 8) :
    (packByte pixel).toNat.testBit (7 - k) = pixel k := by
  unfold packByte
  rw [Bitmap.testBit_toNat_ofNat _ (by omega), testBit_ofBits,
    List.getElem?_reverse (by simp; omega)]
  simp [show 8 - 1 - (7 - k) = k by omega, hk]

namespace Bitmap

variable {b : Bitmap} {width height : Nat} {data other : Array UInt8}

/-! ## Taking over packed rows -/

/-- Packed rows are taken over exactly if the size is valid and there are as many bytes as it asks
for, and they lose their padding. -/
theorem ofData_eq_ok_iff :
    ofData width height data = .ok b ↔
      ValidSize width height ∧ data.size = bytesFor width * height ∧
        b = trimPadding ⟨width, height, data⟩ := by
  unfold ofData
  split
  · split
    · simp_all [eq_comm]
    · simp_all
  · simp_all

/-- Where all rows are stored, a bit is found in the byte of its eight columns, the leftmost column
on top. -/
theorem exists_byte_bit (hsize : b.data.size = b.stride * b.height) {x y : Nat}
    (hx : x < 8 * b.stride) (hy : y < b.height) :
    ∃ byte, b.data[y * b.stride + x / 8]? = some byte ∧
      b.bit x y = byte.toNat.testBit (7 - x % 8) := by
  have hlt : y * b.stride + x / 8 < b.data.size := by
    rw [hsize]
    exact position_lt (column_lt hx) hy
  refine ⟨b.data[y * b.stride + x / 8], Array.getElem?_eq_getElem hlt, ?_⟩
  unfold bit
  rw [Array.getElem?_eq_getElem hlt]
  rfl

theorem ofData_eq_invalidDimension_iff :
    ofData width height data = .error .invalidDimension ↔ ¬ValidSize width height := by
  unfold ofData
  split
  · split <;> simp_all
  · simp_all

theorem ofData_eq_dataLengthMismatch_iff :
    ofData width height data = .error .dataLengthMismatch ↔
      ValidSize width height ∧ data.size ≠ bytesFor width * height := by
  unfold ofData
  split
  · split <;> simp_all
  · simp_all

/-- Clearing the padding does not touch the pixels. -/
theorem bit_trimPadding_of_lt (b : Bitmap) {x : Nat} (hx : x < b.width) (y : Nat) :
    b.trimPadding.bit x y = b.bit x y := by
  rw [bit_trimPadding b (Nat.lt_of_lt_of_le hx b.width_le), decide_eq_true hx, Bool.true_and]

/-- Rows without their padding are told by their pixels. -/
theorem trimPadding_eq_iff (hdata : data.size = bytesFor width * height)
    (hother : other.size = bytesFor width * height) :
    trimPadding ⟨width, height, data⟩ = trimPadding ⟨width, height, other⟩ ↔
      ∀ x < width, ∀ y < height,
        bit ⟨width, height, data⟩ x y = bit ⟨width, height, other⟩ x y := by
  have hbit : ∀ bytes x y, x < width →
      (trimPadding ⟨width, height, bytes⟩).bit x y = bit ⟨width, height, bytes⟩ x y :=
    fun bytes x y hx => bit_trimPadding_of_lt ⟨width, height, bytes⟩ hx y
  constructor
  · intro heq x hx y _
    rw [← hbit data x y hx, ← hbit other x y hx, heq]
  · intro hsame
    refine (packed_trimPadding hdata).ext (packed_trimPadding hother) (by simp) (by simp) ?_
    intro x hx y hy
    rw [width_trimPadding] at hx
    rw [height_trimPadding] at hy
    rw [hbit data x y hx, hbit other x y hx]
    exact hsame x hx y hy

section OfData

variable (h : ofData width height data = .ok b)
include h

theorem width_ofData : b.width = width := by
  obtain ⟨-, -, rfl⟩ := ofData_eq_ok_iff.1 h
  exact width_trimPadding _

theorem height_ofData : b.height = height := by
  obtain ⟨-, -, rfl⟩ := ofData_eq_ok_iff.1 h
  exact height_trimPadding _

theorem stride_ofData : b.stride = bytesFor width := congrArg bytesFor (width_ofData h)

theorem size_ofData : b.data.size = data.size := by
  obtain ⟨-, -, rfl⟩ := ofData_eq_ok_iff.1 h
  exact size_trimPadding _

/-- The pixels are those of the bytes given. -/
theorem bit_ofData {x y : Nat} (hx : x < 8 * bytesFor width) :
    b.bit x y = (decide (x < width) && bit ⟨width, height, data⟩ x y) := by
  obtain ⟨-, -, rfl⟩ := ofData_eq_ok_iff.1 h
  exact bit_trimPadding ⟨width, height, data⟩ hx

/-- A pixel is its bit in the bytes given as well as in those kept. -/
theorem get_ofData {x y : Nat} (hx : x < width) (hy : y < height) {bytes : Array UInt8}
    (hbytes : bytes = data ∨ bytes = b.data) :
    ∃ byte, bytes[y * bytesFor width + x / 8]? = some byte ∧
      b.get x y = byte.toNat.testBit (7 - x % 8) := by
  have hin : x < b.width ∧ y < b.height := by
    rw [width_ofData h, height_ofData h]
    exact ⟨hx, hy⟩
  have hcolumn : x < 8 * bytesFor width := Nat.lt_of_lt_of_le hx (width_le ⟨width, height, data⟩)
  rw [get_natCast, decide_eq_true hin, Bool.true_and]
  rcases hbytes with rfl | rfl
  · rw [bit_ofData h hcolumn, decide_eq_true hx, Bool.true_and]
    exact exists_byte_bit (b := ⟨width, height, bytes⟩) (ofData_eq_ok_iff.1 h).2.1 hcolumn hy
  · have hkept := exists_byte_bit (Packed.ofData h).size (Nat.lt_of_lt_of_le hin.1 b.width_le) hin.2
    rwa [stride_ofData h] at hkept

theorem row?_ofData {y : Nat} (hy : y < height) :
    b.row? y =
      some (b.data.extract (y * bytesFor width) (y * bytesFor width + bytesFor width)) := by
  obtain ⟨hvalid, -⟩ := ofData_eq_ok_iff.1 h
  rw [(Packed.ofData h).row?_eq (by rw [width_ofData h]; exact hvalid.1)
    (by rw [height_ofData h]; exact hy), stride_ofData h]

end OfData

theorem Packed.trimPadding_eq (hb : b.Packed) : b.trimPadding = b := by
  refine (packed_trimPadding hb.size).ext hb b.width_trimPadding b.height_trimPadding ?_
  intro x hx y _
  rw [width_trimPadding] at hx
  exact bit_trimPadding_of_lt b hx y

/-- The bytes of a bitmap, taken over again, make the same bitmap. -/
theorem Packed.ofData_data (hb : b.Packed) (hsize : ValidSize b.width b.height) :
    Bitmap.ofData b.width b.height b.data = .ok b :=
  ofData_eq_ok_iff.2 ⟨hsize, hb.size, hb.trimPadding_eq.symm⟩

/-! ## Grayscale and back -/

section Gray

open GrayLibrary

variable {ι : Type} [GrayLibrary ι]

/-- The black pixels of a picture, packed, are the bits of its rows, and the padding is white. -/
theorem bit_packBlack (g : ι) {x y : Nat} (hx : x < 8 * bytesFor (GrayLibrary.width g))
    (hy : y < GrayLibrary.height g) :
    bit ⟨GrayLibrary.width g, GrayLibrary.height g, packBlack g⟩ x y =
      (decide (x < GrayLibrary.width g) && isBlack g x y) := by
  have hcolumn : x / 8 < bytesFor (GrayLibrary.width g) := by omega
  have hlt := position_lt hcolumn hy
  have hplace : bitPlace x = 7 - x % 8 := rfl
  unfold bit packBlack
  simp only [stride]
  rw [Array.getElem?_ofFn, dif_pos hlt]
  simp only [position_mod hcolumn, position_div hcolumn]
  rw [hplace, testBit_packByte _ (Nat.mod_lt x (by decide)), Nat.div_add_mod]

variable [LawfulGrayLibrary ι] (hsize : ValidSize b.width b.height)
include hsize

theorem sides_lt : b.width < 4294967296 ∧ b.height < 4294967296 := by
  obtain ⟨hwidth, hheight⟩ := hsize.le
  omega

/-- A grayscale picture has the sides of its bitmap and a byte for each pixel. -/
theorem sides_toGray :
    GrayLibrary.width (b.toGray ι) = b.width ∧ GrayLibrary.height (b.toGray ι) = b.height ∧
      (bytes (b.toGray ι)).size = b.width * b.height := by
  obtain ⟨hwidth, hheight⟩ := sides_lt hsize
  exact ⟨LawfulGrayLibrary.width_fromFn _ hwidth hheight,
    LawfulGrayLibrary.height_fromFn _ hwidth hheight,
    LawfulGrayLibrary.size_bytes_fromFn _ hwidth hheight⟩

theorem pixel_toGray {x y : Nat} (hx : x < b.width) (hy : y < b.height) :
    pixel (b.toGray ι) x y = if b.get x y then 0 else 255 := by
  obtain ⟨hwidth, hheight⟩ := sides_lt hsize
  obtain ⟨hcolumns, hrows⟩ := hsize.le
  unfold toGray
  rw [LawfulGrayLibrary.pixel_fromFn _ hwidth hheight hx hy, signed32_eq (by omega),
    signed32_eq (by omega)]

theorem getElem?_bytes_toGray {x y : Nat} (hx : x < b.width) (hy : y < b.height) :
    (bytes (b.toGray ι))[y * b.width + x]? = some (if b.get x y then 0 else 255) := by
  obtain ⟨hwidth, hheight, -⟩ := sides_toGray (ι := ι) hsize
  have hbyte := LawfulGrayLibrary.getElem?_bytes (b.toGray ι) (by rw [hwidth]; exact hx)
    (by rw [hheight]; exact hy)
  rwa [hwidth, pixel_toGray hsize hx hy] at hbyte

theorem isBlack_toGray {x y : Nat} (hx : x < b.width) (hy : y < b.height) :
    isBlack (b.toGray ι) x y = b.get x y := by
  unfold isBlack
  rw [(sides_toGray hsize).1, getElem?_bytes_toGray hsize hx hy]
  cases b.get x y <;> decide

/-- The black pixels of the grayscale picture are the packed rows again. -/
theorem Packed.packBlack_toGray (hb : b.Packed) : packBlack (b.toGray ι) = b.data := by
  obtain ⟨hwidth, hheight, -⟩ := sides_toGray (ι := ι) hsize
  have hcount : (packBlack (b.toGray ι)).size = b.stride * b.height := by
    unfold packBlack
    rw [Array.size_ofFn, hwidth, hheight]
    rfl
  have hbits : ∀ x < 8 * b.stride, ∀ y < b.height,
      bit ⟨b.width, b.height, packBlack (b.toGray ι)⟩ x y =
        (decide (x < b.width) && isBlack (b.toGray ι) x y) := by
    intro x hx y hy
    have hbit := bit_packBlack (b.toGray ι) (x := x) (y := y)
    rw [hwidth, hheight] at hbit
    exact hbit hx hy
  have hpacked : Packed ⟨b.width, b.height, packBlack (b.toGray ι)⟩ := by
    refine (packed_iff _).2 ⟨hcount, fun y hy x hx hw => ?_⟩
    rw [hbits x hx y hy, decide_eq_false (Nat.not_lt.2 hw), Bool.false_and]
  have hsame : (⟨b.width, b.height, packBlack (b.toGray ι)⟩ : Bitmap) = b := by
    refine hpacked.ext hb rfl rfl fun x hx y hy => ?_
    have hin : x < b.width ∧ y < b.height := ⟨hx, hy⟩
    rw [hbits x (Nat.lt_of_lt_of_le hx b.width_le) y hy, isBlack_toGray hsize hx hy, get_natCast,
      decide_eq_true hin, decide_eq_true hin.1, Bool.true_and, Bool.true_and]
  exact congrArg data hsame

end Gray

/-- **Packed rows, pixels and the grayscale picture carry the same information.**

Given any width, height and bytes, the bytes are taken over as packed rows exactly if the size is
valid and there are as many of them as it asks for; an invalid size is refused as such whatever the
bytes are, and only with a valid size the number of bytes is.  Of a bitmap taken over, the pixel in
column `x` of row `y` is bit `7 - x % 8` of byte `y * stride + x / 8`, of the bytes given as of
those kept; the bits kept are those of the pixels, with zeros behind them; and row `y` is the
stretch of `stride` bytes from byte `y * stride` on.  Other bytes taken over make the same bitmap
exactly if they agree with these in all bits but the padding.

The bytes of any packed bitmap of valid size, taken over again, make the same bitmap.  Its grayscale
picture, made with any library that is as it says of itself, has the sides of the bitmap and one
byte for each pixel, row by row, 0 for a black pixel and 255 for a white one; and its black pixels,
packed and taken over, make the same bitmap again. -/
theorem layouts_agree (ι : Type) [GrayLibrary ι] [LawfulGrayLibrary ι] (width height : Nat)
    (data : Array UInt8) :
    let stride := bytesFor width
    let given (bytes : Array UInt8) : Bitmap := ⟨width, height, bytes⟩
    ((∃ b, ofData width height data = .ok b) ↔
      ValidSize width height ∧ data.size = stride * height) ∧
    (ofData width height data = .error .invalidDimension ↔ ¬ValidSize width height) ∧
    (ofData width height data = .error .dataLengthMismatch ↔
      ValidSize width height ∧ data.size ≠ stride * height) ∧
    (∀ b, ofData width height data = .ok b →
      (b.width = width ∧ b.height = height ∧ b.stride = stride ∧ b.data.size = data.size) ∧
      (∀ x < width, ∀ y < height, ∀ bytes, bytes = data ∨ bytes = b.data →
        ∃ byte, bytes[y * stride + x / 8]? = some byte ∧
          b.get x y = byte.toNat.testBit (7 - x % 8)) ∧
      (∀ x < 8 * stride, ∀ y < height,
        b.bit x y = (decide (x < width) && (given data).bit x y)) ∧
      (∀ y < height, b.row? y = some (b.data.extract (y * stride) (y * stride + stride))) ∧
      ∀ other c, ofData width height other = .ok c →
        (b = c ↔ ∀ x < width, ∀ y < height, (given data).bit x y = (given other).bit x y)) ∧
    ∀ b : Bitmap, ValidSize b.width b.height → b.Packed →
      let picture := b.toGray ι
      ofData b.width b.height b.data = .ok b ∧
      (GrayLibrary.width picture = b.width ∧ GrayLibrary.height picture = b.height ∧
        (GrayLibrary.bytes picture).size = b.width * b.height) ∧
      (∀ x < b.width, ∀ y < b.height,
        (GrayLibrary.bytes picture)[y * b.width + x]? = some (if b.get x y then 0 else 255)) ∧
      ofData (GrayLibrary.width picture) (GrayLibrary.height picture) (packBlack picture) =
        .ok b := by
  intro stride given
  refine ⟨?_, ofData_eq_invalidDimension_iff, ofData_eq_dataLengthMismatch_iff, ?_, ?_⟩
  · constructor
    · rintro ⟨b, hb⟩
      obtain ⟨hvalid, hsize, -⟩ := ofData_eq_ok_iff.1 hb
      exact ⟨hvalid, hsize⟩
    · rintro ⟨hvalid, hsize⟩
      exact ⟨_, ofData_eq_ok_iff.2 ⟨hvalid, hsize, rfl⟩⟩
  · intro b hb
    refine ⟨⟨width_ofData hb, height_ofData hb, stride_ofData hb, size_ofData hb⟩,
      fun x hx y hy bytes hbytes => get_ofData hb hx hy hbytes, fun x hx y _ => bit_ofData hb hx,
      fun y hy => row?_ofData hb hy, fun other c hc => ?_⟩
    obtain ⟨-, hsize, rfl⟩ := ofData_eq_ok_iff.1 hb
    obtain ⟨-, hother, rfl⟩ := ofData_eq_ok_iff.1 hc
    exact trimPadding_eq_iff hsize hother
  · intro b hvalid hb picture
    have hsides := sides_toGray (ι := ι) hvalid
    refine ⟨hb.ofData_data hvalid, hsides, fun x hx y hy => getElem?_bytes_toGray hvalid hx hy, ?_⟩
    rw [hsides.1, hsides.2.1, Packed.packBlack_toGray hvalid hb]
    exact hb.ofData_data hvalid

end Bitmap

/-! ## A library of pictures -/

/-- A picture with one brightness byte for each pixel, row by row. -/
structure RowPicture where
  width : Nat
  height : Nat
  bytes : Array UInt8
  size_bytes : bytes.size = width * height

namespace RowPicture

theorem place_lt (g : RowPicture) {x y : Nat} (hx : x < g.width) (hy : y < g.height) :
    y * g.width + x < g.bytes.size := by
  rw [g.size_bytes]
  exact Bitmap.position_lt hx hy

instance : GrayLibrary RowPicture where
  fromFn width height brightness :=
    ⟨width, height,
      Array.ofFn fun i : Fin (width * height) => brightness (i.val % width) (i.val / width),
      Array.size_ofFn⟩
  width := width
  height := height
  pixel g x y := g.bytes.getD (y * g.width + x) 0
  bytes := bytes

instance : LawfulGrayLibrary RowPicture where
  width_fromFn _ _ _ := rfl
  height_fromFn _ _ _ := rfl
  pixel_fromFn {width height x y} brightness _ _ hx hy := by
    have hlt := Bitmap.position_lt hx hy
    simp [GrayLibrary.pixel, GrayLibrary.fromFn, hlt, Bitmap.position_mod hx,
      Bitmap.position_div hx]
  size_bytes_fromFn _ _ _ := Array.size_ofFn
  getElem?_bytes g {x y} hx hy := by
    have hlt : y * g.width + x < g.bytes.size := g.place_lt hx hy
    simp [GrayLibrary.pixel, GrayLibrary.bytes, GrayLibrary.width, hlt]

end RowPicture

/-- Two rows of eleven pixels, given with two paddings: one bitmap, whose grayscale picture leads
back to it. -/
theorem Bitmap.layouts_agree_paddings :
    ∃ b, ofData 11 2 #[0xa5, 0xff, 0x3c, 0x5f] = .ok b ∧
      ofData 11 2 #[0xa5, 0xe0, 0x3c, 0x40] = .ok b ∧
      b.get (9 : Nat) (1 : Nat) = true ∧
      (b.toGray RowPicture).bytes[20]? = some 0 ∧
      ofData 11 2 (packBlack (b.toGray RowPicture)) = .ok b := by
  obtain ⟨b, hb⟩ := (layouts_agree RowPicture 11 2 #[0xa5, 0xff, 0x3c, 0x5f]).1.2 (by decide)
  obtain ⟨c, hc⟩ := (layouts_agree RowPicture 11 2 #[0xa5, 0xe0, 0x3c, 0x40]).1.2 (by decide)
  obtain ⟨-, -, -, htaken, hround⟩ := layouts_agree RowPicture 11 2 #[0xa5, 0xff, 0x3c, 0x5f]
  obtain ⟨⟨hwidth, hheight, -⟩, hpixels, -, -, hsame⟩ := htaken b hb
  have hbc : b = c := (hsame _ c hc).2 (by decide)
  obtain ⟨byte, hbyte, hget⟩ := hpixels 9 (by decide) 1 (by decide) _ (.inl rfl)
  cases hbyte
  have hblack : b.get (9 : Nat) (1 : Nat) = true := hget.trans (by decide)
  obtain ⟨-, ⟨hwide, htall, -⟩, hbytes, hback⟩ :=
    hround b (by rw [hwidth, hheight]; decide) (.ofData hb)
  have hbrightness := hbytes 9 (by omega) 1 (by omega)
  rw [hblack, hwidth] at hbrightness
  rw [hwide, htall, hwidth, hheight] at hback
  exact ⟨b, hb, hbc ▸ hc, hblack, hbrightness, hback⟩

end Bilevel
