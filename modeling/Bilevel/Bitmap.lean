import Bilevel.Failure

/-!
# Bi-level bitmaps with packed rows

A `Bitmap` is a rectangle of black and white pixels.  A row takes `stride` bytes; its leftmost
pixel is the top bit of its first byte, a set bit is black, and the bits past the width in the
last byte of a row are zero (`trimPadding`).  A bitmap may have a size and no storage: it then
reads as white and ignores writes.

* `ValidSize` — the sizes that are given storage.
* `blank`, `ofData`, `withoutStorage` — the three ways to make a bitmap.
* `get`, `set`, `copyRow`, `fill`, `row?`, `byte?`, `setByte` — pixels, rows and packed bytes.
* `StoresRow`, `StoresByte`, `StoresCopy` — whether the bytes that an operation touches are stored.
* `toGray` — the picture with one brightness for each pixel; what such a picture is, is left to a
  `GrayLibrary`.
* `getElem?_write`, `testBit_replaceBit` — the bytes after writing a stretch of them, and the bits
  of a byte after replacing one.  `width_set`, `height_set`, `size_set` and their like: no operation
  changes the size of a bitmap or the number of its bytes.
-/

set_option autoImplicit false

namespace Bilevel

/-- An unsigned 32-bit number read as a signed one in two's complement. -/
def signed32 (n : Nat) : Int := if n < 2147483648 then n else (n : Int) - 4294967296

/-- A picture of `width` by `height` pixels, packed into bytes row by row; without storage there are
no bytes. -/
structure Bitmap where
  width : Nat
  height : Nat
  data : Array UInt8
  deriving DecidableEq, Repr

namespace Bitmap

/-- The largest number of pixels of a bitmap with storage, and of either of its sides. -/
def maxPixels : Nat := 2147483616

/-- A size is valid if neither side is zero and neither a side nor the area exceeds `maxPixels`. -/
def ValidSize (width height : Nat) : Prop :=
  0 < width ∧ 0 < height ∧ width ≤ maxPixels ∧ height ≤ maxPixels ∧ width * height ≤ maxPixels

instance (width height : Nat) : Decidable (ValidSize width height) :=
  inferInstanceAs (Decidable (_ ∧ _))

/-- The least number of bytes that hold one bit for each of `width` pixels. -/
def bytesFor (width : Nat) : Nat := (width + 7) / 8

def stride (b : Bitmap) : Nat := bytesFor b.width

def hasStorage (b : Bitmap) : Bool := !b.data.isEmpty

/-- The bits of a row's last byte that stand for pixels, when the width is no multiple of 8. -/
def lastByteMask (width : Nat) : UInt8 := (255 : UInt8) <<< UInt8.ofNat (8 - width % 8)

/-- Clears the bits behind the last pixel of every row. -/
def trimPadding (b : Bitmap) : Bitmap :=
  if b.width % 8 = 0 then b
  else
    { b with
      data := b.data.mapIdx fun i byte =>
        if i % b.stride + 1 = b.stride then byte &&& lastByteMask b.width else byte }

def withoutStorage (width height : Nat) : Bitmap := ⟨width, height, #[]⟩

/-- An all-white bitmap; only a valid size has one. -/
def blank (width height : Nat) : Except Failure Bitmap :=
  if ValidSize width height then
    .ok ⟨width, height, Array.replicate (bytesFor width * height) 0⟩
  else .error .invalidDimension

/-- The bitmap with the given packed rows, less their padding.  The size is judged before the
number of bytes. -/
def ofData (width height : Nat) (data : Array UInt8) : Except Failure Bitmap :=
  if ValidSize width height then
    if data.size = bytesFor width * height then .ok (trimPadding ⟨width, height, data⟩)
    else .error .dataLengthMismatch
  else .error .invalidDimension

/-! ## Pixels -/

/-- The place of pixel `x` among the bits of its byte: the leftmost pixel is the top bit. -/
def bitPlace (x : Nat) : Nat := 7 - x % 8

def replaceBit (byte : UInt8) (place : Nat) (value : Bool) : UInt8 :=
  if value then byte ||| ((1 : UInt8) <<< UInt8.ofNat place)
  else byte &&& ~~~((1 : UInt8) <<< UInt8.ofNat place)

/-- The pixel in column `x` of row `y`.  All pixels outside the bitmap are white, and so are those
of a bitmap without storage. -/
def get (b : Bitmap) (x y : Int) : Bool :=
  if x < 0 ∨ y < 0 then false
  else
    let column := x.toNat
    let row := y.toNat
    if column < b.width ∧ row < b.height then
      match b.data[row * b.stride + column / 8]? with
      | some byte => byte.toNat.testBit (bitPlace column)
      | none => false
    else false

/-- Gives the pixel in column `x` of row `y` a colour; outside the bitmap nothing happens. -/
def set (b : Bitmap) (x y : Nat) (value : Bool) : Bitmap :=
  if x < b.width ∧ y < b.height then
    { b with
      data := b.data.modify (y * b.stride + x / 8) fun byte => replaceBit byte (bitPlace x) value }
  else b

/-! ## Rows and packed bytes -/

def StoresRow (b : Bitmap) (y : Nat) : Prop := y * b.stride + b.stride ≤ b.data.size

instance (b : Bitmap) (y : Nat) : Decidable (b.StoresRow y) := inferInstanceAs (Decidable (_ ≤ _))

def StoresByte (b : Bitmap) (y i : Nat) : Prop := i < b.stride ∧ y * b.stride + i < b.data.size

instance (b : Bitmap) (y i : Nat) : Decidable (b.StoresByte y i) :=
  inferInstanceAs (Decidable (_ ∧ _))

/-- The bytes of row `y`; there are none outside the bitmap or without storage. -/
def row? (b : Bitmap) (y : Nat) : Option (Array UInt8) :=
  if y < b.height ∧ b.hasStorage ∧ b.StoresRow y then
    some (b.data.extract (y * b.stride) (y * b.stride + b.stride))
  else none

/-- Byte `i` of row `y`; `none` if it is not stored. -/
def byte? (b : Bitmap) (y i : Nat) : Option UInt8 :=
  if i < b.stride then b.data[y * b.stride + i]? else none

def setByte (b : Bitmap) (y i : Nat) (byte : UInt8) : Bitmap :=
  { b with data := b.data.setIfInBounds (y * b.stride + i) byte }

/-- Writes `count` bytes from a position on, where they are stored; the byte at distance `k` from it
becomes `byte k`. -/
def write (byte : Nat → UInt8) (start : Nat) : (count : Nat) → Array UInt8 → Array UInt8
  | 0, data => data
  | k + 1, data => write byte start k (data.setIfInBounds (start + k) (byte k))

/-- The bytes of row `source`; there are none outside the bitmap. -/
def bytesOf (b : Bitmap) (source : Int) : Array UInt8 :=
  if source < 0 ∨ (b.height : Int) ≤ source then #[]
  else b.data.extract (source.toNat * b.stride) (source.toNat * b.stride + b.stride)

/-- Makes row `target` equal to row `source`, or white if `source` lies outside the bitmap.  With
the target outside the bitmap, or without storage, nothing happens. -/
def copyRow (b : Bitmap) (target : Nat) (source : Int) : Bitmap :=
  if target < b.height ∧ b.hasStorage then
    let bytes := b.bytesOf source
    { b with data := write (fun k => bytes.getD k 0) (target * b.stride) b.stride b.data }
  else b

/-- Whether the rows that `copyRow` touches are stored. -/
def StoresCopy (b : Bitmap) (target : Nat) (source : Int) : Prop :=
  target < b.height ∧ b.hasStorage →
    b.StoresRow target ∧ (0 ≤ source ∧ source < b.height → b.StoresRow source.toNat)

instance (b : Bitmap) (target : Nat) (source : Int) : Decidable (b.StoresCopy target source) :=
  inferInstanceAs (Decidable (_ → _))

def fill (b : Bitmap) (value : Bool) : Bitmap :=
  if value then trimPadding { b with data := Array.replicate b.data.size 255 }
  else { b with data := Array.replicate b.data.size 0 }

end Bitmap

/-! ## Grayscale pictures -/

/-- What is used of a library of grayscale pictures.  A picture is made from the brightness of its
pixels by column and row, which are numbers of 32 bits as its sides are; a pixel can be looked up,
and so can the bytes that hold the pixels. -/
class GrayLibrary (ι : Type) where
  fromFn (width height : Nat) (brightness : Nat → Nat → UInt8) : ι
  width : ι → Nat
  height : ι → Nat
  pixel (picture : ι) (x y : Nat) : UInt8
  bytes : ι → Array UInt8

/-- What such a library says of itself: a picture has the sides and the pixels that it was made
with and no more bytes than pixels, and the bytes of any picture begin with its rows from the top
down. -/
class LawfulGrayLibrary (ι : Type) [GrayLibrary ι] : Prop where
  width_fromFn {width height : Nat} (brightness : Nat → Nat → UInt8) :
    width < 4294967296 → height < 4294967296 →
      GrayLibrary.width (GrayLibrary.fromFn width height brightness : ι) = width
  height_fromFn {width height : Nat} (brightness : Nat → Nat → UInt8) :
    width < 4294967296 → height < 4294967296 →
      GrayLibrary.height (GrayLibrary.fromFn width height brightness : ι) = height
  pixel_fromFn {width height x y : Nat} (brightness : Nat → Nat → UInt8) :
    width < 4294967296 → height < 4294967296 → x < width → y < height →
      GrayLibrary.pixel (GrayLibrary.fromFn width height brightness : ι) x y = brightness x y
  size_bytes_fromFn {width height : Nat} (brightness : Nat → Nat → UInt8) :
    width < 4294967296 → height < 4294967296 →
      (GrayLibrary.bytes (GrayLibrary.fromFn width height brightness : ι)).size = width * height
  getElem?_bytes (picture : ι) {x y : Nat} :
    x < GrayLibrary.width picture → y < GrayLibrary.height picture →
      (GrayLibrary.bytes picture)[y * GrayLibrary.width picture + x]? =
        some (GrayLibrary.pixel picture x y)

/-- The grayscale picture of a bitmap, in the pictures of a library: black pixels become 0 and white
pixels 255.  Columns and rows are handed over as unsigned numbers and looked up as signed ones. -/
def Bitmap.toGray (b : Bitmap) (ι : Type) [GrayLibrary ι] : ι :=
  GrayLibrary.fromFn b.width b.height fun x y =>
    if b.get (signed32 x) (signed32 y) then 0 else 255

namespace Bitmap

/-! ## What the operations leave alone -/

@[simp] theorem size_write (byte : Nat → UInt8) (start count : Nat) (data : Array UInt8) :
    (write byte start count data).size = data.size := by
  induction count generalizing data with
  | zero => rfl
  | succ k ih => rw [write, ih, Array.size_setIfInBounds]

/-- A stretch of stored bytes is found as it was written, and all other bytes are as before. -/
theorem getElem?_write (byte : Nat → UInt8) (start count : Nat) (data : Array UInt8) (i : Nat) :
    (write byte start count data)[i]? =
      if start ≤ i ∧ i < start + count ∧ i < data.size then some (byte (i - start))
      else data[i]? := by
  induction count generalizing data with
  | zero => rw [if_neg (by omega), write]
  | succ k ih =>
    rw [write, ih, Array.size_setIfInBounds]
    by_cases hi : i = start + k
    · subst hi
      rw [if_neg (by omega)]
      by_cases hs : start + k < data.size
      · rw [if_pos (by omega), Array.getElem?_setIfInBounds_self_of_lt hs, Nat.add_sub_cancel_left]
      · rw [if_neg (by omega), Array.getElem?_eq_none (by rw [Array.size_setIfInBounds]; omega),
          Array.getElem?_eq_none (by omega)]
    · rw [Array.getElem?_setIfInBounds_ne (Ne.symm hi)]
      by_cases hs : start ≤ i ∧ i < start + k ∧ i < data.size
      · rw [if_pos hs, if_pos (by omega)]
      · rw [if_neg hs, if_neg (by omega)]

/-- Replacing a bit changes no other. -/
theorem testBit_replaceBit (byte : UInt8) (value : Bool) (place i : Fin 8) :
    (replaceBit byte place value).toNat.testBit i =
      if i = place then value else byte.toNat.testBit i := by
  have hp : (UInt8.ofNat place.val).toNat = place.val := by
    simp only [UInt8.toNat_ofNat']
    omega
  have hm : ((1 : UInt8) <<< UInt8.ofNat place.val).toNat = 2 ^ place.val := by
    have h8 : 2 ^ place.val < 256 := by
      have := Nat.pow_lt_pow_right (show 1 < 2 by decide) place.isLt
      omega
    rw [UInt8.toNat_shiftLeft, hp, Nat.mod_eq_of_lt place.isLt, UInt8.toNat_one,
      Nat.one_shiftLeft, Nat.mod_eq_of_lt (by omega)]
  unfold replaceBit
  cases value with
  | true =>
    rw [if_pos rfl, UInt8.toNat_or, hm, Nat.testBit_or, Nat.testBit_two_pow]
    by_cases h : i = place
    · subst h
      simp
    · have : place.val ≠ i.val := fun hv => h (Fin.ext hv.symm)
      simp [h, this]
  | false =>
    rw [if_neg (by decide), UInt8.toNat_and, Nat.testBit_and]
    have hn : (~~~((1 : UInt8) <<< UInt8.ofNat place.val)).toNat.testBit i.val =
        !decide (place.val = i.val) := by
      rw [UInt8.toNat_not, hm]
      have := Nat.testBit_two_pow_sub_succ (x := 2 ^ place.val) (n := 8)
        (Nat.pow_lt_pow_right (by decide) place.isLt) i.val
      rw [show (UInt8.size - 1 - 2 ^ place.val) = 2 ^ 8 - (2 ^ place.val + 1) by
        simp only [UInt8.size]; omega, this, Nat.testBit_two_pow]
      simp
    rw [hn]
    by_cases h : i = place
    · subst h
      simp
    · have : place.val ≠ i.val := fun hv => h (Fin.ext hv.symm)
      simp [h, this]

@[simp] theorem width_trimPadding (b : Bitmap) : b.trimPadding.width = b.width := by
  unfold trimPadding
  split <;> rfl

@[simp] theorem height_trimPadding (b : Bitmap) : b.trimPadding.height = b.height := by
  unfold trimPadding
  split <;> rfl

@[simp] theorem size_trimPadding (b : Bitmap) : b.trimPadding.data.size = b.data.size := by
  unfold trimPadding
  split
  · rfl
  · exact Array.size_mapIdx

@[simp] theorem width_set (b : Bitmap) (x y : Nat) (value : Bool) :
    (b.set x y value).width = b.width := by
  unfold set
  split <;> rfl

@[simp] theorem height_set (b : Bitmap) (x y : Nat) (value : Bool) :
    (b.set x y value).height = b.height := by
  unfold set
  split <;> rfl

@[simp] theorem size_set (b : Bitmap) (x y : Nat) (value : Bool) :
    (b.set x y value).data.size = b.data.size := by
  unfold set
  split
  · exact Array.size_modify
  · rfl

@[simp] theorem width_setByte (b : Bitmap) (y i : Nat) (byte : UInt8) :
    (b.setByte y i byte).width = b.width := rfl

@[simp] theorem height_setByte (b : Bitmap) (y i : Nat) (byte : UInt8) :
    (b.setByte y i byte).height = b.height := rfl

@[simp] theorem size_setByte (b : Bitmap) (y i : Nat) (byte : UInt8) :
    (b.setByte y i byte).data.size = b.data.size := Array.size_setIfInBounds

@[simp] theorem width_copyRow (b : Bitmap) (target : Nat) (source : Int) :
    (b.copyRow target source).width = b.width := by
  unfold copyRow
  split <;> rfl

@[simp] theorem height_copyRow (b : Bitmap) (target : Nat) (source : Int) :
    (b.copyRow target source).height = b.height := by
  unfold copyRow
  split <;> rfl

@[simp] theorem size_copyRow (b : Bitmap) (target : Nat) (source : Int) :
    (b.copyRow target source).data.size = b.data.size := by
  unfold copyRow
  split
  · exact size_write _ _ _ _
  · rfl

@[simp] theorem width_fill (b : Bitmap) (value : Bool) : (b.fill value).width = b.width := by
  cases value
  · rfl
  · exact width_trimPadding _

@[simp] theorem height_fill (b : Bitmap) (value : Bool) : (b.fill value).height = b.height := by
  cases value
  · rfl
  · exact height_trimPadding _

@[simp] theorem size_fill (b : Bitmap) (value : Bool) : (b.fill value).data.size = b.data.size := by
  cases value
  · exact Array.size_replicate
  · exact (size_trimPadding _).trans Array.size_replicate

end Bitmap

end Bilevel
