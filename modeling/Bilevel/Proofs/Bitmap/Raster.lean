import Bilevel.Proofs.Bitmap.WellFormed

/-!
# Packed bitmaps refine matrices of pixels

Forgetting how its rows are packed, a bitmap is a matrix of pixels, and all that can be done to it
is done to that matrix.

* `Raster` — a matrix of pixels, which is white if its pixels are not kept; `Raster.set`,
  `Raster.copyRow`, `Raster.fill` and `Raster.get` work on it pixel by pixel.
* `Bitmap.raster` — the matrix of a bitmap.
* `Edit` — a change to a bitmap or to a matrix, with any arguments.
* `raster_set`, `raster_copyRow`, `raster_fill` — a change to the bytes is that change to the
  matrix.
* `WellFormed.eq_iff` — bitmaps in their format are equal exactly if their matrices are.
* `raster_edits` — so it is with any number of changes.
-/

set_option autoImplicit false

namespace Bilevel

/-! ## Matrices of pixels -/

/-- A matrix of pixels.  Its pixels may not be kept, and then all of them are white. -/
structure Raster where
  width : Nat
  height : Nat
  stored : Bool
  pixel : Fin width → Fin height → Bool
  blank : stored = false → ∀ x y, pixel x y = false

namespace Raster

/-- The pixel in column `x` of row `y`; all pixels outside the matrix are white. -/
def get (p : Raster) (x y : Int) : Bool :=
  if h : (0 ≤ x ∧ x < p.width) ∧ 0 ≤ y ∧ y < p.height then
    p.pixel ⟨x.toNat, by omega⟩ ⟨y.toNat, by omega⟩
  else false

/-- Gives all pixels new colours, if they are kept. -/
def repaint (p : Raster) (pixel : Fin p.width → Fin p.height → Bool) : Raster where
  width := p.width
  height := p.height
  stored := p.stored
  pixel x y := p.stored && pixel x y
  blank h x y := by rw [h, Bool.false_and]

/-- Gives the pixel in column `x` of row `y` a colour, and leaves all others as they are. -/
def set (p : Raster) (x y : Nat) (value : Bool) : Raster :=
  p.repaint fun i j => if i.val = x ∧ j.val = y then value else p.pixel i j

/-- Makes row `target` what row `source` was, white if that is none of the rows, and leaves all
other rows as they are. -/
def copyRow (p : Raster) (target : Nat) (source : Int) : Raster :=
  p.repaint fun i j => if j.val = target then p.get i.val source else p.pixel i j

def fill (p : Raster) (value : Bool) : Raster := p.repaint fun _ _ => value

end Raster

/-! ## The matrix of a bitmap -/

namespace Bitmap

variable {b c : Bitmap}

theorem hasStorage_eq_false : b.hasStorage = false ↔ b.data = #[] := by
  unfold hasStorage
  rw [Bool.not_eq_false', Array.isEmpty_iff]

theorem hasStorage_congr (h : c.data.size = b.data.size) : c.hasStorage = b.hasStorage := by
  rw [Bool.eq_iff_iff, hasStorage_iff, hasStorage_iff, h]

theorem get_of_not_stored (h : b.hasStorage = false) (x y : Int) : b.get x y = false := by
  have hbit : b.bit x.toNat y.toNat = false := by
    unfold bit
    rw [hasStorage_eq_false.1 h]
    rfl
  rw [get_eq_bit, hbit, Bool.and_false]

/-- With storage, the format leaves no choice but to have all rows stored. -/
theorem WellFormed.packed (hb : b.WellFormed) (h : b.hasStorage = true) : b.Packed := by
  rcases (wellFormed_iff b).1 hb with hnone | hpacked
  · rw [hasStorage_eq_false.2 hnone] at h
    cases h
  · exact hpacked

def raster (b : Bitmap) : Raster where
  width := b.width
  height := b.height
  stored := b.hasStorage
  pixel x y := b.get x.val y.val
  blank h x y := get_of_not_stored h x.val y.val

/-- The pixels of a bitmap are those of its matrix, inside as outside. -/
theorem get_raster (b : Bitmap) (x y : Int) : b.raster.get x y = b.get x y := by
  unfold Raster.get
  split
  · rename_i h
    show b.get x.toNat y.toNat = b.get x y
    rw [Int.toNat_of_nonneg h.1.1, Int.toNat_of_nonneg h.2.1]
  · rename_i h
    exact (get_outside (by simp only [raster] at h; omega)).symm

/-- A bitmap with the size and the pixels of a matrix has that matrix. -/
theorem raster_eq {p : Raster} (hwidth : b.width = p.width) (hheight : b.height = p.height)
    (hstored : b.hasStorage = p.stored) (hpixel : ∀ x y, b.get x.val y.val = p.pixel x y) :
    b.raster = p := by
  obtain ⟨width, height, stored, pixel, blank⟩ := p
  simp only at hwidth hheight hstored hpixel
  subst hwidth hheight hstored
  have hsame : b.raster.pixel = pixel := funext fun x => funext fun y => hpixel x y
  subst hsame
  rfl

/-! ## Changes -/

theorem raster_set (hb : b.WellFormed) (x y : Nat) (value : Bool) :
    (b.set x y value).raster = b.raster.set x y value := by
  have hstorage : (b.set x y value).hasStorage = b.hasStorage := hasStorage_congr (size_set _ _ _ _)
  refine raster_eq (width_set _ _ _ _) (height_set _ _ _ _) hstorage fun i j => ?_
  show (b.set x y value).get i.val j.val =
    (b.hasStorage && if i.val = x ∧ j.val = y then value else b.get i.val j.val)
  cases hstored : b.hasStorage with
  | false => rw [get_of_not_stored (hstorage.trans hstored), Bool.false_and]
  | true =>
    rw [Bool.true_and]
    by_cases hin : x < b.width ∧ y < b.height
    · rw [get_set (hb.packed hstored) hin.1 hin.2]
      by_cases hp : i.val = x ∧ j.val = y
      · rw [if_pos hp, if_pos (by omega)]
      · rw [if_neg hp, if_neg (by omega)]
    · have hi : i.val < b.width := i.isLt
      have hj : j.val < b.height := j.isLt
      rw [if_neg (by omega)]
      unfold set
      rw [if_neg hin]

theorem raster_copyRow (hb : b.WellFormed) (target : Nat) (source : Int) :
    (b.copyRow target source).raster = b.raster.copyRow target source := by
  have hstorage : (b.copyRow target source).hasStorage = b.hasStorage :=
    hasStorage_congr (size_copyRow _ _ _)
  refine raster_eq (width_copyRow _ _ _) (height_copyRow _ _ _) hstorage fun i j => ?_
  show (b.copyRow target source).get i.val j.val =
    (b.hasStorage && if j.val = target then b.raster.get i.val source else b.get i.val j.val)
  rw [get_raster]
  cases hstored : b.hasStorage with
  | false => rw [get_of_not_stored (hstorage.trans hstored), Bool.false_and]
  | true =>
    rw [Bool.true_and]
    by_cases ht : target < b.height
    · rw [get_copyRow (hb.packed hstored) ht]
      by_cases hj : j.val = target
      · rw [if_pos hj, if_pos (by omega)]
      · rw [if_neg hj, if_neg (by omega)]
    · have hj : j.val < b.height := j.isLt
      rw [if_neg (by omega)]
      unfold copyRow
      rw [if_neg (fun h => ht h.1)]

/-- Every pixel of a bitmap that has been filled with black is black. -/
theorem bit_fill_true (hb : b.Packed) {x y : Nat} (hx : x < b.width) (hy : y < b.height) :
    (b.fill true).bit x y = true := by
  have hwidth := b.width_le
  let black : Bitmap := { b with data := Array.replicate b.data.size 255 }
  have hplace : y * b.stride + x / 8 < b.data.size := hb.position_lt (by omega) hy
  have hbyte : black.data[y * black.stride + x / 8]? = some 255 :=
    Array.getElem?_replicate.trans (if_pos hplace)
  have hbit : black.bit x y = true := by
    have hall : ∀ i : Fin 8, (255 : UInt8).toNat.testBit i = true := by decide
    unfold bit
    rw [hbyte]
    exact hall ⟨bitPlace x, by unfold bitPlace; omega⟩
  show black.trimPadding.bit x y = true
  rw [bit_trimPadding black (show x < 8 * b.stride by omega), hbit, Bool.and_true]
  exact decide_eq_true hx

theorem raster_fill (hb : b.WellFormed) (value : Bool) :
    (b.fill value).raster = b.raster.fill value := by
  have hstorage : (b.fill value).hasStorage = b.hasStorage := hasStorage_congr (size_fill _ _)
  refine raster_eq (width_fill _ _) (height_fill _ _) hstorage fun i j => ?_
  show (b.fill value).get i.val j.val = (b.hasStorage && value)
  have hi : i.val < b.width := i.isLt
  have hj : j.val < b.height := j.isLt
  cases hstored : b.hasStorage with
  | false => rw [get_of_not_stored (hstorage.trans hstored), Bool.false_and]
  | true =>
    rw [Bool.true_and, get_natCast, width_fill, height_fill, decide_eq_true ⟨hi, hj⟩, Bool.true_and]
    cases value with
    | true => exact bit_fill_true (hb.packed hstored) hi hj
    | false => exact bit_zeros _ _ _ _ _

/-- Bitmaps in their format are equal exactly if they have the same size, both or neither have
storage, and all pixels are the same. -/
theorem WellFormed.eq_iff (hb : b.WellFormed) (hc : c.WellFormed) :
    b = c ↔ b.raster = c.raster := by
  refine ⟨congrArg raster, fun h => ?_⟩
  have hwidth : b.width = c.width := congrArg Raster.width h
  have hheight : b.height = c.height := congrArg Raster.height h
  have hstorage : b.hasStorage = c.hasStorage := congrArg Raster.stored h
  cases hstored : b.hasStorage with
  | false =>
    have hbnone := hasStorage_eq_false.1 hstored
    have hcnone := hasStorage_eq_false.1 (hstorage.symm.trans hstored)
    cases b
    cases c
    simp only at hwidth hheight hbnone hcnone
    rw [hwidth, hheight, hbnone, hcnone]
  | true =>
    refine (hb.packed hstored).ext (hc.packed (hstorage.symm.trans hstored)) hwidth hheight
      fun x hx y hy => ?_
    have hget : b.get x y = c.get x y := by rw [← get_raster, ← get_raster, h]
    rw [get_natCast, get_natCast, decide_eq_true ⟨hx, hy⟩,
      decide_eq_true ⟨hwidth ▸ hx, hheight ▸ hy⟩, Bool.true_and, Bool.true_and] at hget
    exact hget

end Bitmap

/-! ## Any number of changes -/

inductive Edit where
  | set (x y : Nat) (value : Bool)
  | copyRow (target : Nat) (source : Int)
  | fill (value : Bool)

def Edit.onBitmap (b : Bitmap) : Edit → Bitmap
  | .set x y value => b.set x y value
  | .copyRow target source => b.copyRow target source
  | .fill value => b.fill value

def Edit.onRaster (p : Raster) : Edit → Raster
  | .set x y value => p.set x y value
  | .copyRow target source => p.copyRow target source
  | .fill value => p.fill value

namespace Bitmap

variable {b : Bitmap}

theorem WellFormed.edit (hb : b.WellFormed) (edit : Edit) : (edit.onBitmap b).WellFormed := by
  cases edit with
  | set x y value => exact hb.set x y value
  | copyRow target source => exact hb.copyRow target source
  | fill value => exact hb.fill value

/-- A change to the bytes is that change to the matrix. -/
theorem WellFormed.raster_edit (hb : b.WellFormed) (edit : Edit) :
    (edit.onBitmap b).raster = edit.onRaster b.raster := by
  cases edit with
  | set x y value => exact raster_set hb x y value
  | copyRow target source => exact raster_copyRow hb target source
  | fill value => exact raster_fill hb value

theorem WellFormed.foldl_edit (hb : b.WellFormed) (edits : List Edit) :
    (edits.foldl Edit.onBitmap b).WellFormed ∧
      (edits.foldl Edit.onBitmap b).raster = edits.foldl Edit.onRaster b.raster := by
  induction edits generalizing b with
  | nil => exact ⟨hb, rfl⟩
  | cons edit edits ih =>
    rw [List.foldl_cons, List.foldl_cons, ← hb.raster_edit edit]
    exact ih (hb.edit edit)

/-- **A packed bitmap refines a matrix of pixels.**  Whatever changes are made to a bitmap that has
its format, in whatever order and with whatever arguments, it keeps the format, and its matrix is
the one that these changes make of the matrix it had; reading any place, inside or outside, gives
the pixel of that matrix; and it is equal to another bitmap in its format exactly if that one has
the same matrix: the same size, storage if this one has, and the same pixels. -/
theorem raster_edits (b : Bitmap) (hb : b.WellFormed) (edits : List Edit) :
    let after := edits.foldl Edit.onBitmap b
    let matrix := edits.foldl Edit.onRaster b.raster
    after.WellFormed ∧ after.raster = matrix ∧ (∀ x y : Int, after.get x y = matrix.get x y) ∧
      ∀ c : Bitmap, c.WellFormed → (after = c ↔ matrix = c.raster) := by
  intro after matrix
  obtain ⟨hafter, hmatrix⟩ : after.WellFormed ∧ after.raster = matrix := hb.foldl_edit edits
  refine ⟨hafter, hmatrix, fun x y => ?_, fun c hc => ?_⟩
  · rw [← hmatrix, get_raster]
  · rw [hafter.eq_iff hc, hmatrix]

/-- Rows of two bytes, painted black, with a white pixel in each byte, and then copied from inside
and from outside. -/
theorem raster_edits_copies :
    let b : Bitmap := ⟨11, 3, #[0x12, 0x40, 0xff, 0xe0, 0, 0]⟩
    let edits : List Edit :=
      [.fill true, .set 2 0 false, .set 9 0 false, .set 11 0 false, .copyRow 2 0, .copyRow 1 (-1),
        .copyRow 0 1, .copyRow 3 0]
    let after := edits.foldl Edit.onBitmap b
    let matrix := edits.foldl Edit.onRaster b.raster
    b.WellFormed ∧ after = ⟨11, 3, #[0, 0, 0, 0, 0xdf, 0xa0]⟩ ∧
    after.WellFormed ∧ after.raster = matrix ∧ (∀ x y : Int, after.get x y = matrix.get x y) ∧
      ∀ c : Bitmap, c.WellFormed → (after = c ↔ matrix = c.raster) := by
  intro b edits
  have hb : b.WellFormed := (wellFormed_iff b).2 (.inr (by decide))
  exact ⟨hb, by decide, raster_edits b hb edits⟩

end Bitmap

end Bilevel
