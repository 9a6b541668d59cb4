import Bilevel.Proofs.Bitmap.Pixels

/-!
# Bitmaps with places that are watched

The operations on a bitmap once more, with every place worked out in machine numbers and every
stretch of bytes cut out of the stored ones: each fails where a number gets too large or negative,
or where a stretch is not stored.

* `placeLimit` — places are machine words of 64 bits.
* `sum?`, `product?`, `difference?`, `pred32?`, `slice?` — the operations that can fail.
* `Bitmap.get?`, `put?`, `copyRow?`, `readAbove?`, `setByte?` — pixels, rows and packed bytes.
* `Bitmap.Words` — a bitmap whose sides are numbers of 32 bits; `Words.get?`, `Words.put?` — its
  pixels never fail, stored or not.
* `Bitmap.Whole` — such a bitmap with all its bytes stored; `Whole.copyRow?`, `Whole.readAbove?`,
  `Whole.setByte?` — neither do its rows.
-/

set_option autoImplicit false

namespace Bilevel

/-! ## Operations that can fail -/

namespace Checked

/-- Places among the bytes of a bitmap are machine words of 64 bits, and stay below this. -/
def placeLimit : Nat := 2 ^ 64

/-- A sum, unless it reaches the limit. -/
def sum? (limit x y : Nat) : Option Nat := if x + y < limit then some (x + y) else none

def product? (limit x y : Nat) : Option Nat := if x * y < limit then some (x * y) else none

def difference? (x y : Nat) : Option Nat := if y ≤ x then some (x - y) else none

/-- One less than a signed number of 32 bits, unless there is no such number. -/
def pred32? (x : Int) : Option Int := if -2147483648 ≤ x - 1 then some (x - 1) else none

/-- The bytes from one place to another, unless they are not in order or not all there. -/
def slice? (data : Array UInt8) (start stop : Nat) : Option (Array UInt8) :=
  if start ≤ stop ∧ stop ≤ data.size then some (data.extract start stop) else none

theorem sum?_eq {limit x y : Nat} (h : x + y < limit) : sum? limit x y = some (x + y) := if_pos h

theorem product?_eq {limit x y : Nat} (h : x * y < limit) : product? limit x y = some (x * y) :=
  if_pos h

theorem difference?_eq {x y : Nat} (h : y ≤ x) : difference? x y = some (x - y) := if_pos h

theorem pred32?_eq {x : Int} (h : 0 ≤ x) : pred32? x = some (x - 1) := if_pos (by omega)

theorem slice?_eq {data : Array UInt8} {start stop : Nat} (h : start ≤ stop)
    (h' : stop ≤ data.size) : slice? data start stop = some (data.extract start stop) :=
  if_pos ⟨h, h'⟩

end Checked

namespace Bitmap

open Checked

/-- The place of the byte with the pixel in column `x` of row `y`. -/
def address? (b : Bitmap) (x y : Nat) : Option Nat := do
  let start ← product? placeLimit y b.stride
  sum? placeLimit start (x / 8)

def get? (b : Bitmap) (x y : Int) : Option Bool :=
  if x < 0 ∨ y < 0 ∨ (b.width : Int) ≤ x ∨ (b.height : Int) ≤ y then some false
  else do
    let place ← b.address? x.toNat y.toNat
    let shift ← difference? 7 (x.toNat % 8)
    match b.data[place]? with
    | some byte => some (byte.toNat.testBit shift)
    | none => some false

def put? (b : Bitmap) (x y : Nat) (value : Bool) : Option Bitmap :=
  if x < b.width ∧ y < b.height then do
    let place ← b.address? x y
    some { b with data := b.data.modify place fun byte => replaceBit byte (bitPlace x) value }
  else some b

def copyRow? (b : Bitmap) (target : Nat) (source : Int) : Option Bitmap :=
  if target < b.height ∧ b.hasStorage then do
    let start ← product? placeLimit target b.stride
    let stop ← sum? placeLimit start b.stride
    let _ ← slice? b.data start stop
    if source < 0 ∨ (b.height : Int) ≤ source then
      some { b with data := write (fun _ => 0) start b.stride b.data }
    else
      let first ← product? placeLimit source.toNat b.stride
      let last ← sum? placeLimit first b.stride
      let bytes ← slice? b.data first last
      some { b with data := write (fun k => bytes.getD k 0) start b.stride b.data }
  else some b

/-- Byte `i` of the row so many rows above row `y`, cut out of the rows above; before the first row
there are zeros. -/
def readAbove? (b : Bitmap) (y distance i : Nat) : Option UInt8 :=
  if y < distance then some 0
  else do
    let start ← product? placeLimit y b.stride
    let above ← slice? b.data 0 start
    let back ← product? placeLimit distance b.stride
    let first ← difference? start back
    let next ← product? placeLimit (distance - 1) b.stride
    let last ← difference? start next
    let row ← slice? above first last
    row[i]?

/-- Replaces byte `i` of row `y`, cut out of the rows from there on. -/
def setByte? (b : Bitmap) (y i : Nat) (byte : UInt8) : Option Bitmap := do
  let start ← product? placeLimit y b.stride
  let rest ← slice? b.data start b.data.size
  let row ← slice? rest 0 b.stride
  if i < row.size then some (b.setByte y i byte) else none

/-! ## Bitmaps of any size -/

/-- The sides are numbers of 32 bits. -/
structure Words (b : Bitmap) : Prop where
  width : b.width < 2 ^ 32
  height : b.height < 2 ^ 32

/-- There is a place for every byte of such a bitmap. -/
theorem Words.size_lt {b : Bitmap} (h : b.Words) : b.stride * b.height < placeLimit := by
  have hstride : b.stride ≤ 2 ^ 30 := by
    have hwidth := h.width
    unfold stride bytesFor
    omega
  calc b.stride * b.height ≤ 2 ^ 30 * 2 ^ 32 :=
        Nat.mul_le_mul hstride (Nat.le_of_lt h.height)
    _ < placeLimit := by decide

theorem Words.address? {b : Bitmap} (h : b.Words) {x y : Nat} (hx : x < b.width)
    (hy : y < b.height) : b.address? x y = some (y * b.stride + x / 8) := by
  have hsize := h.size_lt
  have hwidth := b.width_le
  have hplace := position_lt (column_lt (show x < 8 * b.stride by omega)) hy
  unfold Bitmap.address?
  rw [product?_eq (by omega)]
  exact sum?_eq (by omega)

theorem Words.get? {b : Bitmap} (h : b.Words) (x y : Int) : b.get? x y = some (b.get x y) := by
  unfold Bitmap.get?
  by_cases hout : x < 0 ∨ y < 0 ∨ (b.width : Int) ≤ x ∨ (b.height : Int) ≤ y
  · rw [if_pos hout, get_outside hout]
  · rw [if_neg hout, h.address? (by omega) (by omega), difference?_eq (by omega)]
    unfold get
    simp only [Option.bind_eq_bind, Option.bind_some]
    rw [if_neg (by omega), if_pos (by omega)]
    cases b.data[y.toNat * b.stride + x.toNat / 8]? with
    | none => rfl
    | some byte => rfl

theorem Words.put? {b : Bitmap} (h : b.Words) (x y : Nat) (value : Bool) :
    b.put? x y value = some (b.set x y value) := by
  unfold Bitmap.put? set
  split
  · rename_i hinside
    rw [h.address? hinside.1 hinside.2]
    rfl
  · rfl

/-! ## Bitmaps with all bytes stored -/

/-- The sides are numbers of 32 bits and all bytes are stored. -/
structure Whole (b : Bitmap) : Prop extends Words b where
  size : b.data.size = b.stride * b.height

theorem Whole.row_le {b : Bitmap} (h : b.Whole) {y : Nat} (hy : y < b.height) :
    y * b.stride + b.stride ≤ b.data.size := by
  have hle : (y + 1) * b.stride ≤ b.height * b.stride := Nat.mul_le_mul_right _ hy
  rw [Nat.succ_mul] at hle
  rw [h.size, Nat.mul_comm b.stride]
  exact hle

theorem Whole.storesCopy {b : Bitmap} (h : b.Whole) (target : Nat) (source : Int) :
    b.StoresCopy target source := by
  intro htarget
  refine ⟨h.row_le htarget.1, ?_⟩
  intro hsource
  exact h.row_le (by omega)

theorem Whole.copyRow? {b : Bitmap} (h : b.Whole) (target : Nat) (source : Int) :
    b.copyRow? target source = some (b.copyRow target source) := by
  have hlimit := h.size_lt
  rw [← h.size] at hlimit
  unfold Bitmap.copyRow? copyRow bytesOf
  split
  · rename_i htarget
    have hrow := h.row_le htarget.1
    rw [product?_eq (by omega)]
    simp only [Option.bind_eq_bind, Option.bind_some]
    rw [sum?_eq (by omega)]
    simp only [Option.bind_some]
    rw [slice?_eq (by omega) hrow]
    simp only [Option.bind_some]
    split
    · rfl
    · rename_i hsource
      have hrow' := h.row_le (show source.toNat < b.height by omega)
      rw [product?_eq (by omega)]
      simp only [Option.bind_some]
      rw [sum?_eq (by omega)]
      simp only [Option.bind_some]
      rw [slice?_eq (by omega) hrow']
      rfl
  · rfl

theorem Whole.readAbove? {b : Bitmap} (h : b.Whole) {y distance : Nat} (hy : y < b.height)
    (hdistance : 0 < distance) (i : Nat) :
    b.readAbove? y distance i =
      if y < distance then some 0 else b.byte? (y - distance) i := by
  unfold Bitmap.readAbove?
  split
  · rfl
  · rename_i habove
    obtain ⟨distance, rfl⟩ := Nat.exists_eq_succ_of_ne_zero (Nat.ne_of_gt hdistance)
    obtain ⟨y, rfl⟩ := Nat.exists_eq_add_of_le (Nat.le_of_not_lt habove)
    have hlimit := h.size_lt
    rw [← h.size] at hlimit
    have hrow := h.row_le hy
    have hback : distance.succ * b.stride = distance * b.stride + b.stride := Nat.succ_mul _ _
    have hstart : (distance.succ + y) * b.stride =
        distance * b.stride + b.stride + y * b.stride := by
      rw [Nat.add_mul, hback]
    -- the row is the stretch of this length that ends `distance` rows before the next one
    have hfirst : (distance.succ + y) * b.stride - distance.succ * b.stride = y * b.stride := by
      omega
    have hlast : (distance.succ + y) * b.stride - (distance.succ - 1) * b.stride =
        y * b.stride + b.stride := by
      rw [Nat.succ_sub_one]
      omega
    have habove : (b.data.extract 0 ((distance.succ + y) * b.stride)).size =
        (distance.succ + y) * b.stride := by
      rw [Array.size_extract]
      omega
    have hnext : (distance.succ - 1) * b.stride ≤ (distance.succ + y) * b.stride := by
      rw [Nat.succ_sub_one]
      omega
    simp only [Option.bind_eq_bind]
    rw [product?_eq (by omega), Option.bind_some, slice?_eq (Nat.zero_le _) (by omega),
      Option.bind_some, product?_eq (by omega), Option.bind_some, difference?_eq (by omega),
      Option.bind_some, product?_eq (by omega), Option.bind_some, difference?_eq hnext,
      Option.bind_some, hfirst, hlast, slice?_eq (by omega) (by omega), Option.bind_some]
    unfold byte?
    rw [Nat.add_sub_cancel_left]
    by_cases hi : i < b.stride
    · rw [if_pos hi, Array.getElem?_extract, if_pos (by omega), Array.getElem?_extract,
        if_pos (by omega), Nat.zero_add]
    · rw [if_neg hi, Array.getElem?_extract, if_neg (by omega)]

theorem Whole.setByte? {b : Bitmap} (h : b.Whole) {y : Nat} (hy : y < b.height) (i : Nat)
    (byte : UInt8) :
    b.setByte? y i byte = if b.StoresByte y i then some (b.setByte y i byte) else none := by
  have hlimit := h.size_lt
  rw [← h.size] at hlimit
  have hrow := h.row_le hy
  have hsize :
      ((b.data.extract (y * b.stride) b.data.size).extract 0 b.stride).size = b.stride := by
    rw [Array.size_extract, Array.size_extract]
    omega
  have hrest : b.stride ≤ (b.data.extract (y * b.stride) b.data.size).size := by
    rw [Array.size_extract]
    omega
  unfold Bitmap.setByte?
  simp only [Option.bind_eq_bind]
  rw [product?_eq (by omega), Option.bind_some, slice?_eq (by omega) (Nat.le_refl _),
    Option.bind_some, slice?_eq (Nat.zero_le _) hrest, Option.bind_some, hsize]
  by_cases hi : i < b.stride
  · have hstores : b.StoresByte y i := ⟨hi, by omega⟩
    rw [if_pos hi, if_pos hstores]
  · have hstores : ¬b.StoresByte y i := fun hstores => hi hstores.1
    rw [if_neg hi, if_neg hstores]

end Bitmap

end Bilevel
