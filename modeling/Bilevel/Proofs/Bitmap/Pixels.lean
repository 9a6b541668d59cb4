import Mathlib.Algebra.Group.Nat.Defs
import Bilevel.Bitmap

/-!
# Bitmaps as matrices of pixels

The packed bytes of a bitmap and its pixels carry the same information as long as every byte is
stored and the bits behind the last pixel of a row are zero.

* `Bitmap.bit` — the bit that stands for a place, padding included; `get_eq_bit` ties it to `get`.
* `Bitmap.Packed` — all bytes are stored and the padding is zero.
* `Packed.ext` — packed bitmaps of one size are equal if their pixels are.
* `Packed.row?_congr`, `Packed.row?_white` — the bytes of a row by its pixels.
* `blank_eq_ok_iff` — which sizes have a blank bitmap, and what it is.
* `bit_blank`, `bit_setByte`, `bit_set`, `bit_copyRow` — the bits after each operation.
* `Packed.blank`, `Packed.setByte`, `Packed.set`, `Packed.copyRow` — the operations keep bitmaps
  packed.
-/

set_option autoImplicit false

namespace Bilevel.Bitmap

/-! ## Bytes and bits -/

theorem byte_ext {u v : UInt8} (h : ∀ i < 8, u.toNat.testBit i = v.toNat.testBit i) : u = v := by
  apply UInt8.toNat_inj.1
  apply Nat.eq_of_testBit_eq
  intro i
  by_cases hi : i < 8
  · exact h i hi
  · have hp : 2 ^ 8 ≤ 2 ^ i := Nat.pow_le_pow_right (by decide) (by omega)
    have hu := u.toNat_lt
    have hv := v.toNat_lt
    rw [Nat.testBit_lt_two_pow (by omega), Nat.testBit_lt_two_pow (by omega)]

theorem testBit_toNat_ofNat (n : Nat) {i : Nat} (hi : i < 8) :
    (UInt8.ofNat n).toNat.testBit i = n.testBit i := by
  rw [UInt8.toNat_ofNat', Nat.testBit_mod_two_pow, decide_eq_true hi, Bool.true_and]

theorem position_div {n y i : Nat} (hi : i < n) : (y * n + i) / n = y := by
  rw [Nat.mul_comm, Nat.mul_add_div (Nat.zero_lt_of_lt hi), Nat.div_eq_of_lt hi, Nat.add_zero]

theorem position_mod {n y i : Nat} (hi : i < n) : (y * n + i) % n = i := by
  rw [Nat.mul_comm, Nat.mul_add_mod, Nat.mod_eq_of_lt hi]

/-- Rows do not overlap: a position in a grid of `n` columns fixes its row and its column. -/
theorem position_inj {n y y' i i' : Nat} (hi : i < n) (hi' : i' < n) :
    y * n + i = y' * n + i' ↔ y = y' ∧ i = i' := by
  constructor
  · intro h
    have hy : y = y' := by rw [← position_div (y := y) hi, h, position_div hi']
    subst hy
    exact ⟨rfl, by omega⟩
  · rintro ⟨rfl, rfl⟩
    rfl

theorem position_lt {n y i rows : Nat} (hi : i < n) (hy : y < rows) : y * n + i < n * rows := by
  have h : (y + 1) * n ≤ rows * n := Nat.mul_le_mul_right n hy
  rw [Nat.succ_mul] at h
  rw [Nat.mul_comm n rows]
  omega

theorem hasStorage_iff (b : Bitmap) : b.hasStorage = true ↔ b.data.size ≠ 0 := by
  unfold hasStorage Array.isEmpty
  simp

/-- The bit that stands for column `x` of row `y`, also behind the last column. -/
def bit (b : Bitmap) (x y : Nat) : Bool :=
  match b.data[y * b.stride + x / 8]? with
  | some byte => byte.toNat.testBit (bitPlace x)
  | none => false

theorem width_le (b : Bitmap) : b.width ≤ 8 * b.stride := by
  unfold stride bytesFor
  omega

theorem column_lt {b : Bitmap} {x : Nat} (hx : x < 8 * b.stride) : x / 8 < b.stride := by
  omega

theorem get_natCast (b : Bitmap) (x y : Nat) :
    b.get x y = (decide (x < b.width ∧ y < b.height) && b.bit x y) := by
  unfold get
  rw [if_neg (by omega)]
  simp only [Int.toNat_natCast]
  by_cases h : x < b.width ∧ y < b.height
  · rw [decide_eq_true h, Bool.true_and]
    exact if_pos h
  · rw [decide_eq_false h, Bool.false_and]
    exact if_neg h

theorem get_outside {b : Bitmap} {x y : Int}
    (h : x < 0 ∨ y < 0 ∨ (b.width : Int) ≤ x ∨ (b.height : Int) ≤ y) : b.get x y = false := by
  unfold get
  by_cases hn : x < 0 ∨ y < 0
  · rw [if_pos hn]
  · rw [if_neg hn]
    exact if_neg (by omega)

theorem get_eq_bit (b : Bitmap) (x y : Int) :
    b.get x y = (decide (0 ≤ x ∧ x < b.width ∧ 0 ≤ y ∧ y < b.height) && b.bit x.toNat y.toNat) := by
  by_cases h : 0 ≤ x ∧ x < b.width ∧ 0 ≤ y ∧ y < b.height
  · obtain ⟨x', rfl⟩ := Int.eq_ofNat_of_zero_le h.1
    obtain ⟨y', rfl⟩ := Int.eq_ofNat_of_zero_le h.2.2.1
    rw [get_natCast, decide_eq_true h, decide_eq_true (by omega)]
    rfl
  · rw [get_outside (by omega), decide_eq_false h, Bool.false_and]

/-! ## Packed bitmaps -/

/-- Every byte of the rows is stored, and the bits behind the last pixel of a row are zero. -/
structure Packed (b : Bitmap) : Prop where
  size : b.data.size = b.stride * b.height
  padding : ∀ x y, b.width ≤ x → x < 8 * b.stride → b.bit x y = false

theorem packed_iff (b : Bitmap) :
    b.Packed ↔ b.data.size = b.stride * b.height ∧
      ∀ y < b.height, ∀ x < 8 * b.stride, b.width ≤ x → b.bit x y = false := by
  constructor
  · exact fun h => ⟨h.size, fun y _ x hx hw => h.padding x y hw hx⟩
  · rintro ⟨hsize, hpadding⟩
    refine ⟨hsize, fun x y hw hx => ?_⟩
    by_cases hy : y < b.height
    · exact hpadding y hy x hx hw
    · have hrow : b.height * b.stride ≤ y * b.stride := Nat.mul_le_mul_right _ (by omega)
      unfold bit
      rw [Array.getElem?_eq_none (by rw [hsize, Nat.mul_comm]; omega)]

instance (b : Bitmap) : Decidable b.Packed := decidable_of_iff _ b.packed_iff.symm

theorem Packed.hasStorage {b : Bitmap} (hb : b.Packed) (hwidth : 0 < b.width)
    (hheight : 0 < b.height) : b.hasStorage = true := by
  have hstride : 0 < b.stride := by
    unfold stride bytesFor
    omega
  apply b.hasStorage_iff.2
  rw [hb.size]
  exact Nat.ne_of_gt (Nat.mul_pos hstride hheight)

theorem Packed.position_lt {b : Bitmap} (hb : b.Packed) {x y : Nat} (hx : x < 8 * b.stride)
    (hy : y < b.height) : y * b.stride + x / 8 < b.data.size := by
  rw [hb.size]
  exact Bitmap.position_lt (column_lt hx) hy

/-- Packed rows of one width have the same bytes if they have the same pixels. -/
theorem Packed.byte_congr {b c : Bitmap} (hb : b.Packed) (hc : c.Packed) (hw : b.width = c.width)
    {y z i : Nat} (hy : y < b.height) (hz : z < c.height) (hi : i < b.stride)
    (h : ∀ x < b.width, b.bit x y = c.bit x z) :
    b.data[y * b.stride + i]? = c.data[z * c.stride + i]? := by
  have hs : b.stride = c.stride := congrArg bytesFor hw
  have hbits : ∀ x < 8 * b.stride, b.bit x y = c.bit x z := by
    intro x hx
    by_cases hxw : x < b.width
    · exact h x hxw
    · rw [hb.padding x y (by omega) hx, hc.padding x z (by omega) (by omega)]
  have hby : y * b.stride + i < b.data.size := by
    rw [hb.size]
    exact Bitmap.position_lt hi hy
  have hcz : z * c.stride + i < c.data.size := by
    rw [hc.size]
    exact Bitmap.position_lt (hs ▸ hi) hz
  rw [Array.getElem?_eq_getElem hby, Array.getElem?_eq_getElem hcz]
  refine congrArg some (byte_ext fun j hj => ?_)
  -- bit `j` of the byte is the pixel this far to the right of its first one
  have hx := hbits (8 * i + (7 - j)) (by omega)
  have hplace : bitPlace (8 * i + (7 - j)) = j := by
    unfold bitPlace
    omega
  unfold bit at hx
  rw [show (8 * i + (7 - j)) / 8 = i by omega, hplace, Array.getElem?_eq_getElem hby,
    Array.getElem?_eq_getElem hcz] at hx
  exact hx

/-- Packed bitmaps of one size are equal if their pixels are. -/
theorem Packed.ext {b c : Bitmap} (hb : b.Packed) (hc : c.Packed) (hw : b.width = c.width)
    (hh : b.height = c.height)
    (h : ∀ x < b.width, ∀ y < b.height, b.bit x y = c.bit x y) : b = c := by
  have hs : b.stride = c.stride := congrArg bytesFor hw
  have hd : b.data = c.data := by
    refine Array.ext_getElem? fun i => ?_
    by_cases hib : i < b.data.size
    · have hpos : 0 < b.stride := by
        rcases Nat.eq_zero_or_pos b.stride with h0 | h0
        · rw [hb.size, h0] at hib
          omega
        · exact h0
      have hrow : i / b.stride < b.height := by
        rw [Nat.div_lt_iff_lt_mul hpos, Nat.mul_comm, ← hb.size]
        exact hib
      have hi : i / b.stride * b.stride + i % b.stride = i := by
        rw [Nat.mul_comm]
        exact Nat.div_add_mod i b.stride
      have hbyte := hb.byte_congr hc hw hrow (hh ▸ hrow) (Nat.mod_lt i hpos)
        fun x hx => h x hx _ hrow
      rw [← hs, hi] at hbyte
      exact hbyte
    · have hic : ¬i < c.data.size := by
        rw [hc.size, ← hs, ← hh, ← hb.size]
        exact hib
      rw [Array.getElem?_eq_none (by omega), Array.getElem?_eq_none (by omega)]
  cases b
  cases c
  simp only at hw hh hd
  rw [hw, hh, hd]

theorem ValidSize.le {width height : Nat} (h : ValidSize width height) :
    width ≤ 2147483647 ∧ height ≤ 2147483647 := by
  obtain ⟨-, -, hwidth, hheight, -⟩ := h
  unfold maxPixels at hwidth hheight
  omega

theorem bit_zeros (width height count x y : Nat) :
    bit ⟨width, height, Array.replicate count 0⟩ x y = false := by
  unfold bit
  simp only [Array.getElem?_replicate]
  split <;> rename_i heq
  · split at heq
    · cases heq
      exact Nat.zero_testBit _
    · cases heq
  · rfl

theorem blank_eq_ok_iff {width height : Nat} {b : Bitmap} : blank width height = .ok b ↔
    ValidSize width height ∧ b = ⟨width, height, Array.replicate (bytesFor width * height) 0⟩ := by
  unfold blank
  split
  · simp [*, eq_comm]
  · simp [*]

theorem bit_blank {width height : Nat} {b : Bitmap} (h : blank width height = .ok b) (x y : Nat) :
    b.bit x y = false := by
  obtain ⟨-, rfl⟩ := blank_eq_ok_iff.1 h
  exact bit_zeros _ _ _ x y

theorem Packed.blank {width height : Nat} {b : Bitmap} (h : Bitmap.blank width height = .ok b) :
    b.Packed := by
  refine ⟨?_, fun x y _ _ => bit_blank h x y⟩
  obtain ⟨-, rfl⟩ := blank_eq_ok_iff.1 h
  exact Array.size_replicate

theorem width_blank {width height : Nat} {b : Bitmap} (h : blank width height = .ok b) :
    b.width = width := by
  obtain ⟨-, rfl⟩ := blank_eq_ok_iff.1 h
  rfl

theorem height_blank {width height : Nat} {b : Bitmap} (h : blank width height = .ok b) :
    b.height = height := by
  obtain ⟨-, rfl⟩ := blank_eq_ok_iff.1 h
  rfl

/-! ## Bytes, pixels and rows -/

@[simp] theorem stride_setByte (b : Bitmap) (y i : Nat) (byte : UInt8) :
    (b.setByte y i byte).stride = b.stride := rfl

theorem data_setByte (b : Bitmap) (y i : Nat) (byte : UInt8) :
    (b.setByte y i byte).data = b.data.setIfInBounds (y * b.stride + i) byte := rfl

theorem Packed.storesByte {b : Bitmap} (hb : b.Packed) {y i : Nat} (hi : i < b.stride)
    (hy : y < b.height) : b.StoresByte y i := by
  refine ⟨hi, ?_⟩
  rw [hb.size]
  exact Bitmap.position_lt hi hy

theorem bit_setByte {b : Bitmap} {y i : Nat} (h : b.StoresByte y i) (byte : UInt8) (x' y' : Nat)
    (hx : x' < 8 * b.stride) :
    (b.setByte y i byte).bit x' y' =
      if y' = y ∧ x' / 8 = i then byte.toNat.testBit (bitPlace x') else b.bit x' y' := by
  unfold bit
  rw [stride_setByte, data_setByte]
  by_cases hp : y' = y ∧ x' / 8 = i
  · obtain ⟨rfl, rfl⟩ := hp
    rw [if_pos ⟨rfl, rfl⟩, Array.getElem?_setIfInBounds_self_of_lt h.2]
  · have hne : y * b.stride + i ≠ y' * b.stride + x' / 8 := by
      rw [Ne, position_inj h.1 (column_lt hx)]
      exact fun heq => hp ⟨heq.1.symm, heq.2.symm⟩
    rw [if_neg hp, Array.getElem?_setIfInBounds_ne hne]

/-- A byte that leaves the padding of its row zero may be stored. -/
theorem Packed.setByte {b : Bitmap} (hb : b.Packed) {y i : Nat} (h : b.StoresByte y i)
    {byte : UInt8}
    (hbyte : ∀ x, b.width ≤ x → x / 8 = i → byte.toNat.testBit (bitPlace x) = false) :
    (b.setByte y i byte).Packed := by
  refine ⟨?_, fun x' y' hw hx' => ?_⟩
  · rw [size_setByte, hb.size]
    rfl
  · rw [bit_setByte h byte x' y' hx']
    split
    · rename_i hp
      exact hbyte x' hw hp.2
    · exact hb.padding x' y' hw hx'

/-- Giving a pixel a colour writes the byte that holds it. -/
theorem set_eq_setByte {b : Bitmap} {x y : Nat} (hx : x < b.width) (hy : y < b.height)
    {byte : UInt8} (hbyte : b.data[y * b.stride + x / 8]? = some byte) (value : Bool) :
    b.set x y value = b.setByte y (x / 8) (replaceBit byte (bitPlace x) value) := by
  unfold set setByte
  rw [if_pos ⟨hx, hy⟩]
  congr 1
  apply Array.ext_getElem?
  intro j
  rw [Array.getElem?_modify, Array.getElem?_setIfInBounds]
  obtain ⟨hlt, -⟩ := Array.getElem?_eq_some_iff.1 hbyte
  by_cases hj : y * b.stride + x / 8 = j
  · subst hj
    rw [if_pos rfl, if_pos rfl, if_pos hlt, hbyte]
    rfl
  · rw [if_neg hj, if_neg hj]

theorem bit_set {b : Bitmap} (hb : b.Packed) {x y : Nat} (hx : x < b.width) (hy : y < b.height)
    (value : Bool) (x' y' : Nat) (hx' : x' < 8 * b.stride) :
    (b.set x y value).bit x' y' = if y' = y ∧ x' = x then value else b.bit x' y' := by
  have hlt := hb.position_lt (x := x) (by have := b.width_le; omega) hy
  have hbyte := Array.getElem?_eq_getElem hlt
  have hcolumn := column_lt (b := b) (x := x) (by have := b.width_le; omega)
  rw [set_eq_setByte hx hy hbyte, bit_setByte ⟨hcolumn, hlt⟩ _ _ _ hx']
  by_cases hp : y' = y ∧ x' / 8 = x / 8
  · obtain ⟨rfl, hcol⟩ := hp
    have hbit := testBit_replaceBit b.data[y' * b.stride + x / 8] value
      ⟨bitPlace x, by unfold bitPlace; omega⟩ ⟨bitPlace x', by unfold bitPlace; omega⟩
    simp only [Fin.mk.injEq] at hbit
    rw [if_pos ⟨rfl, hcol⟩, hbit]
    by_cases hxx : x' = x
    · subst hxx
      rw [if_pos rfl, if_pos ⟨rfl, rfl⟩]
    · rw [if_neg (by unfold bitPlace; omega), if_neg (fun h => hxx h.2)]
      unfold bit
      rw [hcol, hbyte]
  · rw [if_neg hp, if_neg]
    rintro ⟨rfl, rfl⟩
    exact hp ⟨rfl, rfl⟩

theorem get_set {b : Bitmap} (hb : b.Packed) {x y : Nat} (hx : x < b.width) (hy : y < b.height)
    (value : Bool) (x' y' : Int) :
    (b.set x y value).get x' y' = if y' = y ∧ x' = x then value else b.get x' y' := by
  rw [get_eq_bit, get_eq_bit b, width_set, height_set]
  by_cases h : 0 ≤ x' ∧ x' < b.width ∧ 0 ≤ y' ∧ y' < b.height
  · have hwidth := b.width_le
    rw [decide_eq_true h, Bool.true_and, Bool.true_and, bit_set hb hx hy _ _ _ (by omega)]
    by_cases hp : y' = y ∧ x' = x
    · rw [if_pos hp, if_pos (by omega)]
    · rw [if_neg hp, if_neg (by omega)]
  · rw [decide_eq_false h, Bool.false_and, Bool.false_and, if_neg (by omega)]

theorem Packed.set {b : Bitmap} (hb : b.Packed) (x y : Nat) (value : Bool) :
    (b.set x y value).Packed := by
  have hstride : (b.set x y value).stride = b.stride := by
    rw [stride, stride, width_set]
  refine ⟨?_, ?_⟩
  · rw [size_set, hb.size, hstride, height_set]
  · intro x' y' hw hx'
    rw [width_set] at hw
    rw [hstride] at hx'
    by_cases h : x < b.width ∧ y < b.height
    · rw [bit_set hb h.1 h.2 value x' y' hx', if_neg (by omega)]
      exact hb.padding x' y' hw hx'
    · unfold Bitmap.set
      rw [if_neg h]
      exact hb.padding x' y' hw hx'

theorem Packed.storesRow {b : Bitmap} (hb : b.Packed) {y : Nat} (hy : y < b.height) :
    b.StoresRow y := by
  unfold StoresRow
  rw [hb.size, ← Nat.succ_mul, Nat.mul_comm b.stride]
  exact Nat.mul_le_mul_right b.stride hy

theorem Packed.row?_eq {b : Bitmap} (hb : b.Packed) (hpos : 0 < b.width) {y : Nat}
    (hy : y < b.height) :
    b.row? y = some (b.data.extract (y * b.stride) (y * b.stride + b.stride)) := by
  have hwidth := b.width_le
  have hlt : y * b.stride + 0 < b.data.size := by
    rw [hb.size]
    exact Bitmap.position_lt (by omega) hy
  exact if_pos ⟨hy, b.hasStorage_iff.2 (Nat.ne_zero_of_lt hlt), hb.storesRow hy⟩

theorem Packed.row?_congr {b c : Bitmap} (hb : b.Packed) (hc : c.Packed) (hw : b.width = c.width)
    (hpos : 0 < b.width) {y z : Nat} (hy : y < b.height) (hz : z < c.height)
    (h : ∀ x < b.width, b.bit x y = c.bit x z) : b.row? y = c.row? z := by
  have hs : b.stride = c.stride := congrArg bytesFor hw
  have hby := hb.storesRow hy
  have hcz := hc.storesRow hz
  unfold StoresRow at hby hcz
  rw [hb.row?_eq hpos hy, hc.row?_eq (hw ▸ hpos) hz]
  refine congrArg some (Array.ext_getElem? fun i => ?_)
  rw [Array.getElem?_extract, Array.getElem?_extract]
  by_cases hi : i < b.stride
  · rw [if_pos (by omega), if_pos (by omega)]
    exact hb.byte_congr hc hw hy hz hi h
  · rw [if_neg (by omega), if_neg (by omega)]

/-- A packed row without pixels is zero bytes. -/
theorem Packed.row?_white {b : Bitmap} (hb : b.Packed) (hpos : 0 < b.width) {y : Nat}
    (hy : y < b.height) (h : ∀ x < b.width, b.bit x y = false) :
    b.row? y = some (Array.replicate b.stride 0) := by
  let white : Bitmap := ⟨b.width, b.height, Array.replicate (b.stride * b.height) 0⟩
  have hwhite : white.Packed :=
    ⟨Array.size_replicate, fun x y _ _ => bit_zeros b.width b.height _ x y⟩
  have hrow : y * white.stride + white.stride ≤ b.stride * b.height :=
    Nat.le_trans (hwhite.storesRow hy) (Nat.le_of_eq Array.size_replicate)
  have hbits : ∀ x < b.width, b.bit x y = white.bit x y := by
    intro x hx
    rw [h x hx]
    exact (bit_zeros b.width b.height _ x y).symm
  rw [hb.row?_congr hwhite rfl hpos hy hy hbits, hwhite.row?_eq hpos hy]
  rw [Array.extract_replicate, Nat.min_eq_left hrow, Nat.add_sub_cancel_left]
  rfl

/-! ## Copying rows -/

theorem Packed.storesCopy {b : Bitmap} (hb : b.Packed) (target : Nat) (source : Int) :
    b.StoresCopy target source := by
  rintro ⟨ht, -⟩
  exact ⟨hb.storesRow ht, fun hs => hb.storesRow (by omega)⟩

/-- A packed row that is copied brings its bits along; from outside the bitmap come zeros. -/
theorem bit_copyRow {b : Bitmap} (hb : b.Packed) {target : Nat} (ht : target < b.height)
    (source : Int) (x' y' : Nat) (hx' : x' < 8 * b.stride) :
    (b.copyRow target source).bit x' y' =
      if y' = target then decide (0 ≤ source ∧ source < b.height) && b.bit x' source.toNat
      else b.bit x' y' := by
  have hcol := column_lt hx'
  have hsize : target * b.stride + x' / 8 < b.data.size := hb.position_lt hx' ht
  have hstore : b.hasStorage = true := b.hasStorage_iff.2 (Nat.ne_zero_of_lt hsize)
  unfold copyRow
  rw [if_pos ⟨ht, hstore⟩]
  unfold bit
  simp only [stride] at *
  rw [getElem?_write]
  by_cases hy : y' = target
  · subst hy
    rw [if_pos (by omega), if_pos rfl, Nat.add_sub_cancel_left]
    unfold bytesOf
    by_cases hs : 0 ≤ source ∧ source < b.height
    · have hrow := hb.storesRow (y := source.toNat) (by omega)
      unfold StoresRow stride at hrow
      rw [if_neg (by omega), decide_eq_true hs, Bool.true_and]
      simp only [Array.getD_eq_getD_getElem?, Array.getElem?_extract, stride]
      rw [if_pos (by omega), Array.getElem?_eq_getElem (by omega)]
      rfl
    · rw [if_pos (by omega), decide_eq_false hs, Bool.false_and]
      simp
  · rw [if_neg hy, if_neg]
    intro hle
    have hcol' : y' * bytesFor b.width + x' / 8 - target * bytesFor b.width < bytesFor b.width := by
      omega
    exact hy ((position_inj hcol hcol').1 (by omega)).1

theorem get_copyRow {b : Bitmap} (hb : b.Packed) {target : Nat} (ht : target < b.height)
    (source x' y' : Int) :
    (b.copyRow target source).get x' y' = if y' = target then b.get x' source else b.get x' y' := by
  have hwidth := b.width_le
  rw [get_eq_bit, get_eq_bit b, get_eq_bit b, width_copyRow, height_copyRow]
  by_cases hx : 0 ≤ x' ∧ x' < b.width
  · by_cases hy : 0 ≤ y' ∧ y' < b.height
    · rw [decide_eq_true ⟨hx.1, hx.2, hy.1, hy.2⟩, Bool.true_and, Bool.true_and,
        bit_copyRow hb ht source _ _ (by omega)]
      by_cases hyt : y' = target
      · rw [if_pos (by omega), if_pos hyt]
        congr 2
        exact propext ⟨fun h => ⟨hx.1, hx.2, h.1, h.2⟩, fun h => ⟨h.2.2.1, h.2.2.2⟩⟩
      · rw [if_neg (by omega), if_neg hyt]
    · rw [decide_eq_false (fun h => hy ⟨h.2.2.1, h.2.2.2⟩), if_neg (by omega)]
      rfl
  · rw [decide_eq_false (fun h => hx ⟨h.1, h.2.1⟩), decide_eq_false (fun h => hx ⟨h.1, h.2.1⟩)]
    split <;> rfl

theorem Packed.copyRow {b : Bitmap} (hb : b.Packed) (target : Nat) (source : Int) :
    (b.copyRow target source).Packed := by
  have hstride : (b.copyRow target source).stride = b.stride := by
    rw [stride, stride, width_copyRow]
  refine ⟨?_, ?_⟩
  · rw [size_copyRow, hb.size, hstride, height_copyRow]
  · intro x' y' hw hx'
    rw [width_copyRow] at hw
    rw [hstride] at hx'
    by_cases ht : target < b.height
    · rw [bit_copyRow hb ht source x' y' hx', hb.padding x' _ hw hx', hb.padding x' _ hw hx']
      simp
    · unfold Bitmap.copyRow
      rw [if_neg (fun h => ht h.1)]
      exact hb.padding x' y' hw hx'

end Bilevel.Bitmap
