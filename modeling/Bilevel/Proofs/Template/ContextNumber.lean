import Bilevel.Proofs.Bitmap.Pixels
import Bilevel.Template

/-!
# The bits of a context number

* `testBit_contextNumber` — bit `j` of a context number is the pixel at offset `j` from the end.
* `contextNumber_lt` — a template with `n` pixels has context numbers below `2 ^ n`.
* `get_saturatingAdd` — sums that stop at the ends of the 32-bit range still miss the bitmap, so
  that offsets may be added without bounds.
* `Template.nominalOffset`, `offsets?_nominal` — with the adaptive pixels at their nominal places
  the bits of a context number form at most three stretches, one for each row.
-/

set_option autoImplicit false

namespace Bilevel

/-! ## Numbers from bits -/

theorem ofBits_concat (bits : List Bool) (b : Bool) :
    ofBits (bits ++ [b]) = 2 * ofBits bits + b.toNat := by
  unfold ofBits
  rw [List.foldl_append]
  rfl

theorem testBit_ofBits_reverse (bits : List Bool) (j : Nat) :
    (ofBits bits.reverse).testBit j = bits[j]?.getD false := by
  induction bits generalizing j with
  | nil => exact Nat.zero_testBit j
  | cons b bits ih =>
    have hb := b.toNat_lt
    rw [List.reverse_cons, ofBits_concat]
    cases j with
    | zero =>
      rw [Nat.testBit_zero, Nat.mul_add_mod, Nat.mod_eq_of_lt hb]
      cases b <;> rfl
    | succ j =>
      rw [Nat.testBit_succ, Nat.mul_add_div (by decide), Nat.div_eq_of_lt hb, Nat.add_zero, ih]
      rfl

theorem testBit_ofBits (bits : List Bool) (j : Nat) :
    (ofBits bits).testBit j = bits.reverse[j]?.getD false := by
  have h := testBit_ofBits_reverse bits.reverse j
  rw [List.reverse_reverse] at h
  exact h

theorem ofBits_lt (bits : List Bool) : ofBits bits < 2 ^ bits.length := by
  apply Nat.lt_pow_two_of_testBit
  intro j hj
  rw [testBit_ofBits, List.getElem?_eq_none (by rw [List.length_reverse]; exact hj)]
  rfl

/-- A list of answers that are all there. -/
theorem map_eq_of_mapM {α β : Type} {f : α → Option β} {l : List α} {m : List β}
    (h : l.mapM f = some m) : l.map f = m.map some := by
  induction l generalizing m with
  | nil =>
    cases h
    rfl
  | cons a l ih =>
    rw [List.mapM_cons] at h
    cases ha : f a with
    | none =>
      rw [ha] at h
      cases h
    | some v =>
      cases hl : l.mapM f with
      | none =>
        rw [ha, hl] at h
        cases h
      | some rest =>
        rw [ha, hl] at h
        cases h
        rw [List.map_cons, List.map_cons, ih hl, ha]

theorem Template.length_offsets? {t : Template} {adaptive : List AdaptivePixel}
    {offsets : List Offset} (h : t.offsets? adaptive = some offsets) :
    offsets.length = t.contextBits := by
  have hlength := congrArg List.length (map_eq_of_mapM h)
  rw [List.length_map, List.length_map, t.length_places] at hlength
  exact hlength.symm

theorem Template.exists_offsets?_of_le {t : Template} {adaptive : List AdaptivePixel}
    (h : t.adaptiveCount ≤ adaptive.length) : ∃ offsets, t.offsets? adaptive = some offsets := by
  have hsome := t.isSome_offsets? adaptive
  rw [decide_eq_true h] at hsome
  exact Option.isSome_iff_exists.1 hsome

theorem Template.exists_offsets? {t : Template} {adaptive : List AdaptivePixel}
    (h : adaptive.length = t.adaptiveCount) : ∃ offsets, t.offsets? adaptive = some offsets :=
  exists_offsets?_of_le (Nat.le_of_eq h.symm)

/-- A sum that stops at an end of the 32-bit range names no pixel, and neither does the true sum. -/
theorem get_saturatingAdd {b : Bitmap} (hw : b.width ≤ 2147483647) (hh : b.height ≤ 2147483647)
    (x y dx dy : Int) :
    b.get (saturatingAdd x dx) (saturatingAdd y dy) = b.get (x + dx) (y + dy) := by
  by_cases h : -2147483648 ≤ x + dx ∧ x + dx ≤ 2147483647 ∧
      -2147483648 ≤ y + dy ∧ y + dy ≤ 2147483647
  · have hx : saturatingAdd x dx = x + dx := by
      unfold saturatingAdd
      omega
    have hy : saturatingAdd y dy = y + dy := by
      unfold saturatingAdd
      omega
    rw [hx, hy]
  · rw [Bitmap.get_outside (x := x + dx) (by omega),
      Bitmap.get_outside (by unfold saturatingAdd; omega)]

/-- Numbers of 31 bits are the same signed and unsigned. -/
theorem signed32_eq {n : Nat} (h : n < 2147483648) : signed32 n = n := if_pos h

theorem testBit_contextNumber {b : Bitmap} (hw : b.width ≤ 2147483647)
    (hh : b.height ≤ 2147483647) (offsets : List Offset) (x y : Int) (j : Nat) :
    (contextNumber b offsets x y).testBit j =
      (offsets.reverse[j]?.map fun o => b.get (x + o.dx) (y + o.dy)).getD false := by
  unfold contextNumber
  rw [testBit_ofBits, ← List.map_reverse, List.getElem?_map]
  simp only [get_saturatingAdd hw hh]

theorem Template.contextCount_eq (t : Template) : t.contextCount = 2 ^ t.contextBits :=
  Nat.one_shiftLeft t.contextBits

theorem contextNumber_lt {b : Bitmap} {t : Template} {adaptive : List AdaptivePixel}
    {offsets : List Offset} (h : t.offsets? adaptive = some offsets) (x y : Int) :
    contextNumber b offsets x y < t.contextCount := by
  unfold contextNumber
  have hlt := ofBits_lt (offsets.map fun o => b.get (saturatingAdd x o.dx) (saturatingAdd y o.dy))
  rw [List.length_map, Template.length_offsets? h, ← t.contextCount_eq] at hlt
  exact hlt

theorem testBit_contextNumber_of_le {b : Bitmap} {t : Template} {adaptive : List AdaptivePixel}
    {offsets : List Offset} (h : t.offsets? adaptive = some offsets) (x y : Int) {j : Nat}
    (hj : t.contextBits ≤ j) : (contextNumber b offsets x y).testBit j = false := by
  have hn := contextNumber_lt (b := b) h x y
  have hp : 2 ^ t.contextBits ≤ 2 ^ j := Nat.pow_le_pow_right (by decide) hj
  rw [t.contextCount_eq] at hn
  exact Nat.testBit_lt_two_pow (by omega)

/-! ## Nominal places -/

/-- How the bits of a context number are shared out among the rows when the adaptive pixels have
their nominal places.  The bits below `lower` are pixels of the row itself, those from `lower` up
come from the row above and those from `upper` up from the row two above.  The lowest pixel of
either row is so many columns ahead of the pixel to be decoded. -/
structure Stretches where
  lower : Nat
  lowerAhead : Nat
  upper : Nat
  upperAhead : Nat

namespace Template

def stretches : Template → Stretches
  | .t0 => ⟨4, 3, 11, 2⟩
  | .t1 => ⟨3, 3, 9, 2⟩
  | .t2 => ⟨2, 2, 7, 1⟩
  | .t3 => ⟨4, 2, 10, 0⟩

/-- The place of the pixel that is bit `j` of the context number. -/
def nominalOffset (t : Template) (j : Nat) : Offset :=
  if j < t.stretches.lower then ⟨-1 - j, 0⟩
  else if j < t.stretches.upper then ⟨t.stretches.lowerAhead + t.stretches.lower - j, -1⟩
  else ⟨t.stretches.upperAhead + t.stretches.upper - j, -2⟩

theorem nominalOffset_row {t : Template} {j : Nat} (h : j < t.stretches.lower) :
    t.nominalOffset j = ⟨-1 - j, 0⟩ := if_pos h

theorem nominalOffset_lower {t : Template} {j : Nat} (hl : t.stretches.lower ≤ j)
    (hu : j < t.stretches.upper) :
    t.nominalOffset j = ⟨t.stretches.lowerAhead + t.stretches.lower - j, -1⟩ := by
  unfold nominalOffset
  rw [if_neg (by omega), if_pos hu]

theorem nominalOffset_upper {t : Template} {j : Nat} (hl : t.stretches.lower ≤ j)
    (hu : t.stretches.upper ≤ j) :
    t.nominalOffset j = ⟨t.stretches.upperAhead + t.stretches.upper - j, -2⟩ := by
  unfold nominalOffset
  rw [if_neg (by omega), if_neg (by omega)]

theorem nominalOffset_dy_le (t : Template) (j : Nat) : (t.nominalOffset j).dy ≤ 0 := by
  unfold nominalOffset
  split
  · exact Int.le_refl 0
  · split
    · exact (by decide : (-1 : Int) ≤ 0)
    · exact (by decide : (-2 : Int) ≤ 0)

/-- Only the lowest bit is the pixel just before. -/
theorem nominalOffset_ne {t : Template} {j : Nat} (hj : j ≠ 0) :
    ¬((t.nominalOffset j).dy = 0 ∧ (t.nominalOffset j).dx = -1) := by
  rintro ⟨hdy, hdx⟩
  unfold nominalOffset at hdy hdx
  split at hdx
  · simp only at hdx
    omega
  · rename_i hrow
    rw [if_neg hrow] at hdy
    split at hdy
    · exact absurd (show (-1 : Int) = 0 from hdy) (by decide)
    · exact absurd (show (-2 : Int) = 0 from hdy) (by decide)

/-- Within a stretch the next higher bit is the pixel one further to the left. -/
theorem nominalOffset_pred {t : Template} {j : Nat} (h0 : j ≠ 0) (hl : j ≠ t.stretches.lower)
    (hu : j ≠ t.stretches.upper) :
    t.nominalOffset (j - 1) = ⟨(t.nominalOffset j).dx + 1, (t.nominalOffset j).dy⟩ := by
  by_cases h1 : j < t.stretches.lower
  · rw [nominalOffset_row h1, nominalOffset_row (by omega)]
    simp only [Offset.mk.injEq, and_true]
    omega
  · by_cases h2 : j < t.stretches.upper
    · rw [nominalOffset_lower (by omega) h2, nominalOffset_lower (by omega) (by omega)]
      simp only [Offset.mk.injEq, and_true]
      omega
    · rw [nominalOffset_upper (by omega) (by omega), nominalOffset_upper (by omega) (by omega)]
      simp only [Offset.mk.injEq, and_true]
      omega

theorem offsets?_nominal (t : Template) :
    t.offsets? t.nominalPixels = some ((List.range t.contextBits).map t.nominalOffset).reverse := by
  cases t <;> decide

end Template

theorem testBit_contextNumber_nominal {b : Bitmap} (hw : b.width ≤ 2147483647)
    (hh : b.height ≤ 2147483647) {t : Template} {offsets : List Offset}
    (h : t.offsets? t.nominalPixels = some offsets) (x y : Int) {j : Nat} (hj : j < t.contextBits) :
    (contextNumber b offsets x y).testBit j =
      b.get (x + (t.nominalOffset j).dx) (y + (t.nominalOffset j).dy) := by
  rw [t.offsets?_nominal] at h
  cases h
  rw [testBit_contextNumber hw hh, List.reverse_reverse, List.getElem?_map,
    List.getElem?_range hj]
  rfl

end Bilevel
