import Bilevel.Proofs.Template.ContextNumber

/-!
# Windows follow the context number

A window is right at a pixel if its context number is the one read pixel by pixel and its two words
hold the pixels that are about to enter it.

* `testBit_start`, `testBit_next` — the context number of a window bit by bit, in terms of the
  stretches of the template instead of masks.
* `Covers`, `Window.Tracks` — a word, or both words of a window, hold the pixels of a row up to some
  column.
* `Tracks.start`, `Tracks.refill`, `Tracks.next` — how far the words reach after each step.
* `context_start`, `context_next` — the context number is right at the first pixel, and stays right
  from one pixel to the next.
-/

set_option autoImplicit false

namespace Bilevel

/-! ## The masks of a layout -/

namespace Template

/-- A mask of 16 bits is told by those bits. -/
theorem testBit_mask {mask : Nat} {v : Nat → Bool} (hmask : mask < 2 ^ 16)
    (hv : ∀ j, 16 ≤ j → v j = false) (hbits : ∀ j < 16, mask.testBit j = v j) (j : Nat) :
    mask.testBit j = v j := by
  by_cases hj : j < 16
  · exact hbits j hj
  · have hpow : 2 ^ 16 ≤ 2 ^ j := Nat.pow_le_pow_right (by decide) (by omega)
    rw [Nat.testBit_lt_two_pow (by omega), hv j (by omega)]

theorem contextBits_le (t : Template) : t.contextBits ≤ 16 := by
  cases t <;> decide

theorem testBit_keep (t : Template) (j : Nat) :
    t.layout.keep.testBit j =
      decide (j + 1 < t.contextBits ∧ j + 1 ≠ t.stretches.lower ∧ j + 1 ≠ t.stretches.upper) := by
  have hbits := t.contextBits_le
  revert j
  refine testBit_mask ?_ (fun j hj => decide_eq_false (by omega)) ?_
  · cases t <;> decide
  · cases t <;> decide

theorem lowerEntry_eq (t : Template) : t.layout.lowerEntry = 2 ^ t.stretches.lower := by
  cases t <;> rfl

theorem testBit_upperEntry (t : Template) (j : Nat) :
    t.layout.upperEntry.testBit j = decide (t.stretches.upper = j ∧ j < t.contextBits) := by
  have hbits := t.contextBits_le
  revert j
  refine testBit_mask ?_ (fun j hj => decide_eq_false (by omega)) ?_
  · cases t <;> decide
  · cases t <;> decide

theorem testBit_lowerStretch (t : Template) (j : Nat) :
    t.layout.lowerStretch.testBit j = decide (t.stretches.lower ≤ j ∧ j < t.stretches.upper) := by
  have hupper : t.stretches.upper ≤ 16 := by cases t <;> decide
  revert j
  refine testBit_mask ?_ (fun j hj => decide_eq_false (by omega)) ?_
  · cases t <;> decide
  · cases t <;> decide

theorem testBit_upperStretch (t : Template) (j : Nat) :
    t.layout.upperStretch.testBit j = decide (t.stretches.upper ≤ j ∧ j < t.contextBits) := by
  have hbits := t.contextBits_le
  revert j
  refine testBit_mask ?_ (fun j hj => decide_eq_false (by omega)) ?_
  · cases t <;> decide
  · cases t <;> decide

theorem stretches_ordered (t : Template) :
    0 < t.stretches.lower ∧ t.stretches.lower < t.stretches.upper ∧
      t.stretches.upper ≤ t.contextBits := by
  cases t <;> decide

/-- The row above is lined up so that bit 7 of its window enters seven pixels before its column. -/
theorem lower_aligned (t : Template) :
    t.stretches.lower + t.layout.lowerShift + t.stretches.lowerAhead = 7 := by
  cases t <;> rfl

theorem upper_aligned (t : Template) (h : t.stretches.upper < t.contextBits) :
    t.stretches.upper + t.stretches.upperAhead = t.layout.upperShift + 7 ∧
      t.layout.upperShift ≤ t.stretches.upper := by
  cases t <;> simp_all [stretches, contextBits, layout]

theorem upperShift_le (t : Template) : t.layout.upperShift ≤ 8 := by
  cases t <;> decide

end Template

namespace Window

/-! ## The context number of a window -/

theorem testBit_start (t : Template) (upper lower : UInt8) (j : Nat) :
    (start t.layout upper lower).context.testBit j =
      if j < t.stretches.lower then false
      else if j < t.stretches.upper then lower.toNat.testBit (t.layout.lowerShift + j)
      else decide (j < t.contextBits) && (upper.toNat <<< t.layout.upperShift).testBit j := by
  obtain ⟨-, hlu, -⟩ := t.stretches_ordered
  unfold start
  simp only [Nat.testBit_or, Nat.testBit_and, Nat.testBit_shiftRight, t.testBit_lowerStretch,
    t.testBit_upperStretch]
  by_cases h1 : j < t.stretches.lower
  · rw [if_pos h1, decide_eq_false (by omega), decide_eq_false (by omega)]
    simp
  · rw [if_neg h1]
    by_cases h2 : j < t.stretches.upper
    · rw [if_pos h2, decide_eq_false (by omega), decide_eq_true (by omega)]
      simp
    · rw [if_neg h2,
        decide_eq_false (p := t.stretches.lower ≤ j ∧ j < t.stretches.upper) (by omega)]
      by_cases h3 : j < t.contextBits
      · rw [decide_eq_true (by omega), decide_eq_true h3]
        simp
      · rw [decide_eq_false (by omega), decide_eq_false h3]
        simp

theorem testBit_next (t : Template) (w : Window) (pixel : Bool) (place j : Nat) :
    (w.next t.layout pixel place).context.testBit j =
      if j = 0 then pixel
      else if j = t.stretches.lower then w.lower.testBit (place + t.layout.lowerShift + j)
      else if j = t.stretches.upper then decide (j < t.contextBits) && w.upper.testBit (place + j)
      else decide (j < t.contextBits) && w.context.testBit (j - 1) := by
  obtain ⟨hl, hlu, hub⟩ := t.stretches_ordered
  unfold next
  simp only [Nat.testBit_or, Nat.testBit_and, Nat.testBit_shiftLeft, Nat.testBit_shiftRight,
    Nat.testBit_bool_toNat, t.testBit_keep, t.testBit_upperEntry, t.lowerEntry_eq,
    Nat.testBit_two_pow]
  cases j with
  | zero =>
    rw [if_pos rfl, decide_eq_false (p := t.stretches.lower = 0) (by omega),
      decide_eq_false (p := t.stretches.upper = 0 ∧ 0 < t.contextBits) (by omega)]
    simp
  | succ j =>
    rw [if_neg (by omega), Nat.add_sub_cancel]
    by_cases h1 : j + 1 = t.stretches.lower
    · rw [if_pos h1, decide_eq_true (p := t.stretches.lower = j + 1) h1.symm,
        decide_eq_false (p := t.stretches.upper = j + 1 ∧ j + 1 < t.contextBits) (by omega),
        decide_eq_false (p := j + 1 < t.contextBits ∧ j + 1 ≠ t.stretches.lower ∧
          j + 1 ≠ t.stretches.upper) (by omega)]
      simp
    · rw [if_neg h1, decide_eq_false (p := t.stretches.lower = j + 1) (Ne.symm h1)]
      by_cases h2 : j + 1 = t.stretches.upper
      · rw [if_pos h2, decide_eq_false (p := j + 1 < t.contextBits ∧ j + 1 ≠ t.stretches.lower ∧
          j + 1 ≠ t.stretches.upper) (by omega), decide_eq_false (p := j + 1 = 0) (by omega)]
        simp [h2, Bool.and_comm]
      · rw [if_neg h2, decide_eq_false (p := t.stretches.upper = j + 1 ∧ j + 1 < t.contextBits)
          (by omega)]
        simp [h1, h2, Bool.and_comm]

/-! ## What the words hold -/

end Window

/-- From bit `shift` up, the word holds `n` pixels of a row, the lowest bit being the one in column
`last`; the bits below are zero. -/
structure Covers (word shift n : Nat) (pixel : Int → Bool) (last : Int) : Prop where
  held : ∀ m < n, word.testBit (shift + m) = pixel (last - m)
  clear : ∀ m < shift, word.testBit m = false

/-- A byte holds the eight pixels up to column `last`. -/
def ByteCovers (byte : UInt8) (pixel : Int → Bool) (last : Int) : Prop :=
  ∀ m < 8, byte.toNat.testBit m = pixel (last - m)

theorem ByteCovers.testBit {byte : UInt8} {pixel : Int → Bool} {last : Int}
    (h : ByteCovers byte pixel last) (m : Nat) :
    byte.toNat.testBit m = if m < 8 then pixel (last - m) else false := by
  split
  · rename_i hm
    exact h m hm
  · have hp : 2 ^ 8 ≤ 2 ^ m := Nat.pow_le_pow_right (by decide) (by omega)
    have := byte.toNat_lt
    exact Nat.testBit_lt_two_pow (by omega)

namespace Covers

variable {word shift n : Nat} {pixel : Int → Bool} {last : Int} {byte : UInt8}

theorem ofByte (h : ByteCovers byte pixel last) (shift : Nat) :
    Covers (byte.toNat <<< shift) shift 8 pixel last := by
  refine ⟨fun m hm => ?_, fun m hm => ?_⟩
  · rw [Nat.testBit_shiftLeft, decide_eq_true (by omega), Nat.add_sub_cancel_left, h m hm]
    rfl
  · rw [Nat.testBit_shiftLeft, decide_eq_false (by omega), Bool.false_and]

theorem takeIn (hw : Covers word shift 8 pixel last) (h : ByteCovers byte pixel (last + 8))
    (hs : shift ≤ 8) :
    Covers (Window.takeIn word (byte.toNat <<< shift)) shift 16 pixel (last + 8) := by
  have hbyte := ofByte h shift
  have h32 : (4294967296 : Nat) = 2 ^ 32 := rfl
  unfold Window.takeIn
  refine ⟨fun m hm => ?_, fun m hm => ?_⟩
  · rw [Nat.testBit_or, h32, Nat.testBit_mod_two_pow, Nat.testBit_shiftLeft,
      decide_eq_true (by omega), Bool.true_and]
    by_cases hm8 : m < 8
    · -- a bit of the new byte: below it the old word is clear
      rw [hbyte.held m hm8]
      by_cases h8 : 8 ≤ shift + m
      · rw [hw.clear (shift + m - 8) (by omega)]
        simp
      · rw [decide_eq_false (by omega)]
        simp
    · rw [show shift + m - 8 = shift + (m - 8) by omega, hw.held (m - 8) (by omega),
        decide_eq_true (by omega), Bool.true_and, Nat.testBit_shiftLeft, h.testBit,
        if_neg (by omega), Bool.and_false, Bool.or_false]
      congr 1
      omega
  · rw [Nat.testBit_or, hbyte.clear m hm, h32, Nat.testBit_mod_two_pow, Nat.testBit_shiftLeft,
      decide_eq_false (p := m ≥ 8) (by omega)]
    simp

theorem mono (h : Covers word shift n pixel last) {k : Nat} (hk : k ≤ n) :
    Covers word shift k pixel last :=
  ⟨fun m hm => h.held m (by omega), h.clear⟩

end Covers

namespace Window

/-- Both words of the window hold the last `n` pixels up to column `last` of the two rows above row
`y`. -/
structure Tracks (t : Template) (b : Bitmap) (y : Int) (n : Nat) (last : Int) (w : Window) :
    Prop where
  upper : Covers w.upper t.layout.upperShift n (fun x => b.get x (y - 2)) last
  lower : Covers w.lower 0 n (fun x => b.get x (y - 1)) last

variable {t : Template} {b : Bitmap} {y last : Int} {n : Nat} {w : Window} {u l : UInt8}

theorem Tracks.start (hu : ByteCovers u (fun x => b.get x (y - 2)) last)
    (hl : ByteCovers l (fun x => b.get x (y - 1)) last) :
    Tracks t b y 8 last (Window.start t.layout u l) :=
  ⟨Covers.ofByte hu _, Covers.ofByte hl 0⟩

theorem Tracks.refill (hw : Tracks t b y 8 last w)
    (hu : ByteCovers u (fun x => b.get x (y - 2)) (last + 8))
    (hl : ByteCovers l (fun x => b.get x (y - 1)) (last + 8)) :
    Tracks t b y 16 (last + 8) (w.refill t.layout u l) :=
  ⟨hw.upper.takeIn hu t.upperShift_le, hw.lower.takeIn hl (by decide)⟩

theorem Tracks.next (hw : Tracks t b y n last w) (pixel : Bool) (place : Nat) :
    Tracks t b y n last (w.next t.layout pixel place) :=
  ⟨hw.upper, hw.lower⟩

theorem Tracks.mono (hw : Tracks t b y n last w) {k : Nat} (hk : k ≤ n) : Tracks t b y k last w :=
  ⟨hw.upper.mono hk, hw.lower.mono hk⟩

/-- Only the two rows above count. -/
theorem Tracks.congr (hw : Tracks t b y n last w) {b' : Bitmap}
    (hb : ∀ x y', y' < y → b'.get x y' = b.get x y') : Tracks t b' y n last w := by
  refine ⟨⟨fun m hm => ?_, hw.upper.clear⟩, ⟨fun m hm => ?_, hw.lower.clear⟩⟩
  · rw [hw.upper.held m hm]
    exact (hb _ _ (by omega)).symm
  · rw [hw.lower.held m hm]
    exact (hb _ _ (by omega)).symm

/-! ## The context number is right -/

variable {offsets : List Offset}

theorem context_start (hwidth : b.width ≤ 2147483647) (hheight : b.height ≤ 2147483647)
    (ho : t.offsets? t.nominalPixels = some offsets)
    (hu : ByteCovers u (fun x => b.get x (y - 2)) 7)
    (hl : ByteCovers l (fun x => b.get x (y - 1)) 7) :
    (Window.start t.layout u l).context = contextNumber b offsets 0 y := by
  obtain ⟨h0, hlu, hub⟩ := t.stretches_ordered
  have hal := t.lower_aligned
  apply Nat.eq_of_testBit_eq
  intro j
  rw [testBit_start]
  by_cases hj : j < t.contextBits
  · rw [testBit_contextNumber_nominal hwidth hheight ho 0 y hj]
    by_cases h1 : j < t.stretches.lower
    · -- to the left of the first pixel
      rw [if_pos h1, Template.nominalOffset_row h1, Bitmap.get_outside (.inl (by simp only; omega))]
    · rw [if_neg h1]
      by_cases h2 : j < t.stretches.upper
      · rw [if_pos h2, Template.nominalOffset_lower (by omega) h2, hl.testBit]
        split
        · simp only
          congr 1
          omega
        · rw [Bitmap.get_outside (.inl (by simp only; omega))]
      · obtain ⟨hau, hsu⟩ := t.upper_aligned (by omega)
        rw [if_neg h2, Template.nominalOffset_upper (by omega) (by omega), decide_eq_true hj,
          Bool.true_and, Nat.testBit_shiftLeft, decide_eq_true (by omega), Bool.true_and,
          hu.testBit]
        split
        · simp only
          congr 1
          omega
        · rw [Bitmap.get_outside (.inl (by simp only; omega))]
  · rw [testBit_contextNumber_of_le ho 0 y (by omega), if_neg (by omega), if_neg (by omega),
      decide_eq_false hj, Bool.false_and]

/-- From a pixel to the next: the pixel itself enters at the bottom, and the words hold the pixels
that enter the stretches of the rows above. -/
theorem context_next (hwidth : b.width ≤ 2147483647) (hheight : b.height ≤ 2147483647)
    (ho : t.offsets? t.nominalPixels = some offsets) {x : Int} {place : Nat} (hplace : place < 8)
    (hw : Tracks t b y 16 (x + place + 8) w) (hctx : w.context = contextNumber b offsets x y)
    {b' : Bitmap} {pixel : Bool} (hwidth' : b'.width = b.width) (hheight' : b'.height = b.height)
    (hb' : ∀ x' y', y' ≤ y → b'.get x' y' = if y' = y ∧ x' = x then pixel else b.get x' y') :
    (w.next t.layout pixel place).context = contextNumber b' offsets (x + 1) y := by
  obtain ⟨hl, hlu, hub⟩ := t.stretches_ordered
  have hal := t.lower_aligned
  apply Nat.eq_of_testBit_eq
  intro j
  rw [testBit_next]
  by_cases hj : j < t.contextBits
  · have hdy := t.nominalOffset_dy_le j
    rw [testBit_contextNumber_nominal (by omega) (by omega) ho (x + 1) y hj, hb' _ _ (by omega),
      decide_eq_true hj, Bool.true_and, Bool.true_and]
    by_cases h0 : j = 0
    · subst h0
      rw [if_pos rfl, Template.nominalOffset_row hl, if_pos (by simp only; omega)]
    · have hne := Template.nominalOffset_ne (t := t) h0
      rw [if_neg h0, if_neg (c := _ ∧ _) (fun h => hne ⟨by omega, by omega⟩)]
      by_cases hjl : j = t.stretches.lower
      · have hheld := hw.lower.held (place + t.layout.lowerShift + j) (by omega)
        rw [Nat.zero_add] at hheld
        rw [if_pos hjl, hheld, Template.nominalOffset_lower (by omega) (by omega)]
        simp only
        congr 1
        omega
      · rw [if_neg hjl]
        by_cases hju : j = t.stretches.upper
        · obtain ⟨hau, hsu⟩ := t.upper_aligned (by omega)
          have hheld := hw.upper.held (place + j - t.layout.upperShift) (by omega)
          rw [show t.layout.upperShift + (place + j - t.layout.upperShift) = place + j by omega]
            at hheld
          rw [if_pos hju, hheld, Template.nominalOffset_upper (by omega) (by omega)]
          simp only
          congr 1
          omega
        · -- within its stretch the bit moves up
          rw [if_neg hju, hctx, testBit_contextNumber_nominal hwidth hheight ho x y (by omega),
            Template.nominalOffset_pred h0 hjl hju]
          simp only
          congr 1
          omega
  · rw [testBit_contextNumber_of_le ho (x + 1) y (by omega), if_neg (by omega), if_neg (by omega),
      decide_eq_false hj, Bool.false_and, Bool.false_and]
    split <;> rfl

end Window

end Bilevel
