import Bilevel.Proofs.Bitmap.Pixels

/-!
# The format of a bitmap

Windows read the bytes of a bitmap as they are, so that no bit may ever be set behind the last pixel
of a row.

* `Bitmap.WellFormed` — a row takes as many bytes as its pixels need, all rows are stored or none,
  and the padding is zero.  `wellFormed_iff`: the bitmap is packed, or has no storage.
* `bit_trimPadding` — the bits after clearing the padding.
* `Packed.ofData`, `Packed.fill` — packed rows taken over or filled are packed.
* `WellFormed.set`, `WellFormed.copyRow`, `WellFormed.fill` — whatever is written, the format is
  kept.
-/

set_option autoImplicit false

namespace Bilevel.Bitmap

variable {b : Bitmap}

/-- The format of a bitmap: a row takes as many bytes as its pixels need, either all rows are stored
or none is, and behind the last pixel of a row there are zeros. -/
structure WellFormed (b : Bitmap) : Prop where
  width_le : b.width ≤ 8 * b.stride
  lt_width : 8 * b.stride < b.width + 8
  size : b.data = #[] ∨ b.data.size = b.stride * b.height
  padding : ∀ y x, b.width ≤ x → x < 8 * b.stride → b.bit x y = false

theorem lt_width_add_eight (b : Bitmap) : 8 * b.stride < b.width + 8 := by
  unfold stride bytesFor
  omega

theorem wellFormed_iff (b : Bitmap) : b.WellFormed ↔ b.data = #[] ∨ b.Packed := by
  constructor
  · intro h
    rcases h.size with hnone | hsize
    · exact .inl hnone
    · exact .inr ⟨hsize, fun x y => h.padding y x⟩
  · rintro (hnone | hpacked)
    · refine ⟨b.width_le, b.lt_width_add_eight, .inl hnone, fun y x _ _ => ?_⟩
      unfold bit
      rw [hnone]
      rfl
    · exact ⟨b.width_le, b.lt_width_add_eight, .inr hpacked.size,
        fun y x hw hx => hpacked.padding x y hw hx⟩

theorem Packed.wellFormed (hb : b.Packed) : b.WellFormed := (wellFormed_iff b).2 (.inr hb)

theorem wellFormed_withoutStorage (width height : Nat) : (withoutStorage width height).WellFormed :=
  (wellFormed_iff _).2 (.inl rfl)

/-- What keeps packed bitmaps packed and adds no storage keeps the format. -/
theorem WellFormed.congr {c : Bitmap} (hb : b.WellFormed) (hsize : c.data.size = b.data.size)
    (hpacked : b.Packed → c.Packed) : c.WellFormed := by
  rcases (wellFormed_iff b).1 hb with hnone | hb
  · refine (wellFormed_iff c).2 (.inl (Array.eq_empty_of_size_eq_zero ?_))
    rw [hsize, hnone]
    rfl
  · exact (hpacked hb).wellFormed

/-- The mask of a row's last byte has the bits of the pixels that are in it. -/
theorem testBit_lastByteMask {width : Nat} (hw : width % 8 ≠ 0) {i : Nat} (hi : i < 8) :
    (lastByteMask width).toNat.testBit i = decide (8 - width % 8 ≤ i) := by
  have hshift : ∀ k i : Fin 8, ((255 : UInt8) <<< UInt8.ofNat k).toNat.testBit i =
      decide (k.val ≤ i.val) := by decide
  exact hshift ⟨8 - width % 8, by omega⟩ ⟨i, hi⟩

/-- Clearing the padding keeps the pixels and nothing else. -/
theorem bit_trimPadding (b : Bitmap) {x y : Nat} (hx : x < 8 * b.stride) :
    b.trimPadding.bit x y = (decide (x < b.width) && b.bit x y) := by
  have hle := b.width_le
  have hlt := b.lt_width_add_eight
  by_cases hfull : b.width % 8 = 0
  · have hin : x < b.width := by omega
    unfold trimPadding
    rw [if_pos hfull, decide_eq_true hin, Bool.true_and]
  · have hcol : x / 8 < b.stride := column_lt hx
    have hmod : (y * b.stride + x / 8) % b.stride = x / 8 := position_mod hcol
    have hstride : b.trimPadding.stride = b.stride := congrArg bytesFor b.width_trimPadding
    unfold bit
    rw [hstride, trimPadding, if_neg hfull]
    simp only [Array.getElem?_mapIdx, hmod]
    cases hbyte : b.data[y * b.stride + x / 8]? with
    | none => rw [Option.map_none, Bool.and_false]
    | some byte =>
      simp only [Option.map_some]
      by_cases hlast : x / 8 + 1 = b.stride
      · have hplace : bitPlace x < 8 := by
          unfold bitPlace
          omega
        have hiff : 8 - b.width % 8 ≤ bitPlace x ↔ x < b.width := by
          unfold bitPlace
          omega
        rw [if_pos hlast, UInt8.toNat_and, Nat.testBit_and, testBit_lastByteMask hfull hplace,
          Bool.and_comm, decide_eq_decide.2 hiff]
      · rw [if_neg hlast, decide_eq_true (by omega), Bool.true_and]

/-- Where all rows are stored, clearing the padding makes a bitmap packed. -/
theorem packed_trimPadding (hsize : b.data.size = b.stride * b.height) : b.trimPadding.Packed := by
  have hstride : b.trimPadding.stride = b.stride := congrArg bytesFor b.width_trimPadding
  refine ⟨?_, fun x y hw hx => ?_⟩
  · rw [size_trimPadding, hsize, hstride, height_trimPadding]
  · rw [width_trimPadding] at hw
    rw [hstride] at hx
    rw [bit_trimPadding b hx, decide_eq_false (by omega), Bool.false_and]

theorem Packed.ofData {width height : Nat} {data : Array UInt8}
    (h : Bitmap.ofData width height data = .ok b) : b.Packed := by
  unfold Bitmap.ofData at h
  split at h
  · split at h
    · rename_i hsize
      cases h
      exact packed_trimPadding hsize
    · cases h
  · cases h

theorem Packed.fill (hb : b.Packed) (value : Bool) : (b.fill value).Packed := by
  have hsize : ∀ byte : UInt8, (Array.replicate b.data.size byte).size = b.stride * b.height :=
    fun byte => Array.size_replicate.trans hb.size
  cases value with
  | true => exact packed_trimPadding (hsize 255)
  | false => exact ⟨hsize 0, fun x y _ _ => bit_zeros _ _ _ x y⟩

theorem WellFormed.set (hb : b.WellFormed) (x y : Nat) (value : Bool) :
    (b.set x y value).WellFormed :=
  hb.congr (size_set _ _ _ _) fun h => h.set x y value

theorem WellFormed.copyRow (hb : b.WellFormed) (target : Nat) (source : Int) :
    (b.copyRow target source).WellFormed :=
  hb.congr (size_copyRow _ _ _) fun h => h.copyRow target source

theorem WellFormed.fill (hb : b.WellFormed) (value : Bool) : (b.fill value).WellFormed :=
  hb.congr (size_fill _ _) fun h => h.fill value

end Bilevel.Bitmap
