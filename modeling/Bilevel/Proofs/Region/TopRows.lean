import Bilevel.Proofs.Region.Rows

/-!
# The first rows of a region

Decoding goes from the top down, and what lies below the row that is being decoded is white, be it
inside the bitmap or outside.  So the first rows of a region do not depend on how many follow.

* `Region.top` — the first rows of a region, as a region of their own.
* `Canvas.Alike` — a canvas of a region and one of its first rows that show the same pixels.
* `decodeRow_rel`, `decodeRows_rel` — from such canvases the same questions lead to such canvases.
* `decode_top` — if a number of rows of a region is decoded, then so is the region of just these
  rows, whatever the strategy, and their bytes are the same.
-/

set_option autoImplicit false

namespace Bilevel

/-- The first rows of a region, as a region of their own. -/
def Region.top (r : Region) (rows : Nat) : Region := { r with height := rows }

/-! ## Canvases with the same pixels -/

namespace Canvas

variable {r : Region} {rows x : Nat} {c e : Canvas}

/-- A canvas of a region and one of its first rows, with the same pixels. -/
structure Alike (r : Region) (rows x : Nat) (c e : Canvas) : Prop where
  fits : c.Fits r x
  fits_top : e.Fits (r.top rows) x
  row : e.row = c.row
  typical : e.typical = c.typical
  get : ∀ x y, e.bitmap.get x y = c.bitmap.get x y

theorem Alike.start {b t : Bitmap} (hb : Bitmap.blank r.width r.height = .ok b)
    (ht : Bitmap.blank (r.top rows).width (r.top rows).height = .ok t) (typical : Bool) :
    Alike r rows 0 ⟨b, 0, typical⟩ ⟨t, 0, typical⟩ := by
  refine ⟨.start hb typical, .start ht typical, rfl, rfl, fun x y => ?_⟩
  rw [Bitmap.get_eq_bit, Bitmap.get_eq_bit, Bitmap.bit_blank ht, Bitmap.bit_blank hb,
    Bool.and_false, Bool.and_false]

theorem Alike.withTypical (h : Alike r rows x c e) (typical : Bool) :
    Alike r rows x { c with typical := typical } { e with typical := typical } :=
  ⟨h.fits.withTypical typical, h.fits_top.withTypical typical, h.row, rfl, h.get⟩

theorem Alike.put (h : Alike r rows x c e) (hrows : rows ≤ r.height) (hx : x < r.width)
    (hrow : c.row < rows) (value : Bool) :
    Alike r rows (x + 1) (c.put x value) (e.put x value) := by
  have hrow' : c.row < r.height := by omega
  have hrow_top : e.row < (r.top rows).height := h.row ▸ hrow
  refine ⟨h.fits.put hx hrow' value, h.fits_top.put hx hrow_top value, h.row, h.typical,
    fun x' y' => ?_⟩
  rw [h.fits.get_put hx hrow', h.fits_top.get_put (r := r.top rows) hx hrow_top, h.row, h.get]

theorem Alike.repeatRow (h : Alike r rows x c e) (hrows : rows ≤ r.height) (hrow : c.row < rows) :
    Alike r rows r.width c.repeatRow e.repeatRow := by
  have hrow' : c.row < r.height := by omega
  have hrow_top : e.row < (r.top rows).height := h.row ▸ hrow
  refine ⟨h.fits.repeatRow hrow', h.fits_top.repeatRow hrow_top, h.row, h.typical,
    fun x' y' => ?_⟩
  unfold Canvas.repeatRow
  rw [Bitmap.get_copyRow h.fits.packed (h.fits.height ▸ hrow'),
    Bitmap.get_copyRow h.fits_top.packed (h.fits_top.height ▸ hrow_top), h.row, h.get, h.get]

theorem Alike.nextRow (h : Alike r rows x c e) : Alike r rows 0 c.nextRow e.nextRow :=
  ⟨h.fits.nextRow, h.fits_top.nextRow, congrArg Nat.succ h.row, h.typical, h.get⟩

theorem Alike.row?_eq (h : Alike r rows x c e) (hpos : 0 < r.width) (hrows : rows ≤ r.height)
    {y : Nat} (hy : y < rows) : e.bitmap.row? y = c.bitmap.row? y := by
  have hwidth : e.bitmap.width = c.bitmap.width := h.fits_top.width.trans h.fits.width.symm
  have hy_top : y < e.bitmap.height := h.fits_top.height ▸ hy
  have hy' : y < c.bitmap.height := by
    rw [h.fits.height]
    omega
  refine h.fits_top.packed.row?_congr h.fits.packed hwidth (h.fits_top.width ▸ hpos) hy_top hy'
    fun x hx => ?_
  have hget := h.get x y
  rw [Bitmap.get_eq_bit, Bitmap.get_eq_bit, decide_eq_true (by omega), decide_eq_true (by omega),
    Bool.true_and, Bool.true_and] at hget
  exact hget

end Canvas

namespace Region

open Canvas

variable {r : Region} {rows : Nat} {c e : Canvas}

theorem pixelsFrom_rel (r : Region) (hrows : rows ≤ r.height) (offsets : Option (List Offset))
    {left x : Nat} (h : Alike r rows x c e) (hx : x + left = r.width) (hrow : c.row < rows) :
    (r.pixelsFrom offsets left x c).Rel (fun c' e' => Alike r rows r.width c' e' ∧ c'.row = c.row)
      ((r.top rows).pixelsFrom offsets left x e) := by
  induction left generalizing x c e with
  | zero =>
    subst hx
    exact ⟨h, rfl⟩
  | succ left ih =>
    have hstep : ∀ value, (r.pixelsFrom offsets left (x + 1) (c.put x value)).Rel
        (fun c' e' => Alike r rows r.width c' e' ∧ c'.row = c.row)
        ((r.top rows).pixelsFrom offsets left (x + 1) (e.put x value)) :=
      fun value => ih (h.put hrows (by omega) hrow value) (by omega) hrow
    have hskips : (r.top rows).skips x e.row = r.skips x c.row := by
      rw [h.row]
      rfl
    cases offsets with
    | none =>
      rw [pixelsFrom, pixelsFrom, hskips]
      split
      · exact hstep false
      · rfl
    | some places =>
      have hnumber : contextNumber c.bitmap places x c.row =
          contextNumber e.bitmap places x e.row := by
        unfold contextNumber
        simp only [h.get, h.row]
      rw [pixelsFrom, pixelsFrom, hskips]
      split
      · exact hstep false
      · exact ⟨hnumber, hstep⟩

theorem fillRow_rel (hrows : rows ≤ r.height) (h : Alike r rows 0 c e) (hrow : c.row < rows) :
    (r.fillRow .pixels c).Rel (fun c' e' => Alike r rows r.width c' e' ∧ c'.row = c.row)
      ((r.top rows).fillRow .pixels e) := by
  unfold fillRow
  rw [h.typical]
  split
  · rw [if_pos (h.fits.packed.storesCopy _ _), if_pos (h.fits_top.packed.storesCopy _ _)]
    exact ⟨h.repeatRow hrows hrow, rfl⟩
  · unfold pixelRow
    rw [h.fits.width, h.fits_top.width]
    exact r.pixelsFrom_rel hrows _ h (Nat.zero_add _) hrow

theorem typicalBit_rel (h : Alike r rows 0 c e) :
    (r.typicalBit c).Rel (fun c' e' => Alike r rows 0 c' e' ∧ c'.row = c.row)
      ((r.top rows).typicalBit e) := by
  have hflag : (r.top rows).typicalPrediction = r.typicalPrediction := rfl
  unfold typicalBit
  rw [hflag, h.typical]
  split
  · exact ⟨rfl, fun bit => ⟨h.withTypical _, rfl⟩⟩
  · exact ⟨h, rfl⟩

/-- A row is decoded in the same way whatever the height. -/
theorem decodeRow_rel (hrows : rows ≤ r.height) (h : Alike r rows 0 c e) (hrow : c.row < rows) :
    (r.decodeRow .pixels c).Rel (fun c' e' => Alike r rows 0 c' e' ∧ c'.row = c.row + 1)
      ((r.top rows).decodeRow .pixels e) := by
  refine (typicalBit_rel h).bind fun c₁ e₁ h₁ => ?_
  obtain ⟨h₁, hrow₁⟩ := h₁
  refine (fillRow_rel hrows h₁ (hrow₁ ▸ hrow)).bind fun c₂ e₂ h₂ => ?_
  obtain ⟨h₂, hrow₂⟩ := h₂
  exact ⟨h₂.nextRow, congrArg Nat.succ (hrow₂.trans hrow₁)⟩

theorem decodeRows_rel (hrows : rows ≤ r.height) {count : Nat} (h : Alike r rows 0 c e)
    (hcount : c.row + count ≤ rows) :
    (r.decodeRows .pixels count c).Rel (Alike r rows 0)
      ((r.top rows).decodeRows .pixels count e) := by
  induction count generalizing c e with
  | zero => exact h
  | succ count ih =>
    refine (decodeRow_rel hrows h (by omega)).bind fun c' e' h' => ?_
    obtain ⟨h', hrow'⟩ := h'
    exact ih h' (by omega)

variable {σ : Type} [BitSource σ]

theorem validSize_top (hsize : Bitmap.ValidSize r.width r.height) (hpos : 0 < rows)
    (hrows : rows ≤ r.height) : Bitmap.ValidSize (r.top rows).width (r.top rows).height := by
  obtain ⟨hw, -, hwmax, hhmax, harea⟩ := hsize
  have hmul : r.width * rows ≤ r.width * r.height := Nat.mul_le_mul_left r.width hrows
  exact ⟨hw, hpos, hwmax, Nat.le_trans hrows hhmax, Nat.le_trans hmul harea⟩

/-- **The first rows of a region do not depend on how many follow.**  If a number of rows is
decoded, under whatever strategy, then decoding the region of just these rows succeeds, under
whatever strategy, with the same bytes in them and with the same session left over. -/
theorem decode_top (hsize : Bitmap.ValidSize r.width r.height)
    (hcount : r.adaptivePixels.length = r.template.adaptiveCount) {s s' : Session σ}
    (hcontexts : r.template.contextCount ≤ s.contexts.size) {b : Bitmap}
    (hb : Bitmap.blank r.width r.height = .ok b) (hpos : 0 < rows) (hrows : rows ≤ r.height)
    {pixelwise : Bool} {mid : Canvas}
    (hrun : (r.decodeRows (r.plan pixelwise).strategy rows ⟨b, 0, false⟩).run s = (.ok mid, s'))
    (pixelwise' : Bool) :
    ∃ top, (r.top rows).decode pixelwise' s = (.ok top, s') ∧ top.height = rows ∧
      ∀ y < rows, top.row? y = mid.bitmap.row? y := by
  have hsize_top := validSize_top hsize hpos hrows
  obtain ⟨t, ht⟩ := exists_blank hsize_top
  have hcheck : (r.top rows).check s.contexts.size = .ok () := check_eq_ok.2 ⟨hcount, hcontexts⟩
  have halike : Alike r rows 0 ⟨b, 0, false⟩ ⟨t, 0, false⟩ := .start hb ht false
  have hforget := decodeRows_forget (suits_plan hsize pixelwise) hcount hsize.1 halike.fits
    (show 0 + rows ≤ r.height by omega)
  have hforget_top := decodeRows_forget (suits_plan hsize_top pixelwise') hcount hsize_top.1
    halike.fits_top (Nat.le_of_eq (Nat.zero_add rows))
  have hrel : (r.decodeRows (r.plan pixelwise).strategy rows ⟨b, 0, false⟩).Rel (Alike r rows 0)
      ((r.top rows).decodeRows ((r.top rows).plan pixelwise').strategy rows ⟨t, 0, false⟩) := by
    rw [← Dialogue.rel_forget, hforget, hforget_top, Dialogue.rel_forget]
    exact decodeRows_rel hrows halike (Nat.le_of_eq (Nat.zero_add rows))
  obtain ⟨e, he, hrun_top⟩ := hrel.run_ok hrun
  refine ⟨e.bitmap, ?_, he.fits_top.height, fun y hy => he.row?_eq hsize.1 hrows hy⟩
  rw [decode_eq_run hsize_top hcheck ht, show (r.top rows).height = rows from rfl, hrun_top]
  rfl

end Region

end Bilevel
