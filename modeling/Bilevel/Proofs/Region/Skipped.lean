import Bilevel.Proofs.Region.Footprint
import Bilevel.Proofs.Region.OneSource
import Bilevel.Proofs.Region.Outcome

/-!
# Skipped pixels

A mask says which pixels are skipped.  It is read where a row is decoded pixel by pixel, and only at
the pixels of the region.

* `Region.withMask` — a region with another mask; `MasksAgree` — two masks that skip the same pixels
  of it.
* `decodeRow_withMask`, `decodeRows_withMask`, `decode_withMask` — so they decode alike;
  `decode_masks` — also where one of them is no mask at all and windows are used.
* `Region.Respects` — what the skipped pixels of a row look like when the row is done.
* `decodeRow_yields_respects`, `decodeRows_yields_respects` — each row respects the mask, and the
  rows below it change nothing about that.
* `decode_respects` — skipped pixels are white except in typical rows, which repeat the row above.
-/

set_option autoImplicit false

namespace Bilevel.Region

open Dialogue

variable {r : Region} {c c' : Canvas} {code : List (Nat × Bool)}

/-! ## Masks that agree -/

def withMask (r : Region) (mask : Option Bitmap) : Region := { r with skip := mask }

/-- Under both masks the same pixels of the region are skipped. -/
def MasksAgree (r : Region) (mask mask' : Option Bitmap) : Prop :=
  ∀ x y, x < r.width → y < r.height → (r.withMask mask).skips x y = (r.withMask mask').skips x y

section

variable {mask mask' : Option Bitmap} (hagree : r.MasksAgree mask mask')

include hagree

theorem pixelsFrom_withMask (offsets : Option (List Offset)) {left x : Nat}
    (hx : x + left ≤ r.width) (hrow : c.row < r.height) :
    (r.withMask mask).pixelsFrom offsets left x c =
      (r.withMask mask').pixelsFrom offsets left x c := by
  induction left generalizing x c with
  | zero => rfl
  | succ left ih =>
    have hnext : ∀ value, (r.withMask mask).pixelsFrom offsets left (x + 1) (c.put x value) =
        (r.withMask mask').pixelsFrom offsets left (x + 1) (c.put x value) := by
      intro value
      apply ih
      · omega
      · exact hrow
    simp only [pixelsFrom, hagree x c.row (by omega) hrow, hnext]

theorem fillRow_withMask (hwidth : c.bitmap.width = r.width) (hrow : c.row < r.height) :
    (r.withMask mask).fillRow .pixels c = (r.withMask mask').fillRow .pixels c := by
  unfold fillRow pixelRow
  simp only
  rw [pixelsFrom_withMask hagree _ (by rw [hwidth, Nat.zero_add]) hrow]
  rfl

theorem decodeRow_withMask (hwidth : c.bitmap.width = r.width) (hrow : c.row < r.height) :
    (r.withMask mask).decodeRow .pixels c = (r.withMask mask').decodeRow .pixels c := by
  refine ((r.withMask mask).typicalBit_within c).bind_congr fun c₁ h₁ => ?_
  obtain ⟨typical, rfl⟩ := h₁
  rw [fillRow_withMask (c := { c with typical := typical }) hagree hwidth hrow]

theorem decodeRows_withMask (hcount : r.adaptivePixels.length = r.template.adaptiveCount)
    {rows : Nat} (hfit : c.Fits (r.withMask mask) 0) (hrows : c.row + rows ≤ r.height) :
    (r.withMask mask).decodeRows .pixels rows c = (r.withMask mask').decodeRows .pixels rows c := by
  induction rows generalizing c with
  | zero => rfl
  | succ rows ih =>
    have hrow : c.row < r.height := by omega
    rw [decodeRows, decodeRows, ← decodeRow_withMask hagree hfit.width hrow]
    refine (decodeRow_within (r := r.withMask mask) hcount hfit hrow).bind_congr fun c₁ h₁ => ?_
    obtain ⟨hfit₁, hrow₁⟩ := h₁
    exact ih hfit₁ (by omega)

/-- Masks that skip the same pixels of the region decode alike, windows or not. -/
theorem decode_withMask {σ : Type} [BitSource σ] (pixelwise pixelwise' : Bool) (s : Session σ) :
    (r.withMask mask).decode pixelwise s = (r.withMask mask').decode pixelwise' s := by
  by_cases hsize : Bitmap.ValidSize r.width r.height
  · cases hcheck : r.check s.contexts.size with
    | error reason =>
      rw [decode_refused (r := r.withMask mask) hsize hcheck,
        decode_refused (r := r.withMask mask') hsize hcheck]
    | ok u =>
      obtain ⟨hcount, -⟩ := check_eq_ok.1 hcheck
      obtain ⟨b, hb⟩ := exists_blank hsize
      have hfit : Canvas.Fits (r.withMask mask) 0 ⟨b, 0, false⟩ :=
        Canvas.Fits.start (r := r.withMask mask) hb false
      have hrows := decodeRows_withMask hagree hcount hfit (Nat.le_of_eq (Nat.zero_add r.height))
      rw [decode_eq_run_pixels (r := r.withMask mask) hsize hcheck hb,
        decode_eq_run_pixels (r := r.withMask mask') hsize hcheck hb]
      exact congrArg (fun d => answer (d.run s)) hrows
  · rw [decode_invalid (r := r.withMask mask) hsize, decode_invalid (r := r.withMask mask') hsize]
    rfl

end

/-- **Only the skipped pixels of the region matter.**  Take two masks of any sizes, with or without
storage, or no mask in place of one or both of them, under which the same pixels of the region are
skipped; what is outside a mask is not skipped.  Then, whatever the source and the contexts are,
both decodes have the same result, ask under the same context numbers and leave the source and the
contexts the same.  In particular a mask that is white over the region is no mask at all, although
with nominal adaptive pixels the former is decoded pixel by pixel and the latter with windows. -/
theorem decode_masks (r : Region) :
    (∀ mask mask' : Option Bitmap,
      (∀ x y, x < r.width → y < r.height →
        (r.withMask mask).skips x y = (r.withMask mask').skips x y) →
      ∀ (σ : Type) [BitSource σ] (pixelwise pixelwise' : Bool) (s : Session σ),
        (r.withMask mask).decode pixelwise s = (r.withMask mask').decode pixelwise' s) ∧
    (r.adaptivePixels = r.template.nominalPixels →
      ∀ mask : Bitmap, (∀ x y : Nat, x < r.width → y < r.height → mask.get x y = false) →
        ((r.withMask (some mask)).plan false).strategy = .pixels ∧
        ((r.withMask none).plan false).strategy = .windows ∧
        ∀ (σ : Type) [BitSource σ] (s : Session σ),
          (r.withMask (some mask)).decode false s = (r.withMask none).decode false s) := by
  constructor
  · intro mask mask' hagree σ _ pixelwise pixelwise' s
    exact decode_withMask hagree pixelwise pixelwise' s
  · intro hadaptive mask hwhite
    have hagree : r.MasksAgree (some mask) none := hwhite
    have hselect : ∀ mask, ((r.withMask mask).plan false).strategy =
        Strategy.select r.template r.adaptivePixels mask.isSome := fun mask => rfl
    refine ⟨?_, ?_, ?_⟩
    · rw [hselect]
      exact if_neg fun h => Bool.noConfusion h.1
    · rw [hselect]
      exact if_pos ⟨rfl, hadaptive⟩
    · intro σ _ s
      exact decode_withMask hagree false false s

/-- A mask that is smaller than the region beside one that is wider and lower, and a mask of a size
that stores nothing. -/
theorem decode_masks_sizes :
    let r : Region := { width := 3, height := 2, template := .t1, typicalPrediction := true }
    let small : Bitmap := ⟨2, 1, #[0x40]⟩
    let wide : Bitmap := ⟨9, 1, #[0x48, 0x80]⟩
    let empty : Bitmap := .withoutStorage 0 7
    let s : Session Script :=
      ⟨⟨[false, true, true, false, true, false, true], 0⟩, r.freshContexts, #[]⟩
    ((∀ x y, x < r.width → y < r.height →
        (r.withMask (some small)).skips x y = (r.withMask (some wide)).skips x y) ∧
      r.adaptivePixels = r.template.nominalPixels ∧
      ∀ x y : Nat, x < r.width → y < r.height → empty.get x y = false) ∧
    (r.withMask (some small)).decode false s = (r.withMask (some wide)).decode true s ∧
    ((r.withMask (some empty)).plan false).strategy = .pixels ∧
    ((r.withMask none).plan false).strategy = .windows ∧
    (r.withMask (some empty)).decode false s = (r.withMask none).decode false s := by
  intro r small wide empty s
  have hagree : ∀ x y, x < r.width → y < r.height →
      (r.withMask (some small)).skips x y = (r.withMask (some wide)).skips x y := by
    intro x y hx hy
    have hall : ∀ x < 3, ∀ y < 2, small.get (x : Nat) (y : Nat) = wide.get (x : Nat) (y : Nat) := by
      decide
    exact hall x hx y hy
  have hwhite : ∀ x y : Nat, x < r.width → y < r.height → empty.get x y = false := by
    intro x y hx hy
    have hall : ∀ x < 3, ∀ y < 2, empty.get (x : Nat) (y : Nat) = false := by
      decide
    exact hall x hx y hy
  have hmasks := (decode_masks r).1 (some small) (some wide) hagree Script false true s
  obtain ⟨hpixels, hwindows, hsame⟩ := (decode_masks r).2 rfl empty hwhite
  exact ⟨⟨hagree, rfl, hwhite⟩, hmasks, hpixels, hwindows, hsame Script s⟩

/-! ## Pixels of a row that is done -/

/-- In row `y`, the skipped pixels are as they must be: white, unless the row is typical and so is
equal to the row above. -/
structure Respects (r : Region) (typical : Bool) (b : Bitmap) (y : Nat) : Prop where
  white : typical = false → ∀ x < r.width, r.skips x y = true → b.get x y = false
  above : typical = true → ∀ x : Int, b.get x y = b.get x (y - 1)

theorem Respects.wrote {typical : Bool} {y n : Nat} (h : r.Respects typical c.bitmap y)
    (hwrote : c.Wrote n c') (hpacked : c.bitmap.Packed) (hy : y < c.row) :
    r.Respects typical c'.bitmap y := by
  constructor
  · intro htypical x hx hskip
    rw [hwrote.get_eq hpacked (by omega)]
    exact h.white htypical x hx hskip
  · intro htypical x
    rw [hwrote.get_eq hpacked (by omega), hwrote.get_eq hpacked (by omega)]
    exact h.above htypical x

/-- Where skipped pixels are white before the pixels of a row are decoded, they are so behind. -/
theorem pixelsFrom_yields_white {offsets : List Offset} {left x : Nat} (hfit : c.Fits r x)
    (hx : x + left = r.width) (hrow : c.row < r.height)
    (hwhite : ∀ x < r.width, r.skips x c.row = true → c.bitmap.get x c.row = false)
    (h : (r.pixelsFrom (some offsets) left x c).Yields code c') :
    ∀ x < r.width, r.skips x c.row = true → c'.bitmap.get x c.row = false := by
  induction left generalizing x c code with
  | zero =>
    obtain ⟨-, rfl⟩ := yields_done.1 h
    exact hwhite
  | succ left ih =>
    -- what is put into a skipped pixel is white, and what is put elsewhere leaves it so
    have hput : ∀ value, (r.skips x c.row = true → value = false) →
        ∀ x' < r.width, r.skips x' c.row = true → (c.put x value).bitmap.get x' c.row = false := by
      intro value hvalue x' hx' hskip
      rw [hfit.get_put (by omega) hrow]
      split
      · rename_i hsame
        obtain rfl : x' = x := by omega
        exact hvalue hskip
      · exact hwhite x' hx' hskip
    rw [pixelsFrom] at h
    cases hskip : r.skips x c.row with
    | true =>
      rw [if_pos hskip] at h
      exact ih (c := c.put x false) (hfit.put (by omega) hrow false) (by omega) hrow
        (hput false fun _ => rfl) h
    | false =>
      rw [if_neg (by simp [hskip])] at h
      obtain ⟨bit, rest, -, hnext⟩ := yields_ask.1 h
      have hbit : r.skips x c.row = true → bit = false := by
        intro hskip'
        rw [hskip] at hskip'
        cases hskip'
      exact ih (c := c.put x bit) (hfit.put (by omega) hrow bit) (by omega) hrow (hput bit hbit)
        hnext

section

variable (hcount : r.adaptivePixels.length = r.template.adaptiveCount) (hfit : c.Fits r 0)

include hcount hfit

theorem fillRow_yields_respects (hrow : c.row < r.height)
    (h : (r.fillRow .pixels c).Yields code c') : r.Respects c.typical c'.bitmap c.row := by
  unfold fillRow at h
  cases htypical : c.typical with
  | true =>
    rw [if_pos htypical, if_pos (hfit.packed.storesCopy _ _)] at h
    obtain ⟨-, rfl⟩ := yields_done.1 h
    refine ⟨nofun, fun _ x => ?_⟩
    have hheight : c.row < c.bitmap.height := by
      rw [hfit.height]
      exact hrow
    unfold Canvas.repeatRow
    rw [Bitmap.get_copyRow hfit.packed hheight, Bitmap.get_copyRow hfit.packed hheight, if_pos rfl,
      if_neg (by omega)]
  | false =>
    obtain ⟨offsets, ho⟩ := Template.exists_offsets? hcount
    rw [if_neg (by simp [htypical])] at h
    unfold pixelRow at h
    simp only at h
    rw [ho] at h
    have hblank : ∀ x < r.width, r.skips x c.row = true → c.bitmap.get x c.row = false := by
      intro x hx _
      have hwidth := c.bitmap.width_le
      rw [← hfit.width] at hx
      rw [Bitmap.get_natCast, hfit.blank x c.row (by omega) (.inr ⟨rfl, Nat.zero_le x⟩),
        Bool.and_false]
    refine ⟨fun _ => ?_, nofun⟩
    exact pixelsFrom_yields_white hfit (by rw [hfit.width, Nat.zero_add]) hrow hblank h

/-- A row that is done respects the mask. -/
theorem decodeRow_yields_respects (hrow : c.row < r.height)
    (h : (r.decodeRow .pixels c).Yields code c') : r.Respects c'.typical c'.bitmap c.row := by
  obtain ⟨first, rest, c₁, -, hfirst, hrest⟩ := h.of_bind
  obtain ⟨pixels, none, c₂, -, hpixels, hdone⟩ := hrest.of_bind
  obtain ⟨-, rfl⟩ := yields_done.1 hdone
  obtain ⟨⟨typical, rfl⟩, -⟩ := (r.typicalBit_within c).of_yields hfirst
  have hfit₁ := hfit.withTypical typical
  obtain ⟨⟨-, -, hsame⟩, -⟩ := (fillRow_within hcount hfit₁ hrow).of_yields hpixels
  have hrespects := fillRow_yields_respects hcount hfit₁ hrow hpixels
  rw [← hsame] at hrespects
  exact hrespects

/-- All rows that are done respect the mask, and are typical where the bits say so. -/
theorem decodeRows_yields_respects {bits more : List Bool} {start rows : Nat}
    (hstart : r.rowStart bits c.row = (start, c.typical))
    (hbits : bits.drop start = code.map Prod.snd ++ more) (hrows : c.row + rows ≤ r.height)
    (h : (r.decodeRows .pixels rows c).Yields code c')
    (habove : ∀ y < c.row, r.Respects (r.typicalIn bits y) c.bitmap y) :
    ∀ y < c.row + rows, r.Respects (r.typicalIn bits y) c'.bitmap y := by
  induction rows generalizing c code start with
  | zero =>
    obtain ⟨-, rfl⟩ := yields_done.1 h
    exact habove
  | succ rows ih =>
    obtain ⟨first, rest, c₁, rfl, hfirst, hrest⟩ := h.of_bind
    have hrow : c.row < r.height := by omega
    obtain ⟨⟨hfit₁, hrow₁⟩, -⟩ := (decodeRow_within hcount hfit hrow).of_yields hfirst
    obtain ⟨hwrote, -⟩ := (r.decodeRow_holds .pixels c).of_yields hfirst
    rw [List.map_append, List.append_assoc] at hbits
    obtain ⟨htypical, hstart₁, hbits₁⟩ :=
      decodeRow_yields_rowStart hcount hfit hstart hbits hrow hfirst
    have hrespects := decodeRow_yields_respects hcount hfit hrow hfirst
    rw [htypical] at hrespects
    have habove₁ : ∀ y < c₁.row, r.Respects (r.typicalIn bits y) c₁.bitmap y := by
      intro y hy
      by_cases hlast : y = c.row
      · rw [hlast]
        exact hrespects
      · exact (habove y (by omega)).wrote hwrote hfit.packed (by omega)
    have hall := ih hfit₁ hstart₁ hbits₁ (by omega) hrest habove₁
    rw [hrow₁, Nat.add_right_comm] at hall
    exact hall

end

/-- All rows of the bitmap that a code makes respect the mask. -/
theorem DecodesTo.respects {b : Bitmap} (h : r.DecodesTo code b)
    (hcount : r.adaptivePixels.length = r.template.adaptiveCount) :
    ∀ y < r.height, r.Respects (r.typicalIn (code.map Prod.snd) y) b y := by
  obtain ⟨blank, c, hblank, hyields, rfl⟩ := h
  have hall : (code.map Prod.snd).drop 0 = code.map Prod.snd ++ [] := (List.append_nil _).symm
  have hend := decodeRows_yields_respects hcount (Canvas.Fits.start hblank false) rfl hall
    (Nat.le_of_eq (Nat.zero_add r.height)) hyields nofun
  rw [Nat.zero_add] at hend
  exact hend

theorem rowStart_not_typical (htypical : r.typicalPrediction = false) (bits : List Bool) (y : Nat) :
    (r.rowStart bits y).2 = false := by
  induction y with
  | zero => rfl
  | succ y ih => simp [rowStart, ih, htypical]

theorem typicalIn_eq_false (htypical : r.typicalPrediction = false) (bits : List Bool) (y : Nat) :
    r.typicalIn bits y = false := by
  exact rowStart_not_typical htypical bits (y + 1)

/-- **Skipped pixels are white, except in typical rows.**  Take a region of valid size with any
mask, and let decoding it from any source with any contexts, windows or not, give a bitmap.  Then
the bits that were decoded say which rows are typical, and in a row that is not, every skipped pixel
is white; a typical row has in all its columns, also in the skipped ones, the pixels of the row
above, which is white above the first row.  So where no rows are typical, every skipped pixel is
white. -/
theorem decode_respects {σ : Type} [BitSource σ] (r : Region) (pixelwise : Bool) (s : Session σ)
    (b : Bitmap) (hsize : Bitmap.ValidSize r.width r.height)
    (hok : (r.decode pixelwise s).1 = .ok b) :
    (∃ code, s.Answers code ∧ (r.decode pixelwise s).2 = s.after (code.map Prod.fst) ∧
      ∀ y < r.height,
        (r.typicalIn (code.map Prod.snd) y = false →
          ∀ x < r.width, r.skips x y = true → b.get x y = false) ∧
        (r.typicalIn (code.map Prod.snd) y = true →
          ∀ x < r.width, b.get x y = b.get x ((y : Int) - 1))) ∧
    (r.typicalPrediction = false →
      ∀ x y, x < r.width → y < r.height → r.skips x y = true → b.get x y = false) := by
  cases hcheck : r.check s.contexts.size with
  | error reason =>
    rw [decode_refused hsize hcheck] at hok
    cases hok
  | ok u =>
    obtain ⟨hcount, hcontexts⟩ := check_eq_ok.1 hcheck
    obtain ⟨code, hanswers, hafter, hend⟩ := decode_transcript hsize hcount hcontexts pixelwise
    rw [hok] at hend
    rcases hend with ⟨b', hb', hcode⟩ | ⟨herror, -⟩
    · cases hb'
      have hrows := hcode.respects hcount
      constructor
      · refine ⟨code, hanswers, hafter, fun y hy => ⟨(hrows y hy).white, ?_⟩⟩
        intro htypical x _
        exact (hrows y hy).above htypical x
      · intro htypical x y hx hy hskip
        exact (hrows y hy).white (typicalIn_eq_false htypical _ y) x hx hskip
    · cases herror

/-- A row with a skipped pixel, and below it a typical row with two. -/
theorem decode_respects_typical_row :
    let r : Region :=
      { width := 3, height := 2, template := .t3, typicalPrediction := true,
        skip := some ⟨3, 2, #[0x40, 0xc0]⟩ }
    let s : Session Script := ⟨⟨[false, true, true, true], 0⟩, r.freshContexts, #[]⟩
    let b : Bitmap := ⟨3, 2, #[0xa0, 0xa0]⟩
    (Bitmap.ValidSize r.width r.height ∧ (r.decode false s).1 = .ok b) ∧
    (∃ code, s.Answers code ∧ (r.decode false s).2 = s.after (code.map Prod.fst) ∧
      ∀ y < r.height,
        (r.typicalIn (code.map Prod.snd) y = false →
          ∀ x < r.width, r.skips x y = true → b.get x y = false) ∧
        (r.typicalIn (code.map Prod.snd) y = true →
          ∀ x < r.width, b.get x y = b.get x ((y : Int) - 1))) ∧
    (r.typicalPrediction = false →
      ∀ x y, x < r.width → y < r.height → r.skips x y = true → b.get x y = false) := by
  intro r s b
  have hsize : Bitmap.ValidSize r.width r.height := by decide
  have hok : (r.decode false s).1 = .ok b := eq_ok_of_toOption (by decide +kernel)
  exact ⟨⟨hsize, hok⟩, decode_respects r false s b hsize hok⟩

/-- A typical row repeats a black pixel of the row above where it is to be skipped. -/
theorem skipped_pixel_black :
    let r : Region :=
      { width := 1, height := 2, template := .t3, typicalPrediction := true,
        skip := some ⟨1, 2, #[0x00, 0x80]⟩ }
    let s : Session Script := ⟨⟨[false, true, true], 0⟩, r.freshContexts, #[]⟩
    ∃ b : Bitmap, Bitmap.ValidSize r.width r.height ∧
      r.adaptivePixels.length = r.template.adaptiveCount ∧ (r.decode false s).1 = .ok b ∧
      0 < r.width ∧ 1 < r.height ∧ r.skips 0 1 = true ∧ b.get 0 1 = true := by
  intro r s
  have hok : (r.decode false s).1 = .ok ⟨1, 2, #[0x80, 0x80]⟩ :=
    eq_ok_of_toOption (by decide +kernel)
  exact ⟨⟨1, 2, #[0x80, 0x80]⟩, by decide, rfl, hok, by decide, by decide, by decide, by decide⟩

end Bilevel.Region
