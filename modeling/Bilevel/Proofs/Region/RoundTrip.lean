import Bilevel.Proofs.Region.Rows

/-!
# Decoding what has been encoded

An encoder knows the whole picture and goes over it in raster order.  Under each context number it
codes one bit; what a decoder cannot know yet counts as white in the context numbers.

* `Bitmap.before` — the pixels that come before a place in raster order.
* `Region.contextOf` — the context number of a pixel for an encoder.
* `Region.code` — the context numbers and bits of a region, row by row.
* `Region.Encodes` — the pictures and choices of typical rows that a region can be coded with.
* `code_lt` — the context numbers are those of the template.
* `Canvas.Shows r b x c` — the canvas holds the picture `b` up to column `x` of its next row.
* `contextNumber_of_shows` — then the context number of the next pixel is that of the encoder.
* `pixelsFrom_yields`, `decodeRow_yields`, `decodeRows_yields` — a decoder that is given the code of
  a picture asks for just its context numbers and draws the picture.
* `answers_script` — a list of bits known beforehand can be given for any code.
* `decode_code` — decoding undoes encoding.
-/

set_option autoImplicit false

namespace Bilevel

/-- The pixel at a place, if it comes before column `x` of row `y` in raster order; all others are
white. -/
def Bitmap.before (b : Bitmap) (x y : Nat) (x' y' : Int) : Bool :=
  if y' < y ∨ y' = y ∧ x' < x then b.get x' y' else false

namespace Region

/-! ## Codes -/

/-- The context number of a pixel: its neighbours in the order of the template, the first of them on
top, as far as they come before it. -/
def contextOf (r : Region) (b : Bitmap) (x y : Nat) : Nat :=
  ofBits (r.template.places.map fun place =>
    (place.offset? r.adaptivePixels).any fun o => b.before x y (x + o.dx) (y + o.dy))

/-- Whether the row above row `y` is typical; above the first row there is none. -/
def typicalAbove (typical : Nat → Bool) : (y : Nat) → Bool
  | 0 => false
  | y + 1 => typical y

/-- What is coded ahead of a row: whether it differs in being typical from the row above. -/
def typicalCode (r : Region) (typical : Nat → Bool) (y : Nat) : List (Nat × Bool) :=
  if r.typicalPrediction then [(r.template.typicalContext, typicalAbove typical y ^^ typical y)]
  else []

def pixelCode (r : Region) (b : Bitmap) (y x : Nat) : List (Nat × Bool) :=
  if r.skips x y then [] else [(r.contextOf b x y, b.get x y)]

def rowCode (r : Region) (b : Bitmap) (typical : Nat → Bool) (y : Nat) : List (Nat × Bool) :=
  r.typicalCode typical y ++
    if typical y then [] else (List.range' 0 r.width).flatMap (r.pixelCode b y)

/-- What is coded for a region: context numbers, each with its bit. -/
def code (r : Region) (b : Bitmap) (typical : Nat → Bool) : List (Nat × Bool) :=
  (List.range' 0 r.height).flatMap (r.rowCode b typical)

/-- A packed bitmap of the region's size and a choice of typical rows that fit the region: a typical
row is equal to the row above it, with white above the first row, and the skipped pixels of the
other rows are white. -/
structure Encodes (r : Region) (b : Bitmap) (typical : Nat → Bool) : Prop where
  size : Bitmap.ValidSize r.width r.height
  adaptive : r.adaptivePixels.length = r.template.adaptiveCount
  width : b.width = r.width
  height : b.height = r.height
  packed : b.Packed
  provided : ∀ y < r.height, typical y = true → r.typicalPrediction = true
  repeats : ∀ y < r.height, typical y = true → ∀ x < r.width,
    b.get x y = b.get x (y - 1)
  skipped : ∀ y < r.height, typical y = false → ∀ x < r.width, r.skips x y = true →
    b.get x y = false

theorem contextOf_lt (r : Region) (b : Bitmap) (x y : Nat) :
    r.contextOf b x y < r.template.contextCount := by
  have h := ofBits_lt (r.template.places.map fun place =>
    (place.offset? r.adaptivePixels).any fun o => b.before x y (x + o.dx) (y + o.dy))
  rw [List.length_map, Template.length_places, ← Template.contextCount_eq] at h
  exact h

theorem code_lt (r : Region) (b : Bitmap) (typical : Nat → Bool) :
    ∀ question ∈ r.code b typical, question.1 < r.template.contextCount := by
  intro question hmem
  obtain ⟨y, -, hmem⟩ := List.mem_flatMap.1 hmem
  rcases List.mem_append.1 hmem with hmem | hmem
  · unfold typicalCode at hmem
    split at hmem
    · rw [List.mem_singleton.1 hmem]
      exact r.template.typicalContext_lt
    · cases hmem
  · split at hmem
    · cases hmem
    · obtain ⟨x, -, hmem⟩ := List.mem_flatMap.1 hmem
      unfold pixelCode at hmem
      split at hmem
      · cases hmem
      · rw [List.mem_singleton.1 hmem]
        exact r.contextOf_lt b x y

end Region

/-! ## A canvas on the way to a picture -/

/-- The canvas shows a picture up to column `x` of its next row and is white from there on. -/
structure Canvas.Shows (r : Region) (b : Bitmap) (x : Nat) (c : Canvas) : Prop where
  fits : c.Fits r x
  pixels : ∀ x' y' : Int, c.bitmap.get x' y' = b.before x c.row x' y'

namespace Canvas

variable {r : Region} {b : Bitmap} {c : Canvas} {x : Nat} {typical : Nat → Bool}

theorem Shows.start {blank : Bitmap} (hblank : Bitmap.blank r.width r.height = .ok blank) :
    Shows r b 0 ⟨blank, 0, false⟩ := by
  refine ⟨Fits.start hblank false, fun x' y' => ?_⟩
  show blank.get x' y' = b.before 0 0 x' y'
  rw [Bitmap.get_eq_bit, Bitmap.bit_blank hblank, Bool.and_false]
  unfold Bitmap.before
  split
  · exact (Bitmap.get_outside (by omega)).symm
  · rfl

theorem Shows.withTypical (h : c.Shows r b x) (typical : Bool) :
    Shows r b x { c with typical := typical } :=
  ⟨h.fits.withTypical typical, h.pixels⟩

theorem Shows.put (h : c.Shows r b x) (hx : x < r.width) (hrow : c.row < r.height) :
    (c.put x (b.get x c.row)).Shows r b (x + 1) := by
  refine ⟨h.fits.put hx hrow _, fun x' y' => ?_⟩
  have hput : (c.put x (b.get x c.row)).row = c.row := rfl
  rw [h.fits.get_put hx hrow, h.pixels, hput]
  unfold Bitmap.before
  by_cases hp : y' = c.row ∧ x' = x
  · obtain ⟨rfl, rfl⟩ := hp
    rw [if_pos ⟨rfl, rfl⟩, if_pos (by omega)]
  · rw [if_neg hp]
    by_cases hbefore : y' < c.row ∨ y' = c.row ∧ x' < x
    · rw [if_pos hbefore, if_pos (by omega)]
    · rw [if_neg hbefore, if_neg (by omega)]

/-- Repeating the row above shows a row that is equal to it. -/
theorem Shows.repeatRow (h : c.Shows r b 0) (hrow : c.row < r.height) (hwidth : b.width = r.width)
    (hequal : ∀ x < r.width, b.get x c.row = b.get x (c.row - 1)) :
    c.repeatRow.Shows r b r.width := by
  refine ⟨h.fits.repeatRow hrow, fun x' y' => ?_⟩
  have hrepeat : c.repeatRow.row = c.row := rfl
  unfold Canvas.repeatRow at hrepeat ⊢
  simp only
  rw [Bitmap.get_copyRow h.fits.packed (by rw [h.fits.height]; exact hrow), h.pixels, h.pixels]
  unfold Bitmap.before
  by_cases hy : y' = c.row
  · subst hy
    rw [if_pos rfl, if_pos (by omega)]
    by_cases hx : 0 ≤ x' ∧ x' < b.width
    · obtain ⟨n, rfl⟩ := Int.eq_ofNat_of_zero_le hx.1
      rw [if_pos (by omega), ← hequal n (by omega)]
    · rw [Bitmap.get_outside (by omega)]
      split
      · exact (Bitmap.get_outside (by omega)).symm
      · rfl
  · rw [if_neg hy]
    by_cases hbefore : y' < c.row
    · rw [if_pos (by omega), if_pos (by omega)]
    · rw [if_neg (by omega), if_neg (by omega)]

theorem Shows.nextRow (h : c.Shows r b r.width) (hwidth : b.width = r.width) :
    c.nextRow.Shows r b 0 := by
  refine ⟨h.fits.nextRow, fun x' y' => ?_⟩
  have hnext : c.nextRow.row = c.row + 1 := rfl
  have hbitmap : c.nextRow.bitmap = c.bitmap := rfl
  rw [hbitmap, h.pixels, hnext]
  unfold Bitmap.before
  by_cases hbefore : y' < c.row ∨ y' = c.row ∧ x' < r.width
  · rw [if_pos hbefore, if_pos (by omega)]
  · rw [if_neg hbefore]
    split
    · -- behind the last column of the row, or left of the first one of the next
      exact (Bitmap.get_outside (by omega)).symm
    · rfl

/-- A canvas below the last row holds the whole picture. -/
theorem Shows.bitmap_eq (h : c.Shows r b 0) (hrow : c.row = r.height) (hb : b.Packed)
    (hwidth : b.width = r.width) (hheight : b.height = r.height) : c.bitmap = b := by
  refine h.fits.packed.ext hb (h.fits.width.trans hwidth.symm) (h.fits.height.trans hheight.symm)
    fun x hx y hy => ?_
  have hw := h.fits.width
  have hh := h.fits.height
  have hget := h.pixels x y
  unfold Bitmap.before at hget
  rw [if_pos (by omega), Bitmap.get_natCast, Bitmap.get_natCast, decide_eq_true ⟨hx, hy⟩,
    decide_eq_true (by omega), Bool.true_and, Bool.true_and] at hget
  exact hget

end Canvas

namespace Region

variable {r : Region} {b : Bitmap} {c : Canvas} {x : Nat} {typical : Nat → Bool}
  {offsets : List Offset}

theorem contextNumber_of_shows (ho : r.template.offsets? r.adaptivePixels = some offsets)
    (hsize : Bitmap.ValidSize r.width r.height) (h : c.Shows r b x) :
    contextNumber c.bitmap offsets x c.row = r.contextOf b x c.row := by
  obtain ⟨hw, hh⟩ := hsize.le
  have hwidth := h.fits.width
  have hheight := h.fits.height
  unfold contextNumber contextOf
  simp only [get_saturatingAdd (b := c.bitmap) (by omega) (by omega), h.pixels]
  have hplaces := congrArg (List.map (Option.any fun o =>
    b.before x c.row (x + o.dx) (c.row + o.dy))) (map_eq_of_mapM ho)
  rw [List.map_map, List.map_map] at hplaces
  exact congrArg ofBits hplaces.symm

/-! ## Rows -/

/-- Given the code of the rest of a row, the decoder draws it. -/
theorem pixelsFrom_yields (hcode : r.Encodes b typical)
    (ho : r.template.offsets? r.adaptivePixels = some offsets) {left : Nat} (h : c.Shows r b x)
    (hx : x + left = r.width) (hrow : c.row < r.height) (htypical : typical c.row = false) :
    ∃ c', (r.pixelsFrom (some offsets) left x c).Yields
        ((List.range' x left).flatMap (r.pixelCode b c.row)) c' ∧
      c'.Shows r b r.width ∧ c'.row = c.row ∧ c'.typical = c.typical := by
  induction left generalizing x c with
  | zero =>
    subst hx
    exact ⟨c, rfl, h, rfl, rfl⟩
  | succ left ih =>
    obtain ⟨c', hyields, hshows, hrow', htypical'⟩ :=
      ih (h.put (by omega) hrow) (by omega) hrow htypical
    refine ⟨c', ?_, hshows, hrow', htypical'⟩
    rw [pixelsFrom, List.range'_succ, List.flatMap_cons]
    unfold pixelCode
    cases hskip : r.skips x c.row with
    | true =>
      rw [hcode.skipped c.row hrow htypical x (by omega) hskip] at hyields
      exact hyields
    | false => exact ⟨contextNumber_of_shows ho hcode.size h, hyields⟩

theorem Encodes.not_typical (hcode : r.Encodes b typical) (hnone : r.typicalPrediction = false)
    {y : Nat} (hy : y < r.height) : typical y = false := by
  rw [← Bool.not_eq_true]
  intro ht
  rw [hcode.provided y hy ht] at hnone
  cases hnone

theorem typicalBit_yields (hcode : r.Encodes b typical) (hrow : c.row < r.height)
    (htypical : c.typical = typicalAbove typical c.row) :
    (r.typicalBit c).Yields (r.typicalCode typical c.row) { c with typical := typical c.row } := by
  unfold typicalBit typicalCode
  cases hprovided : r.typicalPrediction with
  | true =>
    refine ⟨rfl, ?_⟩
    show ({ c with typical := _ } : Canvas) = _
    rw [htypical, ← Bool.xor_assoc, Bool.xor_self, Bool.false_xor]
  | false =>
    have habove : typicalAbove typical c.row = false := by
      cases hy : c.row with
      | zero => rfl
      | succ y => exact hcode.not_typical hprovided (by omega)
    show c = _
    rw [hcode.not_typical hprovided hrow, ← habove, ← htypical]

theorem fillRow_yields (hcode : r.Encodes b typical) (h : c.Shows r b 0) (hrow : c.row < r.height)
    (htypical : c.typical = typical c.row) :
    ∃ c', (r.fillRow .pixels c).Yields
        (if typical c.row then [] else (List.range' 0 r.width).flatMap (r.pixelCode b c.row)) c' ∧
      c'.Shows r b r.width ∧ c'.row = c.row ∧ c'.typical = c.typical := by
  unfold fillRow
  rw [htypical]
  cases hrepeat : typical c.row with
  | true =>
    rw [if_pos rfl, if_pos rfl, if_pos (h.fits.packed.storesCopy _ _)]
    exact ⟨c.repeatRow, rfl, h.repeatRow hrow hcode.width (hcode.repeats c.row hrow hrepeat), rfl,
      htypical.trans hrepeat⟩
  | false =>
    obtain ⟨offsets, ho⟩ := Template.exists_offsets? hcode.adaptive
    rw [if_neg Bool.false_ne_true, if_neg Bool.false_ne_true]
    unfold pixelRow
    simp only
    rw [ho, h.fits.width, ← hrepeat, ← htypical]
    exact pixelsFrom_yields hcode ho h (Nat.zero_add _) hrow hrepeat

/-- Given the code of a row, the decoder draws it. -/
theorem decodeRow_yields (hcode : r.Encodes b typical) (h : c.Shows r b 0) (hrow : c.row < r.height)
    (htypical : c.typical = typicalAbove typical c.row) :
    ∃ c', (r.decodeRow .pixels c).Yields (r.rowCode b typical c.row) c' ∧
      c'.Shows r b 0 ∧ c'.row = c.row + 1 ∧ c'.typical = typical c.row := by
  obtain ⟨c', hyields, hshows, hrow', htypical'⟩ :=
    fillRow_yields hcode (h.withTypical (typical c.row)) hrow rfl
  refine ⟨c'.nextRow, ?_, hshows.nextRow hcode.width, congrArg Nat.succ hrow', htypical'⟩
  exact (typicalBit_yields hcode hrow htypical).bind (hyields.bind_done rfl)

theorem decodeRows_yields (hcode : r.Encodes b typical) {rows : Nat} (h : c.Shows r b 0)
    (hrows : c.row + rows = r.height) (htypical : c.typical = typicalAbove typical c.row) :
    ∃ c', (r.decodeRows .pixels rows c).Yields
        ((List.range' c.row rows).flatMap (r.rowCode b typical)) c' ∧
      c'.Shows r b 0 ∧ c'.row = r.height := by
  induction rows generalizing c with
  | zero => exact ⟨c, rfl, h, hrows⟩
  | succ rows ih =>
    obtain ⟨c₁, hyields₁, hshows₁, hrow₁, htypical₁⟩ :=
      decodeRow_yields hcode h (by omega) htypical
    obtain ⟨c₂, hyields₂, hshows₂, hrow₂⟩ :=
      ih hshows₁ (by omega) (by rw [htypical₁, hrow₁, typicalAbove])
    refine ⟨c₂, ?_, hshows₂, hrow₂⟩
    rw [decodeRows, List.range'_succ, List.flatMap_cons]
    rw [hrow₁] at hyields₂
    exact hyields₁.bind hyields₂

variable {σ : Type} [BitSource σ]

/-- **Decoding undoes encoding.**  A source that, asked for the context numbers of a picture's code
in order, answers with the bits of the code makes any decode of the region give back the picture,
with just these questions. -/
theorem decode_code (hcode : r.Encodes b typical) {s : Session σ}
    (hcontexts : r.template.contextCount ≤ s.contexts.size)
    (hanswers : s.Answers (r.code b typical)) (pixelwise : Bool) :
    r.decode pixelwise s = (.ok b, s.after ((r.code b typical).map Prod.fst)) ∧
      (r.decode pixelwise s).2.trace =
        s.trace ++ ((r.code b typical).map Prod.fst).toArray := by
  obtain ⟨blank, hblank⟩ := exists_blank hcode.size
  have hcheck : r.check s.contexts.size = .ok () := check_eq_ok.2 ⟨hcode.adaptive, hcontexts⟩
  obtain ⟨c, hyields, hshows, hrow⟩ := decodeRows_yields hcode (Canvas.Shows.start hblank)
    (Nat.zero_add r.height) rfl
  have hforget := decodeRows_forget (suits_plan hcode.size pixelwise) hcode.adaptive hcode.size.1
    (Canvas.Fits.start hblank false) (Nat.le_of_eq (Nat.zero_add r.height))
  have hrun := ((Dialogue.yields_forget _ _ _).2 hyields).run hanswers
  have hdecode : r.decode pixelwise s = (.ok b, s.after ((r.code b typical).map Prod.fst)) := by
    rw [decode_eq_run hcode.size hcheck hblank, ← answer_forget, hforget, hrun]
    show (Except.ok c.bitmap, _) = _
    rw [hshows.bitmap_eq hrow hcode.packed hcode.width hcode.height]
    rfl
  refine ⟨hdecode, ?_⟩
  rw [hdecode]
  exact Session.trace_after hanswers

/-- A list of bits, asked under any contexts there are, answers so. -/
theorem answers_script {code : List (Nat × Bool)} {rest : List Bool} {s : Session Script}
    (hsource : s.source.rest = code.map Prod.snd ++ rest)
    (hcode : ∀ question ∈ code, question.1 < s.contexts.size) : s.Answers code := by
  induction code generalizing s with
  | nil => trivial
  | cons question code ih =>
    obtain ⟨number, bit⟩ := question
    obtain ⟨⟨bits, used⟩, contexts, trace⟩ := s
    subst hsource
    have hlt : number < contexts.size := hcode _ List.mem_cons_self
    refine ⟨rfl, hlt, rfl, ih rfl fun question hmem => ?_⟩
    rw [Session.size_contexts_decode]
    exact hcode question (List.mem_cons_of_mem _ hmem)

/-- A row with a skipped pixel and the same row again, typical, under an adaptive pixel that lies
below. -/
theorem decode_code_two_rows :
    let r : Region :=
      { width := 9, height := 2, template := .t2, typicalPrediction := true,
        adaptivePixels := [⟨1, 1⟩], skip := some ⟨9, 2, #[0x40, 0, 0x40, 0]⟩ }
    let b : Bitmap := ⟨9, 2, #[0xb5, 0x80, 0xb5, 0x80]⟩
    let typical : Nat → Bool := fun y => y == 1
    let s : Session Script :=
      ⟨⟨(r.code b typical).map Prod.snd, 0⟩, r.freshContexts, #[]⟩
    (r.Encodes b typical ∧ r.template.contextCount ≤ s.contexts.size ∧
      s.Answers (r.code b typical)) ∧
    r.decode false s = (.ok b, s.after ((r.code b typical).map Prod.fst)) ∧
      (r.decode false s).2.trace = s.trace ++ ((r.code b typical).map Prod.fst).toArray := by
  intro r b typical s
  have hcode : r.Encodes b typical :=
    ⟨by decide, rfl, rfl, rfl, by decide, fun _ _ _ => rfl, by decide, by decide⟩
  have hcontexts : r.template.contextCount ≤ s.contexts.size :=
    Nat.le_of_eq Array.size_replicate.symm
  have hanswers : s.Answers (r.code b typical) :=
    answers_script (List.append_nil _).symm fun question hmem =>
      Nat.lt_of_lt_of_le (r.code_lt b typical question hmem) hcontexts
  exact ⟨⟨hcode, hcontexts, hanswers⟩, decode_code hcode hcontexts hanswers false⟩

end Region

end Bilevel
