import Mathlib.Algebra.BigOperators.Group.Finset.Basic
import Bilevel.Proofs.Region.Rows
import Bilevel.Proofs.Source.Transcript

/-!
# How many bits a region takes

A region takes a bit for each row, if rows may be typical, and a bit for each pixel of the other
rows that is not skipped.  Which rows are typical is said by the bits themselves.

* `Region.rowStart` — where the bits of a row begin, and whether the row above is typical;
  `bitsTaken` — the number of bits of all rows.
* `pixelsFrom_yields_length`, `fillRow_yields_length`, `decodeRow_yields_length` — the number of
  questions of a row.  `decodeRow_yields_rowStart`, `decodeRows_yields_rowStart`: so the bits of
  each row begin where they should.
* `Region.DecodesTo` — a code that makes any decode of the region end with a bitmap.
-/

set_option autoImplicit false

namespace Bilevel.Region

variable {r : Region} {c c' : Canvas} {code : List (Nat × Bool)}

/-! ## Counting bits -/

def openColumns (r : Region) (y : Nat) : Nat := (List.range r.width).countP fun x => !r.skips x y

def rowBits (r : Region) (typical : Bool) (y : Nat) : Nat :=
  (if r.typicalPrediction then 1 else 0) + if typical then 0 else r.openColumns y

/-- Where among these bits those of row `y` begin, and whether the row above it is typical.  The
first bit of a row, if rows may be typical, says whether that changes. -/
def rowStart (r : Region) (bits : List Bool) : (y : Nat) → Nat × Bool
  | 0 => (0, false)
  | y + 1 =>
    let (start, above) := r.rowStart bits y
    let typical := above ^^ (r.typicalPrediction && bits.getD start false)
    (start + r.rowBits typical y, typical)

def typicalIn (r : Region) (bits : List Bool) (y : Nat) : Bool := (r.rowStart bits (y + 1)).2

/-- Number of bits of the region, if it is decoded from these: one for each row, if rows may be
typical, and one for each pixel that is neither in a typical row nor skipped. -/
def bitsTaken (r : Region) (bits : List Bool) : Nat :=
  (if r.typicalPrediction then r.height else 0) +
    ∑ y ∈ Finset.range r.height, if r.typicalIn bits y then 0 else r.openColumns y

theorem rowStart_succ (r : Region) (bits : List Bool) (y : Nat) :
    r.rowStart bits (y + 1) =
      ((r.rowStart bits y).1 + r.rowBits (r.typicalIn bits y) y, r.typicalIn bits y) := rfl

/-- The bits of a row begin behind those of all rows above. -/
theorem rowStart_eq_sum (r : Region) (bits : List Bool) (y : Nat) :
    (r.rowStart bits y).1 = (if r.typicalPrediction then y else 0) +
      ∑ y ∈ Finset.range y, if r.typicalIn bits y then 0 else r.openColumns y := by
  induction y with
  | zero => simp [rowStart]
  | succ y ih =>
    rw [rowStart_succ, ih, Finset.sum_range_succ]
    unfold rowBits
    simp only
    split <;> omega

theorem rowStart_height (r : Region) (bits : List Bool) :
    (r.rowStart bits r.height).1 = r.bitsTaken bits := r.rowStart_eq_sum bits r.height

/-! ## The questions of a row -/

theorem pixelsFrom_yields_length {offsets : List Offset} {left x : Nat}
    (h : (r.pixelsFrom (some offsets) left x c).Yields code c') :
    code.length = ((List.range' x left).countP fun x => !r.skips x c.row) ∧
      c'.typical = c.typical := by
  induction left generalizing x c code with
  | zero =>
    obtain ⟨rfl, rfl⟩ := Dialogue.yields_done.1 h
    exact ⟨rfl, rfl⟩
  | succ left ih =>
    rw [pixelsFrom] at h
    rw [List.range'_succ, List.countP_cons]
    cases hskip : r.skips x c.row with
    | true =>
      rw [if_pos hskip] at h
      obtain ⟨hlength, htypical⟩ := ih h
      rw [hlength]
      exact ⟨rfl, htypical⟩
    | false =>
      rw [if_neg (by simp [hskip])] at h
      obtain ⟨bit, rest, rfl, hnext⟩ := Dialogue.yields_ask.1 h
      obtain ⟨hlength, htypical⟩ := ih hnext
      rw [List.length_cons, hlength]
      exact ⟨rfl, htypical⟩

theorem fillRow_yields_length (hcount : r.adaptivePixels.length = r.template.adaptiveCount)
    (hwidth : c.bitmap.width = r.width) (h : (r.fillRow .pixels c).Yields code c') :
    code.length = (if c.typical then 0 else r.openColumns c.row) ∧ c'.typical = c.typical := by
  unfold fillRow at h
  cases htypical : c.typical with
  | true =>
    rw [if_pos htypical] at h
    split at h
    · obtain ⟨rfl, rfl⟩ := Dialogue.yields_done.1 h
      exact ⟨rfl, htypical⟩
    · exact absurd h Dialogue.not_yields_fail
  | false =>
    obtain ⟨offsets, ho⟩ := Template.exists_offsets? hcount
    rw [if_neg (by rw [htypical]; exact Bool.false_ne_true)] at h
    unfold pixelRow at h
    simp only at h
    rw [ho, hwidth] at h
    obtain ⟨hlength, hsame⟩ := pixelsFrom_yields_length h
    refine ⟨?_, hsame.trans htypical⟩
    rw [hlength, ← List.range_eq_range']
    rfl

/-- The first bit of a row, if rows may be typical, is the only one asked for before its pixels. -/
theorem typicalBit_yields_length (h : (r.typicalBit c).Yields code c') (more : List Bool) :
    code.length = (if r.typicalPrediction then 1 else 0) ∧
      c' = { c with
        typical :=
          c.typical ^^ (r.typicalPrediction && (code.map Prod.snd ++ more).headD false) } := by
  unfold typicalBit at h
  cases htp : r.typicalPrediction with
  | true =>
    rw [if_pos htp] at h
    obtain ⟨bit, rest, rfl, hnext⟩ := Dialogue.yields_ask.1 h
    obtain ⟨rfl, rfl⟩ := Dialogue.yields_done.1 hnext
    exact ⟨rfl, rfl⟩
  | false =>
    rw [if_neg (by simp [htp])] at h
    obtain ⟨rfl, rfl⟩ := Dialogue.yields_done.1 h
    simp

theorem decodeRow_yields_length (hcount : r.adaptivePixels.length = r.template.adaptiveCount)
    (hwidth : c.bitmap.width = r.width) (h : (r.decodeRow .pixels c).Yields code c')
    (more : List Bool) :
    c'.typical =
        (c.typical ^^ (r.typicalPrediction && (code.map Prod.snd ++ more).headD false)) ∧
      code.length = r.rowBits c'.typical c.row := by
  obtain ⟨first, rest, c₁, rfl, hfirst, hrest⟩ := h.of_bind
  obtain ⟨pixels, none, c₂, rfl, hpixels, hdone⟩ := hrest.of_bind
  obtain ⟨rfl, rfl⟩ := Dialogue.yields_done.1 hdone
  rw [List.append_nil]
  obtain ⟨hone, hc₁⟩ := typicalBit_yields_length hfirst (pixels.map Prod.snd ++ more)
  have hwidth₁ : c₁.bitmap.width = r.width := by rw [hc₁]; exact hwidth
  have hrow₁ : c₁.row = c.row := by rw [hc₁]
  obtain ⟨hmany, hsame⟩ := fillRow_yields_length hcount hwidth₁ hpixels
  have htypical : c₂.nextRow.typical = c₁.typical := hsame
  rw [htypical, List.length_append, hone, hmany, hrow₁, List.map_append, List.append_assoc]
  exact ⟨by rw [hc₁], rfl⟩

section

variable (hcount : r.adaptivePixels.length = r.template.adaptiveCount) (hfit : c.Fits r 0)
  {bits more : List Bool} {start : Nat} (hstart : r.rowStart bits c.row = (start, c.typical))
  (hbits : bits.drop start = code.map Prod.snd ++ more)

include hcount hfit hstart hbits

/-- Decoded from where its bits begin, a row is typical if they say so, and the bits of the row
below begin behind its own. -/
theorem decodeRow_yields_rowStart (hrow : c.row < r.height)
    (h : (r.decodeRow .pixels c).Yields code c') :
    c'.typical = r.typicalIn bits c.row ∧
      r.rowStart bits c'.row = (start + code.length, c'.typical) ∧
      bits.drop (start + code.length) = more := by
  obtain ⟨⟨-, hrow'⟩, -⟩ := (decodeRow_within hcount hfit hrow).of_yields h
  obtain ⟨htypical, hlength⟩ := decodeRow_yields_length hcount hfit.width h more
  have hhead : bits.getD start false = (bits.drop start).headD false := by
    rw [List.headD_eq_head?_getD, List.head?_drop, List.getD_eq_getElem?_getD]
  have hsame : c'.typical = r.typicalIn bits c.row := by
    rw [htypical, ← hbits, ← hhead]
    unfold typicalIn rowStart
    rw [hstart]
  refine ⟨hsame, ?_, ?_⟩
  · rw [hrow', rowStart_succ, ← hsame, hstart, hlength]
  · rw [← List.drop_drop, hbits, List.drop_left' (by rw [List.length_map])]

/-- The bits of each row begin where those of the rows above end. -/
theorem decodeRows_yields_rowStart {rows : Nat} (hrows : c.row + rows ≤ r.height)
    (h : (r.decodeRows .pixels rows c).Yields code c') :
    r.rowStart bits (c.row + rows) = (start + code.length, c'.typical) := by
  induction rows generalizing c code start with
  | zero =>
    obtain ⟨rfl, rfl⟩ := Dialogue.yields_done.1 h
    exact hstart
  | succ rows ih =>
    obtain ⟨first, rest, c₁, rfl, hfirst, hrest⟩ := h.of_bind
    have hlt : c.row < r.height := by omega
    obtain ⟨⟨hfit₁, hrow₁⟩, -⟩ := (decodeRow_within hcount hfit hlt).of_yields hfirst
    rw [List.map_append, List.append_assoc] at hbits
    obtain ⟨-, hnext, hdrop⟩ := decodeRow_yields_rowStart hcount hfit hstart hbits hlt hfirst
    have hall := ih hfit₁ hnext hdrop (by omega) hrest
    rw [hrow₁, Nat.add_right_comm, Nat.add_assoc start, ← List.length_append] at hall
    exact hall

end

/-! ## Codes of a region -/

/-- Given this code, decoding the region ends with this bitmap. -/
def DecodesTo (r : Region) (code : List (Nat × Bool)) (b : Bitmap) : Prop :=
  ∃ blank c, Bitmap.blank r.width r.height = .ok blank ∧
    (r.decodeRows .pixels r.height ⟨blank, 0, false⟩).Yields code c ∧ c.bitmap = b

/-- The rows of a region, pixel by pixel, from a blank bitmap on. -/
theorem rows_within (hsize : Bitmap.ValidSize r.width r.height)
    (hcount : r.adaptivePixels.length = r.template.adaptiveCount) {blank : Bitmap}
    (hblank : Bitmap.blank r.width r.height = .ok blank) :
    (r.decodeRows .pixels r.height ⟨blank, 0, false⟩).Within r.template.contextCount
      fun c => c.Fits r 0 ∧ c.row = 0 + r.height :=
  plan_rows_within hsize hcount hblank true

/-- Whatever the strategy, a decode does what one pixel by pixel does. -/
theorem decode_eq_run_pixels {σ : Type} [BitSource σ] (hsize : Bitmap.ValidSize r.width r.height)
    {s : Session σ} (hcheck : r.check s.contexts.size = .ok ()) {blank : Bitmap}
    (hblank : Bitmap.blank r.width r.height = .ok blank) (pixelwise : Bool) :
    r.decode pixelwise s =
      answer ((r.decodeRows .pixels r.height ⟨blank, 0, false⟩).run s) :=
  (r.decode_pixelwise pixelwise s).trans (decode_eq_run hsize hcheck hblank true)

namespace DecodesTo

variable {b : Bitmap}

theorem length_eq (h : r.DecodesTo code b)
    (hcount : r.adaptivePixels.length = r.template.adaptiveCount) (more : List Bool) :
    code.length = r.bitsTaken (code.map Prod.snd ++ more) := by
  obtain ⟨blank, c, hblank, hyields, -⟩ := h
  have hall : (code.map Prod.snd ++ more).drop 0 = code.map Prod.snd ++ more := rfl
  have hend := decodeRows_yields_rowStart hcount (Canvas.Fits.start hblank false) rfl hall
    (Nat.le_of_eq (Nat.zero_add r.height)) hyields
  rw [← rowStart_height, ← Nat.zero_add r.height, hend, Nat.zero_add]

section

variable (h : r.DecodesTo code b) (hsize : Bitmap.ValidSize r.width r.height)
  (hcount : r.adaptivePixels.length = r.template.adaptiveCount) (pixelwise : Bool)
  {s : Session Script} (hcontexts : r.template.contextCount ≤ s.contexts.size)

include h hsize hcount hcontexts

theorem decode {more : List Bool} (hbits : s.source.rest = code.map Prod.snd ++ more) :
    r.decode pixelwise s =
      (.ok b, ⟨⟨more, s.source.used + code.length⟩, s.contexts,
        s.trace ++ (code.map Prod.fst).toArray⟩) := by
  obtain ⟨⟨bits, used⟩, contexts, trace⟩ := s
  obtain ⟨blank, c, hblank, hyields, rfl⟩ := h
  obtain rfl : bits = code.map Prod.snd ++ more := hbits
  have hcode := (rows_within hsize hcount hblank).of_yields hyields
  rw [decode_eq_run_pixels hsize (check_eq_ok.2 ⟨hcount, hcontexts⟩) hblank,
    hyields.run_script (fun q hq => Nat.lt_of_lt_of_le (hcode.2 q hq) hcontexts)]
  rfl

/-- Fewer bits than those of the code are all used. -/
theorem decode_take {m : Nat} (hm : m < code.length)
    (hbits : s.source.rest = (code.map Prod.snd).take m) :
    ∃ trace, r.decode pixelwise s =
      (.error .unexpectedEnd, ⟨⟨[], s.source.used + m⟩, s.contexts, trace⟩) := by
  obtain ⟨⟨bits, used⟩, contexts, trace⟩ := s
  obtain ⟨blank, c, hblank, hyields, rfl⟩ := h
  obtain rfl : bits = (code.map Prod.snd).take m := hbits
  have hcode := (rows_within hsize hcount hblank).of_yields hyields
  have hmissing : (code.map Prod.snd).drop m ≠ [] := by
    intro hnone
    rw [List.drop_eq_nil_iff, List.length_map] at hnone
    omega
  obtain ⟨held, trace', hrun⟩ := hyields.run_script_short
    (fun q hq => Nat.lt_of_lt_of_le (hcode.2 q hq) hcontexts)
    (List.take_append_drop m _).symm hmissing used trace
  refine ⟨trace', ?_⟩
  rw [decode_eq_run_pixels hsize (check_eq_ok.2 ⟨hcount, hcontexts⟩) hblank, hrun,
    List.length_take, List.length_map, Nat.min_eq_left (Nat.le_of_lt hm)]
  rfl

end

end DecodesTo

/-- The bits that a script has left begin with those of some code, or the decode uses all of them
without coming to an end. -/
theorem decode_script_cases (hsize : Bitmap.ValidSize r.width r.height)
    (hcount : r.adaptivePixels.length = r.template.adaptiveCount) (pixelwise : Bool)
    {s : Session Script} (hcontexts : r.template.contextCount ≤ s.contexts.size) :
    (∃ code b more, r.DecodesTo code b ∧ s.source.rest = code.map Prod.snd ++ more) ∨
      ∃ trace, r.decode pixelwise s =
        (.error .unexpectedEnd,
          ⟨⟨[], s.source.used + s.source.rest.length⟩, s.contexts, trace⟩) := by
  obtain ⟨⟨bits, used⟩, contexts, trace⟩ := s
  obtain ⟨blank, hblank⟩ := exists_blank hsize
  rcases (rows_within hsize hcount hblank).run_script_cases hcontexts bits used trace with
    ⟨code, c, more, hyields, hbits⟩ | ⟨held, trace', hrun⟩
  · exact .inl ⟨code, c.bitmap, more, ⟨blank, c, hblank, hyields, rfl⟩, hbits⟩
  · refine .inr ⟨trace', ?_⟩
    rw [decode_eq_run_pixels hsize (check_eq_ok.2 ⟨hcount, hcontexts⟩) hblank, hrun]
    rfl

end Bilevel.Region
