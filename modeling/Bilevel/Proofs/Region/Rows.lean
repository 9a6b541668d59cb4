import Bilevel.Proofs.Region.WindowRow

/-!
# Decoding rows

What a region asks for and how far it gets, row by row; and that it makes no difference whether
windows are used.

* `decodeRow_within`, `decodeRows_within` — each row asks only for contexts of the template, never
  gives up, and leaves a canvas that fits and stands one row further down.
* `decodeRows_forget` — under the plan of a region its rows are those decoded pixel by pixel.
* `decodeRows_add` — rows decoded in two goes.
* `decode_invalid`, `decode_refused`, `decode_eq_run` — decoding a region of valid size is its
  check, followed by a run of its rows.
* `plan_rows_within`, `plan_rows_forget` — the rows of a region under its plan.
* `decode_outcome` — a region that passes its check is decoded, or the bits run out.
* `decode_pixelwise` — whether windows may be used makes no difference to a decode.
* `decode_windows_eq_decode_pixels` — in particular where they are used: with nominal adaptive
  pixels and without skipped pixels.
-/

set_option autoImplicit false

namespace Bilevel.Region

variable {r : Region} {c : Canvas} {strategy : Strategy}

/-! ## One row, pixel by pixel -/

theorem typicalBit_within (r : Region) (c : Canvas) :
    (r.typicalBit c).Within r.template.contextCount
      fun c' => ∃ typical, c' = { c with typical := typical } := by
  unfold typicalBit
  split
  · exact ⟨r.template.typicalContext_lt, fun bit => ⟨_, rfl⟩⟩
  · exact ⟨c.typical, rfl⟩

theorem fillRow_within (hcount : r.adaptivePixels.length = r.template.adaptiveCount)
    (hfit : c.Fits r 0) (hrow : c.row < r.height) :
    (r.fillRow .pixels c).Within r.template.contextCount
      fun c' => c'.Fits r r.width ∧ c'.row = c.row ∧ c'.typical = c.typical := by
  unfold fillRow
  split
  · rw [if_pos (hfit.packed.storesCopy _ _)]
    exact ⟨hfit.repeatRow hrow, rfl, rfl⟩
  · exact pixelRow_within hcount hfit hrow

theorem decodeRow_within (hcount : r.adaptivePixels.length = r.template.adaptiveCount)
    (hfit : c.Fits r 0) (hrow : c.row < r.height) :
    (r.decodeRow .pixels c).Within r.template.contextCount
      fun c' => c'.Fits r 0 ∧ c'.row = c.row + 1 := by
  refine (r.typicalBit_within c).bind fun c₁ h₁ => ?_
  obtain ⟨typical, rfl⟩ := h₁
  refine (fillRow_within hcount (hfit.withTypical typical) hrow).bind fun c₂ h₂ => ?_
  obtain ⟨hfit₂, hrow₂, -⟩ := h₂
  exact ⟨hfit₂.nextRow, congrArg Nat.succ hrow₂⟩

/-! ## Windows in place of pixels -/

/-- A strategy that suits the region: windows only where they may stand in for single pixels. -/
def Suits (r : Region) (strategy : Strategy) : Prop :=
  strategy = .windows → ∃ offsets, r.Nominal offsets

/-- The plan of a region of valid size suits it. -/
theorem suits_plan (hsize : Bitmap.ValidSize r.width r.height) (pixelwise : Bool) :
    r.Suits (r.plan pixelwise).strategy := by
  intro h
  have hselect : r.skip.isSome = false ∧ r.adaptivePixels = r.template.nominalPixels := by
    cases pixelwise with
    | true => cases h
    | false =>
      have hw : Strategy.select r.template r.adaptivePixels r.skip.isSome = .windows := h
      unfold Strategy.select at hw
      split at hw
      · assumption
      · cases hw
  obtain ⟨hw, hh⟩ := hsize.le
  exact ⟨_, ⟨by simpa using hselect.1, hselect.2, r.template.offsets?_nominal, by omega, by omega⟩⟩

theorem fillRow_forget (hsuits : r.Suits strategy) (hfit : c.Fits r 0) (hrow : c.row < r.height)
    (hpos : 0 < r.width) : (r.fillRow strategy c).forget = (r.fillRow .pixels c).forget := by
  cases strategy with
  | pixels => rfl
  | windows =>
    obtain ⟨offsets, hr⟩ := hsuits rfl
    unfold fillRow
    split
    · rfl
    · exact windowRow_forget hr hfit hrow hpos

theorem decodeRow_forget (hsuits : r.Suits strategy) (hfit : c.Fits r 0) (hrow : c.row < r.height)
    (hpos : 0 < r.width) : (r.decodeRow strategy c).forget = (r.decodeRow .pixels c).forget := by
  refine (r.typicalBit_within c).forget_bind_congr fun c₁ h₁ => ?_
  obtain ⟨typical, rfl⟩ := h₁
  rw [Dialogue.forget_bind, Dialogue.forget_bind,
    fillRow_forget hsuits (hfit.withTypical typical) hrow hpos]

theorem Suits.fillRow_within (hsuits : r.Suits strategy)
    (hcount : r.adaptivePixels.length = r.template.adaptiveCount) (hfit : c.Fits r 0)
    (hrow : c.row < r.height) (hpos : 0 < r.width) :
    (r.fillRow strategy c).Within r.template.contextCount
      fun c' => c'.Fits r r.width ∧ c'.row = c.row ∧ c'.typical = c.typical := by
  rw [← Dialogue.within_forget, fillRow_forget hsuits hfit hrow hpos, Dialogue.within_forget]
  exact Region.fillRow_within hcount hfit hrow

theorem Suits.decodeRow_within (hsuits : r.Suits strategy)
    (hcount : r.adaptivePixels.length = r.template.adaptiveCount) (hfit : c.Fits r 0)
    (hrow : c.row < r.height) (hpos : 0 < r.width) :
    (r.decodeRow strategy c).Within r.template.contextCount
      fun c' => c'.Fits r 0 ∧ c'.row = c.row + 1 := by
  rw [← Dialogue.within_forget, decodeRow_forget hsuits hfit hrow hpos, Dialogue.within_forget]
  exact Region.decodeRow_within hcount hfit hrow

/-! ## All rows -/

theorem Suits.decodeRows_within (hsuits : r.Suits strategy)
    (hcount : r.adaptivePixels.length = r.template.adaptiveCount) (hpos : 0 < r.width) {rows : Nat}
    (hfit : c.Fits r 0) (hrows : c.row + rows ≤ r.height) :
    (r.decodeRows strategy rows c).Within r.template.contextCount
      fun c' => c'.Fits r 0 ∧ c'.row = c.row + rows := by
  induction rows generalizing c with
  | zero => exact ⟨hfit, rfl⟩
  | succ rows ih =>
    refine (hsuits.decodeRow_within hcount hfit (by omega) hpos).bind fun c' h => ?_
    obtain ⟨hfit', hrow'⟩ := h
    have hend : c'.row + rows = c.row + (rows + 1) := by omega
    rw [← hend]
    exact ih hfit' (by omega)

/-- Under a strategy that suits the region, its rows are those decoded pixel by pixel. -/
theorem decodeRows_forget (hsuits : r.Suits strategy)
    (hcount : r.adaptivePixels.length = r.template.adaptiveCount) (hpos : 0 < r.width) {rows : Nat}
    (hfit : c.Fits r 0) (hrows : c.row + rows ≤ r.height) :
    (r.decodeRows strategy rows c).forget = (r.decodeRows .pixels rows c).forget := by
  induction rows generalizing c with
  | zero => rfl
  | succ rows ih =>
    have hrow := decodeRow_forget hsuits hfit (show c.row < r.height by omega) hpos
    have hrest := (Region.decodeRow_within hcount hfit (by omega)).forget_bind_congr
      (k := r.decodeRows strategy rows) (l := r.decodeRows .pixels rows)
      fun c' h => ih h.1 (by omega)
    rw [decodeRows, Dialogue.forget_bind, hrow, ← Dialogue.forget_bind, hrest]
    rfl

theorem decodeRows_add (r : Region) (strategy : Strategy) (m n : Nat) (c : Canvas) :
    r.decodeRows strategy (m + n) c =
      (r.decodeRows strategy m c).bind (r.decodeRows strategy n) := by
  induction m generalizing c with
  | zero =>
    rw [Nat.zero_add]
    rfl
  | succ m ih =>
    rw [Nat.add_right_comm, decodeRows, decodeRows, Dialogue.bind_assoc]
    exact congrArg _ (funext ih)

variable {σ : Type} [BitSource σ]

theorem check_eq_ok {r : Region} {contexts : Nat} :
    r.check contexts = .ok () ↔
      r.adaptivePixels.length = r.template.adaptiveCount ∧ r.template.contextCount ≤ contexts := by
  unfold check
  split
  · simp_all
  · split
    · simp_all
    · simp_all

theorem check_of_count (hcount : r.adaptivePixels.length ≠ r.template.adaptiveCount)
    (contexts : Nat) : r.check contexts = .error .adaptivePixelCount := if_pos hcount

theorem check_of_short (hcount : r.adaptivePixels.length = r.template.adaptiveCount)
    {contexts : Nat}
    (hshort : contexts < r.template.contextCount) :
    r.check contexts = .error .insufficientContexts := by
  unfold check
  rw [if_neg (not_not_intro hcount), if_pos hshort]

theorem exists_blank (hsize : Bitmap.ValidSize r.width r.height) :
    ∃ b, Bitmap.blank r.width r.height = .ok b :=
  ⟨_, if_pos hsize⟩

/-- What a run of the rows gives the caller of a decode. -/
def answer {π : Type} : Except (π × Failure) Canvas × Session σ → Except Failure Bitmap × Session σ
  | (.ok c, s) => (.ok c.bitmap, s)
  | (.error (_, reason), s) => (.error reason, s)

theorem answer_forget {π : Type} (d : Dialogue π Canvas) (s : Session σ) :
    answer (d.forget.run s) = answer (d.run s) := by
  rw [Dialogue.run_forget]
  rcases d.run s with ⟨_ | _, s'⟩ <;> rfl

theorem decode_invalid (hsize : ¬Bitmap.ValidSize r.width r.height) (pixelwise : Bool)
    (s : Session σ) :
    r.decode pixelwise s = (.ok (Bitmap.withoutStorage r.width r.height), s) :=
  if_neg hsize

theorem decode_refused (hsize : Bitmap.ValidSize r.width r.height) {s : Session σ}
    {reason : Failure} (hcheck : r.check s.contexts.size = .error reason) (pixelwise : Bool) :
    r.decode pixelwise s = (.error reason, s) := by
  unfold decode
  rw [if_pos hsize, hcheck]

theorem decode_eq_run (hsize : Bitmap.ValidSize r.width r.height) {s : Session σ}
    (hcheck : r.check s.contexts.size = .ok ()) {b : Bitmap}
    (hb : Bitmap.blank r.width r.height = .ok b) (pixelwise : Bool) :
    r.decode pixelwise s =
      answer ((r.decodeRows (r.plan pixelwise).strategy r.height ⟨b, 0, false⟩).run s) := by
  unfold decode
  rw [if_pos hsize, hcheck, hb]
  simp only
  generalize (r.decodeRows (r.plan pixelwise).strategy r.height ⟨b, 0, false⟩).run s = result
  rcases result with ⟨_ | _, s'⟩ <;> rfl

/-! ## The strategies agree -/

section

variable {r : Region} (hsize : Bitmap.ValidSize r.width r.height)
  (hcount : r.adaptivePixels.length = r.template.adaptiveCount) {blank : Bitmap}
  (hblank : Bitmap.blank r.width r.height = .ok blank) (pixelwise : Bool)

include hsize hcount hblank

/-- From a blank bitmap on, the rows of a region stay within the contexts of the template. -/
theorem plan_rows_within :
    (r.decodeRows (r.plan pixelwise).strategy r.height ⟨blank, 0, false⟩).Within
      r.template.contextCount fun c => c.Fits r 0 ∧ c.row = 0 + r.height :=
  (suits_plan hsize pixelwise).decodeRows_within hcount hsize.1 (Canvas.Fits.start hblank false)
    (Nat.le_of_eq (Nat.zero_add r.height))

/-- Under any plan they ask for what they ask for pixel by pixel. -/
theorem plan_rows_forget :
    (r.decodeRows (r.plan pixelwise).strategy r.height ⟨blank, 0, false⟩).forget =
      (r.decodeRows .pixels r.height ⟨blank, 0, false⟩).forget :=
  decodeRows_forget (suits_plan hsize pixelwise) hcount hsize.1 (Canvas.Fits.start hblank false)
    (Nat.le_of_eq (Nat.zero_add r.height))

end

/-- A region of valid size that passes its check is decoded, unless the bits run out. -/
theorem decode_outcome {r : Region} (hsize : Bitmap.ValidSize r.width r.height) {s : Session σ}
    (hcheck : r.check s.contexts.size = .ok ()) (pixelwise : Bool) :
    (∃ b, (r.decode pixelwise s).1 = .ok b) ∨
      (r.decode pixelwise s).1 = .error .unexpectedEnd := by
  obtain ⟨hcount, hcontexts⟩ := check_eq_ok.1 hcheck
  obtain ⟨b, hb⟩ := exists_blank hsize
  rw [decode_eq_run hsize hcheck hb]
  rcases (plan_rows_within hsize hcount hb pixelwise).run hcontexts with
    ⟨c, s', -, hrun⟩ | ⟨held, s', hrun⟩
  · exact .inl ⟨c.bitmap, by rw [hrun]; rfl⟩
  · exact .inr (by rw [hrun]; rfl)

/-- Decoding pixel by pixel by choice or for need is the same decode. -/
theorem decode_pixelwise (r : Region) (pixelwise : Bool) (s : Session σ) :
    r.decode pixelwise s = r.decode true s := by
  by_cases hsize : Bitmap.ValidSize r.width r.height
  · cases hcheck : r.check s.contexts.size with
    | error reason => rw [decode_refused hsize hcheck, decode_refused hsize hcheck]
    | ok u =>
      obtain ⟨hcount, -⟩ := check_eq_ok.1 hcheck
      obtain ⟨b, hb⟩ := exists_blank hsize
      have hrows := plan_rows_forget hsize hcount hb
      rw [decode_eq_run hsize hcheck hb, decode_eq_run hsize hcheck hb, ← answer_forget,
        hrows pixelwise, ← hrows true, answer_forget]
  · rw [decode_invalid hsize, decode_invalid hsize]

/-- **Windows decode what single pixels decode**: under any source and contexts the same bitmap or
the same end of the bits, after the same questions, with the same contexts and the same source left
over. -/
theorem decode_windows_eq_decode_pixels (r : Region)
    (hadaptive : r.adaptivePixels = r.template.nominalPixels) (hskip : r.skip = none)
    (hsize : Bitmap.ValidSize r.width r.height) (s : Session σ)
    (hcontexts : r.template.contextCount ≤ s.contexts.size) :
    (r.plan false).strategy = .windows ∧ (r.plan true).strategy = .pixels ∧
      r.decode false s = r.decode true s ∧
      ((∃ b, (r.decode false s).1 = .ok b) ∨ (r.decode false s).1 = .error .unexpectedEnd) := by
  have hcheck : r.check s.contexts.size = .ok () :=
    check_eq_ok.2 ⟨by rw [hadaptive, Template.length_nominalPixels], hcontexts⟩
  refine ⟨?_, rfl, decode_pixelwise r false s, decode_outcome hsize hcheck false⟩
  have hselect : (r.plan false).strategy =
      Strategy.select r.template r.adaptivePixels r.skip.isSome := rfl
  rw [hselect, hskip, hadaptive]
  exact if_pos ⟨rfl, rfl⟩

/-- A region whose last byte is not full: a row of eleven pixels and two typical rows, which take
fourteen of the seventeen bits. -/
theorem decode_windows_eq_decode_pixels_short :
    let r : Region := { width := 11, height := 3, template := .t3, typicalPrediction := true }
    let s : Session Script :=
      ⟨⟨[false, true, false, true, true, false, true, true, false, true, true, true, true, false,
        true, false, true], 0⟩, r.freshContexts, #[]⟩
    (r.adaptivePixels = r.template.nominalPixels ∧ r.skip = none ∧
      Bitmap.ValidSize r.width r.height ∧ r.template.contextCount ≤ s.contexts.size) ∧
    (r.plan false).strategy = .windows ∧ (r.plan true).strategy = .pixels ∧
      r.decode false s = r.decode true s ∧
      ((∃ b, (r.decode false s).1 = .ok b) ∨ (r.decode false s).1 = .error .unexpectedEnd) := by
  intro r s
  have hsize : Bitmap.ValidSize r.width r.height := by decide
  have hcontexts : r.template.contextCount ≤ s.contexts.size :=
    Nat.le_of_eq Array.size_replicate.symm
  exact ⟨⟨rfl, rfl, hsize, hcontexts⟩, decode_windows_eq_decode_pixels r rfl rfl hsize s hcontexts⟩

end Bilevel.Region
