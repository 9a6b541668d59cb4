import Bilevel.Proofs.Region.BitCount

/-!
# How a decode of a region ends

A decode is refused before it asks for any bit, or it asks until the bitmap is done or the source is
complete.

* `Region.Requests` — the bit that a decode asks for next, given the answers so far.
* `Requests.length_lt` — as long as it asks for a bit, the region takes more than those it has.
* `Requests.decode` — asking a complete source for it ends the decode.
* `decode_transcript` — what has been asked and answered when a decode ends.
* `decode_outcomes` — every way in which a decode ends, and when it does so.
-/

set_option autoImplicit false

namespace Bilevel.Region

variable {r : Region} {pixelwise : Bool} {code : List (Nat × Bool)} {number : Nat} {b : Bitmap}

/-! ## Bits that are asked for -/

/-- Asked for the context numbers in `code` and answered with the bits in it, a decode of the region
asks next for a bit under this context number. -/
def Requests (r : Region) (pixelwise : Bool) (code : List (Nat × Bool)) (number : Nat) : Prop :=
  ∃ blank, Bitmap.blank r.width r.height = .ok blank ∧
    (r.decodeRows (r.plan pixelwise).strategy r.height ⟨blank, 0, false⟩).Wants code number

/-- Zeros behind the bits are what a row reads where there are no bits. -/
theorem rowStart_zeros (r : Region) (bits : List Bool) (zeros y : Nat) :
    r.rowStart (bits ++ List.replicate zeros false) y = r.rowStart bits y := by
  induction y with
  | zero => rfl
  | succ y ih =>
    have hbit : ∀ i, (bits ++ List.replicate zeros false).getD i false = bits.getD i false := by
      intro i
      rw [List.getD_eq_getElem?_getD, List.getD_eq_getElem?_getD, List.getElem?_append]
      split
      · rfl
      · rw [List.getElem?_eq_none (l := bits) (by omega), List.getElem?_replicate]
        split <;> rfl
    simp only [rowStart, ih, hbit]

theorem bitsTaken_zeros (r : Region) (bits : List Bool) (zeros : Nat) :
    r.bitsTaken (bits ++ List.replicate zeros false) = r.bitsTaken bits := by
  rw [← rowStart_height, rowStart_zeros, rowStart_height]

section

variable (hsize : Bitmap.ValidSize r.width r.height)
  (hcount : r.adaptivePixels.length = r.template.adaptiveCount)

include hsize hcount

/-- As long as a bit is asked for, the region takes more bits than have been answered, whatever the
others will be. -/
theorem Requests.length_lt (h : r.Requests pixelwise code number) (more : List Bool) :
    code.length < r.bitsTaken (code.map Prod.snd ++ more) := by
  obtain ⟨blank, hblank, hwants⟩ := h
  rw [← Dialogue.wants_forget, plan_rows_forget hsize hcount hblank pixelwise,
    Dialogue.wants_forget] at hwants
  obtain ⟨rest, c, zeros, hrest, hyields, behind, hbits⟩ :=
    hwants.exists_yields (rows_within hsize hcount hblank) more
  have hcode : r.DecodesTo (code ++ rest) c.bitmap := ⟨blank, c, hblank, hyields, rfl⟩
  have hlength := hcode.length_eq hcount behind
  rw [List.map_append, List.append_assoc, hbits, ← List.append_assoc, bitsTaken_zeros,
    List.length_append] at hlength
  have hpos := List.length_pos_of_ne_nil hrest
  omega

theorem DecodesTo.sized (h : r.DecodesTo code b) :
    b.hasStorage = true ∧ b.width = r.width ∧ b.height = r.height := by
  obtain ⟨blank, c, hblank, hyields, rfl⟩ := h
  obtain ⟨⟨hfit, -⟩, -⟩ := (rows_within hsize hcount hblank).of_yields hyields
  refine ⟨hfit.packed.hasStorage ?_ ?_, hfit.width, hfit.height⟩
  · rw [hfit.width]
    exact hsize.1
  · rw [hfit.height]
    exact hsize.2.1

variable {σ : Type} [BitSource σ] {s : Session σ}
  (hcontexts : r.template.contextCount ≤ s.contexts.size)

include hcontexts

/-- Where a bit is asked of a source that is complete, the decode ends. -/
theorem Requests.decode (h : r.Requests pixelwise code number) (hs : s.Answers code)
    (hcomplete : (s.after (code.map Prod.fst)).isComplete = true) :
    r.decode pixelwise s = (.error .unexpectedEnd, s.after (code.map Prod.fst)) := by
  obtain ⟨blank, hblank, hwants⟩ := h
  obtain ⟨held, hrun⟩ := hwants.run hs hcomplete
  rw [decode_eq_run hsize (check_eq_ok.2 ⟨hcount, hcontexts⟩) hblank, hrun]
  rfl

/-- A decode that is not refused asks no source that is complete.  It ends with the bitmap that is
made of the answers, or where it asks for a bit and the source is complete. -/
theorem decode_transcript (pixelwise : Bool) :
    ∃ code, s.Answers code ∧ (r.decode pixelwise s).2 = s.after (code.map Prod.fst) ∧
      ((∃ b, (r.decode pixelwise s).1 = .ok b ∧ r.DecodesTo code b) ∨
        (r.decode pixelwise s).1 = .error .unexpectedEnd ∧
          (r.decode pixelwise s).2.isComplete = true ∧
          ∃ number, r.Requests pixelwise code number) := by
  obtain ⟨blank, hblank⟩ := exists_blank hsize
  have hwithin := plan_rows_within hsize hcount hblank pixelwise
  have hforget := plan_rows_forget hsize hcount hblank pixelwise
  obtain ⟨code, hanswers, hafter, hend⟩ := hwithin.run_transcript hcontexts
  rw [decode_eq_run hsize (check_eq_ok.2 ⟨hcount, hcontexts⟩) hblank]
  refine ⟨code, hanswers, ?_⟩
  generalize (r.decodeRows (r.plan pixelwise).strategy r.height ⟨blank, 0, false⟩).run s = out
    at hafter hend ⊢
  obtain ⟨result, s'⟩ := out
  rcases hend with ⟨c, hyields, rfl⟩ | ⟨held, number, hwants, hcomplete, rfl⟩
  · rw [← Dialogue.yields_forget, hforget, Dialogue.yields_forget] at hyields
    exact ⟨hafter, .inl ⟨c.bitmap, rfl, blank, c, hblank, hyields, rfl⟩⟩
  · exact ⟨hafter, .inr ⟨rfl, hcomplete, number, blank, hblank, hwants⟩⟩

end

/-- **How a decode ends.**  A size that is not valid gives a bitmap without storage, whatever else
is asked for; then a wrong number of adaptive pixels is refused, and then too few contexts; in these
cases the source and all contexts are as before.  Any other decode asks only sources that are not
complete.  Either it gives a bitmap of the size of the region with its bytes stored, after just as
many bits as the region takes; or it ends for want of bits, with a source that is complete, and the
region would have taken more bits, whatever they had been.  And it ends for want of bits exactly
if, after some questions and their answers, it asks for another bit and the source is complete. -/
theorem decode_outcomes {σ : Type} [BitSource σ] (r : Region) (pixelwise : Bool) (s : Session σ) :
    let out := r.decode pixelwise s
    (¬Bitmap.ValidSize r.width r.height →
      out = (.ok (Bitmap.withoutStorage r.width r.height), s)) ∧
    (Bitmap.ValidSize r.width r.height →
      (r.adaptivePixels.length ≠ r.template.adaptiveCount →
        out = (.error .adaptivePixelCount, s)) ∧
      (r.adaptivePixels.length = r.template.adaptiveCount →
        (s.contexts.size < r.template.contextCount → out = (.error .insufficientContexts, s)) ∧
        (r.template.contextCount ≤ s.contexts.size →
          (∃ code, s.Answers code ∧ out.2 = s.after (code.map Prod.fst) ∧
            ((∃ b, out.1 = .ok b ∧ b.hasStorage = true ∧ b.width = r.width ∧ b.height = r.height ∧
                code.length = r.bitsTaken (code.map Prod.snd)) ∨
              (out.1 = .error .unexpectedEnd ∧ out.2.isComplete = true ∧
                ∀ more, code.length < r.bitsTaken (code.map Prod.snd ++ more)))) ∧
          (out.1 = .error .unexpectedEnd ↔
            ∃ code number, s.Answers code ∧ r.Requests pixelwise code number ∧
              (s.after (code.map Prod.fst)).isComplete = true)))) := by
  intro out
  constructor
  · intro hsize
    exact decode_invalid hsize pixelwise s
  intro hsize
  constructor
  · intro hcount
    exact decode_refused hsize (check_of_count hcount _) pixelwise
  intro hcount
  constructor
  · intro hcontexts
    exact decode_refused hsize (check_of_short hcount hcontexts) pixelwise
  intro hcontexts
  obtain ⟨code, hanswers, hafter, hend⟩ := decode_transcript hsize hcount hcontexts pixelwise
  constructor
  · refine ⟨code, hanswers, hafter, ?_⟩
    rcases hend with ⟨b, hok, hcode⟩ | ⟨herror, hcomplete, number, hrequests⟩
    · obtain ⟨hstorage, hwidth, hheight⟩ := hcode.sized hsize hcount
      have hlength := hcode.length_eq hcount []
      rw [List.append_nil] at hlength
      exact .inl ⟨b, hok, hstorage, hwidth, hheight, hlength⟩
    · exact .inr ⟨herror, hcomplete, hrequests.length_lt hsize hcount⟩
  · constructor
    · intro herror
      rcases hend with ⟨b, hok, -⟩ | ⟨-, hcomplete, number, hrequests⟩
      · rw [show out.1 = .ok b from hok] at herror
        cases herror
      · rw [hafter] at hcomplete
        exact ⟨code, number, hanswers, hrequests, hcomplete⟩
    · rintro ⟨code', number, hanswers', hrequests, hcomplete⟩
      exact congrArg Prod.fst (hrequests.decode hsize hcount hcontexts hanswers' hcomplete)

/-- A region whose bits run out in front of its second row. -/
theorem decode_outcomes_short :
    let r : Region := { width := 3, height := 2, template := .t3, typicalPrediction := true }
    let s : Session Script := ⟨⟨[false, true, false, true], 0⟩, r.freshContexts, #[]⟩
    let out := r.decode false s
    (Bitmap.ValidSize r.width r.height ∧ r.adaptivePixels.length = r.template.adaptiveCount ∧
      r.template.contextCount ≤ s.contexts.size) ∧
    out.1 = .error .unexpectedEnd ∧ out.2.isComplete = true ∧
    ∃ code number, s.Answers code ∧ r.Requests false code number ∧
      (s.after (code.map Prod.fst)).isComplete = true := by
  intro r s out
  have hsize : Bitmap.ValidSize r.width r.height := by decide
  have hcontexts : r.template.contextCount ≤ s.contexts.size :=
    Nat.le_of_eq Array.size_replicate.symm
  obtain ⟨⟨code, -, -, hend⟩, hexactly⟩ :=
    (((decode_outcomes r false s).2 hsize).2 rfl).2 hcontexts
  rcases hend with ⟨b, hok, -⟩ | ⟨herror, hcomplete, -⟩
  · have hnone : (r.decode false s).1.toOption = none := by decide +kernel
    rw [hok] at hnone
    cases hnone
  · exact ⟨⟨hsize, rfl, hcontexts⟩, herror, hcomplete, hexactly.1 herror⟩

end Bilevel.Region
