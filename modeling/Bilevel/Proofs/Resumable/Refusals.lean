import Bilevel.Proofs.Resumable.Checked
import Bilevel.Proofs.Resumable.Invariant

/-!
# Calls that are refused

A call that cannot decode leaves everything as it was but for the status, and a decode that is not
paused stays as it is until it is started again.

* `Resumable.Settled` — no number of calls to go on changes the decode or anything they bring.
  `settled_of_not_paused`: so it is with every decode that is not paused.
* `adaptive_of_paused` — a decode that calls have led to a pause has all adaptive pixels.
* `resume_taken` — going on after a pause without the bitmap.
* `Resumable.RunsOn` — how a call ends that is not refused: `runsOn_start`, `Orderly.runsOn_resume`.
* `refused_calls` — what calls leave alone, and for how long.
-/

set_option autoImplicit false

namespace Bilevel.Resumable

variable {σ : Type} [BitSource σ] {d : Resumable} {b : Bitmap}

/-! ## Decodes that are not paused -/

def Request.resumes : Request → Bool
  | @resume _ _ _ _ => true
  | @start _ _ _ _ => false
  | .take => false

/-- However often a caller tries to go on, and whatever is brought to these calls, the decode and
all that is brought stay as they are. -/
def Settled (d : Resumable) : Prop :=
  ∀ later : List Request, (∀ request ∈ later, request.resumes = true) →
    ∀ (σ : Type) [BitSource σ] (p : Indicator) (s : Session σ),
      (d.serveAll later).resume p s = (d, p, s)

theorem settled_of_not_paused (hstatus : d.status ≠ .paused) : d.Settled := by
  intro later hlater σ _ p s
  have hsame : d.serveAll later = d := by
    induction later with
    | nil => rfl
    | cons request later ih =>
      obtain ⟨hrequest, hrest⟩ := List.forall_mem_cons.1 hlater
      cases request with
      | start p s => cases hrequest
      | resume p s =>
        show serveAll (d.resume p s).1 later = d
        rw [resume_of_not_paused hstatus]
        exact ih hrest
      | take => cases hrequest
  rw [hsame]
  exact resume_of_not_paused hstatus p s

/-- A start with a wrong number of adaptive pixels is refused, so none leads to a pause. -/
theorem adaptive_start (p : Indicator) (s : Session σ)
    (hpaused : (d.start p s).1.status = .paused) :
    d.region.adaptivePixels.length = d.region.template.adaptiveCount := by
  by_cases hsize : Bitmap.ValidSize d.region.width d.region.height
  · cases hcheck : d.region.check s.contexts.size with
    | error reason =>
      rw [start_refused hsize hcheck] at hpaused
      cases hpaused
    | ok u => exact (Region.check_eq_ok.1 hcheck).1
  · rw [start_invalid hsize] at hpaused
    cases hpaused

theorem adaptive_of_paused (r : Region) (pixelwise : Bool) (requests : List Request)
    (hpaused : (serveAll { region := r, pixelwise := pixelwise } requests).status = .paused) :
    r.adaptivePixels.length = r.template.adaptiveCount := by
  have hall := serveAll_induction (P := fun d => d.region = r ∧ (d.status = .paused →
      r.adaptivePixels.length = r.template.adaptiveCount)) ?_
    (d := { region := r, pixelwise := pixelwise }) ⟨rfl, nofun⟩ requests
  · exact hall.2 hpaused
  · rintro d request ⟨rfl, hd⟩
    refine ⟨(settings_serve d request).1, fun hserved => ?_⟩
    cases request with
    | start p s => exact adaptive_start p s hserved
    | resume p s =>
      by_cases hstatus : d.status = .paused
      · exact hd hstatus
      · rw [Request.serve, resume_of_not_paused hstatus] at hserved
        exact hd hserved
    | take => exact hd hserved

/-- Going on without the bitmap stops in front of the row that would be next. -/
theorem resume_taken (hpaused : d.status = .paused) (hcoding : d.coding = some .arithmetic)
    {s : Session σ} (hcheck : d.region.check s.contexts.size = .ok ()) (hbitmap : d.bitmap = none)
    (p : Indicator) :
    d.resume p s =
      ({ d with
          status := .failed .noBitmap
          updated := ⟨0, d.row, d.region.width, d.row⟩ }, p, s) :=
  (resume_eq_step hpaused hcoding hcheck p).trans (step_taken hbitmap p s)

/-! ## Calls that decode -/

/-- The call has decoded rows up to a pause, to the end of the region, or until it wanted a bit of a
source that is complete; in the last case the decode has failed for good. -/
def RunsOn (out : Resumable × Indicator × Session σ) : Prop :=
  out.1.status = .paused ∨ out.1.status = .finished ∨
    out.1.status = .failed (.refused .unexpectedEnd) ∧ out.2.2.isComplete = true ∧ out.1.Settled

theorem Underway.runsOn_step (h : d.Underway b) (p : Indicator) {s : Session σ}
    (hs : d.region.template.contextCount ≤ s.contexts.size) : RunsOn (d.step p s) := by
  rcases h.step_cases p hs with hend | ⟨b', -, hpaused, -⟩
  · have hsettled := settled_of_not_paused hend.not_paused
    rcases h.remaining_cases hs with ⟨b', s', hrest⟩ | ⟨s', hrest, hcomplete⟩
    · rw [hrest] at hend
      exact .inr (.inl hend.1)
    · rw [hrest] at hend
      obtain ⟨hstatus, hsession⟩ := hend
      rw [← hsession] at hcomplete
      exact .inr (.inr ⟨hstatus, hcomplete, hsettled⟩)
  · exact .inl hpaused

theorem runsOn_start (hsize : Bitmap.ValidSize d.region.width d.region.height)
    (hcount : d.region.adaptivePixels.length = d.region.template.adaptiveCount) (p : Indicator)
    {s : Session σ} (hs : d.region.template.contextCount ≤ s.contexts.size) :
    RunsOn (d.start p s) := by
  obtain ⟨b, hb⟩ := Region.exists_blank hsize
  rw [start_opened hsize (Region.check_eq_ok.2 ⟨hcount, hs⟩) hb]
  exact (underway_opened hsize hcount hb).runsOn_step p hs

theorem Orderly.runsOn_resume (h : d.Orderly) (hpaused : d.status = .paused)
    (hbitmap : d.bitmap ≠ none) (p : Indicator) {s : Session σ}
    (hs : d.region.template.contextCount ≤ s.contexts.size) : RunsOn (d.resume p s) := by
  obtain ⟨b, hb⟩ := Option.ne_none_iff_exists'.1 hbitmap
  have hunderway := h.underway hpaused b hb
  rw [hunderway.resume_eq_step hpaused p hs]
  exact hunderway.runsOn_step p hs

/-- **Refused calls touch nothing, and failure is terminal.**  Let any calls have been made on a new
decode of a region, and let a caller then bring any indicator and any session to one more.

* Going on with a decode that is not paused changes nothing and gives back its status.
* Going on after a pause with too few contexts changes the status alone.
* Going on after a pause without the bitmap changes the status and notes that no row was decoded.
* Starting, at a valid size, with a wrong number of adaptive pixels, or else with too few contexts,
  changes the status alone.

In these cases the indicator is not asked, and the source and the contexts are left as they are.

* Every other start at a valid size, and every other call to go on after a pause, decodes rows up to
  a pause, to the end, or until it wants a bit of a source that is complete, and then has failed.

Once a call has been refused or has failed for want of bits, further calls to go on change nothing,
whatever they bring and however many there are, until the decode is started again. -/
theorem refused_calls (r : Region) (pixelwise : Bool) (requests : List Request) (p : Indicator)
    (s : Session σ) :
    let d := serveAll { region := r, pixelwise := pixelwise } requests
    let refused (reason : Failure) : Resumable := { d with status := .failed (.refused reason) }
    let missing : Resumable :=
      { d with status := .failed .noBitmap, updated := ⟨0, d.row, r.width, d.row⟩ }
    (d.status ≠ .paused → d.resume p s = (d, p, s) ∧ d.Settled) ∧
    (d.status = .paused →
      (s.contexts.size < r.template.contextCount →
        d.resume p s = (refused .insufficientContexts, p, s) ∧
          (refused .insufficientContexts).Settled) ∧
      (r.template.contextCount ≤ s.contexts.size →
        (d.bitmap = none → d.resume p s = (missing, p, s) ∧ missing.Settled) ∧
        (d.bitmap ≠ none → RunsOn (d.resume p s)))) ∧
    (Bitmap.ValidSize r.width r.height →
      (r.adaptivePixels.length ≠ r.template.adaptiveCount →
        d.start p s = (refused .adaptivePixelCount, p, s) ∧
          (refused .adaptivePixelCount).Settled) ∧
      (r.adaptivePixels.length = r.template.adaptiveCount →
        (s.contexts.size < r.template.contextCount →
          d.start p s = (refused .insufficientContexts, p, s) ∧
            (refused .insufficientContexts).Settled) ∧
        (r.template.contextCount ≤ s.contexts.size → RunsOn (d.start p s)))) := by
  intro d refused missing
  have hregion : d.region = r := (settings_serveAll _ requests).1
  have hwidth : d.region.width = r.width := congrArg Region.width hregion
  have hcoherent : d.Coherent := (coherent_new r pixelwise).serveAll requests
  have hnew : Orderly { region := r, pixelwise := pixelwise } := ⟨nofun, nofun⟩
  have horderly : d.Orderly := hnew.serveAll requests
  have hrefused : ∀ reason, (refused reason).Settled := fun reason => settled_of_not_paused nofun
  have hmissing : missing.Settled := settled_of_not_paused nofun
  refine ⟨?_, ?_, ?_⟩
  · intro hstatus
    exact ⟨resume_of_not_paused hstatus p s, settled_of_not_paused hstatus⟩
  · intro hpaused
    have hcount := adaptive_of_paused r pixelwise requests hpaused
    have hcoding : d.coding = some .arithmetic := (hcoherent.standsAs hpaused).2.1
    rw [← hregion] at hcount ⊢
    constructor
    · intro hshort
      have hcheck := Region.check_of_short hcount hshort
      exact ⟨resume_refused hpaused hcoding hcheck p, hrefused _⟩
    · intro hcontexts
      constructor
      · intro hbitmap
        have hcheck := Region.check_eq_ok.2 ⟨hcount, hcontexts⟩
        rw [resume_taken hpaused hcoding hcheck hbitmap, hwidth]
        exact ⟨rfl, hmissing⟩
      · intro hbitmap
        exact horderly.runsOn_resume hpaused hbitmap p hcontexts
  · intro hsize
    rw [← hregion] at hsize ⊢
    constructor
    · intro hcount
      have hcheck := Region.check_of_count hcount s.contexts.size
      exact ⟨start_refused hsize hcheck p, hrefused _⟩
    · intro hcount
      constructor
      · intro hshort
        have hcheck := Region.check_of_short hcount hshort
        exact ⟨start_refused hsize hcheck p, hrefused _⟩
      · intro hcontexts
        exact runsOn_start hsize hcount p hcontexts

/-- A decode that is paused, the same with its bitmap taken, and the same after all bits have been
used. -/
theorem refused_calls_pause :
    let r : Region := { width := 3, height := 3, template := .t3 }
    let s : Session Script := ⟨⟨[true, false, true], 0⟩, r.freshContexts, #[]⟩
    let empty : Session Script := ⟨⟨[], 0⟩, r.freshContexts, #[]⟩
    let always : Indicator := ⟨fun _ => true, 0⟩
    let d := serveAll { region := r } [.start always s]
    let taken := serveAll { region := r } [.start always s, .take]
    (d.status = .paused ∧ d.bitmap ≠ none ∧ taken.status = .paused ∧ taken.bitmap = none) ∧
    d.resume always ({ s with contexts := #[] } : Session Script) =
      ({ d with status := .failed (.refused .insufficientContexts) }, always,
        { s with contexts := #[] }) ∧
    taken.resume always s =
      ({ taken with status := .failed .noBitmap, updated := ⟨0, taken.row, 3, taken.row⟩ }, always,
        s) ∧
    (d.resume always empty).1.status = .failed (.refused .unexpectedEnd) ∧
    (d.resume always empty).1.Settled := by
  intro r s empty always d taken
  have hpaused : d.status = .paused := by decide +kernel
  have hbitmap : d.bitmap ≠ none := by decide +kernel
  have hpaused' : taken.status = .paused := by decide +kernel
  have hcontexts : r.template.contextCount ≤ r.freshContexts.size :=
    Nat.le_of_eq Array.size_replicate.symm
  have hshort := (((refused_calls r false [.start always s] always
    ({ s with contexts := #[] } : Session Script)).2.1 hpaused).1 (by decide)).1
  have hmissing := ((((refused_calls r false [.start always s, .take] always s).2.1 hpaused').2
    hcontexts).1 rfl).1
  have hruns : RunsOn (d.resume always empty) :=
    (((refused_calls r false [.start always s] always empty).2.1 hpaused).2 hcontexts).2 hbitmap
  have hfailed : (d.resume always empty).1.status = .failed (.refused .unexpectedEnd) := by
    decide +kernel
  rw [RunsOn, hfailed] at hruns
  simp only [reduceCtorEq, false_or, true_and] at hruns
  exact ⟨⟨hpaused, hbitmap, hpaused', rfl⟩, hshort, hmissing, hfailed, hruns.2⟩

end Bilevel.Resumable
