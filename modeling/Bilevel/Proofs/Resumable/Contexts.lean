import Bilevel.Proofs.Resumable.Checked
import Bilevel.Proofs.Resumable.Workload
import Bilevel.Proofs.Source.Frame

/-!
# Contexts of other numbers

A caller may bring more contexts than the template of a region has.  Those behind are not read and
not changed, and of the others only those that are asked for change.

* `decode_local` — decoding in one go uses only the contexts of the template.
* `Operation` — one call of a decode in steps, made with the session that the one before has left;
  `performAll` — calls one after another, with all that the caller gets back.
* `performAll_induction` — what every decode of a bit keeps is kept by any number of calls.
* `Orderly.performAll_local` — a decode in steps uses only the contexts of the template.
* `sameWork_of_agree` — on sessions that agree on these, decodes of a region in one go and in steps
  do the same.
-/

set_option autoImplicit false

namespace Bilevel

variable {σ : Type} [BitSource σ]

theorem Region.decode_local (r : Region) (pixelwise : Bool) :
    Session.Local r.template.contextCount fun s : Session σ => r.decode pixelwise s := by
  intro s kept hs
  simp only
  by_cases hsize : Bitmap.ValidSize r.width r.height
  · have hcongr := Resumable.check_extend r hs kept
    cases hcheck : r.check s.contexts.size with
    | error reason => rw [decode_refused hsize hcheck, decode_refused hsize (hcongr.trans hcheck)]
    | ok u =>
      obtain ⟨hcount, -⟩ := check_eq_ok.1 hcheck
      obtain ⟨b, hb⟩ := exists_blank hsize
      have hrows := (plan_rows_within hsize hcount hb pixelwise).run_extend hs kept
      rw [decode_eq_run hsize hcheck hb, decode_eq_run hsize (hcongr.trans hcheck) hb, hrows]
      generalize (r.decodeRows (r.plan pixelwise).strategy r.height ⟨b, 0, false⟩).run s = out
      rcases out with ⟨_ | _, s'⟩ <;> rfl
  · rw [decode_invalid hsize, decode_invalid hsize]

namespace Resumable

variable {d : Resumable}

/-! ## In steps -/

/-- One call of a decode in steps. -/
inductive Operation where
  | start (p : Indicator)
  | resume (p : Indicator)
  | take

/-- What the caller gets back from a call: the decode, its indicator as it is left, if there was
one, and the bitmap, if it was taken. -/
structure Reply where
  decode : Resumable
  indicator : Option Indicator := none
  taken : Option Bitmap := none

def Operation.perform (d : Resumable) : Operation → Session σ → Reply × Session σ
  | .start p, s =>
    ({ decode := (d.start p s).1, indicator := (d.start p s).2.1 }, (d.start p s).2.2)
  | .resume p, s =>
    ({ decode := (d.resume p s).1, indicator := (d.resume p s).2.1 }, (d.resume p s).2.2)
  | .take, s => ({ decode := d.takeBitmap.2, taken := d.takeBitmap.1 }, s)

/-- Calls one after another, each with the session that the one before has left. -/
def performAll (d : Resumable) : List Operation → Session σ → List Reply × Session σ
  | [], s => ([], s)
  | operation :: operations, s =>
    let first := operation.perform d s
    let rest := first.1.decode.performAll operations first.2
    (first.1 :: rest.1, rest.2)

theorem perform_induction {P : Session σ → Prop} (hP : Session.Keeps P) (d : Resumable)
    (operation : Operation) {s : Session σ} (hs : P s) : P (operation.perform d s).2 := by
  cases operation with
  | start p => exact start_induction hP d p hs
  | resume p => exact resume_induction hP d p hs
  | take => exact hs

/-- What every decode of a bit keeps is kept by any number of calls. -/
theorem performAll_induction {P : Session σ → Prop} (hP : Session.Keeps P) (d : Resumable)
    (operations : List Operation) {s : Session σ} (hs : P s) : P (d.performAll operations s).2 := by
  induction operations generalizing d s with
  | nil => exact hs
  | cons operation operations ih => exact ih _ (perform_induction hP d operation hs)

theorem size_contexts_perform (d : Resumable) (operation : Operation) (s : Session σ) :
    (operation.perform d s).2.contexts.size = s.contexts.size := by
  obtain ⟨numbers, h⟩ := perform_induction s.keeps_asked d operation ⟨[], .refl s⟩
  exact h.size

theorem region_perform (d : Resumable) (operation : Operation) (s : Session σ) :
    (operation.perform d s).1.decode.region = d.region := by
  cases operation with
  | start p => exact (settings_start d p s).1
  | resume p => exact (settings_resume d p s).1
  | take => rfl

theorem Orderly.perform (h : d.Orderly) (operation : Operation) (s : Session σ) :
    (operation.perform d s).1.decode.Orderly := by
  cases operation with
  | start p => exact orderly_start d p s
  | resume p => exact h.resume p s
  | take => exact h.take

theorem resume_uncoded (hpaused : d.status = .paused) (hcoding : d.coding ≠ some .arithmetic)
    (p : Indicator) (s : Session σ) :
    d.resume p s = ({ d with status := .failed .noCoding }, p, s) := by
  unfold Resumable.resume
  rw [if_pos hpaused, if_neg hcoding]

theorem Orderly.resume_extend (h : d.Orderly) (p : Indicator) {s : Session σ}
    (hs : d.region.template.contextCount ≤ s.contexts.size) (kept : Array Context) :
    d.resume p (s.extend kept) =
      ((d.resume p s).1, (d.resume p s).2.1, (d.resume p s).2.2.extend kept) := by
  by_cases hpaused : d.status = .paused
  · by_cases hcoding : d.coding = some .arithmetic
    · have hcongr := check_extend d.region hs kept
      cases hcheck : d.region.check s.contexts.size with
      | error reason =>
        rw [resume_refused hpaused hcoding hcheck,
          resume_refused hpaused hcoding (hcongr.trans hcheck)]
      | ok u =>
        rw [resume_eq_step hpaused hcoding hcheck,
          resume_eq_step hpaused hcoding (hcongr.trans hcheck)]
        cases hbitmap : d.bitmap with
        | none => rw [step_taken hbitmap, step_taken hbitmap]
        | some b => exact (h.underway hpaused b hbitmap).step_extend p hs kept
    · rw [resume_uncoded hpaused hcoding, resume_uncoded hpaused hcoding]
  · rw [resume_of_not_paused hpaused, resume_of_not_paused hpaused]

theorem Orderly.perform_local (h : d.Orderly) (operation : Operation) :
    Session.Local d.region.template.contextCount
      fun s : Session σ => operation.perform d s := by
  intro s kept hs
  cases operation with
  | start p => simp only [Operation.perform, d.start_extend p hs kept]
  | resume p => simp only [Operation.perform, h.resume_extend p hs kept]
  | take => rfl

/-- A decode in steps uses only the contexts of the template. -/
theorem Orderly.performAll_local (h : d.Orderly) (operations : List Operation) :
    Session.Local d.region.template.contextCount
      fun s : Session σ => d.performAll operations s := by
  intro s kept hs
  simp only
  induction operations generalizing d s with
  | nil => rfl
  | cons operation operations ih =>
    have hregion := region_perform d operation s
    have hsize := size_contexts_perform d operation s
    have hfirst := h.perform_local operation s kept hs
    have hrest := ih (h.perform operation s) (operation.perform d s).2
      (by rw [hregion, hsize]; exact hs)
    simp only at hfirst
    simp only [performAll, hfirst, hrest]

/-! ## The same work -/

/-- **Contexts that the template does not have make no difference.**  Two sessions have the same
source and trace, each has as many contexts as the template or more, and up to there these are the
same.  Then a region is decoded from both with the same result, whatever the strategy, and the
sources, the traces and the contexts of the template that are left are the same; all context numbers
asked for are below the number of contexts that the template has; and all contexts that have not
been asked for, which are all those behind among them, are left as they were.  And so it is with any
calls of a decode in steps, in any order and with any pauses, that are made one after another with
these sessions, whatever calls came before; what the caller gets back from each of them is the
same. -/
theorem sameWork_of_agree (r : Region) (pixelwise : Bool) {s t : Session σ}
    (h : s.Agree r.template.contextCount t) :
    Session.SameWork r.template.contextCount s t (r.decode pixelwise s) (r.decode pixelwise t) ∧
    ∀ (earlier : List Request) (operations : List Operation),
      let d := serveAll { region := r, pixelwise := pixelwise } earlier
      Session.SameWork r.template.contextCount s t (d.performAll operations s)
        (d.performAll operations t) := by
  constructor
  · exact (r.decode_local pixelwise).sameWork
      (fun s => r.decode_induction s.keeps_asked pixelwise ⟨[], .refl s⟩) h
  · intro earlier operations d
    have hnew : Orderly { region := r, pixelwise := pixelwise } := ⟨nofun, nofun⟩
    have hregion : d.region = r :=
      (settings_serveAll { region := r, pixelwise := pixelwise } earlier).1
    have hlocal := (hnew.serveAll earlier).performAll_local (σ := σ) operations
    rw [show (serveAll _ earlier).region = r from hregion] at hlocal
    exact hlocal.sameWork
      (fun s => performAll_induction s.keeps_asked d operations ⟨[], .refl s⟩) h

/-- Three rows from five bytes of data, the second of them typical, with one more context in one of
the sessions. -/
theorem sameWork_of_agree_coded :
    let r : Region := { width := 9, height := 3, template := .t3, typicalPrediction := true }
    let s : Session MQ.Decoder :=
      ⟨.init #[0x84, 0xc7, 0x3b, 0xfc, 0xe1], r.freshContexts, #[]⟩
    let t : Session MQ.Decoder := { s with contexts := s.contexts.push ⟨45, true⟩ }
    s.Agree r.template.contextCount t ∧
    (r.decode false s).1 = .ok ⟨9, 3, #[5, 128, 5, 128, 16, 0]⟩ ∧
    Session.SameWork r.template.contextCount s t (r.decode false s) (r.decode false t) ∧
    ∀ (earlier : List Request) (operations : List Operation),
      let d := serveAll { region := r, pixelwise := false } earlier
      Session.SameWork r.template.contextCount s t (d.performAll operations s)
        (d.performAll operations t) := by
  intro r s t
  have hsize : s.contexts.size = r.template.contextCount := Array.size_replicate
  have hagree : s.Agree r.template.contextCount t := by
    refine ⟨rfl, rfl, Nat.le_of_eq hsize.symm, ?_, fun i hi => ?_⟩
    · rw [Array.size_push, hsize]
      exact Nat.le_succ _
    · rw [Array.getElem?_push_lt (by omega), Array.getElem?_eq_getElem (by omega)]
  exact ⟨hagree, by decide +kernel, sameWork_of_agree r false hagree⟩

end Resumable

end Bilevel
