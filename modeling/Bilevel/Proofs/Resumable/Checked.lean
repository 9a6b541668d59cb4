import Bilevel.Proofs.Region.Checked
import Bilevel.Proofs.Resumable.Batch

/-!
# Calls that are watched

The calls of a decode in steps once more, with the rows that are watched.

* `Checked.advance`, `step`, `start`, `resume` — the calls.
* `Resumable.Orderly` — if the decode is paused and its bitmap is still there, it can go on, and it
  has not failed with a fault.  `Orderly.serve`, `Orderly.serveAll` — every call keeps that.
* `Checked.start_eq`, `Checked.resume_eq` — nothing fails in a call.
* `never_faults` — no decode, in one go or in steps, reaches outside an array or works out a number
  that its machine word cannot hold.
-/

set_option autoImplicit false

namespace Bilevel

namespace Resumable

variable {σ : Type} [BitSource σ]

/-! ## Calls -/

namespace Checked

def advance (r : Region) (plan : Plan) :
    (rows : Nat) → Canvas → Indicator → Session σ → Status × Canvas × Indicator × Session σ
  | 0, c, p, s => (.finished, c, p, s)
  | rows + 1, c, p, s =>
    let y := c.row
    match (Region.Checked.decodeRow r plan.strategy c).run s with
    | (.error (held, reason), s) => (.failed (.refused reason), held, p, s)
    | (.ok next, s) =>
      if plan.pollsAfter y then
        match p.poll with
        | (true, p) => (.paused, next, p, s)
        | (false, p) => advance r plan rows next p s
      else advance r plan rows next p s

def step (d : Resumable) (p : Indicator) (s : Session σ) : Resumable × Indicator × Session σ :=
  let top := d.row
  match d.plan, d.bitmap with
  | some plan, some bitmap =>
    match advance d.region plan (d.region.height - d.row) ⟨bitmap, d.row, d.typical⟩ p s with
    | (status, c, p, s) =>
      ({ d with
          status := status
          row := if status = .finished then 0 else c.row
          typical := c.typical
          updated := ⟨0, top, d.region.width, c.row⟩
          bitmap := some c.bitmap }, p, s)
  | _, _ =>
    ({ d with
        status := .failed .noBitmap
        updated := ⟨0, top, d.region.width, top⟩ }, p, s)

def start (d : Resumable) (p : Indicator) (s : Session σ) : Resumable × Indicator × Session σ :=
  if Bitmap.ValidSize d.region.width d.region.height then
    match d.region.check s.contexts.size with
    | .error reason => ({ d with status := .failed (.refused reason) }, p, s)
    | .ok () =>
      match Bitmap.blank d.region.width d.region.height with
      | .error reason => ({ d with status := .failed (.refused reason), bitmap := none }, p, s)
      | .ok bitmap => step (d.opened bitmap) p s
  else
    ({ d with
        status := .finished
        bitmap := some (Bitmap.withoutStorage d.region.width d.region.height) }, p, s)

def resume (d : Resumable) (p : Indicator) (s : Session σ) : Resumable × Indicator × Session σ :=
  if d.status = .paused then
    if d.coding = some .arithmetic then
      match d.region.check s.contexts.size with
      | .error reason => ({ d with status := .failed (.refused reason) }, p, s)
      | .ok () => step d p s
    else ({ d with status := .failed .noCoding }, p, s)
  else (d, p, s)

end Checked

/-! ## Nothing fails in a call -/

variable {r : Region} {d : Resumable} {b : Bitmap}

theorem Checked.advance_eq (hmask : r.MaskWords) {plan : Plan} (hsuits : r.Suits plan.strategy)
    (hcount : r.adaptivePixels.length = r.template.adaptiveCount)
    (hvalid : Bitmap.ValidSize r.width r.height) {rows : Nat} {c : Canvas} (hfit : c.Fits r 0)
    (hrows : c.row + rows ≤ r.height) (p : Indicator) {s : Session σ}
    (hs : r.template.contextCount ≤ s.contexts.size) :
    advance r plan rows c p s = Resumable.advance r plan rows c p s := by
  induction rows generalizing c p s with
  | zero => rfl
  | succ rows ih =>
    have hrow : c.row < r.height := by omega
    have hsize := Dialogue.size_contexts_run (r.decodeRow plan.strategy c) s
    rw [advance, Resumable.advance,
      Region.Checked.decodeRow_eq hmask hsuits hcount hvalid hfit hrow]
    rcases (hsuits.decodeRow_within hcount hfit hrow hvalid.1).run hs with
      ⟨next, s', ⟨hfit', hrow'⟩, hrun⟩ | ⟨held, s', hrun⟩
    · rw [hrun] at hsize ⊢
      have hnext : ∀ p, advance r plan rows next p s' = Resumable.advance r plan rows next p s' :=
        fun p => ih hfit' (by omega) p (Nat.le_trans hs (Nat.le_of_eq hsize.symm))
      simp only
      cases plan.pollsAfter c.row with
      | false => exact hnext p
      | true =>
        rcases p.poll with ⟨_ | _, p'⟩
        · exact hnext p'
        · rfl
    · rw [hrun]

theorem Checked.step_eq (hmask : d.region.MaskWords) (h : d.Underway b) (p : Indicator)
    {s : Session σ} (hs : d.region.template.contextCount ≤ s.contexts.size) :
    step d p s = d.step p s := by
  have hrow := h.row
  have hadv := advance_eq hmask (Region.suits_plan h.size d.pixelwise) h.adaptive h.size h.fits
    (show d.row + (d.region.height - d.row) ≤ d.region.height by omega) p hs
  unfold step Resumable.step
  simp only [h.plan, h.bitmap, hadv]

theorem Checked.step_taken_eq (hbitmap : d.bitmap = none) (p : Indicator) (s : Session σ) :
    step d p s = d.step p s := by
  rw [step_taken hbitmap, step, hbitmap]
  cases d.plan with
  | none => rfl
  | some plan => rfl

theorem Checked.start_eq (hmask : d.region.MaskWords) (p : Indicator) (s : Session σ) :
    start d p s = d.start p s := by
  by_cases hvalid : Bitmap.ValidSize d.region.width d.region.height
  · cases hcheck : d.region.check s.contexts.size with
    | error reason => rw [start_refused hvalid hcheck, start, if_pos hvalid, hcheck]
    | ok u =>
      obtain ⟨hcount, hs⟩ := Region.check_eq_ok.1 hcheck
      obtain ⟨b, hb⟩ := Region.exists_blank hvalid
      rw [start_opened hvalid hcheck hb, start, if_pos hvalid, hcheck, hb]
      exact step_eq (d := d.opened b) hmask (underway_opened hvalid hcount hb) p hs
  · rw [start_invalid hvalid, start, if_neg hvalid]

/-! ## What calls keep -/

/-- What a decode is between two calls: it can go on if it is paused and has its bitmap, and it has
not failed with a fault. -/
structure Orderly (d : Resumable) : Prop where
  underway : d.status = .paused → ∀ b, d.bitmap = some b → d.Underway b
  status : ∀ array, d.status ≠ .failed (.refused (.fault array))

theorem Checked.resume_eq (hmask : d.region.MaskWords) (h : d.Orderly) (p : Indicator)
    (s : Session σ) : resume d p s = d.resume p s := by
  unfold resume Resumable.resume
  split
  · rename_i hpaused
    split
    · cases hcheck : d.region.check s.contexts.size with
      | error reason => rfl
      | ok u =>
        obtain ⟨-, hs⟩ := Region.check_eq_ok.1 hcheck
        cases hbitmap : d.bitmap with
        | none => exact step_taken_eq hbitmap p s
        | some b => exact step_eq hmask (h.underway hpaused b hbitmap) p hs
    · rfl
  · rfl

theorem Underway.orderly (h : d.Underway b) (hpaused : d.status = .paused) : d.Orderly := by
  constructor
  · intro _ b' hb'
    have hb := h.bitmap
    rw [hb'] at hb
    cases hb
    exact h
  · intro array
    rw [hpaused]
    exact nofun

omit [BitSource σ] in
theorem Completes.orderly {s : Session σ} {full : Except Failure Bitmap × Session σ}
    (h : d.Completes s full) (hfull : ∀ array, full.1 ≠ .error (.fault array)) : d.Orderly := by
  refine ⟨fun hpaused => absurd hpaused h.not_paused, ?_⟩
  intro array hstatus
  rcases full with ⟨reason | b, s'⟩
  · rw [h.1] at hstatus
    cases hstatus
    exact hfull array rfl
  · rw [h.1] at hstatus
    cases hstatus

/-- The remaining rows are decoded, or the bits run out. -/
theorem Underway.remaining_ne_fault (h : d.Underway b) {s : Session σ}
    (hs : d.region.template.contextCount ≤ s.contexts.size) (array : Fault) :
    (d.remaining b s).1 ≠ .error (.fault array) := by
  rcases h.remaining_cases hs with ⟨b', s', hok⟩ | ⟨s', herror, -⟩
  · rw [hok]
    exact nofun
  · rw [herror]
    exact nofun

theorem orderly_start (d : Resumable) (p : Indicator) (s : Session σ) :
    (d.start p s).1.Orderly := by
  rcases start_cases d p s with hend | ⟨b, h, hpaused, -⟩
  · exact hend.orderly (Region.decode_ne_fault d.pixelwise s)
  · exact h.orderly hpaused

theorem Orderly.resume (h : d.Orderly) (p : Indicator) (s : Session σ) :
    (d.resume p s).1.Orderly := by
  unfold Resumable.resume
  split
  · rename_i hpaused
    split
    · cases hcheck : d.region.check s.contexts.size with
      | error reason =>
        refine ⟨nofun, ?_⟩
        intro array hstatus
        cases hstatus
        exact Region.check_ne_fault _ _ hcheck
      | ok u =>
        obtain ⟨-, hs⟩ := Region.check_eq_ok.1 hcheck
        cases hbitmap : d.bitmap with
        | none =>
          show (d.step p s).1.Orderly
          rw [step_taken hbitmap]
          exact ⟨nofun, nofun⟩
        | some b =>
          have hb := h.underway hpaused b hbitmap
          rcases hb.step_cases p hs with hend | ⟨b', hb', hpaused', -⟩
          · exact hend.orderly (hb.remaining_ne_fault hs)
          · exact hb'.orderly hpaused'
    · exact ⟨nofun, nofun⟩
  · exact h

omit [BitSource σ] in
theorem Orderly.take (h : d.Orderly) : d.takeBitmap.2.Orderly :=
  ⟨fun _ _ hb => (nomatch hb), h.status⟩

theorem Orderly.serve (h : d.Orderly) (request : Request) : (request.serve d).Orderly := by
  cases request with
  | start p s => exact orderly_start d p s
  | resume p s => exact h.resume p s
  | take => exact h.take

theorem Orderly.serveAll (h : d.Orderly) (requests : List Request) :
    (d.serveAll requests).Orderly :=
  serveAll_induction (fun _ request h => h.serve request) h requests

/-- **Decoding never faults.**  Whatever the region is, with any adaptive pixels and with any mask
of skipped pixels whose sides are numbers of 32 bits, and whatever the source and the contexts are:
decoding in one go with every number and every access watched is decoding as it is, and ends with no
fault.  So it is for every sequence of calls of a decode in steps, each with a source, contexts and
pauses of its own and with the bitmap taken away at any time: the decode has not failed with a
fault, and the next call with every number and every access watched is that call as it is.

Machine words are taken to have 64 bits (`Checked.placeLimit`).  With words of 32 bits the places in
a large mask without storage would not fit, though no byte is read there. -/
theorem never_faults (r : Region) (pixelwise : Bool)
    (hmask : ∀ mask, r.skip = some mask → mask.width < 2 ^ 32 ∧ mask.height < 2 ^ 32) :
    (∀ (σ : Type) [BitSource σ] (s : Session σ),
      Region.Checked.decode r pixelwise s = r.decode pixelwise s ∧
      ∀ array, (r.decode pixelwise s).1 ≠ .error (.fault array)) ∧
    ∀ requests : List Request,
      let d := serveAll { region := r, pixelwise := pixelwise } requests
      (∀ array, d.status ≠ .failed (.refused (.fault array))) ∧
      ∀ (σ : Type) [BitSource σ] (p : Indicator) (s : Session σ),
        Checked.start d p s = d.start p s ∧ Checked.resume d p s = d.resume p s := by
  have hwords : r.MaskWords := by
    intro mask hskip
    obtain ⟨hwidth, hheight⟩ := hmask mask hskip
    exact ⟨hwidth, hheight⟩
  constructor
  · intro σ _ s
    exact ⟨Region.Checked.decode_eq hwords pixelwise s, r.decode_ne_fault pixelwise s⟩
  · intro requests d
    have hnew : Orderly { region := r, pixelwise := pixelwise } := ⟨nofun, nofun⟩
    have horderly := hnew.serveAll requests
    obtain ⟨hregion, -⟩ := settings_serveAll { region := r, pixelwise := pixelwise } requests
    have hwords' : d.region.MaskWords := by
      rw [show d.region = r from hregion]
      exact hwords
    refine ⟨horderly.status, ?_⟩
    intro σ _ p s
    exact ⟨Checked.start_eq hwords' p s, Checked.resume_eq hwords' horderly p s⟩

/-- A region with an adaptive pixel far away and a mask of another size that stores nothing. -/
theorem never_faults_large_mask :
    let r : Region :=
      { width := 11
        height := 3
        template := .t1
        typicalPrediction := true
        adaptivePixels := [⟨127, -128⟩]
        skip := some (Bitmap.withoutStorage 4294967295 2) }
    (∀ mask, r.skip = some mask → mask.width < 2 ^ 32 ∧ mask.height < 2 ^ 32) ∧
    (∀ (σ : Type) [BitSource σ] (s : Session σ),
      Region.Checked.decode r false s = r.decode false s ∧
      ∀ array, (r.decode false s).1 ≠ .error (.fault array)) ∧
    ∀ requests : List Request,
      let d := serveAll { region := r, pixelwise := false } requests
      (∀ array, d.status ≠ .failed (.refused (.fault array))) ∧
      ∀ (σ : Type) [BitSource σ] (p : Indicator) (s : Session σ),
        Checked.start d p s = d.start p s ∧ Checked.resume d p s = d.resume p s := by
  intro r
  have hmask : ∀ mask, r.skip = some mask → mask.width < 2 ^ 32 ∧ mask.height < 2 ^ 32 := by
    intro mask hskip
    cases hskip
    decide
  exact ⟨hmask, never_faults r false hmask⟩

end Resumable

end Bilevel
