import Bilevel.Proofs.Region.Rows
import Bilevel.Resumable

/-!
# Calls of a decode in steps

A caller may start, resume and take the bitmap in any order, each time with a source, contexts and
pauses of the call's own; or start a decode and resume it, from one source, as long as it is paused.

* `Request` — one call with all that the caller brings to it; `serveAll` — calls one after another.
* `serveAll_induction` — what every call keeps is kept by any number of them.
* `step_taken` — going on after the bitmap was taken.
* `settings_serveAll` — no call changes the settings of a decode.
* `Resumable.Call` — what a caller brings to a call: a pause indicator and a number of contexts.
* `Resumable.decodeInSteps` — a start, and further calls as long as the decode is paused.
* `advance_of_ok`, `advance_of_error` — what comes after one row.
* `advance_rows` — decoding rows with pauses decodes some of them in one go, and then comes to the
  end, to a pause, or to a row that fails.
* `advance_induction` — what every decode of a bit keeps is kept while rows are decoded.
* `advance_extend` — decoding rows uses only the contexts of the template.
* `advance_cases` — where decoding rows with pauses leaves off, compared with decoding them in one
  go.
-/

set_option autoImplicit false

namespace Bilevel.Resumable

variable {σ : Type} [BitSource σ] {d : Resumable}

/-! ## Any calls -/

/-- One call with all that the caller brings to it. -/
inductive Request : Type 1 where
  | start {σ : Type} [BitSource σ] (p : Indicator) (s : Session σ)
  | resume {σ : Type} [BitSource σ] (p : Indicator) (s : Session σ)
  | take

def Request.serve (d : Resumable) : Request → Resumable
  | @start _ _ p s => (d.start p s).1
  | @resume _ _ p s => (d.resume p s).1
  | .take => d.takeBitmap.2

def serveAll (d : Resumable) (requests : List Request) : Resumable :=
  requests.foldl Request.serve d

/-- What every call keeps is kept by any number of them. -/
theorem serveAll_induction {P : Resumable → Prop}
    (hserve : ∀ d request, P d → P (Request.serve d request)) {d : Resumable} (h : P d)
    (requests : List Request) : P (d.serveAll requests) := by
  induction requests generalizing d with
  | nil => exact h
  | cons request requests ih => exact ih (hserve d request h)

/-- Without a bitmap no row is decoded. -/
theorem step_taken (hbitmap : d.bitmap = none) (p : Indicator) (s : Session σ) :
    d.step p s =
      ({ d with
          status := .failed .noBitmap
          updated := ⟨0, d.row, d.region.width, d.row⟩ }, p, s) := by
  unfold step
  rw [hbitmap]
  cases d.plan with
  | none => rfl
  | some plan => rfl

theorem settings_step (d : Resumable) (p : Indicator) (s : Session σ) :
    (d.step p s).1.region = d.region ∧ (d.step p s).1.pixelwise = d.pixelwise := by
  unfold step
  simp only
  split
  · exact ⟨rfl, rfl⟩
  · exact ⟨rfl, rfl⟩

theorem settings_start (d : Resumable) (p : Indicator) (s : Session σ) :
    (d.start p s).1.region = d.region ∧ (d.start p s).1.pixelwise = d.pixelwise := by
  unfold start
  split
  · split
    · exact ⟨rfl, rfl⟩
    · split
      · exact ⟨rfl, rfl⟩
      · exact settings_step _ p s
  · exact ⟨rfl, rfl⟩

theorem settings_resume (d : Resumable) (p : Indicator) (s : Session σ) :
    (d.resume p s).1.region = d.region ∧ (d.resume p s).1.pixelwise = d.pixelwise := by
  unfold Resumable.resume
  split
  · split
    · split
      · exact ⟨rfl, rfl⟩
      · exact settings_step d p s
    · exact ⟨rfl, rfl⟩
  · exact ⟨rfl, rfl⟩

theorem settings_serve (d : Resumable) (request : Request) :
    (request.serve d).region = d.region ∧ (request.serve d).pixelwise = d.pixelwise := by
  cases request with
  | start p s => exact settings_start d p s
  | resume p s => exact settings_resume d p s
  | take => exact ⟨rfl, rfl⟩

theorem settings_serveAll (d : Resumable) (requests : List Request) :
    (d.serveAll requests).region = d.region ∧ (d.serveAll requests).pixelwise = d.pixelwise := by
  refine serveAll_induction (P := fun e => e.region = d.region ∧ e.pixelwise = d.pixelwise)
    (fun e request h => ?_) ⟨rfl, rfl⟩ requests
  obtain ⟨hregion, hpixelwise⟩ := settings_serve e request
  exact ⟨hregion.trans h.1, hpixelwise.trans h.2⟩

/-! ## One source for all calls -/

/-- What a caller brings to one call: an indicator, and how many contexts are handed over from the
first one on.  Each call has an indicator of its own, so that any answers may be given from call to
call. -/
structure Call where
  indicator : Indicator
  contexts : Nat

def startWith (d : Resumable) (call : Call) (s : Session σ) : Resumable × Session σ :=
  s.lend call.contexts fun s => ((d.start call.indicator s).1, (d.start call.indicator s).2.2)

def resumeWith (d : Resumable) (call : Call) (s : Session σ) : Resumable × Session σ :=
  s.lend call.contexts fun s => ((d.resume call.indicator s).1, (d.resume call.indicator s).2.2)

/-- Goes on, call by call, as long as the decode is paused and there are calls left. -/
def resumeAll : List Call → Resumable × Session σ → Resumable × Session σ
  | [], (d, s) => (d, s)
  | call :: calls, (d, s) =>
    if d.status = .paused then resumeAll calls (d.resumeWith call s) else (d, s)

/-- Starts a decode, and goes on as long as it is paused. -/
def decodeInSteps (d : Resumable) (first : Call) (rest : List Call) (s : Session σ) :
    Resumable × Session σ :=
  resumeAll rest (d.startWith first s)

/-! ## One row at a time -/

variable {r : Region} {plan : Plan} {c : Canvas}

/-- The indicator after row `y`. -/
def pollAfter (plan : Plan) (y : Nat) (p : Indicator) : Indicator :=
  if plan.pollsAfter y then p.poll.2 else p

theorem advance_of_error {rows : Nat} {p : Indicator} {s s' : Session σ} {held : Canvas}
    {reason : Failure} (h : (r.decodeRow plan.strategy c).run s = (.error (held, reason), s')) :
    advance r plan (rows + 1) c p s = (.failed (.refused reason), held, p, s') := by
  unfold advance
  rw [h]

/-- After a row the decode pauses if the indicator is asked and says so, and else goes on. -/
theorem advance_of_ok {rows : Nat} {p : Indicator} {s s' : Session σ} {next : Canvas}
    (h : (r.decodeRow plan.strategy c).run s = (.ok next, s')) :
    advance r plan (rows + 1) c p s =
      if plan.pollsAfter c.row && p.poll.1 then (.paused, next, pollAfter plan c.row p, s')
      else advance r plan rows next (pollAfter plan c.row p) s' := by
  unfold pollAfter
  rw [advance, h]
  simp only
  cases hasks : plan.pollsAfter c.row with
  | false => rfl
  | true => rcases p.poll with ⟨_ | _, p'⟩ <;> rfl

/-- However decoding rows ends, a number of them has been decoded as in one go; at the end that is
all of them, at a pause it is not none, and at a failure it is the next one that fails. -/
theorem advance_rows (r : Region) (plan : Plan) (rows : Nat) (c : Canvas) (p : Indicator)
    (s : Session σ) :
    ∃ k mid s', k ≤ rows ∧ (r.decodeRows plan.strategy k c).run s = (.ok mid, s') ∧
      ((k = rows ∧ ∃ p', advance r plan rows c p s = (.finished, mid, p', s')) ∨
        (0 < k ∧ ∃ p', advance r plan rows c p s = (.paused, mid, p', s')) ∨
        (k < rows ∧ ∃ held reason p' s'',
          (r.decodeRow plan.strategy mid).run s' = (.error (held, reason), s'') ∧
          advance r plan rows c p s = (.failed (.refused reason), held, p', s''))) := by
  induction rows generalizing c p s with
  | zero => exact ⟨0, c, s, Nat.le_refl 0, rfl, .inl ⟨rfl, p, rfl⟩⟩
  | succ rows ih =>
    rcases hrun : (r.decodeRow plan.strategy c).run s with ⟨⟨held, reason⟩ | next, s'⟩
    · exact ⟨0, c, s, Nat.zero_le _, rfl,
        .inr (.inr ⟨Nat.succ_pos _, held, reason, p, s', hrun, advance_of_error hrun⟩)⟩
    · have hfirst : ∀ k, (r.decodeRows plan.strategy (k + 1) c).run s =
          (r.decodeRows plan.strategy k next).run s' := by
        intro k
        rw [Region.decodeRows, Dialogue.run_bind, hrun]
      rw [advance_of_ok hrun]
      split
      · exact ⟨1, next, s', by omega, hfirst 0, .inr (.inl ⟨Nat.one_pos, _, rfl⟩)⟩
      · obtain ⟨k, mid, s'', hk, hmid, hend⟩ := ih next (pollAfter plan c.row p) s'
        refine ⟨k + 1, mid, s'', by omega, (hfirst k).trans hmid, ?_⟩
        rcases hend with ⟨rfl, hend⟩ | ⟨hpos, hend⟩ | ⟨hlt, hend⟩
        · exact .inl ⟨rfl, hend⟩
        · exact .inr (.inl ⟨Nat.succ_pos k, hend⟩)
        · exact .inr (.inr ⟨by omega, hend⟩)

/-- What every decode of a bit keeps is kept while rows are decoded. -/
theorem advance_induction {P : Session σ → Prop} (hP : Session.Keeps P) (r : Region) (plan : Plan)
    (rows : Nat) (c : Canvas) (p : Indicator) {s : Session σ} (hs : P s) :
    P (advance r plan rows c p s).2.2.2 := by
  obtain ⟨k, mid, s', -, hmid, hend⟩ := advance_rows r plan rows c p s
  have hs' := Dialogue.run_induction hP (r.decodeRows plan.strategy k c) hs
  rw [hmid] at hs'
  rcases hend with ⟨-, p', hadv⟩ | ⟨-, p', hadv⟩ | ⟨-, held, reason, p', s'', hrun, hadv⟩
  · rw [hadv]
    exact hs'
  · rw [hadv]
    exact hs'
  · have hs'' := Dialogue.run_induction hP (r.decodeRow plan.strategy mid) hs'
    rw [hrun] at hs''
    rw [hadv]
    exact hs''

theorem size_contexts_advance (r : Region) (plan : Plan) (rows : Nat) (c : Canvas) (p : Indicator)
    (s : Session σ) : (advance r plan rows c p s).2.2.2.contexts.size = s.contexts.size :=
  advance_induction (P := fun t => t.contexts.size = s.contexts.size)
    (fun t number h _ ht => (t.size_contexts_decode number h).trans ht) r plan rows c p rfl

/-- Further contexts make no difference to the rows of a region. -/
theorem advance_extend (hsuits : r.Suits plan.strategy)
    (hcount : r.adaptivePixels.length = r.template.adaptiveCount) (hpos : 0 < r.width) {rows : Nat}
    (hfit : c.Fits r 0) (hrows : c.row + rows ≤ r.height) (p : Indicator) {s : Session σ}
    (hs : r.template.contextCount ≤ s.contexts.size) (kept : Array Context) :
    advance r plan rows c p (s.extend kept) =
      ((advance r plan rows c p s).1, (advance r plan rows c p s).2.1,
        (advance r plan rows c p s).2.2.1, (advance r plan rows c p s).2.2.2.extend kept) := by
  induction rows generalizing c p s with
  | zero => rfl
  | succ rows ih =>
    have hwithin := hsuits.decodeRow_within hcount hfit (by omega) hpos
    have hsize := Dialogue.size_contexts_run (r.decodeRow plan.strategy c) s
    have hlocal := hwithin.run_extend hs kept
    rcases hwithin.run hs with ⟨next, s', ⟨hfit', hrow'⟩, hrun⟩ | ⟨held, s', hrun⟩
    · rw [hrun] at hsize hlocal
      rw [advance_of_ok hrun, advance_of_ok hlocal]
      split
      · rfl
      · exact ih hfit' (by omega) _ (Nat.le_trans hs (Nat.le_of_eq hsize.symm))
    · rw [hrun] at hlocal
      rw [advance_of_error hrun, advance_of_error hlocal]

/-- Where decoding rows with pauses leaves off: at the end, at a failure, or at a pause, with the
remaining rows still to be decoded as in one go. -/
theorem advance_cases (hsuits : r.Suits plan.strategy)
    (hcount : r.adaptivePixels.length = r.template.adaptiveCount) (hpos : 0 < r.width) {rows : Nat}
    (hfit : c.Fits r 0) (hrows : c.row + rows ≤ r.height) (p : Indicator) {s : Session σ}
    (hs : r.template.contextCount ≤ s.contexts.size) :
    (∃ c' p' s', advance r plan rows c p s = (.finished, c', p', s') ∧
      (r.decodeRows plan.strategy rows c).run s = (.ok c', s')) ∨
    (∃ reason held p' s', advance r plan rows c p s = (.failed (.refused reason), held, p', s') ∧
      (r.decodeRows plan.strategy rows c).run s = (.error (held, reason), s')) ∨
    ∃ left c' p' s', left < rows ∧ advance r plan rows c p s = (.paused, c', p', s') ∧
      c'.Fits r 0 ∧ c'.row + left = c.row + rows ∧
      (r.decodeRows plan.strategy rows c).run s = (r.decodeRows plan.strategy left c').run s' := by
  obtain ⟨k, mid, s', hk, hmid, hend⟩ := advance_rows r plan rows c p s
  have hrest : (r.decodeRows plan.strategy rows c).run s =
      (r.decodeRows plan.strategy (rows - k) mid).run s' := by
    rw [← Nat.add_sub_cancel' hk, Region.decodeRows_add, Dialogue.run_bind, hmid,
      Nat.add_sub_cancel_left]
  have hwithin := hsuits.decodeRows_within hcount hpos hfit (show c.row + k ≤ r.height by omega)
  obtain ⟨hfit', hrow'⟩ := hwithin.run_ok hs hmid
  rcases hend with ⟨rfl, p', hadv⟩ | ⟨hk', p', hadv⟩ | ⟨hk', held, reason, p', s'', hrun, hadv⟩
  · rw [Nat.sub_self] at hrest
    exact .inl ⟨mid, p', s', hadv, hrest⟩
  · exact .inr (.inr ⟨rows - k, mid, p', s', by omega, hadv, hfit', by omega, hrest⟩)
  · refine .inr (.inl ⟨reason, held, p', s'', hadv, ?_⟩)
    rw [hrest, show rows - k = rows - k - 1 + 1 by omega, Region.decodeRows, Dialogue.run_bind,
      hrun]

end Bilevel.Resumable
