import Bilevel.Proofs.Resumable.Calls
import Bilevel.Proofs.Source.Transcript

/-!
# Decoding in steps and in one go

* `Resumable.Underway b d` — a decode that can go on with bitmap `b` at its row.
* `Resumable.remaining` — what decoding the remaining rows in one go would give;
  `Underway.remaining_cases` — a bitmap, or an end for want of bits.
* `Underway.step_cases` — a step either comes to the end, with what was remaining, or pauses further
  down with the same remaining.
* `Resumable.Completes` — a decode has come to its end with the result of a decode in one go.
* `start_cases`, `Underway.resumeAll_cases` — the first call and all further ones together.
* `decodeInSteps_eq_decode` — whatever the pauses and however many contexts the calls bring, a
  decode in steps is the decode in one go.
-/

set_option autoImplicit false

namespace Bilevel

namespace Resumable

variable {σ : Type} [BitSource σ] {d : Resumable} {b : Bitmap}

/-! ## Decodes that can go on -/

/-- The decode of a region in order that can go on with this bitmap at its row. -/
structure Underway (b : Bitmap) (d : Resumable) : Prop where
  size : Bitmap.ValidSize d.region.width d.region.height
  adaptive : d.region.adaptivePixels.length = d.region.template.adaptiveCount
  coding : d.coding = some .arithmetic
  plan : d.plan = some (d.region.plan d.pixelwise)
  bitmap : d.bitmap = some b
  fits : Canvas.Fits d.region 0 ⟨b, d.row, d.typical⟩
  row : d.row ≤ d.region.height

/-- What decoding the remaining rows in one go gives. -/
def remaining (d : Resumable) (b : Bitmap) (s : Session σ) : Except Failure Bitmap × Session σ :=
  Region.answer ((d.region.decodeRows (d.region.plan d.pixelwise).strategy
    (d.region.height - d.row) ⟨b, d.row, d.typical⟩).run s)

/-- The decode has come to its end, with this result and this session left over. -/
def Completes (d : Resumable) (s : Session σ) : Except Failure Bitmap × Session σ → Prop
  | (.ok b, s') => d.status = .finished ∧ d.bitmap = some b ∧ s = s'
  | (.error reason, s') => d.status = .failed (.refused reason) ∧ s = s'

omit [BitSource σ] in
theorem Completes.not_paused {s : Session σ} {full : Except Failure Bitmap × Session σ}
    (h : d.Completes s full) : d.status ≠ .paused := by
  rcases full with ⟨reason | b, s'⟩
  · rw [h.1]
    exact Status.noConfusion
  · rw [h.1]
    exact Status.noConfusion

/-- Decoding the remaining rows in one go gives a bitmap, or stops with a source that is
complete. -/
theorem Underway.remaining_cases (h : d.Underway b) {s : Session σ}
    (hs : d.region.template.contextCount ≤ s.contexts.size) :
    (∃ b' s', d.remaining b s = (.ok b', s')) ∨
      ∃ s', d.remaining b s = (.error .unexpectedEnd, s') ∧ s'.isComplete = true := by
  have hrow := h.row
  have hwithin := (Region.suits_plan h.size d.pixelwise).decodeRows_within h.adaptive h.size.1
    h.fits (show d.row + (d.region.height - d.row) ≤ d.region.height by omega)
  obtain ⟨code, -, -, hend⟩ := hwithin.run_transcript hs
  unfold remaining
  generalize (d.region.decodeRows (d.region.plan d.pixelwise).strategy (d.region.height - d.row)
    ⟨b, d.row, d.typical⟩).run s = out at hend
  obtain ⟨result, s'⟩ := out
  rcases hend with ⟨c, -, rfl⟩ | ⟨held, number, -, hcomplete, rfl⟩
  · exact .inl ⟨c.bitmap, s', rfl⟩
  · exact .inr ⟨s', rfl, hcomplete⟩

theorem step_eq_advance {plan : Plan} (hplan : d.plan = some plan) (hbitmap : d.bitmap = some b)
    (p : Indicator) (s : Session σ) :
    d.step p s =
      let result := advance d.region plan (d.region.height - d.row) ⟨b, d.row, d.typical⟩ p s
      ({ d with
          status := result.1
          row := if result.1 = .finished then 0 else result.2.1.row
          typical := result.2.1.typical
          updated := ⟨0, d.row, d.region.width, result.2.1.row⟩
          bitmap := some result.2.1.bitmap }, result.2.2.1, result.2.2.2) := by
  unfold step
  rw [hplan, hbitmap]

theorem Underway.step_eq (h : d.Underway b) (p : Indicator) (s : Session σ) :
    d.step p s =
      let result := advance d.region (d.region.plan d.pixelwise) (d.region.height - d.row)
        ⟨b, d.row, d.typical⟩ p s
      ({ d with
          status := result.1
          row := if result.1 = .finished then 0 else result.2.1.row
          typical := result.2.1.typical
          updated := ⟨0, d.row, d.region.width, result.2.1.row⟩
          bitmap := some result.2.1.bitmap }, result.2.2.1, result.2.2.2) :=
  step_eq_advance h.plan h.bitmap p s

/-- A step comes to the end, or to a pause below the row it began at. -/
theorem Underway.step_cases (h : d.Underway b) (p : Indicator) {s : Session σ}
    (hs : d.region.template.contextCount ≤ s.contexts.size) :
    (d.step p s).1.Completes (d.step p s).2.2 (d.remaining b s) ∨
    ∃ b', (d.step p s).1.Underway b' ∧ (d.step p s).1.status = .paused ∧
      d.row < (d.step p s).1.row ∧
      (d.step p s).1.remaining b' (d.step p s).2.2 = d.remaining b s := by
  have hrow := h.row
  have hcases := advance_cases (Region.suits_plan h.size d.pixelwise) h.adaptive h.size.1 h.fits
    (show d.row + (d.region.height - d.row) ≤ d.region.height by omega) p hs
  rw [h.step_eq]
  unfold remaining
  rcases hcases with ⟨c', p', s', hadv, hrun⟩ | ⟨reason, held, p', s', hadv, hrun⟩ |
    ⟨left, c', p', s', hleft, hadv, hfit, hrow', hrest⟩
  · rw [hadv, hrun]
    exact .inl ⟨rfl, rfl, rfl⟩
  · rw [hadv, hrun]
    exact .inl ⟨rfl, rfl⟩
  · rw [hadv, hrest]
    simp only at hrow'
    refine .inr ⟨c'.bitmap, ⟨h.size, h.adaptive, h.coding, h.plan, rfl, hfit, ?_⟩, rfl, ?_, ?_⟩
    · show c'.row ≤ d.region.height
      omega
    · show d.row < c'.row
      omega
    · show Region.answer ((d.region.decodeRows _ (d.region.height - c'.row) c').run s') = _
      rw [show d.region.height - c'.row = left by omega]

theorem Underway.region_step (h : d.Underway b) (p : Indicator) (s : Session σ) :
    (d.step p s).1.region = d.region := by
  rw [h.step_eq]

theorem Underway.size_contexts_step (h : d.Underway b) (p : Indicator) (s : Session σ) :
    (d.step p s).2.2.contexts.size = s.contexts.size := by
  rw [h.step_eq]
  exact size_contexts_advance _ _ _ _ p s

/-- A step uses only the contexts of the template. -/
theorem Underway.step_extend (h : d.Underway b) (p : Indicator) {s : Session σ}
    (hs : d.region.template.contextCount ≤ s.contexts.size) (kept : Array Context) :
    d.step p (s.extend kept) =
      ((d.step p s).1, (d.step p s).2.1, (d.step p s).2.2.extend kept) := by
  have hrow := h.row
  have hadv := advance_extend (Region.suits_plan h.size d.pixelwise) h.adaptive h.size.1 h.fits
    (show d.row + (d.region.height - d.row) ≤ d.region.height by omega) p hs kept
  rw [h.step_eq, h.step_eq, hadv]

theorem Underway.step_local (h : d.Underway b) (p : Indicator) :
    Session.Local d.region.template.contextCount
      fun s : Session σ => ((d.step p s).1, (d.step p s).2.2) := by
  intro s kept hs
  simp only [h.step_extend p hs kept]

/-! ## Calls -/

/-- A call that brings all contexts, or at least those of the region's template. -/
def Call.Serves (call : Call) (r : Region) (contexts : Nat) : Prop :=
  contexts ≤ call.contexts ∨ r.template.contextCount ≤ call.contexts

theorem resume_of_not_paused (hstatus : d.status ≠ .paused) (p : Indicator) (s : Session σ) :
    d.resume p s = (d, p, s) := if_neg hstatus

section

variable (hpaused : d.status = .paused) (hcoding : d.coding = some .arithmetic) {s : Session σ}

include hpaused hcoding

theorem resume_refused {reason : Failure} (hcheck : d.region.check s.contexts.size = .error reason)
    (p : Indicator) : d.resume p s = ({ d with status := .failed (.refused reason) }, p, s) := by
  unfold resume
  rw [if_pos hpaused, if_pos hcoding, hcheck]

theorem resume_eq_step (hcheck : d.region.check s.contexts.size = .ok ()) (p : Indicator) :
    d.resume p s = d.step p s := by
  unfold resume
  rw [if_pos hpaused, if_pos hcoding, hcheck]

end

/-- At the end further calls do nothing. -/
theorem Completes.resumeAll_eq {s : Session σ} {full : Except Failure Bitmap × Session σ}
    (h : d.Completes s full) (calls : List Call) : resumeAll calls (d, s) = (d, s) := by
  cases calls with
  | nil => rfl
  | cons call calls => exact if_neg h.not_paused

theorem Underway.resume_eq_step (h : d.Underway b) (hpaused : d.status = .paused) (p : Indicator)
    {s : Session σ} (hs : d.region.template.contextCount ≤ s.contexts.size) :
    d.resume p s = d.step p s :=
  Resumable.resume_eq_step hpaused h.coding (Region.check_eq_ok.2 ⟨h.adaptive, hs⟩) p

/-- Going on with the contexts of a call is a step with all of them. -/
theorem Underway.resumeWith_eq_step (h : d.Underway b) (hpaused : d.status = .paused) {call : Call}
    {s : Session σ} (hs : d.region.template.contextCount ≤ s.contexts.size)
    (hcall : call.Serves d.region s.contexts.size) :
    d.resumeWith call s = ((d.step call.indicator s).1, (d.step call.indicator s).2.2) := by
  have hlocal : Session.Local d.region.template.contextCount fun s : Session σ =>
      ((d.resume call.indicator s).1, (d.resume call.indicator s).2.2) := by
    intro s kept hs
    have hs' : d.region.template.contextCount ≤ (s.extend kept).contexts.size := by
      rw [Session.size_contexts_extend]
      omega
    simp only
    rw [h.resume_eq_step hpaused _ hs, h.resume_eq_step hpaused _ hs']
    exact h.step_local call.indicator s kept hs
  unfold resumeWith
  rw [Session.lend_eq_of_local hlocal s hcall, h.resume_eq_step hpaused _ hs]

/-- All further calls together: either the decode completes with what was remaining, or it is still
paused and has come one row further down with each call. -/
theorem Underway.resumeAll_cases (h : d.Underway b) (calls : List Call) {s : Session σ}
    (hpaused : d.status = .paused) (hs : d.region.template.contextCount ≤ s.contexts.size)
    (hcalls : ∀ call ∈ calls, call.Serves d.region s.contexts.size) :
    (resumeAll calls (d, s)).1.Completes (resumeAll calls (d, s)).2 (d.remaining b s) ∨
      (resumeAll calls (d, s)).1.status = .paused ∧ d.row + calls.length ≤ d.region.height := by
  induction calls generalizing d b s with
  | nil => exact .inr ⟨hpaused, h.row⟩
  | cons call calls ih =>
    rw [resumeAll, if_pos hpaused,
      h.resumeWith_eq_step hpaused hs (hcalls call List.mem_cons_self)]
    rcases h.step_cases call.indicator hs with hend | ⟨b', h', hpaused', hrow, hrest⟩
    · rw [hend.resumeAll_eq calls]
      exact .inl hend
    · have hregion := h.region_step call.indicator s
      have hsize := h.size_contexts_step call.indicator s
      have hall := ih h' hpaused' (by rw [hregion, hsize]; exact hs) fun call' hmem => by
        rw [hregion, hsize]
        exact hcalls call' (List.mem_cons_of_mem call hmem)
      rw [hrest, hregion] at hall
      rcases hall with hend | ⟨hstill, hlength⟩
      · exact .inl hend
      · refine .inr ⟨hstill, ?_⟩
        rw [List.length_cons]
        omega

/-! ## From the start -/

/-- The decode just before its first row. -/
def opened (d : Resumable) (b : Bitmap) : Resumable :=
  { d with
    status := .ready
    coding := some .arithmetic
    plan := some (d.region.plan d.pixelwise)
    row := 0
    typical := false
    bitmap := some b }

theorem underway_opened (hsize : Bitmap.ValidSize d.region.width d.region.height)
    (hcount : d.region.adaptivePixels.length = d.region.template.adaptiveCount)
    (hb : Bitmap.blank d.region.width d.region.height = .ok b) : (d.opened b).Underway b :=
  ⟨hsize, hcount, rfl, rfl, rfl, Canvas.Fits.start hb false, Nat.zero_le _⟩

theorem start_opened (hsize : Bitmap.ValidSize d.region.width d.region.height) {s : Session σ}
    (hcheck : d.region.check s.contexts.size = .ok ())
    (hb : Bitmap.blank d.region.width d.region.height = .ok b) (p : Indicator) :
    d.start p s = (d.opened b).step p s := by
  unfold start
  rw [if_pos hsize, hcheck, hb]
  rfl

theorem start_refused (hsize : Bitmap.ValidSize d.region.width d.region.height) {s : Session σ}
    {reason : Failure} (hcheck : d.region.check s.contexts.size = .error reason) (p : Indicator) :
    d.start p s = ({ d with status := .failed (.refused reason) }, p, s) := by
  unfold start
  rw [if_pos hsize, hcheck]

theorem start_invalid (hsize : ¬Bitmap.ValidSize d.region.width d.region.height) (p : Indicator)
    (s : Session σ) :
    d.start p s =
      ({ d with
          status := .finished
          bitmap := some (Bitmap.withoutStorage d.region.width d.region.height) }, p, s) :=
  if_neg hsize

theorem check_congr (r : Region) {m n : Nat} (hm : r.template.contextCount ≤ m)
    (hn : r.template.contextCount ≤ n) : r.check m = r.check n := by
  unfold Region.check
  rw [if_neg (show ¬m < r.template.contextCount by omega),
    if_neg (show ¬n < r.template.contextCount by omega)]

omit [BitSource σ] in
theorem check_extend (r : Region) {s : Session σ} (hs : r.template.contextCount ≤ s.contexts.size)
    (kept : Array Context) : r.check (s.extend kept).contexts.size = r.check s.contexts.size := by
  refine check_congr r ?_ hs
  rw [Session.size_contexts_extend]
  omega

theorem start_extend (d : Resumable) (p : Indicator) {s : Session σ}
    (hs : d.region.template.contextCount ≤ s.contexts.size) (kept : Array Context) :
    d.start p (s.extend kept) =
      ((d.start p s).1, (d.start p s).2.1, (d.start p s).2.2.extend kept) := by
  by_cases hsize : Bitmap.ValidSize d.region.width d.region.height
  · have hcongr := check_extend d.region hs kept
    cases hcheck : d.region.check s.contexts.size with
    | error reason => rw [start_refused hsize hcheck, start_refused hsize (hcongr.trans hcheck)]
    | ok u =>
      obtain ⟨hcount, -⟩ := Region.check_eq_ok.1 hcheck
      obtain ⟨b, hb⟩ := Region.exists_blank hsize
      rw [start_opened hsize hcheck hb, start_opened hsize (hcongr.trans hcheck) hb]
      exact (underway_opened hsize hcount hb).step_extend p hs kept
  · rw [start_invalid hsize, start_invalid hsize]

theorem start_local (d : Resumable) (p : Indicator) :
    Session.Local d.region.template.contextCount
      fun s : Session σ => ((d.start p s).1, (d.start p s).2.2) := by
  intro s kept hs
  simp only [d.start_extend p hs kept]

theorem startWith_eq_start (d : Resumable) {call : Call} {s : Session σ}
    (hcall : call.Serves d.region s.contexts.size) :
    d.startWith call s = ((d.start call.indicator s).1, (d.start call.indicator s).2.2) :=
  Session.lend_eq_of_local (start_local d call.indicator) s hcall

/-- A start comes to the end, as decoding in one go does, or to a pause below the first row. -/
theorem start_cases (d : Resumable) (p : Indicator) (s : Session σ) :
    (d.start p s).1.Completes (d.start p s).2.2 (d.region.decode d.pixelwise s) ∨
    ∃ b, (d.start p s).1.Underway b ∧ (d.start p s).1.status = .paused ∧
      0 < (d.start p s).1.row ∧ (d.start p s).1.region = d.region ∧
      (d.start p s).2.2.contexts.size = s.contexts.size ∧
      d.region.template.contextCount ≤ s.contexts.size ∧
      (d.start p s).1.remaining b (d.start p s).2.2 = d.region.decode d.pixelwise s := by
  by_cases hsize : Bitmap.ValidSize d.region.width d.region.height
  · cases hcheck : d.region.check s.contexts.size with
    | error reason =>
      rw [start_refused hsize hcheck, Region.decode_refused hsize hcheck]
      exact .inl ⟨rfl, rfl⟩
    | ok u =>
      obtain ⟨hcount, hs⟩ := Region.check_eq_ok.1 hcheck
      obtain ⟨b, hb⟩ := Region.exists_blank hsize
      have h := underway_opened hsize hcount hb
      rw [start_opened hsize hcheck hb, Region.decode_eq_run hsize hcheck hb]
      rcases h.step_cases p hs with hend | ⟨b', h', hpaused, hrow, hremaining⟩
      · exact .inl hend
      · exact .inr ⟨b', h', hpaused, hrow, h.region_step p s, h.size_contexts_step p s, hs,
          hremaining⟩
  · rw [start_invalid hsize, Region.decode_invalid hsize]
    exact .inl ⟨rfl, rfl, rfl⟩

/-- A decode in steps completes as the decode in one go does, or has been paused in each call. -/
theorem decodeInSteps_cases (d : Resumable) {s : Session σ} {first : Call} {rest : List Call}
    (hcalls : ∀ call ∈ first :: rest, call.Serves d.region s.contexts.size) :
    (d.decodeInSteps first rest s).1.Completes (d.decodeInSteps first rest s).2
        (d.region.decode d.pixelwise s) ∨
      (d.decodeInSteps first rest s).1.status = .paused ∧ rest.length < d.region.height := by
  have hrest : ∀ call ∈ rest, call.Serves d.region s.contexts.size :=
    fun call hmem => hcalls call (List.mem_cons_of_mem first hmem)
  unfold decodeInSteps
  rw [startWith_eq_start d (hcalls first List.mem_cons_self)]
  rcases start_cases d first.indicator s with
    hend | ⟨b, h, hpaused, hrow, hregion, hsize, hs, hremaining⟩
  · rw [hend.resumeAll_eq rest]
    exact .inl hend
  · have hall := h.resumeAll_cases rest hpaused (by rw [hregion, hsize]; exact hs)
      (by rw [hregion, hsize]; exact hrest)
    rw [hremaining, hregion] at hall
    rcases hall with hend | ⟨hstill, hlength⟩
    · exact .inl hend
    · exact .inr ⟨hstill, by omega⟩

/-- **Decoding in steps is decoding in one go.**  A new decode of a region is started and then
resumed as long as it is paused, each time with pauses of the call's own and with all contexts or at
least those of the template.  When it is no longer paused, and that is so after as many resumptions
as there are rows, it is finished if and only if decoding in one go succeeds, and then holds that
bitmap; it has failed if and only if decoding in one go fails, and then for that reason; and the
source and the contexts are left as they are after decoding in one go. -/
theorem decodeInSteps_eq_decode (r : Region) (pixelwise : Bool) (s : Session σ) (first : Call)
    (rest : List Call)
    (hcalls : ∀ call ∈ first :: rest,
      s.contexts.size ≤ call.contexts ∨ r.template.contextCount ≤ call.contexts) :
    let d : Resumable := { region := r, pixelwise := pixelwise }
    let out := d.decodeInSteps first rest s
    let full := r.decode pixelwise s
    (r.height ≤ rest.length → out.1.status ≠ .paused) ∧
      (out.1.status ≠ .paused →
        (out.1.status = .finished ↔ ∃ b, full.1 = .ok b) ∧
        (∀ b, full.1 = .ok b → out.1.bitmap = some b) ∧
        ((∃ cause, out.1.status = .failed cause) ↔ ∃ reason, full.1 = .error reason) ∧
        (∀ reason, full.1 = .error reason → out.1.status = .failed (.refused reason)) ∧
        out.2 = full.2) := by
  intro d out full
  have hcases : out.1.Completes out.2 full ∨ out.1.status = .paused ∧ rest.length < r.height :=
    decodeInSteps_cases d hcalls
  refine ⟨fun hlength hpaused => ?_, fun hpaused => ?_⟩
  · rcases hcases with hend | ⟨-, hlt⟩
    · exact hend.not_paused hpaused
    · omega
  · rcases hcases with hend | ⟨hstill, -⟩
    · clear_value full
      rcases full with ⟨reason | b, s'⟩
      · obtain ⟨hstatus, hs⟩ := hend
        rw [hstatus]
        simp [hs]
      · obtain ⟨hstatus, hbitmap, hs⟩ := hend
        rw [hstatus, hbitmap]
        simp [hs]
    · exact absurd hstill hpaused

/-- Two rows decoded with a pause after the first, with more contexts than the template has and only
those of the template handed over when the decode is resumed. -/
theorem decodeInSteps_eq_decode_pause :
    let r : Region := { width := 3, height := 2, template := .t3 }
    let s : Session Script :=
      ⟨⟨[true, false, true, true, true, false], 0⟩, r.freshContexts.push {}, #[]⟩
    let first : Call := ⟨⟨fun _ => true, 0⟩, 1030⟩
    let rest : List Call := [⟨⟨fun _ => true, 0⟩, 1024⟩, ⟨.never, 1024⟩]
    (∀ call ∈ first :: rest,
      s.contexts.size ≤ call.contexts ∨ r.template.contextCount ≤ call.contexts) ∧
    let d : Resumable := { region := r, pixelwise := false }
    let out := d.decodeInSteps first rest s
    let full := r.decode false s
    (r.height ≤ rest.length → out.1.status ≠ .paused) ∧
      (out.1.status ≠ .paused →
        (out.1.status = .finished ↔ ∃ b, full.1 = .ok b) ∧
        (∀ b, full.1 = .ok b → out.1.bitmap = some b) ∧
        ((∃ cause, out.1.status = .failed cause) ↔ ∃ reason, full.1 = .error reason) ∧
        (∀ reason, full.1 = .error reason → out.1.status = .failed (.refused reason)) ∧
        out.2 = full.2) := by
  intro r s first rest
  have hcalls : ∀ call ∈ first :: rest,
      s.contexts.size ≤ call.contexts ∨ r.template.contextCount ≤ call.contexts := by
    intro call hmem
    have hcount : r.template.contextCount = 1024 := rfl
    rw [hcount]
    simp only [first, rest, List.mem_cons, List.not_mem_nil, or_false] at hmem
    rcases hmem with rfl | rfl | rfl
    · exact .inr (show 1024 ≤ 1030 by decide)
    · exact .inr (Nat.le_refl 1024)
    · exact .inr (Nat.le_refl 1024)
  exact ⟨hcalls, decodeInSteps_eq_decode r false s first rest hcalls⟩

end Resumable

end Bilevel
