import Bilevel.Proofs.Region.Footprint
import Bilevel.Proofs.Region.TopRows
import Bilevel.Proofs.Resumable.Batch

/-!
# The rows of a decode that has not come to its end

* `Resumable.decodeInCalls` — a start and any number of further calls, paused or not.
* `Resumable.Reached` — how far a decode has come, by the rows that have been decoded in one go.
* `Underway.step_reached`, `Reached.resumeWith`, `decodeInCalls_reached` — one step, one further
  call, and all of them.
* `decodeInCalls_rows` — the rows above the next one are those of a region that ends there, and the
  rows below it are white.
-/

set_option autoImplicit false

namespace Bilevel.Resumable

variable {σ : Type} [BitSource σ] {d : Resumable} {b : Bitmap} {r : Region} {strategy : Strategy}
  {c : Canvas} {s s₀ : Session σ}

/-- Starts a decode, and goes on with each further call, whether it is paused or not. -/
def decodeInCalls (d : Resumable) (first : Call) (rest : List Call) (s : Session σ) :
    Resumable × Session σ :=
  rest.foldl (fun out call => out.1.resumeWith call out.2) (d.startWith first s)

theorem resumeWith_of_not_paused (hstatus : d.status ≠ .paused) (call : Call) (s : Session σ) :
    d.resumeWith call s = (d, s) := by
  have hresume : ∀ s : Session σ, d.resume call.indicator s = (d, call.indicator, s) :=
    resume_of_not_paused hstatus call.indicator
  have hlocal : Session.Local 0 fun s : Session σ =>
      ((d.resume call.indicator s).1, (d.resume call.indicator s).2.2) := by
    intro s kept _
    simp only [hresume]
  unfold resumeWith
  rw [Session.lend_eq_of_local hlocal s (.inr (Nat.zero_le _)), hresume]

/-! ## How far a decode has come -/

/-- How far the decode of a region from this canvas and this session has come: it is paused below
rows that are decoded in one go, or finished, or it has failed in the row below such rows. -/
inductive Reached (r : Region) (strategy : Strategy) (c : Canvas) (s₀ : Session σ) :
    Resumable → Session σ → Prop where
  | paused {d : Resumable} {b : Bitmap} {s : Session σ} (underway : d.Underway b)
      (status : d.status = .paused) (region : d.region = r)
      (plan : (d.region.plan d.pixelwise).strategy = strategy)
      (run : (r.decodeRows strategy d.row c).run s₀ = (.ok ⟨b, d.row, d.typical⟩, s)) :
      Reached r strategy c s₀ d s
  | finished {d : Resumable} {s : Session σ} (status : d.status = .finished) :
      Reached r strategy c s₀ d s
  | failed {d : Resumable} {s s' : Session σ} {cause : StopCause} {mid held : Canvas}
      (status : d.status = .failed cause) (bitmap : d.bitmap = some held.bitmap)
      (row : d.row ≤ r.height)
      (run : (r.decodeRows strategy d.row c).run s₀ = (.ok mid, s')) (onRow : mid.OnRow held) :
      Reached r strategy c s₀ d s

/-- Going on below rows that are decoded in one go. -/
theorem Underway.step_reached (h : d.Underway b)
    (hrun : (d.region.decodeRows (d.region.plan d.pixelwise).strategy d.row c).run s₀ =
      (.ok ⟨b, d.row, d.typical⟩, s))
    (hs : d.region.template.contextCount ≤ s.contexts.size) (p : Indicator) :
    Reached d.region (d.region.plan d.pixelwise).strategy c s₀ (d.step p s).1 (d.step p s).2.2 := by
  have hcases := h.step_cases p hs
  obtain ⟨hregion, hpixelwise⟩ := settings_step d p s
  obtain ⟨k, mid, s', hk, hmid, hend⟩ := advance_rows d.region (d.region.plan d.pixelwise)
    (d.region.height - d.row) ⟨b, d.row, d.typical⟩ p s
  have hall : (d.region.decodeRows (d.region.plan d.pixelwise).strategy (d.row + k) c).run s₀ =
      (.ok mid, s') := by
    rw [Region.decodeRows_add, Dialogue.run_bind, hrun]
    exact hmid
  obtain ⟨-, hrow⟩ := (d.region.decodeRows_holds _ k _).run_ok hmid
  simp only at hrow
  rcases hend with ⟨-, p', hadv⟩ | ⟨-, p', hadv⟩ | ⟨hlt, held, reason, p', s'', hstop, hadv⟩
  · rw [h.step_eq, hadv]
    exact .finished rfl
  · have hpaused : (d.step p s).1.status = .paused := by rw [h.step_eq, hadv]
    rcases hcases with hend | ⟨b', h', -, -, -⟩
    · exact absurd hpaused hend.not_paused
    · refine .paused h' hpaused hregion (by rw [hregion, hpixelwise]) ?_
      have hb := h'.bitmap
      rw [h.step_eq, hadv] at hb ⊢
      cases hb
      rw [← hrow] at hall
      exact hall
  · have hheld := (d.region.decodeRow_holds _ mid).run_error hstop
    have hrow' : held.row ≤ d.region.height := by
      rw [hheld.row, hrow]
      omega
    rw [← hrow, ← hheld.row] at hall
    rw [h.step_eq, hadv]
    exact .failed rfl rfl hrow' hall hheld

namespace Reached

/-- Each further call brings a decode on or leaves it alone. -/
theorem resumeWith (h : Reached r strategy c s₀ d s) {call : Call}
    (hcontexts : r.template.contextCount ≤ s₀.contexts.size)
    (hcall : call.Serves r s₀.contexts.size) :
    Reached r strategy c s₀ (d.resumeWith call s).1 (d.resumeWith call s).2 := by
  cases h with
  | paused underway status region plan run =>
    subst region plan
    have hsize := Dialogue.size_contexts_run
      (d.region.decodeRows (d.region.plan d.pixelwise).strategy d.row c) s₀
    rw [run] at hsize
    simp only at hsize
    rw [underway.resumeWith_eq_step status (hsize ▸ hcontexts) (hsize ▸ hcall)]
    exact underway.step_reached run (hsize ▸ hcontexts) call.indicator
  | finished status =>
    rw [resumeWith_of_not_paused (status ▸ nofun)]
    exact .finished status
  | failed status bitmap row run onRow =>
    rw [resumeWith_of_not_paused (status ▸ nofun)]
    exact .failed status bitmap row run onRow

theorem foldl (h : Reached r strategy c s₀ d s) {calls : List Call}
    (hcontexts : r.template.contextCount ≤ s₀.contexts.size)
    (hcalls : ∀ call ∈ calls, call.Serves r s₀.contexts.size) :
    let out := calls.foldl (fun out call => out.1.resumeWith call out.2) (d, s)
    Reached r strategy c s₀ out.1 out.2 := by
  induction calls generalizing d s with
  | nil => exact h
  | cons call calls ih =>
    exact ih (h.resumeWith hcontexts (hcalls call List.mem_cons_self)) fun call' hmem =>
      hcalls call' (List.mem_cons_of_mem call hmem)

end Reached

/-- All calls together, from a blank canvas. -/
theorem decodeInCalls_reached (hsize : Bitmap.ValidSize d.region.width d.region.height)
    (hcount : d.region.adaptivePixels.length = d.region.template.adaptiveCount)
    (hcontexts : d.region.template.contextCount ≤ s.contexts.size)
    (hb : Bitmap.blank d.region.width d.region.height = .ok b) {first : Call} {rest : List Call}
    (hcalls : ∀ call ∈ first :: rest, call.Serves d.region s.contexts.size) :
    Reached d.region (d.region.plan d.pixelwise).strategy ⟨b, 0, false⟩ s
      (d.decodeInCalls first rest s).1 (d.decodeInCalls first rest s).2 := by
  have hcheck : d.region.check s.contexts.size = .ok () := Region.check_eq_ok.2 ⟨hcount, hcontexts⟩
  have hfirst : Reached d.region (d.region.plan d.pixelwise).strategy ⟨b, 0, false⟩ s
      (d.startWith first s).1 (d.startWith first s).2 := by
    rw [startWith_eq_start d (hcalls first List.mem_cons_self), start_opened hsize hcheck hb]
    exact (underway_opened hsize hcount hb).step_reached rfl hcontexts first.indicator
  exact hfirst.foldl hcontexts fun call hmem => hcalls call (List.mem_cons_of_mem first hmem)

/-! ## Settled rows -/

/-- Where a number of rows have been decoded in one go and no more than some of the next ones have
been written to: the rows above are those of a region that ends there, and the rows below are
white. -/
theorem settled_rows (hsize : Bitmap.ValidSize r.width r.height)
    (hcount : r.adaptivePixels.length = r.template.adaptiveCount)
    (hcontexts : r.template.contextCount ≤ s.contexts.size)
    (hb : Bitmap.blank r.width r.height = .ok b) {pixelwise : Bool} {k n : Nat}
    (hk : k ≤ r.height) {mid held : Canvas} {s' : Session σ}
    (hrun : (r.decodeRows (r.plan pixelwise).strategy k ⟨b, 0, false⟩).run s = (.ok mid, s'))
    (hheld : mid.Wrote n held) :
    (1 ≤ k → ∀ pixelwise', ∃ top, (r.top k).decode pixelwise' s = (.ok top, s') ∧
      top.height = k ∧
      ∀ y < k, ∃ bytes, top.row? y = some bytes ∧ held.bitmap.row? y = some bytes) ∧
    ∀ y, k + n ≤ y → y < r.height →
      held.bitmap.row? y = some (Array.replicate held.bitmap.stride 0) := by
  obtain ⟨hwrote, hrow⟩ := (r.decodeRows_holds _ k ⟨b, 0, false⟩).run_ok hrun
  have hpacked : b.Packed := .blank hb
  have hpos : 0 < b.width := Bitmap.width_blank hb ▸ hsize.1
  have hmid := hwrote.packed hpacked
  have hheight : mid.bitmap.height = r.height := hwrote.height.trans (Bitmap.height_blank hb)
  have hmidpos : 0 < mid.bitmap.width := hwrote.width ▸ hpos
  simp only [Nat.zero_add] at hrow
  constructor
  · intro hone pixelwise'
    obtain ⟨top, hdecode, htop, hrows⟩ :=
      Region.decode_top hsize hcount hcontexts hb hone hk hrun pixelwise'
    refine ⟨top, hdecode, htop, fun y hy => ?_⟩
    have hy' : y < mid.bitmap.height := by omega
    refine ⟨_, (hrows y hy).trans (hmid.row?_eq hmidpos hy'), ?_⟩
    rw [hheld.row?_eq hmid hmidpos hy' (by omega)]
    exact hmid.row?_eq hmidpos hy'
  · intro y hy hheight'
    have hy' : y < b.height := Bitmap.height_blank hb ▸ hheight'
    rw [hheld.row?_eq hmid hmidpos (by omega) (by omega),
      hwrote.row?_eq hpacked hpos hy' (.inr (by simp only; omega)),
      hpacked.row?_white hpos hy' fun x _ => Bitmap.bit_blank hb x y, hheld.stride, hwrote.stride]

/-- **The rows above the next one are settled, and those below it are white.**  A new decode of a
region of valid size, with all adaptive pixels wherever they lie, is started and resumed any number
of times, each time with pauses of the call's own and with all contexts or at least those of the
template.  If it is then paused or has failed, it still has its bitmap; and if any row is above the
next one, decoding the region of just those rows in one go succeeds, under whatever strategy, with
just those rows.  At a pause the source and the contexts are left as they are after that, and every
row from the next one on is white; after a failure every row below the next one is white. -/
theorem decodeInCalls_rows (r : Region) (pixelwise : Bool)
    (hsize : Bitmap.ValidSize r.width r.height)
    (hcount : r.adaptivePixels.length = r.template.adaptiveCount) (s : Session σ)
    (hcontexts : r.template.contextCount ≤ s.contexts.size) (first : Call) (rest : List Call)
    (hcalls : ∀ call ∈ first :: rest,
      s.contexts.size ≤ call.contexts ∨ r.template.contextCount ≤ call.contexts) :
    let out := decodeInCalls { region := r, pixelwise := pixelwise } first rest s
    out.1.status = .paused ∨ (∃ cause, out.1.status = .failed cause) →
      ∃ held, out.1.bitmap = some held ∧
        (1 ≤ out.1.row → ∀ pixelwise', ∃ top s',
          (r.top out.1.row).decode pixelwise' s = (.ok top, s') ∧ top.height = out.1.row ∧
          (∀ y < out.1.row, ∃ bytes, top.row? y = some bytes ∧ held.row? y = some bytes) ∧
          (out.1.status = .paused → out.2 = s')) ∧
        (∀ y, out.1.row ≤ y → y < r.height → out.1.status = .paused ∨ out.1.row ≠ y →
          held.row? y = some (Array.replicate held.stride 0)) := by
  intro out hend
  obtain ⟨b, hb⟩ := Region.exists_blank hsize
  have hreached : Reached r (r.plan pixelwise).strategy ⟨b, 0, false⟩ s out.1 out.2 :=
    decodeInCalls_reached (d := { region := r, pixelwise := pixelwise }) hsize hcount hcontexts hb
      hcalls
  clear_value out
  obtain ⟨d', s'⟩ := out
  cases hreached with
  | paused underway status region plan run =>
    rename_i b'
    have hrow : d'.row ≤ r.height := region ▸ underway.row
    have hsame : Canvas.Wrote ⟨b', d'.row, d'.typical⟩ 0 ⟨b', d'.row, d'.typical⟩ :=
      Canvas.wrote_same _ _ _ _ _ 0
    obtain ⟨habove, hbelow⟩ := settled_rows hsize hcount hcontexts hb hrow run hsame
    refine ⟨b', underway.bitmap, fun hone pixelwise' => ?_, fun y hy hlt _ => hbelow y hy hlt⟩
    obtain ⟨top, hdecode, htop, hrows⟩ := habove hone pixelwise'
    exact ⟨top, s', hdecode, htop, hrows, fun _ => rfl⟩
  | finished status =>
    rw [status] at hend
    rcases hend with hpaused | ⟨cause, hfailed⟩
    · cases hpaused
    · cases hfailed
  | failed status bitmap row run onRow =>
    rename_i s'' cause mid held
    have hnot : d'.status ≠ .paused := status ▸ nofun
    obtain ⟨habove, hbelow⟩ := settled_rows hsize hcount hcontexts hb row run onRow.wrote
    refine ⟨held.bitmap, bitmap, fun hone pixelwise' => ?_, fun y hy hlt hother => ?_⟩
    · obtain ⟨top, hdecode, htop, hrows⟩ := habove hone pixelwise'
      exact ⟨top, s'', hdecode, htop, hrows, fun hpaused => absurd hpaused hnot⟩
    · have hne := hother.resolve_left hnot
      exact hbelow y (by omega) hlt

/-- A region whose adaptive pixel lies in the row below, paused after its first row and then decoded
until the bits run out in its third row. -/
theorem decodeInCalls_rows_short :
    let r : Region := { width := 3, height := 4, template := .t3, adaptivePixels := [⟨1, 1⟩] }
    let s : Session Script :=
      ⟨⟨[true, false, true, true, true, false, true, true], 0⟩, r.freshContexts, #[]⟩
    let first : Call := ⟨⟨fun _ => true, 0⟩, 1024⟩
    let rest : List Call := [⟨.never, 1030⟩]
    let out := decodeInCalls { region := r, pixelwise := false } first rest s
    (Bitmap.ValidSize r.width r.height ∧
      r.adaptivePixels.length = r.template.adaptiveCount ∧
      r.template.contextCount ≤ s.contexts.size ∧
      (∀ call ∈ first :: rest,
        s.contexts.size ≤ call.contexts ∨ r.template.contextCount ≤ call.contexts) ∧
      out.1.status = .failed (.refused .unexpectedEnd) ∧ out.1.row = 2) ∧
    ∃ held, out.1.bitmap = some held ∧
      (1 ≤ out.1.row → ∀ pixelwise', ∃ top s',
        (r.top out.1.row).decode pixelwise' s = (.ok top, s') ∧ top.height = out.1.row ∧
        (∀ y < out.1.row, ∃ bytes, top.row? y = some bytes ∧ held.row? y = some bytes) ∧
        (out.1.status = .paused → out.2 = s')) ∧
      (∀ y, out.1.row ≤ y → y < r.height → out.1.status = .paused ∨ out.1.row ≠ y →
        held.row? y = some (Array.replicate held.stride 0)) := by
  intro r s first rest out
  have hsize : Bitmap.ValidSize r.width r.height := by decide
  have hcontexts : r.template.contextCount ≤ s.contexts.size :=
    Nat.le_of_eq Array.size_replicate.symm
  have hcalls : ∀ call ∈ first :: rest,
      s.contexts.size ≤ call.contexts ∨ r.template.contextCount ≤ call.contexts := by
    intro call hmem
    have hcount : r.template.contextCount = 1024 := rfl
    rw [hcount]
    simp only [first, rest, List.mem_cons, List.not_mem_nil, or_false] at hmem
    rcases hmem with rfl | rfl
    · exact .inr (Nat.le_refl 1024)
    · exact .inr (show 1024 ≤ 1030 by decide)
  -- with all contexts lent, the calls are those of the decode itself
  have hout : ∀ d : Resumable, (d.start first.indicator s).2.2.contexts.size ≤ 1030 →
      d.decodeInCalls first rest s =
        (((d.start first.indicator s).1.resume .never (d.start first.indicator s).2.2).1,
          ((d.start first.indicator s).1.resume .never (d.start first.indicator s).2.2).2.2) := by
    intro d hmid
    have hfirst : d.startWith first s =
        ((d.start first.indicator s).1, (d.start first.indicator s).2.2) :=
      Session.lend_whole _ s (Nat.le_of_eq Array.size_replicate)
    show (d.startWith first s).1.resumeWith ⟨.never, 1030⟩ (d.startWith first s).2 = _
    rw [hfirst]
    exact Session.lend_whole _ _ hmid
  have hmid : (start { region := r, pixelwise := false } first.indicator s).2.2.contexts.size ≤
      1030 := by decide +kernel
  have hstatus : out.1.status = .failed (.refused .unexpectedEnd) := by
    unfold out
    rw [hout _ hmid]
    decide +kernel
  have hrow : out.1.row = 2 := by
    unfold out
    rw [hout _ hmid]
    decide +kernel
  exact ⟨⟨hsize, rfl, hcontexts, hcalls, hstatus, hrow⟩,
    decodeInCalls_rows r false hsize rfl s hcontexts first rest hcalls (.inr ⟨_, hstatus⟩)⟩

end Bilevel.Resumable
