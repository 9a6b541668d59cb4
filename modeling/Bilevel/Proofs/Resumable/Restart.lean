import Bilevel.Proofs.Resumable.Batch

/-!
# Starting again

Whatever a decode has been through, one that is started again does what a new one does.

* `Request.outcome` — all that a caller sees of a call.
* `renewed` — a new decode with the settings of another.
* `start_eq_start_renewed` — a start that passes its check sets every field that it does not
  keep from the settings.
* `Idle` — a decode of a size that is not valid never gets further than this.
* `start_serveAll_eq_start` — a start after any calls has the outcome of a start before all calls,
  and so has every call that follows.
-/

set_option autoImplicit false

namespace Bilevel.Resumable

variable {d : Resumable}

/-! ## What is seen of a call -/

/-- What a caller gets back from a call. -/
def Request.Outcome : Request → Type
  | @start σ _ _ _ => Resumable × Indicator × Session σ
  | @resume σ _ _ _ => Resumable × Indicator × Session σ
  | .take => Option Bitmap × Resumable

def Request.outcome (d : Resumable) : (request : Request) → request.Outcome
  | @start _ _ p s => d.start p s
  | @resume _ _ p s => d.resume p s
  | .take => d.takeBitmap

/-- A new decode with the settings of another. -/
def renewed (d : Resumable) : Resumable := { region := d.region, pixelwise := d.pixelwise }

section

variable {σ : Type} [BitSource σ]

/-- Of what was before, a decode just before its first row still has the rows noted by the latest
call, and a step notes its own. -/
theorem step_opened_renewed (d : Resumable) (b : Bitmap) (p : Indicator) (s : Session σ) :
    (d.opened b).step p s = (d.renewed.opened b).step p s := rfl

theorem start_eq_start_renewed (hsize : Bitmap.ValidSize d.region.width d.region.height)
    {s : Session σ} (hcheck : d.region.check s.contexts.size = .ok ()) (p : Indicator) :
    d.start p s = d.renewed.start p s := by
  obtain ⟨b, hb⟩ := Region.exists_blank hsize
  rw [start_opened hsize hcheck hb, step_opened_renewed]
  exact (start_opened (d := d.renewed) hsize hcheck hb p).symm

end

/-! ## Sizes that are not valid -/

/-- Not paused, and new but for its status and its bitmap. -/
structure Idle (d : Resumable) : Prop where
  status : d.status ≠ .paused
  fields : d = { d.renewed with status := d.status, bitmap := d.bitmap }

theorem idle_new (r : Region) (pixelwise : Bool) :
    Idle { region := r, pixelwise := pixelwise } := ⟨nofun, rfl⟩

/-- Where the size is not valid no call gets to the rows. -/
theorem Idle.serve (h : d.Idle) (hsize : ¬Bitmap.ValidSize d.region.width d.region.height)
    (request : Request) : (request.serve d).Idle := by
  obtain ⟨hstatus, hfields⟩ := h
  cases request with
  | start p s =>
    rw [Request.serve, start_invalid hsize]
    rw [hfields]
    exact ⟨nofun, rfl⟩
  | resume p s =>
    rw [Request.serve, resume_of_not_paused hstatus]
    exact ⟨hstatus, hfields⟩
  | take =>
    rw [Request.serve, takeBitmap]
    rw [hfields]
    exact ⟨hstatus, rfl⟩

theorem idle_serveAll {r : Region} (hsize : ¬Bitmap.ValidSize r.width r.height) (pixelwise : Bool)
    (requests : List Request) :
    (serveAll { region := r, pixelwise := pixelwise } requests).Idle := by
  have hall := serveAll_induction (P := fun d => d.region = r ∧ d.Idle)
    (fun d request h => ⟨(settings_serve d request).1.trans h.1,
      h.2.serve (by rw [h.1]; exact hsize) request⟩)
    (d := { region := r, pixelwise := pixelwise }) ⟨rfl, idle_new r pixelwise⟩ requests
  exact hall.2

theorem Idle.start_eq (h : d.Idle) (hsize : ¬Bitmap.ValidSize d.region.width d.region.height)
    {σ : Type} [BitSource σ] (p : Indicator) (s : Session σ) :
    d.start p s = d.renewed.start p s := by
  have hrenewed : ¬Bitmap.ValidSize d.renewed.region.width d.renewed.region.height := hsize
  rw [start_invalid hsize, start_invalid hrenewed, h.fields]
  rfl

/-- **A start erases all history.**  After any calls, in any order and with any sources, contexts
and pauses, a start whose size is not valid, or that has all adaptive pixels and enough contexts,
leaves the same decode, field by field, as if it were the first call, and the same indicator, source
and contexts; and so does every later call, after any others, and gives back the same. -/
theorem start_serveAll_eq_start (r : Region) (pixelwise : Bool) (requests : List Request)
    {σ : Type} [BitSource σ] (p : Indicator) (s : Session σ)
    (h : ¬Bitmap.ValidSize r.width r.height ∨
      r.adaptivePixels.length = r.template.adaptiveCount ∧
        r.template.contextCount ≤ s.contexts.size) :
    let new : Resumable := { region := r, pixelwise := pixelwise }
    let used := new.serveAll requests
    used.start p s = new.start p s ∧
      ∀ (later : List Request) (request : Request),
        request.outcome ((used.start p s).1.serveAll later) =
          request.outcome ((new.start p s).1.serveAll later) := by
  intro new used
  obtain ⟨hregion, hpixelwise⟩ : used.region = r ∧ used.pixelwise = pixelwise :=
    settings_serveAll new requests
  have hrenewed : used.renewed = new := by
    unfold renewed
    rw [hregion, hpixelwise]
  have hstart : used.start p s = new.start p s := by
    rw [← hrenewed]
    by_cases hsize : Bitmap.ValidSize r.width r.height
    · obtain ⟨hcount, hcontexts⟩ := h.resolve_left (not_not_intro hsize)
      refine start_eq_start_renewed ?_ ?_ p
      · rw [hregion]
        exact hsize
      · rw [hregion]
        exact Region.check_eq_ok.2 ⟨hcount, hcontexts⟩
    · have hidle : used.Idle := idle_serveAll hsize pixelwise requests
      exact hidle.start_eq (by rw [hregion]; exact hsize) p s
  refine ⟨hstart, fun later request => ?_⟩
  rw [hstart]

/-- A decode whose first row is typical is paused below it, its bitmap is taken, and it is started
again. -/
theorem start_serveAll_eq_start_typical :
    let r : Region := { width := 3, height := 3, template := .t3, typicalPrediction := true }
    let s : Session Script := ⟨⟨[true, true, false, true, true], 0⟩, r.freshContexts, #[]⟩
    let requests : List Request := [.start ⟨fun _ => true, 0⟩ s, .take]
    let new : Resumable := { region := r, pixelwise := false }
    let used := new.serveAll requests
    (r.adaptivePixels.length = r.template.adaptiveCount ∧
      r.template.contextCount ≤ s.contexts.size) ∧
    (used.status = .paused ∧ used.row = 1 ∧ used.typical = true ∧ used.bitmap = none) ∧
    used.start .never s = new.start .never s ∧
      ∀ (later : List Request) (request : Request),
        request.outcome ((used.start .never s).1.serveAll later) =
          request.outcome ((new.start .never s).1.serveAll later) := by
  intro r s requests new used
  have hcontexts : r.template.contextCount ≤ s.contexts.size :=
    Nat.le_of_eq Array.size_replicate.symm
  exact ⟨⟨rfl, hcontexts⟩, by decide +kernel,
    start_serveAll_eq_start r false requests .never s (.inr ⟨rfl, hcontexts⟩)⟩

end Bilevel.Resumable
