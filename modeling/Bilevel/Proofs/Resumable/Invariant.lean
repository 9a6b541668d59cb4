import Bilevel.Proofs.Bitmap.WellFormed
import Bilevel.Proofs.Region.Footprint
import Bilevel.Proofs.Resumable.Batch

/-!
# What holds of a decode between any two calls

In whatever order a caller starts, resumes and takes the bitmap, the fields of the decode belong
together.

* `Bitmap.IsOf` — a bitmap as decoding a region makes them; `IsOf.wrote` — writing rows keeps that.
* `advance_wrote` — where decoding rows with pauses leaves off, and which rows it writes to.
* `Resumable.Coherent` — the fields of a decode that belong together.
* `Coherent.step`, `Coherent.start`, `Coherent.resume`, `Coherent.serve` — what each call keeps.
* `status_serveAll_eq_ready` — a decode is ready as long as no call has started it.
* `reachable_fields` — what the fields are in every state that calls lead to.
* `every_bitmap_wellFormed` — all bitmaps that are made, written to or decoded have their format.
-/

set_option autoImplicit false

namespace Bilevel

/-! ## Bitmaps of a region -/

namespace Bitmap

variable {b : Bitmap} {r : Region}

/-- A bitmap as decoding a region makes them: of its size, with pixels just if that is valid. -/
structure IsOf (b : Bitmap) (r : Region) : Prop where
  width : b.width = r.width
  height : b.height = r.height
  storage : b.hasStorage = true ↔ ValidSize r.width r.height
  format : b.WellFormed

theorem isOf_withoutStorage (hsize : ¬ValidSize r.width r.height) :
    (withoutStorage r.width r.height).IsOf r :=
  ⟨rfl, rfl, iff_of_false Bool.false_ne_true hsize, wellFormed_withoutStorage _ _⟩

theorem isOf_blank (hb : blank r.width r.height = .ok b) : b.IsOf r := by
  obtain ⟨hsize, -⟩ := blank_eq_ok_iff.1 hb
  have hwidth := width_blank hb
  have hheight := height_blank hb
  have hpacked := Packed.blank hb
  have hstorage : b.hasStorage = true :=
    hpacked.hasStorage (hwidth ▸ hsize.1) (hheight ▸ hsize.2.1)
  exact ⟨hwidth, hheight, iff_of_true hstorage hsize, hpacked.wellFormed⟩

theorem IsOf.wrote (h : b.IsOf r) {row rows : Nat} {typical : Bool} {c : Canvas}
    (hc : Canvas.Wrote ⟨b, row, typical⟩ rows c) : c.bitmap.IsOf r := by
  refine ⟨hc.width.trans h.width, hc.height.trans h.height, ?_, h.format.congr hc.size hc.packed⟩
  rw [hasStorage_iff, hc.size, ← hasStorage_iff]
  exact h.storage

end Bitmap

namespace Resumable

variable {σ : Type} [BitSource σ] {d : Resumable} {r : Region}

/-- Decoding rows writes to no other rows.  The end is below the last of them, a pause below some of
them, and a failure in one of them. -/
theorem advance_wrote (r : Region) (plan : Plan) (rows : Nat) (c : Canvas) (p : Indicator)
    (s : Session σ) :
    let out := advance r plan rows c p s
    c.Wrote rows out.2.1 ∧
      ((out.1 = .finished ∧ out.2.1.row = c.row + rows) ∨
        (out.1 = .paused ∧ c.row < out.2.1.row ∧ out.2.1.row ≤ c.row + rows) ∨
        ∃ reason, out.1 = .failed (.refused reason) ∧
          c.row ≤ out.2.1.row ∧ out.2.1.row < c.row + rows) := by
  intro out
  obtain ⟨k, mid, s', hk, hmid, hend⟩ := advance_rows r plan rows c p s
  obtain ⟨hwrote, hrow⟩ := (r.decodeRows_holds plan.strategy k c).run_ok hmid
  have hall : c.Wrote rows mid := by
    refine hwrote.trans (Canvas.wrote_same _ _ mid.row _ mid.typical 0) hk ?_ ?_
    · omega
    · omega
  rcases hend with ⟨rfl, p', hadv⟩ | ⟨hpos, p', hadv⟩ | ⟨hlt, held, reason, p', s'', hrun, hadv⟩
  · rw [show out = (.finished, mid, p', s') from hadv]
    exact ⟨hall, .inl ⟨rfl, hrow⟩⟩
  · rw [show out = (.paused, mid, p', s') from hadv]
    exact ⟨hall, .inr (.inl ⟨rfl, by simp only; omega, by simp only; omega⟩)⟩
  · have hheld := (r.decodeRow_holds plan.strategy mid).run_error hrun
    have hrow' := hheld.row
    rw [show out = (.failed (.refused reason), held, p', s'') from hadv]
    exact ⟨hwrote.trans hheld.wrote hk (by omega) (by omega),
      .inr (.inr ⟨reason, rfl, by simp only; omega, by simp only; omega⟩)⟩

/-! ## The fields that belong together -/

/-- The other fields are as they must be under a status. -/
def StandsAs (d : Resumable) : Status → Prop
  | .ready => d.row = 0
  -- A pause comes after a row, and what is paused can be resumed.
  | .paused => 1 ≤ d.row ∧ d.coding = some .arithmetic ∧ d.updated.bottom = d.row
  | .finished =>
    d.row = 0 ∧
      (Bitmap.ValidSize d.region.width d.region.height → d.updated.bottom = d.region.height)
  | .failed cause => cause ≠ .noCoding

/-- The fields of a decode belong together. -/
structure Coherent (d : Resumable) : Prop where
  status : d.StandsAs d.status
  row : d.row ≤ d.region.height
  coding : d.coding.isSome = d.plan.isSome
  plan : ∀ plan, d.plan = some plan → plan = d.region.plan d.pixelwise
  bitmap : ∀ b, d.bitmap = some b → b.IsOf d.region
  updated : d.updated = {} ∨
    d.updated.left = 0 ∧ d.updated.right = d.region.width ∧
      d.updated.top ≤ d.updated.bottom ∧ d.updated.bottom ≤ d.region.height
  invalid : ¬Bitmap.ValidSize d.region.width d.region.height → d.plan = none ∧ d.row = 0

theorem coherent_new (r : Region) (pixelwise : Bool) :
    Coherent { region := r, pixelwise := pixelwise } where
  status := rfl
  row := Nat.zero_le _
  coding := rfl
  plan := nofun
  bitmap := nofun
  updated := .inl rfl
  invalid _ := ⟨rfl, rfl⟩

namespace Coherent

theorem standsAs (h : d.Coherent) {status : Status} (heq : d.status = status) :
    d.StandsAs status := by
  rw [← heq]
  exact h.status

theorem refused (h : d.Coherent) (reason : Failure) :
    Coherent { d with status := .failed (.refused reason) } :=
  { h with status := nofun }

theorem withoutBitmap (h : d.Coherent) : Coherent { d with bitmap := none } :=
  { h with status := h.status, bitmap := nofun }

/-- A decode that has a coding has a valid size and the plan of its region. -/
theorem exists_plan (h : d.Coherent) (hcoding : d.coding = some .arithmetic) :
    Bitmap.ValidSize d.region.width d.region.height ∧
      d.plan = some (d.region.plan d.pixelwise) := by
  have hsome : d.plan.isSome = true := by
    rw [← h.coding, hcoding]
    rfl
  obtain ⟨plan, hplan⟩ := Option.isSome_iff_exists.1 hsome
  refine ⟨Classical.byContradiction fun hsize => ?_, ?_⟩
  · rw [(h.invalid hsize).1] at hplan
    cases hplan
  · rw [hplan, h.plan plan hplan]

/-! ## Calls -/

/-- Decoding on from any row: at the end of the rows, at a pause or in a row that fails. -/
theorem step (h : d.Coherent) (hcoding : d.coding = some .arithmetic) (p : Indicator)
    (s : Session σ) : (d.step p s).1.Coherent := by
  obtain ⟨hsize, hplan⟩ := h.exists_plan hcoding
  have hrow := h.row
  cases hbitmap : d.bitmap with
  | none =>
    rw [step_taken hbitmap]
    exact { h with status := nofun, updated := .inr ⟨rfl, rfl, Nat.le_refl d.row, hrow⟩ }
  | some b =>
    obtain ⟨hwrote, hend⟩ := advance_wrote d.region (d.region.plan d.pixelwise)
      (d.region.height - d.row) ⟨b, d.row, d.typical⟩ p s
    rw [step_eq_advance hplan hbitmap]
    simp only
    generalize advance d.region (d.region.plan d.pixelwise) (d.region.height - d.row)
      ⟨b, d.row, d.typical⟩ p s = out at hwrote hend
    obtain ⟨status, c, p', s'⟩ := out
    have hheld : ∀ b', some c.bitmap = some b' → b'.IsOf d.region := by
      rintro b' ⟨⟩
      exact (h.bitmap b hbitmap).wrote hwrote
    have hinvalid : ∀ row, ¬Bitmap.ValidSize d.region.width d.region.height →
        d.plan = none ∧ row = 0 := fun _ hnot => absurd hsize hnot
    simp only at hend
    rcases hend with ⟨rfl, hrow'⟩ | ⟨rfl, hlt, hle⟩ | ⟨reason, rfl, hle, hlt⟩
    · have hbottom : c.row = d.region.height := by omega
      have htop : d.row ≤ c.row := by omega
      exact
        { h with
          status := ⟨rfl, fun _ => hbottom⟩
          row := Nat.zero_le _
          bitmap := hheld
          updated := .inr ⟨rfl, rfl, htop, Nat.le_of_eq hbottom⟩
          invalid := hinvalid 0 }
    · have hbottom : c.row ≤ d.region.height := by omega
      exact
        { h with
          status := ⟨Nat.lt_of_le_of_lt (Nat.zero_le _) hlt, hcoding, rfl⟩
          row := hbottom
          bitmap := hheld
          updated := .inr ⟨rfl, rfl, Nat.le_of_lt hlt, hbottom⟩
          invalid := hinvalid c.row }
    · have hbottom : c.row ≤ d.region.height := by omega
      exact
        { h with
          status := nofun
          row := hbottom
          bitmap := hheld
          updated := .inr ⟨rfl, rfl, hle, hbottom⟩
          invalid := hinvalid c.row }

/-- A decode just before its first row, whatever was before. -/
theorem opened (h : d.Coherent) {b : Bitmap}
    (hb : Bitmap.blank d.region.width d.region.height = .ok b) : (d.opened b).Coherent where
  status := rfl
  row := Nat.zero_le _
  coding := rfl
  plan := by
    rintro plan ⟨⟩
    rfl
  bitmap := by
    rintro b' ⟨⟩
    exact Bitmap.isOf_blank hb
  updated := h.updated
  invalid hnot := absurd ((Bitmap.blank_eq_ok_iff.1 hb).1) hnot

theorem start (h : d.Coherent) (p : Indicator) (s : Session σ) : (d.start p s).1.Coherent := by
  by_cases hsize : Bitmap.ValidSize d.region.width d.region.height
  · cases hcheck : d.region.check s.contexts.size with
    | error reason =>
      rw [start_refused hsize hcheck]
      exact h.refused reason
    | ok u =>
      obtain ⟨b, hb⟩ := Region.exists_blank hsize
      rw [start_opened hsize hcheck hb]
      exact (h.opened hb).step rfl p s
  · rw [start_invalid hsize]
    obtain ⟨-, hrow⟩ := h.invalid hsize
    have hbitmap : ∀ b, some (Bitmap.withoutStorage d.region.width d.region.height) = some b →
        b.IsOf d.region := by
      rintro b ⟨⟩
      exact Bitmap.isOf_withoutStorage hsize
    exact
      { h with status := ⟨hrow, fun hvalid => absurd hvalid hsize⟩, bitmap := hbitmap }

theorem resume (h : d.Coherent) (p : Indicator) (s : Session σ) : (d.resume p s).1.Coherent := by
  unfold Resumable.resume
  split
  · rename_i hpaused
    obtain ⟨-, hcoding, -⟩ := h.standsAs hpaused
    rw [if_pos hcoding]
    cases d.region.check s.contexts.size with
    | error reason => exact h.refused reason
    | ok u => exact h.step hcoding p s
  · exact h

theorem serve (h : d.Coherent) (request : Request) : (request.serve d).Coherent := by
  cases request with
  | start p s => exact h.start p s
  | resume p s => exact h.resume p s
  | take => exact h.withoutBitmap

theorem serveAll (h : d.Coherent) (requests : List Request) :
    (d.serveAll requests).Coherent :=
  serveAll_induction (fun _ request h => h.serve request) h requests

end Coherent

/-! ## Before the start -/

/-- The call starts a decode. -/
def Request.starts : Request → Bool
  | @start _ _ _ _ => true
  | @resume _ _ _ _ => false
  | .take => false

theorem status_step_ne_ready (d : Resumable) (p : Indicator) (s : Session σ) :
    (d.step p s).1.status ≠ .ready := by
  unfold step
  simp only
  split
  · rename_i plan b _ _
    obtain ⟨-, hend⟩ :=
      advance_wrote d.region plan (d.region.height - d.row) ⟨b, d.row, d.typical⟩ p s
    rcases hend with ⟨hstatus, -⟩ | ⟨hstatus, -, -⟩ | ⟨reason, hstatus, -, -⟩
    · rw [hstatus]
      exact nofun
    · rw [hstatus]
      exact nofun
    · rw [hstatus]
      exact nofun
  · exact nofun

theorem status_start_ne_ready (d : Resumable) (p : Indicator) (s : Session σ) :
    (d.start p s).1.status ≠ .ready := by
  unfold start
  split
  · split
    · exact nofun
    · split
      · exact nofun
      · exact status_step_ne_ready _ p s
  · exact nofun

theorem status_resume_eq_ready (d : Resumable) (p : Indicator) (s : Session σ) :
    (d.resume p s).1.status = .ready ↔ d.status = .ready := by
  unfold Resumable.resume
  split
  · rename_i hpaused
    rw [hpaused]
    split
    · split
      · exact iff_of_false nofun nofun
      · exact iff_of_false (status_step_ne_ready d p s) nofun
    · exact iff_of_false nofun nofun
  · exact Iff.rfl

/-- A decode is ready as long as no call has started it. -/
theorem status_serveAll_eq_ready (d : Resumable) (requests : List Request) :
    (d.serveAll requests).status = .ready ↔
      d.status = .ready ∧ ∀ request ∈ requests, request.starts = false := by
  induction requests generalizing d with
  | nil => simp [Resumable.serveAll]
  | cons request requests ih =>
    have hserve : (request.serve d).status = .ready ↔
        d.status = .ready ∧ request.starts = false := by
      cases request with
      | start p s => exact iff_of_false (status_start_ne_ready d p s) fun h => Bool.noConfusion h.2
      | resume p s => exact (status_resume_eq_ready d p s).trans (and_iff_left rfl).symm
      | take => exact (and_iff_left rfl).symm
    rw [List.forall_mem_cons, ← and_assoc, ← hserve]
    exact ih (request.serve d)

/-- **The fields of a decode belong together in every state that calls lead to.**  A new decode is
started and resumed any number of times in any order, each time with any source, any contexts and
any pauses, and its bitmap is taken at any time.  Then its settings are those that it was made with;
the next row is a row of the region or the one below the last, the first one before the start and at
the end, and not the first one at a pause; a coding is known exactly if a plan is, which is the one
for the settings, and at a pause it is, so that the decode never fails for want of a coding; the
bitmap that it holds has the size of the region, and storage exactly if that size is valid; the rows
noted by the latest call are none or span the width of the region and lie in it, at a pause end
where the next row is, and at the end of a valid size with the last row; and the decode is ready
exactly as long as no call has started it. -/
theorem reachable_fields (r : Region) (pixelwise : Bool) (requests : List Request) :
    let d := serveAll { region := r, pixelwise := pixelwise } requests
    (d.region = r ∧ d.pixelwise = pixelwise) ∧
      d.row ≤ r.height ∧
      (d.status = .ready ∨ d.status = .finished → d.row = 0) ∧
      (d.status = .paused → 1 ≤ d.row) ∧
      (d.coding.isSome = d.plan.isSome ∧ ∀ plan, d.plan = some plan → plan = r.plan pixelwise) ∧
      (d.status = .paused → d.coding = some .arithmetic) ∧
      d.status ≠ .failed .noCoding ∧
      (∀ b, d.bitmap = some b → b.width = r.width ∧ b.height = r.height ∧
        (b.hasStorage = true ↔ Bitmap.ValidSize r.width r.height)) ∧
      (d.updated = {} ∨ d.updated.left = 0 ∧ d.updated.right = r.width ∧
        d.updated.top ≤ d.updated.bottom ∧ d.updated.bottom ≤ r.height) ∧
      (d.status = .paused → d.updated.bottom = d.row) ∧
      (d.status = .finished → Bitmap.ValidSize r.width r.height → d.updated.bottom = r.height) ∧
      (d.status = .ready ↔ ∀ request ∈ requests, request.starts = false) := by
  intro d
  have h : d.Coherent := (coherent_new r pixelwise).serveAll requests
  obtain ⟨hregion, hpixelwise⟩ := settings_serveAll { region := r, pixelwise := pixelwise } requests
  have hready := status_serveAll_eq_ready { region := r, pixelwise := pixelwise } requests
  rw [← show d.region = r from hregion, ← show d.pixelwise = pixelwise from hpixelwise]
  refine ⟨⟨rfl, rfl⟩, h.row, ?_, fun heq => (h.standsAs heq).1, ⟨h.coding, h.plan⟩,
    fun heq => (h.standsAs heq).2.1, fun heq => h.standsAs heq rfl, ?_, h.updated,
    fun heq => (h.standsAs heq).2.2, fun heq => (h.standsAs heq).2, ?_⟩
  · rintro (heq | heq)
    · exact h.standsAs heq
    · exact (h.standsAs heq).1
  · intro b hb
    obtain ⟨hwidth, hheight, hstorage, -⟩ := h.bitmap b hb
    exact ⟨hwidth, hheight, hstorage⟩
  · rw [show d = serveAll _ requests from rfl, hready]
    exact and_iff_right rfl

/-! ## The format of all bitmaps -/

/-- What decoding a region gives is a bitmap of that region. -/
theorem isOf_decode (r : Region) (pixelwise : Bool) (s : Session σ) {b : Bitmap}
    (hb : (r.decode pixelwise s).1 = .ok b) : b.IsOf r := by
  by_cases hsize : Bitmap.ValidSize r.width r.height
  · cases hcheck : r.check s.contexts.size with
    | error reason =>
      rw [Region.decode_refused hsize hcheck] at hb
      cases hb
    | ok u =>
      obtain ⟨blank, hblank⟩ := Region.exists_blank hsize
      rw [Region.decode_eq_run hsize hcheck hblank] at hb
      rcases (r.decodeRows_holds (r.plan pixelwise).strategy r.height ⟨blank, 0, false⟩).run s with
        ⟨c, s', ⟨hwrote, -⟩, hrun⟩ | ⟨held, reason, s', -, hrun⟩
      · rw [hrun] at hb
        cases hb
        exact (Bitmap.isOf_blank hblank).wrote hwrote
      · rw [hrun] at hb
        cases hb
  · rw [Region.decode_invalid hsize] at hb
    cases hb
    exact Bitmap.isOf_withoutStorage hsize

/-- **Every bitmap has the format of bitmaps.**  All that are made have it; setting a pixel, copying
a row and filling, with any arguments, keep it and change neither the size nor the number of bytes;
what decoding any region in one go gives has it; and so has the bitmap that a decode in steps holds
in every state that calls lead to, be it in the middle of a region or after a failure in the middle
of a row. -/
theorem every_bitmap_wellFormed :
    ((∀ width height, (Bitmap.withoutStorage width height).WellFormed) ∧
      (∀ width height b, Bitmap.blank width height = .ok b → b.WellFormed) ∧
      ∀ width height data b, Bitmap.ofData width height data = .ok b → b.WellFormed) ∧
    (∀ b c : Bitmap,
      ((∃ x y value, c = b.set x y value) ∨ (∃ target source, c = b.copyRow target source) ∨
        ∃ value, c = b.fill value) →
      (b.WellFormed → c.WellFormed) ∧ c.width = b.width ∧ c.height = b.height ∧
        c.stride = b.stride ∧ c.data.size = b.data.size) ∧
    (∀ (σ : Type) [BitSource σ] (r : Region) (pixelwise : Bool) (s : Session σ) (b : Bitmap),
      (r.decode pixelwise s).1 = .ok b → b.WellFormed) ∧
    ∀ (r : Region) (pixelwise : Bool) (requests : List Request) (b : Bitmap),
      (serveAll { region := r, pixelwise := pixelwise } requests).bitmap = some b →
        b.WellFormed := by
  refine ⟨⟨Bitmap.wellFormed_withoutStorage, ?_, ?_⟩, ?_, ?_, ?_⟩
  · intro width height b hb
    exact (Bitmap.Packed.blank hb).wellFormed
  · intro width height data b hb
    exact (Bitmap.Packed.ofData hb).wellFormed
  · rintro b c (⟨x, y, value, rfl⟩ | ⟨target, source, rfl⟩ | ⟨value, rfl⟩)
    · have hwidth := b.width_set x y value
      exact ⟨fun h => h.set x y value, hwidth, b.height_set x y value,
        congrArg Bitmap.bytesFor hwidth, b.size_set x y value⟩
    · have hwidth := b.width_copyRow target source
      exact ⟨fun h => h.copyRow target source, hwidth, b.height_copyRow target source,
        congrArg Bitmap.bytesFor hwidth, b.size_copyRow target source⟩
    · have hwidth := b.width_fill value
      exact ⟨fun h => h.fill value, hwidth, b.height_fill value,
        congrArg Bitmap.bytesFor hwidth, b.size_fill value⟩
  · intro σ _ r pixelwise s b hb
    exact (isOf_decode r pixelwise s hb).format
  · intro r pixelwise requests b hb
    exact (((coherent_new r pixelwise).serveAll requests).bitmap b hb).format

end Resumable

end Bilevel
