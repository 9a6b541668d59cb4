import Bilevel.Proofs.Resumable.Invariant

/-!
# The rows noted by the calls

A caller that shows a picture while it is decoded shows after each call the rows that the call has
noted.  Nothing else must change, and the calls must come to an end.

* `Turn` — what a caller brings to a call, with any source; `statesOfRun` — the decode after the
  start and after each further call while it is paused.
* `Rect.Tiles low rects high` — rectangles that follow one another from one row to another;
  `Tiles.countP_hasRow`: each row in between is in just one of them.
* `Stepped r top d` — the latest call went on at row `top`; `Underway.stepped` is the step, and
  `Stepped.whilePaused` the run of all further calls.
* `updates_tile` — the rows noted by the calls of a decode follow one another, and it takes no more
  calls than there are rows to go on to the end.
-/

set_option autoImplicit false

namespace Bilevel

/-! ## Rectangles that follow one another -/

namespace Rect

def HasRow (rect : Rect) (y : Nat) : Prop := rect.top ≤ y ∧ y < rect.bottom

instance (rect : Rect) (y : Nat) : Decidable (rect.HasRow y) := inferInstanceAs (Decidable (_ ∧ _))

/-- The first rectangle begins at row `low`, each further one where the one before ends, and the
last one ends at row `high`. -/
def Tiles : (low : Nat) → List Rect → (high : Nat) → Prop
  | low, [], high => low = high
  | low, rect :: rects, high => rect.top = low ∧ low ≤ rect.bottom ∧ Tiles rect.bottom rects high

variable {low high : Nat} {rects : List Rect}

theorem Tiles.le (h : Tiles low rects high) : low ≤ high := by
  induction rects generalizing low with
  | nil => exact Nat.le_of_eq h
  | cons rect rects ih => exact Nat.le_trans h.2.1 (ih h.2.2)

/-- The rectangles have each row in between once, and no other row. -/
theorem Tiles.countP_hasRow (h : Tiles low rects high) (y : Nat) :
    rects.countP (fun rect => rect.HasRow y) = if low ≤ y ∧ y < high then 1 else 0 := by
  induction rects generalizing low with
  | nil =>
    have hnone : ¬(low ≤ y ∧ y < high) := by
      rw [show low = high from h]
      omega
    rw [if_neg hnone, List.countP_nil]
  | cons rect rects ih =>
    obtain ⟨htop, hle, hrest⟩ := h
    have hhigh := hrest.le
    rw [List.countP_cons, ih hrest]
    simp only [decide_eq_true_eq, HasRow, htop]
    -- a row is in the first rectangle, or in those below, or in none
    by_cases hfirst : low ≤ y ∧ y < rect.bottom
    · rw [if_neg (by omega), if_pos hfirst, if_pos (by omega)]
    · rw [if_neg hfirst]
      by_cases hbelow : rect.bottom ≤ y ∧ y < high
      · rw [if_pos hbelow, if_pos (by omega)]
      · rw [if_neg hbelow, if_neg (by omega)]

end Rect

namespace Resumable

variable {d : Resumable} {b : Bitmap} {r : Region} {top : Nat}

/-! ## Runs of calls -/

/-- What a caller brings to a call: a pause indicator and a source of any kind with its contexts. -/
structure Turn : Type 1 where
  {σ : Type}
  [bits : BitSource σ]
  indicator : Indicator
  session : Session σ

attribute [instance] Turn.bits

def startOn (d : Resumable) (turn : Turn) : Resumable := (d.start turn.indicator turn.session).1

def resumeOn (d : Resumable) (turn : Turn) : Resumable := (d.resume turn.indicator turn.session).1

/-- The decode as it is, and after each further call, made as long as it is paused. -/
def whilePaused (d : Resumable) : List Turn → List Resumable
  | [] => [d]
  | turn :: turns =>
    if d.status = .paused then d :: (d.resumeOn turn).whilePaused turns else [d]

/-- The decode after a start and after each further call, made as long as it is paused. -/
def statesOfRun (d : Resumable) (first : Turn) (rest : List Turn) : List Resumable :=
  (d.startOn first).whilePaused rest

/-- What goes with the status after a call that went on at row `top`. -/
def EndsAs (r : Region) (top : Nat) (d : Resumable) : Status → Prop
  | .ready => False
  -- It can go on below the rows noted, and there are some.
  | .paused => top < d.updated.bottom ∧ d.row = d.updated.bottom ∧ ∃ b, d.Underway b
  | .finished => d.updated.bottom = r.height
  | .failed cause => cause = .refused .unexpectedEnd

/-- How a decode stands after a call that went on at row `top`: the rows that it notes begin there,
in the whole width of the region. -/
structure Stepped (r : Region) (top : Nat) (d : Resumable) : Prop where
  region : d.region = r
  begins : d.updated.top = top
  ordered : top ≤ d.updated.bottom
  inside : d.updated.bottom ≤ r.height
  left : d.updated.left = 0
  right : d.updated.right = r.width
  ending : EndsAs r top d d.status

theorem Stepped.endsAs (h : Stepped r top d) {status : Status} (heq : d.status = status) :
    EndsAs r top d status := by
  rw [← heq]
  exact h.ending

section

variable {σ : Type} [BitSource σ]

/-- A step notes rows from its row on: all that are left at the end, and at a pause the rows above
the one to go on with. -/
theorem Underway.updated_step (h : d.Underway b) (p : Indicator) (s : Session σ) :
    ∃ bottom, (d.step p s).1.updated = ⟨0, d.row, d.region.width, bottom⟩ ∧
      d.row ≤ bottom ∧ bottom ≤ d.region.height ∧
      ((d.step p s).1.status = .paused → d.row < bottom ∧ (d.step p s).1.row = bottom) ∧
      ((d.step p s).1.status = .finished → bottom = d.region.height) := by
  have hrow := h.row
  obtain ⟨-, hend⟩ := advance_wrote d.region (d.region.plan d.pixelwise)
    (d.region.height - d.row) ⟨b, d.row, d.typical⟩ p s
  rw [h.step_eq]
  simp only
  generalize advance d.region (d.region.plan d.pixelwise) (d.region.height - d.row)
    ⟨b, d.row, d.typical⟩ p s = out at hend
  obtain ⟨status, c, p', s'⟩ := out
  simp only at hend
  rcases hend with ⟨rfl, hbottom⟩ | ⟨rfl, hlt, hle⟩ | ⟨reason, rfl, hle, hlt⟩
  · exact ⟨c.row, rfl, by omega, by omega, nofun, fun _ => by omega⟩
  · exact ⟨c.row, rfl, by omega, by omega, fun _ => ⟨hlt, rfl⟩, nofun⟩
  · exact ⟨c.row, rfl, by omega, by omega, nofun, nofun⟩

theorem Underway.stepped (h : d.Underway b) (p : Indicator) {s : Session σ}
    (hs : d.region.template.contextCount ≤ s.contexts.size) :
    Stepped d.region d.row (d.step p s).1 := by
  obtain ⟨bottom, hupdated, hle, hheight, hpause, hend⟩ := h.updated_step p s
  have hbottom : (d.step p s).1.updated.bottom = bottom := by rw [hupdated]
  have hending : EndsAs d.region d.row (d.step p s).1 (d.step p s).1.status := by
    rcases h.step_cases p hs with hdone | ⟨b', h', hpaused, -, -⟩
    · rcases h.remaining_cases hs with ⟨b', s', hok⟩ | ⟨s', herror, -⟩
      · rw [hok] at hdone
        rw [hdone.1]
        exact hbottom.trans (hend hdone.1)
      · rw [herror] at hdone
        rw [hdone.1]
        exact rfl
    · obtain ⟨hlt, hrow⟩ := hpause hpaused
      rw [← hbottom] at hlt hrow
      rw [hpaused]
      exact ⟨hlt, hrow, b', h'⟩
  refine ⟨h.region_step p s, ?_, ?_, ?_, ?_, ?_, hending⟩ <;> rw [hupdated]
  · exact hle
  · exact hheight

end

/-- Going on after a pause is a step from the row where the rows noted so far end. -/
theorem Stepped.resumeOn (h : Stepped r top d) (hpaused : d.status = .paused) (turn : Turn)
    (hturn : r.template.contextCount ≤ turn.session.contexts.size) :
    Stepped r d.updated.bottom (d.resumeOn turn) := by
  obtain ⟨-, hrow, b, hunder⟩ := h.endsAs hpaused
  have hs : d.region.template.contextCount ≤ turn.session.contexts.size := by
    rw [h.region]
    exact hturn
  rw [← h.region, ← hrow, Resumable.resumeOn, hunder.resume_eq_step hpaused _ hs]
  exact hunder.stepped turn.indicator hs

/-- The decode after calls each of which went on where the one before was paused, the first of them
at row `top`. -/
inductive Steps (r : Region) : (top : Nat) → List Resumable → Prop where
  | last {top : Nat} {d : Resumable} (h : Stepped r top d) : Steps r top [d]
  | next {top : Nat} {d : Resumable} {states : List Resumable} (h : Stepped r top d)
    (hpaused : d.status = .paused) (hnext : Steps r d.updated.bottom states) :
    Steps r top (d :: states)

/-- Whatever the further calls bring, each of them goes on where the one before was paused. -/
theorem Stepped.whilePaused (h : Stepped r top d) (turns : List Turn)
    (hturns : ∀ turn ∈ turns, r.template.contextCount ≤ turn.session.contexts.size) :
    Steps r top (d.whilePaused turns) := by
  induction turns generalizing d top with
  | nil => exact .last h
  | cons turn turns ih =>
    rw [Resumable.whilePaused]
    split
    · rename_i hpaused
      have hnext := h.resumeOn hpaused turn (hturns turn List.mem_cons_self)
      exact .next h hpaused (ih hnext fun turn' hmem => hturns turn' (List.mem_cons_of_mem _ hmem))
    · exact .last h

namespace Steps

variable {states : List Resumable} {last : Resumable}

theorem ne_nil (h : Steps r top states) : states ≠ [] := by
  cases h with
  | last h => exact List.cons_ne_nil _ _
  | next h hpaused hnext => exact List.cons_ne_nil _ _

theorem stepped (h : Steps r top states) {e : Resumable} (he : e ∈ states) :
    ∃ top', Stepped r top' e := by
  induction h with
  | last h =>
    rw [List.mem_singleton.1 he]
    exact ⟨_, h⟩
  | next h hpaused hnext ih =>
    rcases List.mem_cons.1 he with rfl | he
    · exact ⟨_, h⟩
    · exact ih he

theorem tiles (h : Steps r top states) (hlast : states.getLast? = some last) :
    Rect.Tiles top (states.map Resumable.updated) last.updated.bottom := by
  induction h with
  | last h =>
    cases hlast
    exact ⟨h.begins, h.ordered, rfl⟩
  | next h hpaused hnext ih =>
    rw [List.getLast?_cons_of_ne_nil hnext.ne_nil] at hlast
    exact ⟨h.begins, h.ordered, ih hlast⟩

/-- Each pause leaves fewer rows to the calls that follow. -/
theorem length_le (h : Steps r top states) (hlast : states.getLast? = some last) :
    top + states.length ≤ r.height + 1 ∧
      (last.status = .paused → top + states.length ≤ r.height) := by
  induction h with
  | last h =>
    cases hlast
    have hle := h.ordered
    have hheight := h.inside
    rw [List.length_singleton]
    refine ⟨by omega, fun hpaused => ?_⟩
    obtain ⟨hlt, -⟩ := h.endsAs hpaused
    omega
  | next h hpaused hnext ih =>
    rw [List.getLast?_cons_of_ne_nil hnext.ne_nil] at hlast
    obtain ⟨hall, hstill⟩ := ih hlast
    obtain ⟨hlt, -⟩ := h.endsAs hpaused
    rw [List.length_cons]
    exact ⟨by omega, fun hpaused => by have := hstill hpaused; omega⟩

end Steps

theorem whilePaused_ne_nil (d : Resumable) (turns : List Turn) : d.whilePaused turns ≠ [] := by
  cases turns with
  | nil => exact List.cons_ne_nil d []
  | cons turn turns =>
    rw [whilePaused]
    split
    · exact List.cons_ne_nil d _
    · exact List.cons_ne_nil d []

/-- A run whose latest call ended with a pause has made all calls. -/
theorem length_whilePaused (d : Resumable) (turns : List Turn) {last : Resumable}
    (hlast : (d.whilePaused turns).getLast? = some last) (hpaused : last.status = .paused) :
    (d.whilePaused turns).length = turns.length + 1 := by
  induction turns generalizing d with
  | nil => rfl
  | cons turn turns ih =>
    rw [whilePaused] at hlast ⊢
    split at hlast
    · rename_i hd
      rw [List.getLast?_cons_of_ne_nil (whilePaused_ne_nil _ turns)] at hlast
      rw [if_pos hd, List.length_cons, ih _ hlast, List.length_cons]
    · rename_i hd
      cases hlast
      exact absurd hpaused hd

/-- **The rows noted by the calls tile the region.**  A decode of a valid size, with all adaptive
pixels, is started, whatever it was before, and resumed as long as it is paused, each time with
pauses, a source and contexts of the call's own, of which there are enough.  Then the rows noted by
the calls begin with the first row, those of each further call where those of the call before end,
so that each row above the end is noted by just one call and no other row by any; they span the
width of the region; a call that pauses has noted a row, and the one that finishes the last row.
And whatever the pauses, after as many further calls as there are rows the decode is finished, or
the bits have run out; so no more calls than that are ever made. -/
theorem updates_tile (d : Resumable) (first : Turn) (rest : List Turn)
    (hsize : Bitmap.ValidSize d.region.width d.region.height)
    (hcount : d.region.adaptivePixels.length = d.region.template.adaptiveCount)
    (hcontexts : ∀ turn ∈ first :: rest,
      d.region.template.contextCount ≤ turn.session.contexts.size) :
    let states := d.statesOfRun first rest
    let updates := states.map Resumable.updated
    (∀ e ∈ states, e.updated.left = 0 ∧ e.updated.right = d.region.width ∧
      (e.status = .paused → e.updated.top < e.updated.bottom) ∧
      (e.status = .finished → e.updated.bottom = d.region.height)) ∧
    states.length ≤ d.region.height + 1 ∧
    ∃ last, states.getLast? = some last ∧
      Rect.Tiles 0 updates last.updated.bottom ∧
      (∀ y, updates.countP (fun rect => rect.HasRow y) =
        if y < last.updated.bottom then 1 else 0) ∧
      (d.region.height ≤ rest.length →
        last.status = .finished ∨ last.status = .failed (.refused .unexpectedEnd)) := by
  intro states updates
  have hfirst := hcontexts first List.mem_cons_self
  obtain ⟨b, hb⟩ := Region.exists_blank hsize
  have hstart : Stepped d.region 0 (d.startOn first) := by
    rw [startOn, start_opened hsize (Region.check_eq_ok.2 ⟨hcount, hfirst⟩) hb]
    exact (underway_opened hsize hcount hb).stepped first.indicator hfirst
  have hsteps : Steps d.region 0 states :=
    hstart.whilePaused rest fun turn hmem => hcontexts turn (List.mem_cons_of_mem first hmem)
  obtain ⟨last, hlast⟩ : ∃ last, states.getLast? = some last :=
    ⟨_, List.getLast?_eq_some_getLast hsteps.ne_nil⟩
  obtain ⟨hlength, hstill⟩ := hsteps.length_le hlast
  have htiles := hsteps.tiles hlast
  refine ⟨fun e he => ?_, by omega, last, hlast, htiles, fun y => ?_, fun hrows => ?_⟩
  · obtain ⟨top, h⟩ := hsteps.stepped he
    refine ⟨h.left, h.right, fun hpaused => ?_, fun hfinished => h.endsAs hfinished⟩
    rw [h.begins]
    exact (h.endsAs hpaused).1
  · rw [htiles.countP_hasRow]
    simp only [Nat.zero_le, true_and]
  · have hpaused : last.status ≠ .paused := by
      intro hpaused
      have hall : states.length = rest.length + 1 := length_whilePaused _ rest hlast hpaused
      have hleft := hstill hpaused
      omega
    obtain ⟨top, h⟩ := hsteps.stepped (List.mem_of_getLast? hlast)
    have hending := h.ending
    cases hstatus : last.status with
    | ready =>
      rw [hstatus] at hending
      exact hending.elim
    | paused => exact absurd hstatus hpaused
    | finished => exact .inl rfl
    | failed cause =>
      rw [hstatus] at hending
      exact .inr (congrArg Status.failed hending)

/-- A pause after each row, and then one more call that finds no rows left; each call brings bits of
its own. -/
theorem updates_tile_pauses :
    let d : Resumable := { region := { width := 3, height := 2, template := .t3 } }
    let turn (bits : List Bool) : Turn :=
      ⟨⟨fun _ => true, 0⟩, (⟨⟨bits, 0⟩, d.region.freshContexts, #[]⟩ : Session Script)⟩
    let first := turn [true, false, true]
    let rest := [[false, true, true, true], []].map turn
    let states := d.statesOfRun first rest
    let updates := states.map Resumable.updated
    (Bitmap.ValidSize d.region.width d.region.height ∧
      d.region.adaptivePixels.length = d.region.template.adaptiveCount ∧
      ∀ turn ∈ first :: rest, d.region.template.contextCount ≤ turn.session.contexts.size) ∧
    (states.map Resumable.status = [.paused, .paused, .finished] ∧
      updates = [⟨0, 0, 3, 1⟩, ⟨0, 1, 3, 2⟩, ⟨0, 2, 3, 2⟩]) ∧
    (∀ e ∈ states, e.updated.left = 0 ∧ e.updated.right = d.region.width ∧
      (e.status = .paused → e.updated.top < e.updated.bottom) ∧
      (e.status = .finished → e.updated.bottom = d.region.height)) ∧
    states.length ≤ d.region.height + 1 ∧
    ∃ last, states.getLast? = some last ∧
      Rect.Tiles 0 updates last.updated.bottom ∧
      (∀ y, updates.countP (fun rect => rect.HasRow y) =
        if y < last.updated.bottom then 1 else 0) ∧
      (d.region.height ≤ rest.length →
        last.status = .finished ∨ last.status = .failed (.refused .unexpectedEnd)) := by
  intro d turn first rest states updates
  have hsize : Bitmap.ValidSize d.region.width d.region.height := by decide
  have hcontexts : ∀ turn ∈ first :: rest,
      d.region.template.contextCount ≤ turn.session.contexts.size := by
    intro turn' hmem
    have hturn : turn' ∈ [[true, false, true], [false, true, true, true], []].map turn := hmem
    obtain ⟨bits, -, rfl⟩ := List.mem_map.1 hturn
    exact Nat.le_of_eq Array.size_replicate.symm
  exact ⟨⟨hsize, rfl, hcontexts⟩, by decide +kernel, updates_tile d first rest hsize rfl hcontexts⟩

end Resumable

end Bilevel
