import Bilevel.Region

/-!
# Decoding with pauses

A `Resumable` decodes the same rows as `Region.decode`, but asks a pause indicator between rows
whether to hand back control, and goes on at the next row when it is told to.

* `Indicator` — answers to the question whether to pause, and how often it was put.
* `Resumable.start` — decodes from the first row on, whatever was before.
* `Resumable.resume` — goes on after a pause; in any other state nothing happens.
* `Resumable.takeBitmap` — takes the bitmap away; a paused decode cannot be resumed after that.
-/

set_option autoImplicit false

namespace Bilevel

/-! ## Pause indicators -/

/-- What decides about pauses. -/
structure Indicator where
  /-- The answer to each question, by the number of questions before it. -/
  answers : Nat → Bool
  polls : Nat := 0

namespace Indicator

def never : Indicator := ⟨fun _ => false, 0⟩

def poll (p : Indicator) : Bool × Indicator := (p.answers p.polls, { p with polls := p.polls + 1 })

end Indicator

/-- Whether the indicator is asked after row `y`: after every row, but only after each fiftieth
one where template 2 is decoded with windows. -/
def Plan.pollsAfter (plan : Plan) (y : Nat) : Bool :=
  match plan.template, plan.strategy with
  | .t2, .windows => y % 50 = 0
  | _, _ => true

/-- Why a decode stopped for good: the region could not be decoded, there is no bitmap to go on
with, or the decode was not started with a coding that can be resumed. -/
inductive StopCause where
  | refused (reason : Failure)
  | noBitmap
  | noCoding
  deriving DecidableEq, Repr

/-- How far a decode has come. -/
inductive Status where
  | ready
  | paused
  | finished
  | failed (cause : StopCause)
  deriving DecidableEq, Repr

inductive Coding where
  | arithmetic
  deriving DecidableEq, Repr

/-- A rectangle of pixels, without its right and bottom edges. -/
structure Rect where
  left : Nat := 0
  top : Nat := 0
  right : Nat := 0
  bottom : Nat := 0
  deriving DecidableEq, Repr

/-- A decode in steps of whole rows: what is decoded, how far it has come, the coding and the plan
that it was started with, the row that comes next and whether the row before was typical. -/
structure Resumable where
  region : Region
  /-- Whether windows are not used even where they could be. -/
  pixelwise : Bool := false
  status : Status := .ready
  coding : Option Coding := none
  plan : Option Plan := none
  row : Nat := 0
  typical : Bool := false
  /-- The rows decoded by the latest call. -/
  updated : Rect := {}
  /-- The bitmap, whose rows above `row` are final. -/
  bitmap : Option Bitmap := none
  deriving DecidableEq, Repr

namespace Resumable

variable {σ : Type} [BitSource σ]

/-! ## Decoding rows -/

/-- Decodes rows until the indicator wants a pause, all rows are done or a row fails.  The answer
holds the canvas as it was then. -/
def advance (r : Region) (plan : Plan) :
    (rows : Nat) → Canvas → Indicator → Session σ → Status × Canvas × Indicator × Session σ
  | 0, c, p, s => (.finished, c, p, s)
  | rows + 1, c, p, s =>
    let y := c.row
    match (r.decodeRow plan.strategy c).run s with
    | (.error (held, reason), s) => (.failed (.refused reason), held, p, s)
    | (.ok next, s) =>
      if plan.pollsAfter y then
        match p.poll with
        | (true, p) => (.paused, next, p, s)
        | (false, p) => advance r plan rows next p s
      else advance r plan rows next p s

/-- Decodes from the current row on, and notes the rows that have become final.  A finished decode
stands at row 0 again. -/
def step (d : Resumable) (p : Indicator) (s : Session σ) : Resumable × Indicator × Session σ :=
  let top := d.row
  match d.plan, d.bitmap with
  | some plan, some bitmap =>
    match advance d.region plan (d.region.height - d.row) ⟨bitmap, d.row, d.typical⟩ p s with
    | (status, c, p, s) =>
      ({ d with
          status := status
          row := if status = .finished then 0 else c.row
          typical := c.typical
          updated := ⟨0, top, d.region.width, c.row⟩
          bitmap := some c.bitmap }, p, s)
  | _, _ =>
    ({ d with
        status := .failed .noBitmap
        updated := ⟨0, top, d.region.width, top⟩ }, p, s)

/-! ## Calls -/

/-- Starts decoding and goes on until a pause or the end.  A size that is not valid finishes at
once with a bitmap without storage. -/
def start (d : Resumable) (p : Indicator) (s : Session σ) : Resumable × Indicator × Session σ :=
  if Bitmap.ValidSize d.region.width d.region.height then
    match d.region.check s.contexts.size with
    | .error reason => ({ d with status := .failed (.refused reason) }, p, s)
    | .ok () =>
      match Bitmap.blank d.region.width d.region.height with
      | .error reason => ({ d with status := .failed (.refused reason), bitmap := none }, p, s)
      | .ok bitmap =>
        step
          { d with
            status := .ready
            coding := some .arithmetic
            plan := some (d.region.plan d.pixelwise)
            row := 0
            typical := false
            bitmap := some bitmap } p s
  else
    ({ d with
        status := .finished
        bitmap := some (Bitmap.withoutStorage d.region.width d.region.height) }, p, s)

def resume (d : Resumable) (p : Indicator) (s : Session σ) : Resumable × Indicator × Session σ :=
  if d.status = .paused then
    if d.coding = some .arithmetic then
      match d.region.check s.contexts.size with
      | .error reason => ({ d with status := .failed (.refused reason) }, p, s)
      | .ok () => d.step p s
    else ({ d with status := .failed .noCoding }, p, s)
  else (d, p, s)

def takeBitmap (d : Resumable) : Option Bitmap × Resumable := (d.bitmap, { d with bitmap := none })

end Resumable

end Bilevel
