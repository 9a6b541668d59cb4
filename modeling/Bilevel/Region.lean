import Bilevel.Source
import Bilevel.Template

/-!
# Regions

A `Region` says what is to be decoded: the size, the template with its adaptive pixels, whether
rows may be coded as typical, and which pixels are skipped.  A `Canvas` is a region on the way: its
bitmap, the row that comes next and whether the row before it was typical.

* `Region.plan`, `Region.check` — the plan that the settings allow, and what is asked of the
  adaptive pixels and of the contexts.
* `Region.pixelRow` — decodes a row, reading the context number of every pixel from the bitmap.
* `Region.windowRow` — decodes a row, moving windows over the two rows above.  A byte of the bitmap
  is written when all its pixels are known.
* `Region.decodeRow` — asks first whether the row is typical, if the region has typical rows.  A
  typical row is copied from the row above, and the one above the first row is white.
* `Region.decode` — decodes all rows of a region in one go.  A size that is not valid gives a bitmap
  without storage and takes no bits, whatever the other settings are; then the adaptive pixels and
  the number of contexts are checked; then the rows are decoded from the top.
-/

set_option autoImplicit false

namespace Bilevel

/-- The settings of a region. -/
structure Region where
  width : Nat
  height : Nat
  template : Template
  /-- Whether each row starts with a bit that can make it typical, that is equal to the row
  above. -/
  typicalPrediction : Bool := false
  adaptivePixels : List AdaptivePixel := template.nominalPixels
  /-- Pixels that are black here are not coded, and stay white. -/
  skip : Option Bitmap := none
  deriving DecidableEq, Repr

namespace Region

def freshContexts (r : Region) : Array Context := Context.fresh r.template.contextCount

/-- The plan for the region.  With `pixelwise` the windows are not used even where they could be. -/
def plan (r : Region) (pixelwise : Bool) : Plan :=
  let plan := Plan.select r.template r.adaptivePixels r.skip.isSome
  if pixelwise then { plan with strategy := .pixels } else plan

def skips (r : Region) (x y : Nat) : Bool :=
  match r.skip with
  | some mask => mask.get x y
  | none => false

/-- Refuses a wrong number of adaptive pixels, and then too few contexts. -/
def check (r : Region) (contexts : Nat) : Except Failure Unit :=
  if r.adaptivePixels.length ≠ r.template.adaptiveCount then .error .adaptivePixelCount
  else if contexts < r.template.contextCount then .error .insufficientContexts
  else .ok ()

end Region

/-! ## A region on the way -/

/-- A region that is being decoded: its pixels, which are white where none has been decoded yet, the
row that comes next, and whether the row before that was typical. -/
structure Canvas where
  bitmap : Bitmap
  row : Nat := 0
  typical : Bool := false
  deriving DecidableEq, Repr

namespace Canvas

def put (c : Canvas) (x : Nat) (value : Bool) : Canvas :=
  { c with bitmap := c.bitmap.set x c.row value }

def putByte (c : Canvas) (i : Nat) (byte : UInt8) : Canvas :=
  { c with bitmap := c.bitmap.setByte c.row i byte }

def repeatRow (c : Canvas) : Canvas :=
  { c with bitmap := c.bitmap.copyRow c.row ((c.row : Int) - 1) }

def nextRow (c : Canvas) : Canvas := { c with row := c.row + 1 }

/-- Byte `i` of the row so many rows above the next one; above the first row all is white. -/
def byteAbove? (c : Canvas) (distance i : Nat) : Option UInt8 :=
  if c.row < distance then some 0 else c.bitmap.byte? (c.row - distance) i

end Canvas

namespace Region

/-! ## Pixel by pixel -/

/-- Decodes the last `left` pixels of a row, from column `x` on.  A skipped pixel is white and takes
no bit. -/
def pixelsFrom (r : Region) (offsets : Option (List Offset)) :
    (left x : Nat) → Canvas → Dialogue Canvas Canvas
  | 0, _, c => .done c
  | left + 1, x, c =>
    if r.skips x c.row then pixelsFrom r offsets left (x + 1) (c.put x false)
    else
      match offsets with
      | none => .fail c (.fault .adaptivePixel)
      | some places =>
        .ask c (contextNumber c.bitmap places x c.row) fun bit =>
          pixelsFrom r offsets left (x + 1) (c.put x bit)

def pixelRow (r : Region) (c : Canvas) : Dialogue Canvas Canvas :=
  r.pixelsFrom (r.template.offsets? r.adaptivePixels) c.bitmap.width 0 c

/-- Decodes `left` pixels of a byte, the next one at bit `place`; `byte` has the bits above it. -/
def byteFrom (layout : Layout) (held : Canvas) :
    (left place : Nat) → (byte : Nat) → Window → Dialogue Canvas (Nat × Window)
  | 0, _, byte, w => .done (byte, w)
  | left + 1, place, byte, w =>
    .ask held w.context fun bit =>
      byteFrom layout held left (place - 1) (byte ||| (bit.toNat <<< place))
        (w.next layout bit place)

/-- Decodes one byte of `size` pixels and writes it as byte `i` of the row. -/
def windowByte (layout : Layout) (size i : Nat) (w : Window) (c : Canvas) :
    Dialogue Canvas (Window × Canvas) :=
  (byteFrom layout c size 7 0 w).bind fun (byte, w) =>
    if c.bitmap.StoresByte c.row i then .done (w, c.putByte i (UInt8.ofNat byte))
    else .fail c (.fault .storage)

/-- Decodes the bytes of a row from byte `i` on, of which `left` are full and one more has the last
`rest` pixels.  Before each byte the windows take in the following bytes of the rows above; behind
their last byte there is nothing. -/
def bytesFrom (layout : Layout) (rest : Nat) :
    (left i : Nat) → Window → Canvas → Dialogue Canvas Canvas
  | 0, i, w, c =>
    (windowByte layout rest i (w.refill layout 0 0) c).bind fun (_, c) => .done c
  | left + 1, i, w, c =>
    match c.byteAbove? 2 (i + 1), c.byteAbove? 1 (i + 1) with
    | some upper, some lower =>
      (windowByte layout 8 i (w.refill layout upper lower) c).bind fun (w, c) =>
        bytesFrom layout rest left (i + 1) w c
    | _, _ => .fail c (.fault .storage)

def windowRow (r : Region) (c : Canvas) : Dialogue Canvas Canvas :=
  let layout := r.template.layout
  let full := c.bitmap.stride - 1
  match c.byteAbove? 2 0, c.byteAbove? 1 0 with
  | some upper, some lower =>
    bytesFrom layout (c.bitmap.width - 8 * full) full 0 (Window.start layout upper lower) c
  | _, _ => .fail c (.fault .storage)

/-! ## A whole row -/

/-- Decodes whether the next row is typical: the bit says whether that differs from the row
before. -/
def typicalBit (r : Region) (c : Canvas) : Dialogue Canvas Canvas :=
  if r.typicalPrediction then
    .ask c r.template.typicalContext fun bit => .done { c with typical := c.typical ^^ bit }
  else .done c

/-- Fills the next row: a typical row from the row above, any other one from the source. -/
def fillRow (r : Region) (strategy : Strategy) (c : Canvas) : Dialogue Canvas Canvas :=
  if c.typical then
    if c.bitmap.StoresCopy c.row ((c.row : Int) - 1) then .done c.repeatRow
    else .fail c (.fault .storage)
  else
    match strategy with
    | .windows => r.windowRow c
    | .pixels => r.pixelRow c

def decodeRow (r : Region) (strategy : Strategy) (c : Canvas) : Dialogue Canvas Canvas :=
  (r.typicalBit c).bind fun c => (r.fillRow strategy c).bind fun c => .done c.nextRow

def decodeRows (r : Region) (strategy : Strategy) : Nat → Canvas → Dialogue Canvas Canvas
  | 0, c => .done c
  | rows + 1, c => (r.decodeRow strategy c).bind (decodeRows r strategy rows)

variable {σ : Type} [BitSource σ]

/-- Decodes a region from a session. -/
def decode (r : Region) (pixelwise : Bool) (s : Session σ) :
    Except Failure Bitmap × Session σ :=
  if Bitmap.ValidSize r.width r.height then
    match r.check s.contexts.size with
    | .error reason => (.error reason, s)
    | .ok () =>
      match Bitmap.blank r.width r.height with
      | .error reason => (.error reason, s)
      | .ok bitmap =>
        match (r.decodeRows (r.plan pixelwise).strategy r.height ⟨bitmap, 0, false⟩).run s with
        | (.ok c, s) => (.ok c.bitmap, s)
        | (.error (_, reason), s) => (.error reason, s)
  else (.ok (Bitmap.withoutStorage r.width r.height), s)

end Region

end Bilevel
