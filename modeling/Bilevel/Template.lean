import Bilevel.Bitmap

/-!
# Templates and context numbers

A template says which neighbours of a pixel make up its context number.  Most of them have fixed
places; the adaptive pixels are placed freely by the encoder, and have nominal places that it
rarely leaves.  The context number has one bit for each of these pixels, the first place of the
template being the top bit.

With the adaptive pixels at their nominal places, the context number of a pixel differs from that
of the pixel before it by a shift: the pixel just decoded enters at the bottom, one pixel of each
row above enters on the right of that row's stretch, and the bits that leave a stretch are dropped.
The entering pixels are taken from two windows, one over the bytes of the row two above and one
over the row just above.  Each window is a 32-bit word that takes in one more byte for every eight
pixels.

* `Template` — the four templates, with their number of context bits, adaptive pixels and the
  context number that codes whether a row is typical.
* `Strategy`, `Plan` — how the pixels of a row are decoded, and when windows over whole bytes may
  stand in for reading pixels one by one.
* `Template.places`, `Template.offsets?` — the pixels of a template in the order of the bits, and
  the same with the adaptive pixels put in.
* `contextNumber`, `contextNumberAt?` — the context number of one pixel.
* `Template.layout` — where the stretches of a template lie.  `Window.start`, `Window.refill`,
  `Window.next` — the first pixel of a row, the step to another byte and to the next pixel.
-/

set_option autoImplicit false

namespace Bilevel

/-- The place of an adaptive pixel, in columns to the right and rows down from the pixel that is
decoded. -/
structure AdaptivePixel where
  x : Int8
  y : Int8
  deriving DecidableEq, Repr

inductive Template where
  | t0
  | t1
  | t2
  | t3
  deriving DecidableEq, Repr

namespace Template

def ofNumber : Nat → Except Failure Template
  | 0 => .ok .t0
  | 1 => .ok .t1
  | 2 => .ok .t2
  | 3 => .ok .t3
  | _ => .error .invalidTemplate

/-- Number of pixels of the template, which is the number of bits of its context numbers. -/
def contextBits : Template → Nat
  | .t0 => 16
  | .t1 => 13
  | .t2 => 10
  | .t3 => 10

def contextCount (t : Template) : Nat := 1 <<< t.contextBits

def adaptiveCount : Template → Nat
  | .t0 => 4
  | .t1 => 1
  | .t2 => 1
  | .t3 => 1

def nominalPixels : Template → List AdaptivePixel
  | .t0 => [⟨3, -1⟩, ⟨-3, -1⟩, ⟨2, -2⟩, ⟨-2, -2⟩]
  | .t1 => [⟨3, -1⟩]
  | .t2 => [⟨2, -1⟩]
  | .t3 => [⟨2, -1⟩]

/-- The context number under which the bit for a typical row is coded. -/
def typicalContext : Template → Nat
  | .t0 => 0x9b25
  | .t1 => 0x0795
  | .t2 => 0x00e5
  | .t3 => 0x0195

theorem length_nominalPixels (t : Template) : t.nominalPixels.length = t.adaptiveCount := by
  cases t <;> rfl

theorem typicalContext_lt (t : Template) : t.typicalContext < t.contextCount := by
  cases t <;> decide

end Template

/-! ## How rows are decoded -/

/-- How the context numbers of a row come about: from windows that move over the packed bytes of the
rows above, or from reading every template pixel on its own. -/
inductive Strategy where
  | windows
  | pixels
  deriving DecidableEq, Repr

/-- The windows have the nominal places built in and know nothing of skipped pixels. -/
def Strategy.select (t : Template) (adaptive : List AdaptivePixel) (skips : Bool) : Strategy :=
  if skips = false ∧ adaptive = t.nominalPixels then .windows else .pixels

/-- What is settled before the first row of a region. -/
structure Plan where
  template : Template
  strategy : Strategy
  deriving DecidableEq, Repr

def Plan.select (t : Template) (adaptive : List AdaptivePixel) (skips : Bool) : Plan :=
  ⟨t, Strategy.select t adaptive skips⟩

/-! ## The pixels of a template -/

/-- One pixel of a template: so many columns to the right and rows down, or the adaptive pixel with
a number, counted from 0. -/
inductive Place where
  | fixed (dx dy : Int)
  | adaptive (number : Nat)
  deriving DecidableEq, Repr

/-- The distance from a pixel to one of its neighbours, in columns to the right and rows down. -/
structure Offset where
  dx : Int
  dy : Int
  deriving DecidableEq, Repr

/-- The pixels of a template, from the top bit of the context number to the lowest. -/
def Template.places : Template → List Place
  | .t0 =>
    [.adaptive 3, .fixed (-1) (-2), .fixed 0 (-2), .fixed 1 (-2), .adaptive 2,
     .adaptive 1, .fixed (-2) (-1), .fixed (-1) (-1), .fixed 0 (-1), .fixed 1 (-1),
     .fixed 2 (-1), .adaptive 0,
     .fixed (-4) 0, .fixed (-3) 0, .fixed (-2) 0, .fixed (-1) 0]
  | .t1 =>
    [.fixed (-1) (-2), .fixed 0 (-2), .fixed 1 (-2), .fixed 2 (-2),
     .fixed (-2) (-1), .fixed (-1) (-1), .fixed 0 (-1), .fixed 1 (-1), .fixed 2 (-1), .adaptive 0,
     .fixed (-3) 0, .fixed (-2) 0, .fixed (-1) 0]
  | .t2 =>
    [.fixed (-1) (-2), .fixed 0 (-2), .fixed 1 (-2),
     .fixed (-2) (-1), .fixed (-1) (-1), .fixed 0 (-1), .fixed 1 (-1), .adaptive 0,
     .fixed (-2) 0, .fixed (-1) 0]
  | .t3 =>
    [.fixed (-3) (-1), .fixed (-2) (-1), .fixed (-1) (-1), .fixed 0 (-1), .fixed 1 (-1),
     .adaptive 0,
     .fixed (-4) 0, .fixed (-3) 0, .fixed (-2) 0, .fixed (-1) 0]

theorem Template.length_places (t : Template) : t.places.length = t.contextBits := by
  cases t <;> rfl

/-- Where a template pixel lies once the adaptive pixels are known. -/
def Place.offset? (adaptive : List AdaptivePixel) : Place → Option Offset
  | .fixed dx dy => some ⟨dx, dy⟩
  | .adaptive number => adaptive[number]?.map fun pixel => ⟨pixel.x.toInt, pixel.y.toInt⟩

/-- The neighbours of a pixel in the order of the bits; `none` if the template reads an adaptive
pixel that was not given.  Adaptive pixels that it does not read are ignored. -/
def Template.offsets? (t : Template) (adaptive : List AdaptivePixel) : Option (List Offset) :=
  t.places.mapM (Place.offset? adaptive)

/-- The neighbours are known as soon as there are as many adaptive pixels as the template has. -/
theorem Template.isSome_offsets? (t : Template) (adaptive : List AdaptivePixel) :
    (t.offsets? adaptive).isSome = decide (t.adaptiveCount ≤ adaptive.length) := by
  cases t <;> rcases adaptive with _ | ⟨a, _ | ⟨b, _ | ⟨c, _ | ⟨d, rest⟩⟩⟩⟩ <;>
    simp [offsets?, places, Place.offset?, adaptiveCount, List.mapM_cons]

/-- The number with the given binary digits, the first one on top. -/
def ofBits (bits : List Bool) : Nat := bits.foldl (fun n bit => 2 * n + bit.toNat) 0

/-- A sum that stops at the ends of the signed 32-bit range. -/
def saturatingAdd (a b : Int) : Int := max (-2147483648) (min (a + b) 2147483647)

/-- The context number of the pixel in column `x` of row `y`. -/
def contextNumber (b : Bitmap) (offsets : List Offset) (x y : Int) : Nat :=
  ofBits (offsets.map fun o => b.get (saturatingAdd x o.dx) (saturatingAdd y o.dy))

/-- The context number at unsigned 32-bit coordinates, which are taken as signed ones; `none` if
an adaptive pixel is missing. -/
def contextNumberAt? (b : Bitmap) (t : Template) (adaptive : List AdaptivePixel) (x y : Nat) :
    Option Nat :=
  (t.offsets? adaptive).map fun offsets => contextNumber b offsets (signed32 x) (signed32 y)

/-! ## Moving windows -/

/-- How the rows above a pixel enter its context number. -/
structure Layout where
  /-- Places by which a byte from two rows above is raised when it enters its window. -/
  upperShift : Nat
  /-- The stretch of the context number that the row two above fills. -/
  upperStretch : Nat
  /-- The bit of that stretch at which new pixels enter. -/
  upperEntry : Nat
  /-- Places by which the window over the row above is lowered onto the context number. -/
  lowerShift : Nat
  /-- The stretch of the context number that the row above fills. -/
  lowerStretch : Nat
  /-- The bit of that stretch at which new pixels enter. -/
  lowerEntry : Nat
  /-- The bits of a context number that stay in their stretch when it moves on by one pixel. -/
  keep : Nat
  deriving DecidableEq, Repr

/-- The layout of each template.  Template 3 has no pixels two rows up. -/
def Template.layout : Template → Layout
  | .t0 => ⟨6, 0xf800, 0x0800, 0, 0x07f0, 0x0010, 0x7bf7⟩
  | .t1 => ⟨4, 0x1e00, 0x0200, 1, 0x01f8, 0x0008, 0x0efb⟩
  | .t2 => ⟨1, 0x0380, 0x0080, 3, 0x007c, 0x0004, 0x01bd⟩
  | .t3 => ⟨0, 0, 0, 1, 0x03f0, 0x0010, 0x01f7⟩

/-- The two windows and the context number of the pixel they stand at. -/
structure Window where
  /-- Bytes of the row two above, the latest one raised by the layout's `upperShift`. -/
  upper : Nat
  /-- Bytes of the row above, the latest one at the bottom. -/
  lower : Nat
  context : Nat
  deriving DecidableEq, Repr

namespace Window

/-- A word of 32 bits moved up by one byte, with something new at the bottom. -/
def takeIn (word new : Nat) : Nat := (word <<< 8) % 4294967296 ||| new

/-- The windows at the first pixel of a row, given the first byte of the two rows above. -/
def start (layout : Layout) (upper lower : UInt8) : Window :=
  let u := upper.toNat <<< layout.upperShift
  let l := lower.toNat
  ⟨u, l, (u &&& layout.upperStretch) ||| ((l >>> layout.lowerShift) &&& layout.lowerStretch)⟩

/-- Takes in the next byte of the two rows above. -/
def refill (layout : Layout) (w : Window) (upper lower : UInt8) : Window :=
  { w with
    upper := takeIn w.upper (upper.toNat <<< layout.upperShift)
    lower := takeIn w.lower lower.toNat }

/-- Moves on from a pixel of the given colour.  The pixels that enter the stretches are found at
bit `place` of the bytes taken in last. -/
def next (layout : Layout) (w : Window) (pixel : Bool) (place : Nat) : Window :=
  { w with
    context :=
      ((w.context &&& layout.keep) <<< 1) ||| pixel.toNat |||
        ((w.upper >>> place) &&& layout.upperEntry) |||
        ((w.lower >>> (place + layout.lowerShift)) &&& layout.lowerEntry) }

end Window

end Bilevel
