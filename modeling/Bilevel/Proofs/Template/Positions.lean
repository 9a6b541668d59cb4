import Bilevel.Proofs.Bitmap.Raster
import Bilevel.Proofs.Template.ContextNumber

/-!
# Where the bits of a context number come from

Each bit of a context number belongs to one pixel of the template, and is the colour of the bitmap
where that pixel lies, in integers without bounds.  That holds as long as the coordinates are
numbers that a signed word has; larger ones are read as negative, and past the end of the unsigned
words the positions begin again at 0.

* `Template.placeOf` — the template pixel that a bit belongs to, counted from the lowest bit;
  `places_eq`: the order of the bits is the order of the template.
* `Template.position?` — where the pixel of a bit lies; `exists_position?`: all are known as soon as
  there are enough adaptive pixels.
* `Bitmap.Addressable`, `Bitmap.Inside` — bitmaps whose stored pixels have signed coordinates, and
  the positions inside a bitmap.
* `testBit_contextNumberAt?` — each bit is the pixel at its position, at any coordinates.
* `contextNumberAt?_congr`, `testBit_contextNumberAt?_set` — bitmaps that agree at these positions
  have the same context number, and what a pixel of another colour changes.
* `contextNumberAt?_positions` — all of it for the pixels of a bitmap.
* `contextNumberAt?_outside`, `contextNumberAt?_past_end` — far away from the bitmap the context
  number is 0, up to the end of the unsigned words and no further.
-/

set_option autoImplicit false

namespace Bilevel

/-! ## Positions -/

namespace Template

/-- The template pixel that bit `j` of a context number belongs to.  The lowest bits are those of
the row itself and the next ones those of the rows above, in each row from right to left; the
adaptive pixels stand in between. -/
def placeOf : Template → (j : Nat) → Place
  | .t0, j =>
    if j < 4 then .fixed (-1 - j) 0
    else if j = 4 then .adaptive 0
    else if j < 10 then .fixed (7 - j) (-1)
    else if j = 10 then .adaptive 1
    else if j = 11 then .adaptive 2
    else if j < 15 then .fixed (13 - j) (-2)
    else .adaptive 3
  | .t1, j =>
    if j < 3 then .fixed (-1 - j) 0
    else if j = 3 then .adaptive 0
    else if j < 9 then .fixed (6 - j) (-1)
    else .fixed (11 - j) (-2)
  | .t2, j =>
    if j < 2 then .fixed (-1 - j) 0
    else if j = 2 then .adaptive 0
    else if j < 7 then .fixed (4 - j) (-1)
    else .fixed (8 - j) (-2)
  | .t3, j =>
    if j < 4 then .fixed (-1 - j) 0
    else if j = 4 then .adaptive 0
    else .fixed (6 - j) (-1)

/-- Where the pixel of bit `j` lies for the pixel in column `x` of row `y`, inside the bitmap or
not; `none` if it is an adaptive pixel that was not given. -/
def position? (t : Template) (adaptive : List AdaptivePixel) (x y : Int) (j : Nat) :
    Option (Int × Int) :=
  ((t.placeOf j).offset? adaptive).map fun o => (x + o.dx, y + o.dy)

variable {t : Template} {adaptive : List AdaptivePixel} {offsets : List Offset}

/-- The template lists its pixels from the top bit down. -/
theorem places_eq (t : Template) :
    t.places = ((List.range t.contextBits).map t.placeOf).reverse := by
  cases t <;> decide

theorem getElem?_offsets (h : t.offsets? adaptive = some offsets) {j : Nat}
    (hj : j < t.contextBits) : offsets.reverse[j]? = (t.placeOf j).offset? adaptive := by
  have hplaces := congrArg (fun l => l.reverse[j]?) (map_eq_of_mapM h)
  simp only [places_eq, List.reverse_reverse, List.getElem?_map, List.getElem?_range hj,
    ← List.map_reverse, Option.map_some] at hplaces
  cases hoffset : offsets.reverse[j]? with
  | none =>
    rw [hoffset] at hplaces
    cases hplaces
  | some o =>
    rw [hoffset] at hplaces
    exact (Option.some.inj hplaces).symm

/-- Positions are known as soon as there are as many adaptive pixels as the template has. -/
theorem exists_position? (hadaptive : t.adaptiveCount ≤ adaptive.length) (x y : Int) {j : Nat}
    (hj : j < t.contextBits) : ∃ px py, t.position? adaptive x y j = some (px, py) := by
  obtain ⟨offsets, ho⟩ := exists_offsets?_of_le hadaptive
  have hlength : j < offsets.reverse.length := by
    rw [List.length_reverse, length_offsets? ho]
    exact hj
  refine ⟨x + offsets.reverse[j].dx, y + offsets.reverse[j].dy, ?_⟩
  rw [position?, ← getElem?_offsets ho hj, List.getElem?_eq_getElem hlength]
  rfl

/-- From other coordinates all positions are as far away as these are. -/
theorem position?_move (x y x' y' : Int) {j : Nat} {px py : Int}
    (hp : t.position? adaptive x y j = some (px, py)) :
    t.position? adaptive x' y' j = some (x' + (px - x), y' + (py - y)) := by
  obtain ⟨o, hplace, hpair⟩ := Option.map_eq_some_iff.1 hp
  cases hpair
  rw [position?, hplace, Option.map_some, show x + o.dx - x = o.dx by omega,
    show y + o.dy - y = o.dy by omega]

end Template

namespace Bitmap

/-- All columns and rows of stored pixels have signed 32-bit numbers. -/
def Addressable (b : Bitmap) : Prop :=
  b.hasStorage = true → b.width ≤ 2147483647 ∧ b.height ≤ 2147483647

def Inside (b : Bitmap) (px py : Int) : Prop := 0 ≤ px ∧ px < b.width ∧ 0 ≤ py ∧ py < b.height

instance (b : Bitmap) (px py : Int) : Decidable (b.Inside px py) :=
  inferInstanceAs (Decidable (_ ∧ _))

/-- The pixels inside are the stored bits, and outside a bitmap is white. -/
theorem get_eq_ite (b : Bitmap) (px py : Int) :
    b.get px py = if b.Inside px py then b.bit px.toNat py.toNat else false := by
  rw [get_eq_bit]
  by_cases hin : b.Inside px py
  · rw [if_pos hin]
    unfold Inside at hin
    rw [decide_eq_true hin, Bool.true_and]
  · rw [if_neg hin]
    unfold Inside at hin
    rw [decide_eq_false hin, Bool.false_and]

end Bitmap

section

variable {b c : Bitmap} {t : Template} {adaptive : List AdaptivePixel} {x y n m j : Nat}
  {px py : Int}

/-- With enough adaptive pixels there is a context number at any coordinates, and it is one of the
template's. -/
theorem exists_contextNumberAt? (b : Bitmap) (hadaptive : t.adaptiveCount ≤ adaptive.length)
    (x y : Nat) : ∃ n, contextNumberAt? b t adaptive x y = some n ∧ n < 2 ^ t.contextBits := by
  obtain ⟨offsets, ho⟩ := Template.exists_offsets?_of_le hadaptive
  have hlt := contextNumber_lt (b := b) ho (signed32 x) (signed32 y)
  rw [t.contextCount_eq] at hlt
  refine ⟨_, ?_, hlt⟩
  rw [contextNumberAt?, ho]
  rfl

/-- Every bit of a context number is the pixel at its position, if the coordinates are taken as
signed ones. -/
theorem testBit_contextNumberAt? (hb : b.Addressable)
    (h : contextNumberAt? b t adaptive x y = some n) (hj : j < t.contextBits)
    (hp : t.position? adaptive (signed32 x) (signed32 y) j = some (px, py)) :
    n.testBit j = b.get px py := by
  obtain ⟨offsets, ho, rfl⟩ := Option.map_eq_some_iff.1 h
  obtain ⟨o, hplace, hpair⟩ := Option.map_eq_some_iff.1 hp
  cases hpair
  have hget : ∀ dx dy, b.get (saturatingAdd (signed32 x) dx) (saturatingAdd (signed32 y) dy) =
      b.get (signed32 x + dx) (signed32 y + dy) := by
    intro dx dy
    cases hstored : b.hasStorage with
    | true =>
      obtain ⟨hwidth, hheight⟩ := hb hstored
      exact get_saturatingAdd hwidth hheight _ _ _ _
    | false => rw [Bitmap.get_of_not_stored hstored, Bitmap.get_of_not_stored hstored]
  rw [contextNumber, testBit_ofBits, ← List.map_reverse, List.getElem?_map,
    Template.getElem?_offsets ho hj, hplace, Option.map_some, Option.getD_some, hget]

/-- Numbers of so many bits are told by them. -/
theorem eq_of_testBit {k : Nat} (hm : m < 2 ^ k) (hn : n < 2 ^ k)
    (h : ∀ j < k, m.testBit j = n.testBit j) : m = n := by
  refine Nat.eq_of_testBit_eq fun j => ?_
  by_cases hj : j < k
  · exact h j hj
  · have hpow : 2 ^ k ≤ 2 ^ j := Nat.pow_le_pow_right (by decide) (by omega)
    rw [Nat.testBit_lt_two_pow (by omega), Nat.testBit_lt_two_pow (by omega)]

/-- Bitmaps that agree at the positions of the template have the same context number. -/
theorem contextNumberAt?_congr (hb : b.Addressable) (hc : c.Addressable)
    (hadaptive : t.adaptiveCount ≤ adaptive.length)
    (hsame : ∀ j < t.contextBits, ∀ px py,
      t.position? adaptive (signed32 x) (signed32 y) j = some (px, py) →
        c.get px py = b.get px py) :
    contextNumberAt? c t adaptive x y = contextNumberAt? b t adaptive x y := by
  obtain ⟨m, hm, hmlt⟩ := exists_contextNumberAt? c hadaptive x y
  obtain ⟨n, hn, hnlt⟩ := exists_contextNumberAt? b hadaptive x y
  rw [hm, hn, eq_of_testBit hmlt hnlt fun j hj => ?_]
  obtain ⟨px, py, hp⟩ := Template.exists_position? hadaptive (signed32 x) (signed32 y) hj
  rw [testBit_contextNumberAt? hc hm hj hp, testBit_contextNumberAt? hb hn hj hp]
  exact hsame j hj px py hp

/-- Another colour for a pixel flips the bits whose position it has. -/
theorem testBit_contextNumberAt?_set (hb : b.Addressable) (hpacked : b.Packed) {cx cy : Nat}
    (hcx : cx < b.width) (hcy : cy < b.height)
    (hn : contextNumberAt? b t adaptive x y = some n)
    (hm : contextNumberAt? (b.set cx cy (!b.get cx cy)) t adaptive x y = some m)
    (hj : j < t.contextBits)
    (hp : t.position? adaptive (signed32 x) (signed32 y) j = some (px, py)) :
    m.testBit j = (n.testBit j ^^ decide ((px, py) = ((cx : Int), (cy : Int)))) := by
  have hset : (b.set cx cy (!b.get cx cy)).Addressable := by
    intro hstored
    rw [Bitmap.width_set, Bitmap.height_set]
    exact hb ((Bitmap.hasStorage_congr (Bitmap.size_set _ _ _ _)).symm.trans hstored)
  rw [testBit_contextNumberAt? hset hm hj hp, testBit_contextNumberAt? hb hn hj hp,
    Bitmap.get_set hpacked hcx hcy]
  by_cases hsame : px = cx ∧ py = cy
  · obtain ⟨rfl, rfl⟩ := hsame
    simp
  · rw [if_neg fun h => hsame ⟨h.2, h.1⟩, decide_eq_false (by rw [Prod.mk.injEq]; exact hsame),
      Bool.xor_false]

/-- **A context number is read off the template.**  For each pixel of a bitmap of valid size, each
template and any adaptive pixels, as many as the template has or more: there is a context number,
with no more bits than the template has pixels.  Each of its bits is the pixel at the position that
the template gives to the bit, and zero if that lies outside the bitmap.  A bitmap of the same size
that agrees at these positions has the same context number; and another colour for one pixel of
the bitmap flips just the bits, if any, whose position that is. -/
theorem contextNumberAt?_positions (hsize : Bitmap.ValidSize b.width b.height) (hpacked : b.Packed)
    (hx : x < b.width) (hy : y < b.height) (t : Template)
    (hadaptive : t.adaptiveCount ≤ adaptive.length) :
    ∃ n, contextNumberAt? b t adaptive x y = some n ∧ n < 2 ^ t.contextBits ∧
      (∀ j < t.contextBits, ∃ px py, t.position? adaptive x y j = some (px, py) ∧
        n.testBit j = if b.Inside px py then b.bit px.toNat py.toNat else false) ∧
      (∀ c : Bitmap, c.width = b.width → c.height = b.height →
        (∀ j < t.contextBits, ∀ px py, t.position? adaptive x y j = some (px, py) →
          c.get px py = b.get px py) →
        contextNumberAt? c t adaptive x y = some n) ∧
      ∀ cx cy : Nat, cx < b.width → cy < b.height →
        ∃ m, contextNumberAt? (b.set cx cy (!b.get cx cy)) t adaptive x y = some m ∧
          m < 2 ^ t.contextBits ∧
          ∀ j < t.contextBits, m.testBit j =
            (n.testBit j ^^
              decide (t.position? adaptive x y j = some ((cx : Int), (cy : Int)))) := by
  obtain ⟨hwidth, hheight⟩ := hsize.le
  have hb : b.Addressable := fun _ => hsize.le
  have hsx : signed32 x = x := if_pos (by omega)
  have hsy : signed32 y = y := if_pos (by omega)
  obtain ⟨n, hn, hlt⟩ := exists_contextNumberAt? b hadaptive x y
  refine ⟨n, hn, hlt, fun j hj => ?_, fun c hcw hch hsame => ?_, fun cx cy hcx hcy => ?_⟩
  · obtain ⟨px, py, hp⟩ := Template.exists_position? hadaptive x y hj
    refine ⟨px, py, hp, ?_⟩
    rw [← hsx, ← hsy] at hp
    rw [testBit_contextNumberAt? hb hn hj hp, Bitmap.get_eq_ite]
  · have hc : c.Addressable := fun _ => by omega
    rw [← hn]
    refine contextNumberAt?_congr hb hc hadaptive fun j hj px py hp => ?_
    rw [hsx, hsy] at hp
    exact hsame j hj px py hp
  · obtain ⟨m, hm, hmlt⟩ := exists_contextNumberAt? (b.set cx cy (!b.get cx cy)) hadaptive x y
    refine ⟨m, hm, hmlt, fun j hj => ?_⟩
    obtain ⟨px, py, hp⟩ := Template.exists_position? hadaptive x y hj
    simp only [hp, Option.some.injEq]
    rw [← hsx, ← hsy] at hp
    exact testBit_contextNumberAt?_set hb hpacked hcx hcy hn hm hj hp

/-- An adaptive pixel at the place of a fixed one, and one more than the template has: the pixel
just before is two bits of the context number, and flips both. -/
theorem contextNumberAt?_positions_shared :
    let b : Bitmap := ⟨3, 2, #[0x40, 0x80]⟩
    let adaptive : List AdaptivePixel := [⟨-1, 0⟩, ⟨5, 5⟩]
    (Bitmap.ValidSize b.width b.height ∧ b.Packed ∧ 1 < b.width ∧ 1 < b.height ∧
      Template.adaptiveCount .t3 ≤ adaptive.length) ∧
    (∀ j < 10, Template.position? .t3 adaptive 1 1 j = some (0, 1) ↔ j = 0 ∨ j = 4) ∧
    ∃ n, contextNumberAt? b .t3 adaptive 1 1 = some n ∧ n = 81 ∧ n < 2 ^ 10 ∧
      (∀ j < 10, ∃ px py, Template.position? .t3 adaptive 1 1 j = some (px, py) ∧
        n.testBit j = if b.Inside px py then b.bit px.toNat py.toNat else false) ∧
      ∃ m, contextNumberAt? (b.set 0 1 (!b.get 0 1)) .t3 adaptive 1 1 = some m ∧ m < 2 ^ 10 ∧
        ∀ j < 10, m.testBit j =
          (n.testBit j ^^ decide (Template.position? .t3 adaptive 1 1 j = some (0, 1))) := by
  intro b adaptive
  have hsize : Bitmap.ValidSize b.width b.height := by decide
  have hpacked : b.Packed := by decide
  have hx : 1 < b.width := by decide
  have hy : 1 < b.height := by decide
  have hadaptive : Template.adaptiveCount .t3 ≤ adaptive.length := by decide
  obtain ⟨n, hn, hlt, hbits, -, hflip⟩ :=
    contextNumberAt?_positions hsize hpacked hx hy .t3 hadaptive
  have hvalue : contextNumberAt? b .t3 adaptive 1 1 = some 81 := by decide
  refine ⟨⟨hsize, hpacked, hx, hy, hadaptive⟩, by decide, n, hn, ?_, hlt, hbits,
    hflip 0 1 (by decide) (by decide)⟩
  rw [hvalue] at hn
  exact (Option.some.inj hn).symm

/-! ## Coordinates far away -/

/-- A position that is read inside the bitmap is inside, or past the end of the unsigned words. -/
theorem inside_of_signed (h : b.Inside (signed32 x + (px - x)) (signed32 y + (py - y))) :
    b.Inside px py ∨ 4294967296 ≤ px ∨ 4294967296 ≤ py := by
  unfold Bitmap.Inside signed32 at *
  split at h <;> split at h <;> omega

/-- **Far away from a bitmap the context number is 0**, up to the end of the unsigned words.  For
each bitmap, whose size is valid if its pixels are stored, any coordinates, each template and any
adaptive pixels, as many as the template has or more: there is a context number, and each of its
bits is the pixel at the position of the bit, seen from the coordinates as signed ones.  And if all
positions seen from the coordinates as they are lie outside the bitmap, and none of them past the
end of the unsigned words, the context number is 0. -/
theorem contextNumberAt?_outside
    (hstored : b.hasStorage = true → Bitmap.ValidSize b.width b.height) (t : Template)
    (hadaptive : t.adaptiveCount ≤ adaptive.length) (x y : Nat) :
    ∃ n, contextNumberAt? b t adaptive x y = some n ∧ n < 2 ^ t.contextBits ∧
      (∀ j < t.contextBits, ∃ px py,
        t.position? adaptive (signed32 x) (signed32 y) j = some (px, py) ∧
          n.testBit j = b.get px py) ∧
      ((∀ j < t.contextBits, ∀ px py, t.position? adaptive x y j = some (px, py) →
        ¬b.Inside px py ∧ px < 4294967296 ∧ py < 4294967296) → n = 0) := by
  have hb : b.Addressable := fun h => (hstored h).le
  obtain ⟨n, hn, hlt⟩ := exists_contextNumberAt? b hadaptive x y
  refine ⟨n, hn, hlt, fun j hj => ?_, fun houtside => ?_⟩
  · obtain ⟨px, py, hp⟩ := Template.exists_position? hadaptive (signed32 x) (signed32 y) hj
    exact ⟨px, py, hp, testBit_contextNumberAt? hb hn hj hp⟩
  · refine eq_of_testBit hlt (Nat.two_pow_pos _) fun j hj => ?_
    obtain ⟨px, py, hp⟩ := Template.exists_position? hadaptive x y hj
    obtain ⟨hnot, hpx, hpy⟩ := houtside j hj px py hp
    have hread := Template.position?_move x y (signed32 x) (signed32 y) hp
    rw [testBit_contextNumberAt? hb hn hj hread, Nat.zero_testBit, Bitmap.get_eq_ite, if_neg]
    intro hin
    rcases inside_of_signed hin with h | h | h
    · exact hnot h
    · omega
    · omega

/-- The last coordinates from which no position is past the end of the unsigned words. -/
theorem contextNumberAt?_outside_last :
    let b : Bitmap := ⟨1, 1, #[0x80]⟩
    let adaptive := Template.nominalPixels .t3
    ((b.hasStorage = true → Bitmap.ValidSize b.width b.height) ∧
      Template.adaptiveCount .t3 ≤ adaptive.length ∧
      ∀ j < 10, ∀ px py, Template.position? .t3 adaptive 4294967293 1 j = some (px, py) →
        ¬b.Inside px py ∧ px < 4294967296 ∧ py < 4294967296) ∧
    contextNumberAt? b .t3 adaptive 4294967293 1 = some 0 := by
  intro b adaptive
  have hstored : b.hasStorage = true → Bitmap.ValidSize b.width b.height := by decide
  have houtside : ∀ j < 10, ∀ px py,
      Template.position? .t3 adaptive 4294967293 1 j = some (px, py) →
        ¬b.Inside px py ∧ px < 4294967296 ∧ py < 4294967296 := by
    have hall : ∀ j < 10, ∀ p ∈ Template.position? .t3 adaptive 4294967293 1 j,
        ¬b.Inside p.1 p.2 ∧ p.1 < 4294967296 ∧ p.2 < 4294967296 := by decide
    exact fun j hj px py hp => hall j hj (px, py) hp
  have hadaptive : Template.adaptiveCount .t3 ≤ adaptive.length := by decide
  obtain ⟨n, hn, -, -, hzero⟩ := contextNumberAt?_outside hstored .t3 hadaptive 4294967293 1
  rw [hzero houtside] at hn
  exact ⟨⟨hstored, hadaptive, houtside⟩, hn⟩

/-- Past the end of the unsigned words the positions begin again at 0: just before that end, with
every position outside the bitmap, a context number has the bitmap's pixel in it. -/
theorem contextNumberAt?_past_end :
    let b : Bitmap := ⟨1, 1, #[0x80]⟩
    let adaptive := Template.nominalPixels .t3
    (∀ j < Template.contextBits .t3, ∀ p ∈ Template.position? .t3 adaptive 4294967295 1 j,
      ¬b.Inside p.1 p.2) ∧
    contextNumberAt? b .t3 adaptive 4294967295 1 = some 32 := by
  decide

end

end Bilevel
