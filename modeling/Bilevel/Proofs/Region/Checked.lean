import Bilevel.Proofs.Bitmap.Checked
import Bilevel.Proofs.Region.Rows

/-!
# Rows that are watched

The decoding of a region once more, on bitmaps whose places are watched and with columns and rows in
machine numbers: 32 bits for columns and rows, signed ones where pixels are read, and 64 bits for
places.  Where a number cannot be worked out or a byte cannot be reached, the decode ends with a
fault.

* `Dialogue.need` — goes on with a value, if there is one.
* `Checked.pixelsFrom`, `windowRow`, `fillRow`, `decodeRow`, `decodeRows`, `decode` — the
  procedures that decode pixels, rows and regions, each under the name of the one that does not
  watch.
* `Canvas.Sized` — a canvas of the region's size, with all bytes stored and its row inside.
* `Checked.fillRow_eq`, `decodeRow_eq`, `decodeRows_eq`, `decode_eq` — nothing fails, and what is
  decoded is what is decoded without watching.
-/

set_option autoImplicit false

namespace Bilevel

/-! ## Values that may be missing -/

/-- Goes on with a value, or gives up if there is none. -/
def Dialogue.need {π α β : Type} (held : π) (value : Option α) (next : α → Dialogue π β) :
    Dialogue π β :=
  match value with
  | some a => next a
  | none => .fail held (.fault .storage)

@[simp] theorem Dialogue.need_some {π α β : Type} (held : π) (a : α) (next : α → Dialogue π β) :
    Dialogue.need held (some a) next = next a := rfl

namespace Region.Checked

open Bilevel.Checked Dialogue

def skips? (r : Region) (x y : Nat) : Option Bool :=
  match r.skip with
  | some mask => mask.get? (signed32 x) (signed32 y)
  | none => some false

def contextNumber? (b : Bitmap) (offsets : List Offset) (x y : Nat) : Option Nat := do
  let bits ← offsets.mapM fun o =>
    b.get? (saturatingAdd (signed32 x) o.dx) (saturatingAdd (signed32 y) o.dy)
  some (ofBits bits)

def put? (c : Canvas) (x : Nat) (value : Bool) : Option Canvas := do
  let bitmap ← c.bitmap.put? x c.row value
  some { c with bitmap := bitmap }

def pixelsFrom (r : Region) (offsets : Option (List Offset)) :
    (left x : Nat) → Canvas → Dialogue Canvas Canvas
  | 0, _, c => .done c
  | left + 1, x, c =>
    need c (skips? r x c.row) fun skipped =>
      if skipped then
        need c (put? c x false) fun next => pixelsFrom r offsets left (x + 1) next
      else
        match offsets with
        | none => .fail c (.fault .adaptivePixel)
        | some places =>
          need c (contextNumber? c.bitmap places x c.row) fun number =>
            .ask c number fun bit =>
              need c (put? c x bit) fun next => pixelsFrom r offsets left (x + 1) next

def pixelRow (r : Region) (c : Canvas) : Dialogue Canvas Canvas :=
  pixelsFrom r (r.template.offsets? r.adaptivePixels) c.bitmap.width 0 c

def byteFrom (layout : Layout) (held : Canvas) :
    (left k : Nat) → (byte : Nat) → Window → Dialogue Canvas (Nat × Window)
  | 0, _, byte, w => .done (byte, w)
  | left + 1, k, byte, w =>
    need held (difference? 7 k) fun place =>
      .ask held w.context fun bit =>
        byteFrom layout held left (k + 1) (byte ||| (bit.toNat <<< place)) (w.next layout bit place)

def windowByte (layout : Layout) (size i : Nat) (w : Window) (c : Canvas) :
    Dialogue Canvas (Window × Canvas) :=
  (byteFrom layout c size 0 0 w).bind fun (byte, w) =>
    need c (c.bitmap.setByte? c.row i (UInt8.ofNat byte)) fun bitmap =>
      .done (w, { c with bitmap := bitmap })

def bytesFrom (layout : Layout) (rest : Nat) :
    (left i : Nat) → Window → Canvas → Dialogue Canvas Canvas
  | 0, i, w, c =>
    (windowByte layout rest i (w.refill layout 0 0) c).bind fun (_, c) => .done c
  | left + 1, i, w, c =>
    need c (c.bitmap.readAbove? c.row 2 (i + 1)) fun upper =>
      need c (c.bitmap.readAbove? c.row 1 (i + 1)) fun lower =>
        (windowByte layout 8 i (w.refill layout upper lower) c).bind fun (w, c) =>
          bytesFrom layout rest left (i + 1) w c

def windowRow (r : Region) (c : Canvas) : Dialogue Canvas Canvas :=
  let layout := r.template.layout
  need c (difference? c.bitmap.stride 1) fun full =>
    need c (product? (2 ^ 32) 8 full) fun covered =>
      need c (difference? c.bitmap.width covered) fun rest =>
        need c (c.bitmap.readAbove? c.row 2 0) fun upper =>
          need c (c.bitmap.readAbove? c.row 1 0) fun lower =>
            bytesFrom layout rest full 0 (Window.start layout upper lower) c

def fillRow (r : Region) (strategy : Strategy) (c : Canvas) : Dialogue Canvas Canvas :=
  if c.typical then
    need c (pred32? (signed32 c.row)) fun source =>
      need c (c.bitmap.copyRow? c.row source) fun bitmap => .done { c with bitmap := bitmap }
  else
    match strategy with
    | .windows => windowRow r c
    | .pixels => pixelRow r c

def decodeRow (r : Region) (strategy : Strategy) (c : Canvas) : Dialogue Canvas Canvas :=
  (r.typicalBit c).bind fun c => (fillRow r strategy c).bind fun c =>
    need c (sum? (2 ^ 32) c.row 1) fun row => .done { c with row := row }

def decodeRows (r : Region) (strategy : Strategy) : Nat → Canvas → Dialogue Canvas Canvas
  | 0, c => .done c
  | rows + 1, c => (decodeRow r strategy c).bind (decodeRows r strategy rows)

def decode {σ : Type} [BitSource σ] (r : Region) (pixelwise : Bool) (s : Session σ) :
    Except Failure Bitmap × Session σ :=
  if Bitmap.ValidSize r.width r.height then
    match r.check s.contexts.size with
    | .error reason => (.error reason, s)
    | .ok () =>
      match Bitmap.blank r.width r.height with
      | .error reason => (.error reason, s)
      | .ok bitmap =>
        answer ((decodeRows r (r.plan pixelwise).strategy r.height ⟨bitmap, 0, false⟩).run s)
  else (.ok (Bitmap.withoutStorage r.width r.height), s)

end Region.Checked

/-! ## Canvases that have room -/

/-- The sides of the mask of skipped pixels, if there is one, are numbers of 32 bits. -/
def Region.MaskWords (r : Region) : Prop := ∀ mask, r.skip = some mask → mask.Words

/-- A canvas of the region's valid size, with all bytes stored and its next row inside. -/
structure Canvas.Sized (r : Region) (c : Canvas) : Prop where
  valid : Bitmap.ValidSize r.width r.height
  width : c.bitmap.width = r.width
  height : c.bitmap.height = r.height
  size : c.bitmap.data.size = c.bitmap.stride * c.bitmap.height
  row : c.row < r.height

namespace Canvas

variable {r : Region} {c : Canvas}

theorem Fits.sized {x : Nat} (h : c.Fits r x) (hvalid : Bitmap.ValidSize r.width r.height)
    (hrow : c.row < r.height) : c.Sized r :=
  ⟨hvalid, h.width, h.height, h.packed.size, hrow⟩

theorem Sized.bounds (h : c.Sized r) : r.width < 2147483648 ∧ r.height < 2147483648 := by
  obtain ⟨hwidth, hheight⟩ := h.valid.le
  omega

theorem Sized.whole (h : c.Sized r) : c.bitmap.Whole := by
  obtain ⟨hwidth, hheight⟩ := h.bounds
  refine ⟨⟨?_, ?_⟩, h.size⟩
  · rw [h.width]
    omega
  · rw [h.height]
    omega

theorem Sized.put (h : c.Sized r) (x : Nat) (value : Bool) : (c.put x value).Sized r := by
  refine ⟨h.valid, (Bitmap.width_set _ _ _ _).trans h.width,
    (Bitmap.height_set _ _ _ _).trans h.height, ?_, h.row⟩
  rw [stride_put]
  unfold Canvas.put
  rw [Bitmap.size_set, Bitmap.height_set]
  exact h.size

theorem Sized.putByte (h : c.Sized r) (i : Nat) (byte : UInt8) : (c.putByte i byte).Sized r := by
  refine ⟨h.valid, h.width, h.height, ?_, h.row⟩
  unfold Canvas.putByte
  rw [Bitmap.size_setByte, Bitmap.stride_setByte, Bitmap.height_setByte]
  exact h.size

end Canvas

namespace Region.Checked

open Bilevel.Checked Dialogue

variable {r : Region} {c : Canvas} {strategy : Strategy}

/-! ## Nothing fails in a row -/

theorem skips?_eq (hmask : r.MaskWords) {x y : Nat} (hx : x < 2147483648) (hy : y < 2147483648) :
    skips? r x y = some (r.skips x y) := by
  unfold skips? skips
  cases hskip : r.skip with
  | none => rfl
  | some mask =>
    simp only [signed32_eq hx, signed32_eq hy]
    exact (hmask mask hskip).get? x y

theorem contextNumber?_eq {b : Bitmap} (hb : b.Words) (offsets : List Offset) {x y : Nat}
    (hx : x < 2147483648) (hy : y < 2147483648) :
    contextNumber? b offsets x y = some (contextNumber b offsets x y) := by
  have hbits : (offsets.mapM fun o =>
      b.get? (saturatingAdd x o.dx) (saturatingAdd y o.dy)) =
      some (offsets.map fun o => b.get (saturatingAdd x o.dx) (saturatingAdd y o.dy)) := by
    simp only [hb.get?]
    exact List.mapM_pure
  unfold contextNumber? contextNumber
  rw [signed32_eq hx, signed32_eq hy, hbits]
  rfl

theorem put?_eq (h : c.Sized r) (x : Nat) (value : Bool) :
    put? c x value = some (c.put x value) := by
  unfold put?
  rw [h.whole.put?]
  rfl

theorem pixelsFrom_eq (hmask : r.MaskWords) (offsets : Option (List Offset)) {left x : Nat}
    (h : c.Sized r) (hx : x + left = r.width) :
    pixelsFrom r offsets left x c = r.pixelsFrom offsets left x c := by
  induction left generalizing x c with
  | zero => rfl
  | succ left ih =>
    obtain ⟨hwidth, hheight⟩ := h.bounds
    have hrow := h.row
    have hnext : ∀ value, pixelsFrom r offsets left (x + 1) (c.put x value) =
        r.pixelsFrom offsets left (x + 1) (c.put x value) :=
      fun value => ih (h.put x value) (by omega)
    unfold pixelsFrom Region.pixelsFrom
    rw [skips?_eq hmask (by omega) (by omega)]
    simp only [put?_eq h, need_some, hnext]
    split
    · rfl
    · cases offsets with
      | none => rfl
      | some places =>
        simp only [contextNumber?_eq h.whole.toWords places (show x < 2147483648 by omega)
          (show c.row < 2147483648 by omega), need_some]

theorem pixelRow_eq (hmask : r.MaskWords) (h : c.Sized r) : pixelRow r c = r.pixelRow c :=
  pixelsFrom_eq hmask _ h (by rw [h.width, Nat.zero_add])

theorem byteFrom_eq (layout : Layout) (held : Canvas) {left k : Nat} (hk : k + left ≤ 8)
    (byte : Nat) (w : Window) :
    byteFrom layout held left k byte w = Region.byteFrom layout held left (7 - k) byte w := by
  induction left generalizing k byte w with
  | zero => rfl
  | succ left ih =>
    rw [byteFrom, Region.byteFrom, difference?_eq (by omega), need_some]
    refine congrArg (Dialogue.ask held w.context) (funext fun bit => ?_)
    rw [Nat.sub_sub]
    exact ih (by omega) _ _

/-- A byte and what follows it. -/
theorem windowByte_bind_eq (layout : Layout) {size i : Nat} (hsize : size ≤ 8) (w : Window)
    (h : c.Sized r) {k l : Window × Canvas → Dialogue Canvas Canvas}
    (hkl : ∀ byte w, k (w, c.putByte i byte) = l (w, c.putByte i byte)) :
    (windowByte layout size i w c).bind k = (Region.windowByte layout size i w c).bind l := by
  have hrow : c.row < c.bitmap.height := by
    rw [h.height]
    exact h.row
  unfold windowByte Region.windowByte
  rw [byteFrom_eq layout c (by omega), bind_assoc, bind_assoc]
  refine congrArg (Dialogue.bind _) (funext fun p => ?_)
  obtain ⟨byte, w⟩ := p
  simp only [h.whole.setByte? hrow]
  by_cases hstores : c.bitmap.StoresByte c.row i
  · rw [if_pos hstores, if_pos hstores]
    exact hkl (UInt8.ofNat byte) w
  · rw [if_neg hstores, if_neg hstores]
    rfl

theorem readAbove?_eq (h : c.Sized r) {distance : Nat} (hdistance : 0 < distance) (i : Nat) :
    c.bitmap.readAbove? c.row distance i = c.byteAbove? distance i := by
  have hrow : c.row < c.bitmap.height := by
    rw [h.height]
    exact h.row
  exact h.whole.readAbove? hrow hdistance i

theorem bytesFrom_eq (layout : Layout) {rest : Nat} (hrest : rest ≤ 8) (left i : Nat) (w : Window)
    (h : c.Sized r) :
    bytesFrom layout rest left i w c = Region.bytesFrom layout rest left i w c := by
  induction left generalizing i w c with
  | zero => exact windowByte_bind_eq layout hrest _ h fun byte w => rfl
  | succ left ih =>
    rw [bytesFrom, Region.bytesFrom, readAbove?_eq h (by decide), readAbove?_eq h (by decide)]
    cases c.byteAbove? 2 (i + 1) with
    | none => rfl
    | some upper =>
      cases c.byteAbove? 1 (i + 1) with
      | none => rfl
      | some lower =>
        exact windowByte_bind_eq layout (Nat.le_refl 8) _ h
          fun byte w => ih (i + 1) w (h.putByte i byte)

theorem windowRow_eq (h : c.Sized r) : windowRow r c = r.windowRow c := by
  obtain ⟨hpos, -, -, -, -⟩ := h.valid
  obtain ⟨hwidth, -⟩ := h.bounds
  have hstride : c.bitmap.stride = (r.width + 7) / 8 := by
    unfold Bitmap.stride Bitmap.bytesFor
    rw [h.width]
  have hc := h.width
  unfold windowRow Region.windowRow
  simp only
  rw [difference?_eq (by omega), need_some, product?_eq (by omega), need_some,
    difference?_eq (by omega), need_some, readAbove?_eq h (by decide), readAbove?_eq h (by decide)]
  cases c.byteAbove? 2 0 with
  | none => rfl
  | some upper =>
    cases c.byteAbove? 1 0 with
    | none => rfl
    | some lower => exact bytesFrom_eq _ (by omega) _ _ _ h

theorem fillRow_eq (hmask : r.MaskWords) (h : c.Sized r) :
    fillRow r strategy c = r.fillRow strategy c := by
  obtain ⟨-, hheight⟩ := h.bounds
  have hrow := h.row
  unfold fillRow Region.fillRow
  split
  · rw [signed32_eq (by omega), pred32?_eq (by omega), need_some, h.whole.copyRow?, need_some,
      if_pos (h.whole.storesCopy _ _)]
    rfl
  · cases strategy with
    | windows => exact windowRow_eq h
    | pixels => exact pixelRow_eq hmask h

/-! ## Nothing fails in a region -/

theorem decodeRow_eq (hmask : r.MaskWords) (hsuits : r.Suits strategy)
    (hcount : r.adaptivePixels.length = r.template.adaptiveCount)
    (hvalid : Bitmap.ValidSize r.width r.height) (hfit : c.Fits r 0) (hrow : c.row < r.height) :
    decodeRow r strategy c = r.decodeRow strategy c := by
  refine (r.typicalBit_within c).bind_congr fun c₁ h₁ => ?_
  obtain ⟨typical, rfl⟩ := h₁
  have hfit₁ := hfit.withTypical typical
  have hsized := hfit₁.sized hvalid hrow
  obtain ⟨-, hheight⟩ := hsized.bounds
  rw [fillRow_eq hmask hsized]
  refine (hsuits.fillRow_within hcount hfit₁ hrow hvalid.1).bind_congr fun c₂ h₂ => ?_
  obtain ⟨-, hrow₂, -⟩ := h₂
  simp only at hrow₂
  rw [sum?_eq (by omega)]
  rfl

theorem decodeRows_eq (hmask : r.MaskWords) (hsuits : r.Suits strategy)
    (hcount : r.adaptivePixels.length = r.template.adaptiveCount)
    (hvalid : Bitmap.ValidSize r.width r.height) {rows : Nat} (hfit : c.Fits r 0)
    (hrows : c.row + rows = r.height) :
    decodeRows r strategy rows c = r.decodeRows strategy rows c := by
  induction rows generalizing c with
  | zero => rfl
  | succ rows ih =>
    have hrow : c.row < r.height := by omega
    rw [decodeRows, Region.decodeRows, decodeRow_eq hmask hsuits hcount hvalid hfit hrow]
    refine (hsuits.decodeRow_within hcount hfit hrow hvalid.1).bind_congr ?_
    rintro c' ⟨hfit', hrow'⟩
    exact ih hfit' (by omega)

variable {σ : Type} [BitSource σ]

theorem decode_eq (hmask : r.MaskWords) (pixelwise : Bool) (s : Session σ) :
    decode r pixelwise s = r.decode pixelwise s := by
  by_cases hvalid : Bitmap.ValidSize r.width r.height
  · cases hcheck : r.check s.contexts.size with
    | error reason =>
      rw [decode_refused hvalid hcheck, decode, if_pos hvalid, hcheck]
    | ok u =>
      obtain ⟨hcount, -⟩ := check_eq_ok.1 hcheck
      obtain ⟨b, hb⟩ := exists_blank hvalid
      have hrows := decodeRows_eq hmask (suits_plan hvalid pixelwise) hcount hvalid
        (Canvas.Fits.start hb false) (Nat.zero_add r.height)
      rw [decode_eq_run hvalid hcheck hb, decode, if_pos hvalid, hcheck, hb]
      simp only
      rw [hrows]
  · unfold decode Region.decode
    rw [if_neg hvalid, if_neg hvalid]

end Region.Checked

namespace Region

variable {r : Region}

/-- The check of a region speaks of its settings only. -/
theorem check_ne_fault (contexts : Nat) (array : Fault) :
    r.check contexts ≠ .error (.fault array) := by
  unfold check
  split
  · exact nofun
  · split
    · exact nofun
    · exact nofun

/-- No decode reaches outside an array. -/
theorem decode_ne_fault {σ : Type} [BitSource σ] (pixelwise : Bool) (s : Session σ)
    (array : Fault) : (r.decode pixelwise s).1 ≠ .error (.fault array) := by
  by_cases hvalid : Bitmap.ValidSize r.width r.height
  · cases hcheck : r.check s.contexts.size with
    | error reason =>
      rw [decode_refused hvalid hcheck]
      intro h
      cases h
      exact check_ne_fault _ _ hcheck
    | ok u =>
      rcases decode_outcome hvalid hcheck pixelwise with ⟨b, hb⟩ | hend
      · rw [hb]
        exact nofun
      · rw [hend]
        exact nofun
  · unfold decode
    rw [if_neg hvalid]
    exact nofun

end Region

end Bilevel
