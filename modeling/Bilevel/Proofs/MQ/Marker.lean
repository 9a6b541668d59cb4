import Bilevel.Proofs.MQ.Exhaustion

/-!
# Nothing behind the first marker is read

Coded data are often part of something longer, and a marker is where they end.

* `MarkerAt`, `firstMarker` — the places of markers, and the first of them; there always is one,
  since the bytes behind the data look like a marker.
* `Decoder.Stops` — a decoder that has not gone past the first marker, and that stands there once it
  has missed a byte.  `Stops.init`, `Stops.decode` — so it is at the start and after every symbol.
* `SameCode` — other data with the same bytes up to a marker in the same place.
  `SameCode.append`: what is put behind a marker makes no difference to that.
* `Decoder.onData` — a decoder with its data exchanged; `decode_onData` says that a decoder that
  stops does not tell such data apart.
* `decodeMany_same_code` — no run shows what there is at the first marker or behind it.
-/

set_option autoImplicit false

namespace Bilevel.MQ

/-! ## Markers -/

/-- A marker begins at this place: a byte `0xff` and behind it one above `0x8f`, where bytes behind
the data are `0xff`. -/
def MarkerAt (data : Array UInt8) (i : Nat) : Prop :=
  data.getD i 0xff = 0xff ∧ 0x8f < data.getD (i + 1) 0xff

instance (data : Array UInt8) (i : Nat) : Decidable (MarkerAt data i) :=
  inferInstanceAs (Decidable (_ ∧ _))

theorem getD_of_size_le {data : Array UInt8} {i : Nat} (h : data.size ≤ i) :
    data.getD i 0xff = 0xff := by
  rw [Array.getD_eq_getD_getElem?, Array.getElem?_eq_none h]
  rfl

/-- Just behind the data there is a marker. -/
theorem markerAt_size (data : Array UInt8) : MarkerAt data data.size := by
  refine ⟨getD_of_size_le (Nat.le_refl _), ?_⟩
  rw [getD_of_size_le (Nat.le_succ _)]
  decide

/-- The place of the first marker. -/
def firstMarker (data : Array UInt8) : Nat := Nat.find ⟨data.size, markerAt_size data⟩

theorem markerAt_firstMarker (data : Array UInt8) : MarkerAt data (firstMarker data) :=
  Nat.find_spec ⟨data.size, markerAt_size data⟩

theorem not_markerAt_of_lt {data : Array UInt8} {i : Nat} (h : i < firstMarker data) :
    ¬MarkerAt data i := Nat.find_min ⟨data.size, markerAt_size data⟩ h

theorem firstMarker_le_of_markerAt {data : Array UInt8} {i : Nat} (h : MarkerAt data i) :
    firstMarker data ≤ i := Nat.find_min' ⟨data.size, markerAt_size data⟩ h

theorem firstMarker_le_size (data : Array UInt8) : firstMarker data ≤ data.size :=
  firstMarker_le_of_markerAt (markerAt_size data)

/-! ## Stopping at the first marker -/

namespace Decoder

variable {d : Decoder}

/-- The decoder has not gone past the first marker, and has missed bytes only there. -/
structure Stops (d : Decoder) : Prop where
  pointer : d.pointer ≤ firstMarker d.data
  short : d.supply ≠ .plenty → d.pointer = firstMarker d.data

theorem Stops.takeByte (h : d.Stops) : d.takeByte.Stops := by
  have hpointer := h.pointer
  rcases d.takeByte_cases with ⟨hmarker, heq⟩ | ⟨hmarker, c, count, -, -, heq⟩
  · -- a marker is met, and before the first one there is none
    have hle : firstMarker d.data ≤ d.pointer := firstMarker_le_of_markerAt hmarker
    rw [heq]
    exact ⟨hpointer, fun _ => Nat.le_antisymm hpointer hle⟩
  · -- no marker is met, so that the first one lies further on and no byte has been missed
    have hne : d.pointer ≠ firstMarker d.data := by
      intro hat
      apply hmarker
      have hfirst := markerAt_firstMarker d.data
      rw [← hat] at hfirst
      exact hfirst
    rw [heq]
    refine ⟨?_, fun hshort => absurd (h.short hshort) hne⟩
    show d.pointer + 1 ≤ firstMarker d.data
    omega

theorem Stops.shift (h : d.Stops) : d.shift.Stops := by
  unfold Decoder.shift
  simp only
  split
  · exact ⟨h.takeByte.pointer, h.takeByte.short⟩
  · exact ⟨h.pointer, h.short⟩

theorem Stops.shiftBy (h : d.Stops) (n : Nat) : (d.shiftBy n).Stops := by
  induction n generalizing d with
  | zero => exact h
  | succ n ih => exact ih h.shift

theorem Stops.narrow (h : d.Stops) (cx : Context) : (d.narrow cx).Stops := by
  unfold Decoder.narrow
  split
  · exact ⟨h.pointer, h.short⟩
  · exact ⟨h.pointer, h.short⟩

theorem Stops.decode (h : d.Stops) (cx : Context) : (d.decode cx).2.2.Stops := by
  rw [decode_eq_narrow]
  exact (h.narrow cx).shiftBy _

theorem stops_first (data : Array UInt8) : (first data).Stops :=
  ⟨Nat.zero_le _, fun h => absurd rfl h⟩

theorem Stops.init (data : Array UInt8) : (Decoder.init data).Stops := by
  have h := (stops_first data).takeByte
  rw [init_eq]
  exact ⟨h.pointer, h.short⟩

theorem Stops.position (h : d.Stops) : d.position = d.pointer :=
  Nat.min_eq_left (Nat.le_trans h.pointer (firstMarker_le_size d.data))

theorem pointer_le_takeByte (d : Decoder) : d.pointer ≤ d.takeByte.pointer := by
  rcases d.takeByte_cases with ⟨-, heq⟩ | ⟨-, c, count, -, -, heq⟩
  · rw [heq]
  · rw [heq]
    exact Nat.le_succ _

theorem pointer_le_shift (d : Decoder) : d.pointer ≤ d.shift.pointer := by
  unfold shift
  simp only
  split
  · exact d.pointer_le_takeByte
  · exact Nat.le_refl _

theorem pointer_le_shiftBy (d : Decoder) (n : Nat) : d.pointer ≤ (d.shiftBy n).pointer := by
  induction n generalizing d with
  | zero => exact Nat.le_refl _
  | succ n ih => exact Nat.le_trans d.pointer_le_shift (ih d.shift)

theorem pointer_le_decode (d : Decoder) (cx : Context) :
    d.pointer ≤ (d.decode cx).2.2.pointer := by
  rw [decode_eq_narrow, ← d.pointer_narrow cx]
  exact pointer_le_shiftBy _ _

end Decoder

/-! ## Data with the same code -/

/-- Other data with the same bytes before the first marker and a marker in the same place. -/
structure SameCode (data other : Array UInt8) : Prop where
  code : ∀ i < firstMarker data, other.getD i 0xff = data.getD i 0xff
  marker : MarkerAt other (firstMarker data)

namespace SameCode

variable {data other : Array UInt8}

theorem refl (data : Array UInt8) : SameCode data data :=
  ⟨fun _ _ => rfl, markerAt_firstMarker data⟩

/-- Up to the first byte of the marker all bytes are the same. -/
theorem getD_eq (h : SameCode data other) {i : Nat} (hi : i ≤ firstMarker data) :
    other.getD i 0xff = data.getD i 0xff := by
  by_cases hlt : i < firstMarker data
  · exact h.code i hlt
  · rw [show i = firstMarker data by omega, h.marker.1, (markerAt_firstMarker data).1]

theorem firstMarker_le_size (h : SameCode data other) : firstMarker data ≤ other.size := by
  apply Nat.le_of_not_lt
  intro hlt
  -- the byte before the marker would lie behind the other data and be the first of a marker too
  have hbefore : data.getD (firstMarker data - 1) 0xff = 0xff := by
    rw [← h.getD_eq (Nat.sub_le _ _), getD_of_size_le (by omega)]
  refine not_markerAt_of_lt (show firstMarker data - 1 < firstMarker data by omega) ⟨hbefore, ?_⟩
  rw [show firstMarker data - 1 + 1 = firstMarker data by omega, (markerAt_firstMarker data).1]
  decide

theorem extract (data : Array UInt8) : SameCode data (data.extract 0 (firstMarker data)) := by
  have hle := MQ.firstMarker_le_size data
  have hsize : (data.extract 0 (firstMarker data)).size = firstMarker data := by
    rw [Array.size_extract]
    omega
  refine ⟨fun i hi => ?_, ?_⟩
  · rw [Array.getD_eq_getD_getElem?, Array.getD_eq_getD_getElem?, Array.getElem?_extract,
      if_pos (by omega), Nat.zero_add]
  · have hmarker := markerAt_size (data.extract 0 (firstMarker data))
    rw [hsize] at hmarker
    exact hmarker

theorem getD_append_left (tail : Array UInt8) {i : Nat} (hi : i < other.size) :
    (other ++ tail).getD i 0xff = other.getD i 0xff := by
  rw [Array.getD_eq_getD_getElem?, Array.getD_eq_getD_getElem?, Array.getElem?_append_left hi]

/-- Anything may be put behind the data after a marker. -/
theorem append (h : SameCode data other) {m : UInt8} (hm : 0x8f < m) (rest : Array UInt8) :
    SameCode data (other ++ #[0xff, m] ++ rest) := by
  have hsize := h.firstMarker_le_size
  have hff : (other ++ (#[0xff, m] ++ rest)).getD other.size 0xff = 0xff := by
    rw [Array.getD_eq_getD_getElem?, Array.getElem?_append_right (Nat.le_refl _), Nat.sub_self,
      Array.getElem?_append_left (show 0 < 2 by decide)]
    rfl
  have hnext : (other ++ (#[0xff, m] ++ rest)).getD (other.size + 1) 0xff = m := by
    rw [Array.getD_eq_getD_getElem?, Array.getElem?_append_right (Nat.le_add_right _ 1),
      Nat.add_sub_cancel_left, Array.getElem?_append_left (show 1 < 2 by decide)]
    rfl
  rw [Array.append_assoc]
  refine ⟨fun i hi => ?_, ?_⟩
  · rw [getD_append_left _ (by omega)]
    exact h.code i hi
  · unfold MarkerAt
    -- the marker is inside the data, their last byte is its first, or it is the one put behind them
    rcases Nat.lt_trichotomy (firstMarker data + 1) other.size with hin | hlast | hbehind
    · rw [getD_append_left _ (by omega), getD_append_left _ hin]
      exact h.marker
    · rw [getD_append_left _ (by omega), hlast, hff]
      exact ⟨h.marker.1, by decide⟩
    · rw [show firstMarker data = other.size by omega, hff, hnext]
      exact ⟨rfl, hm⟩

end SameCode

/-! ## A decoder with its data exchanged -/

namespace Decoder

variable {d : Decoder} {other : Array UInt8}

/-- The same registers over other data. -/
def onData (d : Decoder) (other : Array UInt8) : Decoder := { d with data := other }

theorem takeByte_onData (h : d.Stops) (hsame : SameCode d.data other) :
    (d.onData other).takeByte = d.takeByte.onData other := by
  have hpointer := h.pointer
  have hbyte : (d.onData other).byteAt d.pointer = d.byteAt d.pointer := hsame.getD_eq hpointer
  by_cases hat : d.pointer = firstMarker d.data
  · -- at the marker the byte behind it need not be the same, but both are above `0x8f`
    have hmarker : d.AtMarker := by
      unfold AtMarker
      rw [hat]
      exact markerAt_firstMarker d.data
    have hmarker' : (d.onData other).AtMarker := by
      show MarkerAt other d.pointer
      rw [hat]
      exact hsame.marker
    rcases d.takeByte_cases with ⟨-, heq⟩ | ⟨hno, -⟩
    · rcases (d.onData other).takeByte_cases with ⟨-, heq'⟩ | ⟨hno', -⟩
      · rw [heq, heq']
        rfl
      · exact absurd hmarker' hno'
    · exact absurd hmarker hno
  · have hnext : (d.onData other).byteAt (d.pointer + 1) = d.byteAt (d.pointer + 1) :=
      hsame.getD_eq (by omega)
    unfold takeByte
    simp only [show (d.onData other).pointer = d.pointer from rfl, hbyte, hnext]
    split
    · split <;> rfl
    · rfl

theorem shift_onData (h : d.Stops) (hsame : SameCode d.data other) :
    (d.onData other).shift = d.shift.onData other := by
  unfold shift
  simp only [show (d.onData other).count = d.count from rfl]
  split
  · rw [takeByte_onData h hsame]
    rfl
  · rfl

theorem shiftBy_onData (h : d.Stops) (hsame : SameCode d.data other) (n : Nat) :
    (d.onData other).shiftBy n = (d.shiftBy n).onData other := by
  induction n generalizing d with
  | zero => rfl
  | succ n ih =>
    rw [shiftBy, shift_onData h hsame]
    exact ih h.shift (by rw [d.data_shift]; exact hsame)

theorem narrow_onData (d : Decoder) (other : Array UInt8) (cx : Context) :
    (d.onData other).narrow cx = (d.narrow cx).onData other := by
  unfold narrow onData
  split <;> rfl

/-- The symbol and the context after it are read off the registers. -/
theorem decode_onData_symbol (d : Decoder) (other : Array UInt8) (cx : Context) :
    ((d.onData other).decode cx).1 = (d.decode cx).1 ∧
      ((d.onData other).decode cx).2.1 = (d.decode cx).2.1 := by
  unfold decode onData
  simp only
  split
  · split
    · split <;> exact ⟨rfl, rfl⟩
    · exact ⟨rfl, rfl⟩
  · split <;> exact ⟨rfl, rfl⟩

/-- A decoder that stops at the first marker decodes the same from all data with the same code. -/
theorem decode_onData (h : d.Stops) (hsame : SameCode d.data other) (cx : Context) :
    (d.onData other).decode cx =
      ((d.decode cx).1, (d.decode cx).2.1, (d.decode cx).2.2.onData other) := by
  obtain ⟨hsymbol, hcontext⟩ := d.decode_onData_symbol other cx
  have hdecoder : ((d.onData other).decode cx).2.2 = (d.decode cx).2.2.onData other := by
    rw [decode_eq_narrow, decode_eq_narrow, narrow_onData]
    exact shiftBy_onData (h.narrow cx) (by rw [d.data_narrow cx]; exact hsame) _
  exact Prod.ext hsymbol (Prod.ext hcontext hdecoder)

theorem init_of_sameCode {data : Array UInt8} (hsame : SameCode data other) :
    Decoder.init other = (Decoder.init data).onData other := by
  have hfirst : first other = (first data).onData other := by
    unfold first onData
    rw [hsame.getD_eq (Nat.zero_le _)]
  rw [init_eq, init_eq, hfirst, takeByte_onData (stops_first data) hsame]
  rfl

end Decoder

/-! ## Runs -/

variable {other : Array UInt8} {s : Session Decoder}

def sessionOnData (s : Session Decoder) (other : Array UInt8) : Session Decoder :=
  { s with source := s.source.onData other }

theorem decode_sessionOnData (h : s.source.Stops) (hsame : SameCode s.source.data other)
    {number : Nat} (hn : number < s.contexts.size) :
    (sessionOnData s other).decode number hn =
      ((s.decode number hn).1, sessionOnData (s.decode number hn).2 other) := by
  have hdecode : BitSource.decode (s.source.onData other) s.contexts[number] = _ :=
    Decoder.decode_onData h hsame s.contexts[number]
  unfold Session.decode sessionOnData
  simp only [hdecode]
  rfl

/-- A run over other data with the same code is the same run. -/
theorem decodeFrom_sessionOnData (h : s.source.Stops) (hsame : SameCode s.source.data other)
    (numbers : Nat → Nat) (left i : Nat) (bits : Array Bool) :
    (sessionOnData s other).decodeFrom numbers true left i bits =
      (s.decodeFrom numbers true left i bits).map fun (bits, s) =>
        (bits, sessionOnData s other) := by
  induction left generalizing i bits s with
  | zero => rfl
  | succ left ih =>
    by_cases hn : numbers i < s.contexts.size
    · have hn' : numbers i < (sessionOnData s other).contexts.size := hn
      rw [Session.decodeFrom_succ numbers left i bits hn,
        Session.decodeFrom_succ numbers left i bits hn', decode_sessionOnData h hsame hn]
      refine ih (h.decode _) ?_ (i + 1) _
      rw [source_decode hn, Decoder.data_decode]
      exact hsame
    · have hn' : ¬numbers i < (sessionOnData s other).contexts.size := hn
      rw [Session.decodeFrom, Session.decodeFrom, Bool.true_or, Bool.true_or, if_pos rfl,
        if_pos rfl, dif_neg hn, dif_neg hn']
      rfl

/-- A session on these data whose decoder stops at the first marker. -/
structure Reads (data : Array UInt8) (s : Session Decoder) : Prop where
  data : s.source.data = data
  stops : s.source.Stops

theorem Reads.decode {data : Array UInt8} (h : Reads data s) {number : Nat}
    (hn : number < s.contexts.size) : Reads data (s.decode number hn).2 :=
  ⟨(s.source.data_decode _).trans h.data, h.stops.decode _⟩

theorem reads_init (data : Array UInt8) (contexts : Array Context) :
    Reads data ⟨Decoder.init data, contexts, #[]⟩ :=
  ⟨Decoder.data_init data, .init data⟩

/-- A run from the start of the data comes to its end, and never reads beyond them. -/
theorem exists_decodeMany_init (data : Array UInt8) {contexts : Array Context}
    {numbers : Nat → Nat} {n : Nat} (hnumbers : ∀ i < n, numbers i < contexts.size) :
    ∃ bits s, Session.decodeMany numbers n ⟨Decoder.init data, contexts, #[]⟩ = some (bits, s) ∧
      Reads data s ∧ s.contexts.size = contexts.size := by
  obtain ⟨bits, s, hrun, hs, hsize, -⟩ :=
    Session.decodeMany_induction (fun s number hn h => h.decode hn) hnumbers
      (reads_init data contexts)
  exact ⟨bits, s, hrun, hs, hsize⟩

/-- A run from the start of other data with the same code is the same run. -/
theorem decodeMany_init_of_sameCode {data : Array UInt8} (hsame : SameCode data other)
    (contexts : Array Context) (numbers : Nat → Nat) (n : Nat) :
    Session.decodeMany numbers n ⟨Decoder.init other, contexts, #[]⟩ =
      (Session.decodeMany numbers n ⟨Decoder.init data, contexts, #[]⟩).map fun (bits, s) =>
        (bits, sessionOnData s other) := by
  have hstart := reads_init data contexts
  have hrun := decodeFrom_sessionOnData hstart.stops (by rw [hstart.data]; exact hsame) numbers n
    0 #[]
  rw [Decoder.init_of_sameCode hsame]
  exact hrun

/-- Data with the same code are long enough for the position to be the same. -/
theorem Reads.position_sessionOnData {data : Array UInt8} (h : Reads data s)
    (hsame : SameCode data other) :
    (sessionOnData s other).source.position = s.source.position := by
  have hpointer := h.stops.pointer
  rw [h.data] at hpointer
  rw [h.stops.position]
  exact Nat.min_eq_left (Nat.le_trans hpointer hsame.firstMarker_le_size)

/-- **Nothing at or behind the first marker is read.**  Let `p` be the place of the first marker.
However many symbols have been decoded, the decoder has not gone past `p` and never goes back; it
has missed bytes only where it stands at `p`, and is complete only there.  Cut off before `p`, or
followed by any marker and then anything, be they cut off or not, the data give the same bits and
leave the same contexts and the same registers. -/
theorem decodeMany_same_code (data : Array UInt8) (contexts : Array Context)
    (numbers : Nat → Nat) (n : Nat) (hnumbers : ∀ i < n, numbers i < contexts.size) :
    let start (data : Array UInt8) : Session Decoder := ⟨Decoder.init data, contexts, #[]⟩
    let p := firstMarker data
    (MarkerAt data p ∧ (∀ i < p, ¬MarkerAt data i) ∧ p ≤ data.size) ∧
    ∃ bits s, (start data).decodeMany numbers n = some (bits, s) ∧
      (∀ k ≤ n, ∃ bits' s', (start data).decodeMany numbers k = some (bits', s') ∧
        s'.source.position ≤ s.source.position) ∧
      s.source.position ≤ p ∧
      (s.source.supply ≠ .plenty → s.source.pointer = p) ∧
      (s.isComplete = true → s.source.position = p) ∧
      ∀ m > 0x8f, ∀ rest, ∀ other ∈ [data.extract 0 p, data ++ #[0xff, m] ++ rest,
          data.extract 0 p ++ #[0xff, m] ++ rest],
        ∃ t, (start other).decodeMany numbers n = some (bits, t) ∧
          t.contexts = s.contexts ∧ t.source.position = s.source.position ∧
          t.isComplete = s.isComplete ∧ t.source = { s.source with data := other } := by
  intro start p
  refine ⟨⟨markerAt_firstMarker data, fun i hi => not_markerAt_of_lt hi,
    firstMarker_le_size data⟩, ?_⟩
  obtain ⟨bits, s, hs, hreads, -⟩ := exists_decodeMany_init data hnumbers
  have hposition := hreads.stops.position
  have hpointer := hreads.stops.pointer
  have hshort := hreads.stops.short
  rw [hreads.data] at hpointer hshort
  refine ⟨bits, s, hs, ?_, hposition ▸ hpointer, hshort, ?_, ?_⟩
  · intro k hk
    obtain ⟨bits', s', hs', hreads', hsize'⟩ :=
      exists_decodeMany_init data fun i hi => hnumbers i (Nat.lt_of_lt_of_le hi hk)
    refine ⟨bits', s', hs', ?_⟩
    obtain ⟨bits₁, s₁, hs₁, hle⟩ := Session.decodeMany_induction_from
      (P := fun t => s'.source.pointer ≤ t.source.pointer)
      (fun t number hn h => Nat.le_trans h (t.source.pointer_le_decode t.contexts[number]))
      hk hnumbers hs' hsize' (Nat.le_refl _)
    rw [hs] at hs₁
    cases hs₁
    rw [hposition, hreads'.stops.position]
    exact hle
  · intro hcomplete
    rw [hposition]
    refine hshort fun hplenty => ?_
    rw [(s.source.isComplete_iff).1 hcomplete] at hplenty
    cases hplenty
  · intro m hm rest other hother
    have hsame : SameCode data other := by
      simp only [List.mem_cons, List.not_mem_nil, or_false] at hother
      rcases hother with rfl | rfl | rfl
      · exact .extract data
      · exact (SameCode.refl data).append hm rest
      · exact (SameCode.extract data).append hm rest
    have hother := decodeMany_init_of_sameCode hsame contexts numbers n
    rw [hs] at hother
    exact ⟨sessionOnData s other, hother, rfl, hreads.position_sessionOnData hsame, rfl, rfl⟩

/-- Data with a seven-bit byte, a marker in the middle and another one at their end, decoded beyond
the first one. -/
theorem decodeMany_same_code_two_markers :
    let data : Array UInt8 := #[0x84, 0xff, 0x7f, 0x2e, 0xff, 0xac, 0x31, 0xff]
    let contexts : Array Context := #[{}, { index := 46, mps := true }]
    let numbers : Nat → Nat := fun i => i % 2
    let start (data : Array UInt8) : Session Decoder := ⟨Decoder.init data, contexts, #[]⟩
    let p := firstMarker data
    (p = 4 ∧ ∀ i < 200, numbers i < contexts.size) ∧
    (MarkerAt data p ∧ (∀ i < p, ¬MarkerAt data i) ∧ p ≤ data.size) ∧
    ∃ bits s, (start data).decodeMany numbers 200 = some (bits, s) ∧
      (∀ k ≤ 200, ∃ bits' s', (start data).decodeMany numbers k = some (bits', s') ∧
        s'.source.position ≤ s.source.position) ∧
      s.source.position ≤ p ∧
      (s.source.supply ≠ .plenty → s.source.pointer = p) ∧
      (s.isComplete = true → s.source.position = p) ∧
      ∀ m > 0x8f, ∀ rest, ∀ other ∈ [data.extract 0 p, data ++ #[0xff, m] ++ rest,
          data.extract 0 p ++ #[0xff, m] ++ rest],
        ∃ t, (start other).decodeMany numbers 200 = some (bits, t) ∧
          t.contexts = s.contexts ∧ t.source.position = s.source.position ∧
          t.isComplete = s.isComplete ∧ t.source = { s.source with data := other } := by
  intro data contexts numbers start p
  have hp : p = 4 := (Nat.find_eq_iff _).2 ⟨by decide, by decide⟩
  have hnumbers : ∀ i < 200, numbers i < contexts.size := fun i _ => Nat.mod_lt i (by decide)
  exact ⟨⟨hp, hnumbers⟩, decodeMany_same_code data contexts numbers 200 hnumbers⟩

end Bilevel.MQ
