import Bilevel.Proofs.MQ.Runs

/-!
# What holds of a decoder at all times

Whatever the data are, the registers of a decoder keep their ranges.

* `Decoder.takeByte_cases` — what taking in a byte can do: a marker is met, or the pointer moves on
  inside the data.
* `Decoder.Placed` — the pointer and the number of bits left are in range; every shift keeps that.
* `Decoder.Sound` — between symbols the interval has been scaled up as well; `Sound.init` and
  `Sound.decode` say that this is so at the start and after every symbol.
* `InTable` — contexts that point into the probability table; no symbol leads out of it.
* `isComplete_decode` — a decoder that is complete stays complete.
-/

set_option autoImplicit false

namespace Bilevel.MQ

namespace Decoder

variable {d : Decoder}

/-! ## Taking in bytes -/

theorem lt_size_of_byteAt {i : Nat} (h : d.byteAt i ≠ 0xff) : i < d.data.size := by
  apply Nat.lt_of_not_le
  intro hle
  apply h
  unfold byteAt
  rw [Array.getD_eq_getD_getElem?, Array.getElem?_eq_none hle]
  rfl

/-- The byte taken in last and the one behind it form a marker. -/
def AtMarker (d : Decoder) : Prop :=
  d.byteAt d.pointer = 0xff ∧ 0x8f < d.byteAt (d.pointer + 1)

theorem lt_size_of_not_atMarker (h : ¬d.AtMarker) : d.pointer < d.data.size := by
  by_cases hff : d.byteAt d.pointer = 0xff
  · have hnext : d.byteAt (d.pointer + 1) ≠ 0xff := by
      intro heq
      exact h ⟨hff, by rw [heq]; decide⟩
    exact Nat.lt_of_succ_lt (lt_size_of_byteAt hnext)
  · exact lt_size_of_byteAt hff

/-- At a marker one more byte is missed; anywhere else the pointer moves on, and seven or eight bits
come in. -/
theorem takeByte_cases (d : Decoder) :
    (d.AtMarker ∧ d.takeByte = { d with count := 8, supply := d.supply.miss }) ∨
    (¬d.AtMarker ∧ ∃ c count, 7 ≤ count ∧ count ≤ 8 ∧
      d.takeByte = { d with pointer := d.pointer + 1, c := c, count := count }) := by
  unfold AtMarker takeByte
  simp only
  by_cases hff : d.byteAt d.pointer = 0xff
  · rw [if_pos hff]
    by_cases hmarker : 0x8f < d.byteAt (d.pointer + 1)
    · rw [if_pos hmarker]
      exact .inl ⟨⟨hff, hmarker⟩, rfl⟩
    · rw [if_neg hmarker]
      exact .inr ⟨fun h => hmarker h.2, _, 7, by decide, by decide, rfl⟩
  · rw [if_neg hff]
    exact .inr ⟨fun h => hff h.1, _, 8, by decide, by decide, rfl⟩

/-- The pointer is inside the data or just behind them, and no more bits are left than a byte
has. -/
structure Placed (d : Decoder) : Prop where
  count : d.count ≤ 8
  pointer : d.pointer ≤ d.data.size

theorem Placed.takeByte (h : d.Placed) : d.takeByte.Placed := by
  rcases d.takeByte_cases with ⟨-, heq⟩ | ⟨hmarker, c, count, -, hcount, heq⟩
  · rw [heq]
    exact ⟨Nat.le_refl 8, h.pointer⟩
  · rw [heq]
    exact ⟨hcount, lt_size_of_not_atMarker hmarker⟩

theorem Placed.shift (h : d.Placed) : d.shift.Placed := by
  unfold Decoder.shift
  simp only
  split
  · exact ⟨Nat.le_trans (Nat.sub_le _ _) h.takeByte.count, h.takeByte.pointer⟩
  · exact ⟨Nat.le_trans (Nat.sub_le _ _) h.count, h.pointer⟩

theorem Placed.shiftBy (h : d.Placed) (n : Nat) : (d.shiftBy n).Placed := by
  induction n generalizing d with
  | zero => exact h
  | succ n ih => exact ih h.shift

theorem Placed.narrow (h : d.Placed) (cx : Context) : (d.narrow cx).Placed := by
  unfold Decoder.narrow
  split
  · exact ⟨h.count, h.pointer⟩
  · exact ⟨h.count, h.pointer⟩

theorem pointer_narrow (d : Decoder) (cx : Context) : (d.narrow cx).pointer = d.pointer := by
  unfold narrow
  split <;> rfl

theorem data_takeByte (d : Decoder) : d.takeByte.data = d.data := by
  rcases d.takeByte_cases with ⟨-, heq⟩ | ⟨-, c, count, -, -, heq⟩
  · rw [heq]
  · rw [heq]

theorem data_shift (d : Decoder) : d.shift.data = d.data := by
  unfold shift
  simp only
  split
  · exact d.data_takeByte
  · rfl

theorem data_shiftBy (d : Decoder) (n : Nat) : (d.shiftBy n).data = d.data := by
  induction n generalizing d with
  | zero => rfl
  | succ n ih => exact (ih d.shift).trans d.data_shift

theorem data_narrow (d : Decoder) (cx : Context) : (d.narrow cx).data = d.data := by
  unfold narrow
  split <;> rfl

theorem data_decode (d : Decoder) (cx : Context) : (d.decode cx).2.2.data = d.data := by
  rw [decode_eq_narrow]
  exact (data_shiftBy _ _).trans (d.data_narrow cx)

/-! ## The interval -/

theorem toNat_a_shiftBy {n : Nat} (h : d.a.toNat * 2 ^ n < 0x10000) :
    (d.shiftBy n).a.toNat = d.a.toNat * 2 ^ n := by
  induction n generalizing d with
  | zero => exact (Nat.mul_one _).symm
  | succ n ih =>
    have hone : 1 ≤ 2 ^ n := Nat.one_le_two_pow
    have hpow : d.a.toNat * 2 ^ (n + 1) = 2 * d.a.toNat * 2 ^ n := by
      rw [Nat.pow_succ, Nat.mul_comm (2 ^ n) 2, ← Nat.mul_assoc, Nat.mul_comm d.a.toNat 2]
    have hle : 2 * d.a.toNat * 1 ≤ 2 * d.a.toNat * 2 ^ n := Nat.mul_le_mul_left _ hone
    have ha := toNat_a_shift (d := d) (by omega)
    rw [hpow, ← ha] at h ⊢
    exact ih h

/-- A decoder between symbols: its interval has been scaled up. -/
structure Sound (d : Decoder) : Prop extends Placed d where
  low : 0x8000 ≤ d.a.toNat
  high : d.a.toNat ≤ 0xffff

/-- The part chosen is not empty, and shorter than the whole: either it still is long enough, or it
has to be scaled up. -/
theorem Sound.a_narrow (h : d.Sound) (cx : Context) :
    0 < (d.narrow cx).a.toNat ∧ (d.narrow cx).a.toNat < d.a.toNat := by
  obtain ⟨hpos, hqe⟩ := Row.qe_bounds cx.index
  have hlow := h.low
  have hrest := toNat_rest h.low cx
  unfold Decoder.narrow
  split
  · simp only
    omega
  · simp only
    omega

/-- Scaling up a short part brings its length back into range. -/
theorem toNat_a_renormalise (hpos : 0 < d.a.toNat) (hhigh : d.a.toNat ≤ 0xffff) :
    0x8000 ≤ d.renormalise.a.toNat ∧ d.renormalise.a.toNat ≤ 0xffff := by
  by_cases hlow : 0x8000 ≤ d.a.toNat
  · rw [renormalise_of_le hlow]
    exact ⟨hlow, hhigh⟩
  · obtain ⟨-, hge, hlt⟩ := log2_bounds hpos (by omega)
    unfold renormalise
    rw [toNat_a_shiftBy hlt]
    exact ⟨hge, by omega⟩

theorem Sound.decode (h : d.Sound) (cx : Context) : (d.decode cx).2.2.Sound := by
  obtain ⟨hpos, hlt⟩ := h.a_narrow cx
  have hhigh := h.high
  obtain ⟨hlow', hhigh'⟩ := toNat_a_renormalise hpos (by omega)
  rw [decode_eq_narrow]
  exact ⟨(h.toPlaced.narrow cx).shiftBy _, hlow', hhigh'⟩

theorem Sound.init (data : Array UInt8) : (Decoder.init data).Sound := by
  have hfirst : (Decoder.first data).Placed := ⟨Nat.zero_le 8, Nat.zero_le _⟩
  have ha : (Decoder.init data).a = 0x8000 := (Decoder.first data).a_takeByte
  have hplaced : (Decoder.init data).Placed :=
    ⟨Nat.le_trans (Nat.sub_le _ _) hfirst.takeByte.count, hfirst.takeByte.pointer⟩
  exact ⟨hplaced, by rw [ha]; decide, by rw [ha]; decide⟩

theorem data_init (data : Array UInt8) : (Decoder.init data).data = data :=
  (Decoder.first data).data_takeByte

theorem supply_takeByte (h : d.supply = .exhausted) : d.takeByte.supply = .exhausted := by
  rcases d.takeByte_cases with ⟨-, heq⟩ | ⟨-, c, count, -, -, heq⟩
  · rw [heq]
    show d.supply.miss = .exhausted
    rw [h]
    rfl
  · rw [heq]
    exact h

theorem supply_shift (h : d.supply = .exhausted) : d.shift.supply = .exhausted := by
  unfold shift
  simp only
  split
  · exact supply_takeByte h
  · exact h

theorem supply_shiftBy (h : d.supply = .exhausted) (n : Nat) :
    (d.shiftBy n).supply = .exhausted := by
  induction n generalizing d with
  | zero => exact h
  | succ n ih => exact ih (supply_shift h)

theorem supply_narrow (d : Decoder) (cx : Context) : (d.narrow cx).supply = d.supply := by
  unfold narrow
  split <;> rfl

theorem isComplete_iff (d : Decoder) : d.isComplete = true ↔ d.supply = .exhausted := by
  unfold isComplete
  exact decide_eq_true_iff

theorem isComplete_decode (h : d.isComplete = true) (cx : Context) :
    (d.decode cx).2.2.isComplete = true := by
  rw [isComplete_iff] at h ⊢
  rw [decode_eq_narrow]
  exact supply_shiftBy ((d.supply_narrow cx).trans h) _

end Decoder

/-! ## Contexts -/

/-- All contexts point into the probability table. -/
def InTable (contexts : Array Context) : Prop := ∀ cx ∈ contexts, cx.index ≤ 46

theorem inTable_fresh (count : Nat) : InTable (Context.fresh count) := by
  intro cx hmem
  rw [Array.eq_of_mem_replicate hmem]
  exact Nat.zero_le 46

theorem index_decode (d : Decoder) {cx : Context} (h : cx.index ≤ 46) :
    (d.decode cx).2.1.index ≤ 46 := by
  have hmps := nextMps_lt cx.index (by omega)
  have hlps := nextLps_lt cx.index (by omega)
  have hafter : (Decoder.afterMps (Row.at cx.index) cx).index ≤ 46 := Nat.le_of_lt_succ hmps
  have hafter' : (Decoder.afterLps (Row.at cx.index) cx).index ≤ 46 := Nat.le_of_lt_succ hlps
  unfold Decoder.decode
  simp only
  split
  · split
    · split
      · exact hafter'
      · exact hafter
    · exact h
  · split
    · exact hafter
    · exact hafter'

end Bilevel.MQ
