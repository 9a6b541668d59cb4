import Mathlib.Tactic.Ring
import Bilevel.Proofs.MQ.Checked
import Bilevel.Proofs.MQ.Encoder

/-!
# What has been encoded is decoded

The plain decoder on the bytes of a number holds on to the point that the number stands for: its
register and the remainder behind the bytes taken in make up the point in the present interval.  So
it finds the point in the part of the symbol that was coded; and the other decoder follows it,
because among these bytes there is no carry to be lost and nothing like a marker.

* `Room` — there are bytes enough for a number of doublings.
* `Carries` — a plain decoder and the point that it holds on to.  `Carries.byteIn`, `Carries.shift`,
  `Carries.renormalise`, `Carries.decode` — it does so all the time.
* `not_stalls`, `supply_shiftBy_of_room` — what the other decoder never meets among these bytes.
* `answers_of_carries` — by induction on the symbols that are left; `answers_of_spells` — from
  the start of the data.
* `answers_encode` — a decoder of what has been encoded answers the symbols that were coded.
-/

set_option autoImplicit false

namespace Bilevel.MQ

variable {x p : ℚ} {size : Nat} {d : Decoder} {e : Reference}

/-- There are bytes enough for `n` doublings, with `count` bits left of the byte at a place: each of
those behind it has at least seven bits. -/
def Room (size pointer count n : Nat) : Prop := 7 * (pointer + 1) + n ≤ 7 * size + count

/-! ## The point that a plain decoder holds on to -/

/-- The plain decoder reads the first `size` bytes of `x`.  Its distance and the remainder behind
the bytes that it has taken in, worth the unit of the bits left, make up the point `p`. -/
structure Carries (x : ℚ) (size : Nat) (p : ℚ) (e : Reference) : Prop where
  data : Spells x size e.data
  count : e.count ≤ 8
  sum : (e.c : ℚ) + (digit x e.pointer).2 * 2 ^ (16 - e.count) = p * 2 ^ 16

theorem Carries.byteAt (h : Carries x size p e) {i : Nat} (hi : i < size) :
    e.byteAt i = (digit x i).1 := h.data.toNat hi

theorem Carries.byteIn (h : Carries x size p e) (hempty : e.count = 0)
    (hroom : e.pointer + 1 < size) :
    Carries x size p e.byteIn ∧ 7 ≤ e.byteIn.count ∧ e.byteIn.pointer = e.pointer + 1 := by
  have hbyte := h.byteAt (Nat.lt_of_succ_lt hroom)
  have hnext := h.byteAt hroom
  have hdigit := digit_succ x e.pointer
  have hsum := h.sum
  rw [hempty] at hsum
  unfold Reference.byteIn
  by_cases hff : (digit x e.pointer).1 = 0xff
  · have hsmall := digit_after_ff h.data.nonneg hff
    rw [if_pos hff] at hdigit
    rw [if_pos (hbyte.trans hff), if_neg (by omega)]
    refine ⟨⟨h.data, Nat.le_succ 7, ?_⟩, Nat.le_refl 7, rfl⟩
    simp only [Nat.shiftLeft_eq, hnext]
    push_cast
    norm_num at hsum hdigit ⊢
    linarith
  · rw [if_neg hff] at hdigit
    rw [if_neg (by rw [hbyte]; exact hff)]
    refine ⟨⟨h.data, Nat.le_refl 8, ?_⟩, Nat.le_succ 7, rfl⟩
    simp only [Nat.shiftLeft_eq, hnext]
    push_cast
    norm_num at hsum hdigit ⊢
    linarith

theorem Carries.scale (h : Carries x size p e) {k : Nat} (hk : k ≤ e.count) (a : Nat) :
    Carries x size (p * 2 ^ k) { e with a := a, c := e.c <<< k, count := e.count - k } := by
  have hle := h.count
  have hpow : 16 - (e.count - k) = 16 - e.count + k := by omega
  refine ⟨h.data, Nat.le_trans (Nat.sub_le _ _) hle, ?_⟩
  simp only [Nat.shiftLeft_eq]
  rw [hpow, pow_add, mul_right_comm, ← h.sum]
  push_cast
  ring

theorem Carries.shift {n : Nat} (h : Carries x size p e)
    (hroom : Room size e.pointer e.count (n + 1)) :
    Carries x size (p * 2) e.shift ∧ Room size e.shift.pointer e.shift.count n := by
  unfold Room at hroom ⊢
  unfold Reference.shift
  simp only
  rw [← pow_one (2 : ℚ)]
  by_cases hempty : e.count = 0
  · obtain ⟨htaken, hcount, hpointer⟩ := h.byteIn hempty (by omega)
    rw [if_pos hempty]
    exact ⟨htaken.scale (by omega) _, by omega⟩
  · rw [if_neg hempty]
    exact ⟨h.scale (by omega) _, by omega⟩

theorem Carries.renormalise {n k : Nat} (h : Carries x size p e)
    (hlow : 0x8000 ≤ e.a * 2 ^ (n + 1)) (hhigh : e.a * 2 ^ (n + 1) < 0x10000)
    (hroom : Room size e.pointer e.count (n + 1 + k)) :
    e.renormalise.a = e.a * 2 ^ (n + 1) ∧ Carries x size (p * 2 ^ (n + 1)) e.renormalise ∧
      Room size e.renormalise.pointer e.renormalise.count k := by
  have ha := e.a_shift
  induction n generalizing p e with
  | zero =>
    obtain ⟨hshift, hroom'⟩ := h.shift (n := k) (by rwa [Nat.add_comm k])
    rw [Reference.renormalise_stop (by omega), zero_add, pow_one, pow_one]
    exact ⟨by omega, hshift, hroom'⟩
  | succ n ih =>
    have hpow : e.a * 2 ^ (n + 1 + 1) = e.shift.a * 2 ^ (n + 1) := by
      rw [ha, Nat.pow_succ 2 (n + 1), Nat.mul_comm _ 2, ← Nat.mul_assoc, Nat.mul_comm _ 2]
    have hpow' : p * 2 ^ (n + 1 + 1) = p * 2 * 2 ^ (n + 1) := by ring
    have htwo : 2 ≤ 2 ^ (n + 1) := Nat.le_self_pow (Nat.succ_ne_zero n) 2
    have htwice : e.shift.a * 2 ≤ e.shift.a * 2 ^ (n + 1) := Nat.mul_le_mul_left _ htwo
    rw [hpow] at hlow hhigh ⊢
    have hpos : 0 < e.shift.a := by
      rcases Nat.eq_zero_or_pos e.shift.a with h0 | h0
      · rw [h0, Nat.zero_mul] at hlow
        omega
      · exact h0
    obtain ⟨hshift, hroom'⟩ := h.shift (n := n + 1 + k) (by rwa [Nat.add_right_comm])
    rw [Reference.renormalise_next hpos (by omega), hpow']
    exact ih hshift hlow hhigh hroom' e.shift.a_shift

/-- The point is in the lower part of the interval just when the distance is: no point between two
multiples of the unit decides it. -/
theorem Carries.lower_iff (h : Carries x size p e) (hunit : 2 ^ (16 - e.count) ∣ e.c)
    (qe : Nat) : e.c >>> 16 < qe ↔ p < qe := by
  obtain ⟨hpos, hlt⟩ := digit_remainder h.data.nonneg e.pointer
  have hsum := h.sum
  have hpow : (0 : ℚ) < 2 ^ (16 - e.count) := by positivity
  rw [Nat.shiftRight_eq_div_pow, Nat.div_lt_iff_lt_mul (by decide)]
  constructor
  · intro hlow
    have hdvd : 2 ^ (16 - e.count) ∣ qe * 2 ^ 16 :=
      Nat.dvd_trans (Nat.pow_dvd_pow 2 (by omega)) (Nat.dvd_mul_left _ _)
    have hle : ((e.c + 2 ^ (16 - e.count) : Nat) : ℚ) ≤ (qe * 2 ^ 16 : Nat) := by
      exact_mod_cast add_le_of_dvd hunit hdvd hlow
    have hrem := mul_lt_mul_of_pos_right hlt hpow
    push_cast at hle
    linarith
  · intro hlow
    have hrem := mul_nonneg hpos hpow.le
    have hreg : (e.c : ℚ) < (qe * 2 ^ 16 : Nat) := by
      push_cast
      linarith
    exact_mod_cast hreg

theorem Carries.cutLower (h : Carries x size p e) {qe : Nat} (hge : ¬e.c >>> 16 < qe) (a : Nat) :
    Carries x size (p - qe) { e with a := a, c := e.c - qe <<< 16 } := by
  rw [Nat.shiftRight_eq_div_pow, Nat.div_lt_iff_lt_mul (by decide)] at hge
  have hsum := h.sum
  refine ⟨h.data, h.count, ?_⟩
  simp only [Nat.shiftLeft_eq]
  rw [Nat.cast_sub (Nat.le_of_not_lt hge), sub_mul, ← hsum]
  push_cast
  ring

/-- A part is scaled up where it is needed, and left as it is otherwise. -/
theorem Carries.rescale {k : Nat} (h : Carries x size p e) (part : Part) (ha : e.a = part.length)
    (hpos : 0 < e.a) (hhigh : e.a ≤ 0xffff)
    (hroom : Room size e.pointer e.count (part.shifts + k)) {e' : Reference}
    (he' : e' = if e.a < 0x8000 then e.renormalise else e) :
    e'.a = part.scaled ∧ Carries x size (p * 2 ^ part.shifts) e' ∧
      Room size e'.pointer e'.count k := by
  subst he'
  unfold Part.scaled Part.shifts at *
  rw [← ha] at hroom ⊢
  by_cases hshort : e.a < 0x8000
  · obtain ⟨hlog, hlow, hhigh'⟩ := log2_bounds hpos hshort
    have hn : 15 - e.a.log2 = 14 - e.a.log2 + 1 := by omega
    rw [if_pos hshort]
    rw [hn] at hlow hhigh' hroom ⊢
    exact h.renormalise hlow hhigh' hroom
  · have hlog : 15 ≤ e.a.log2 := (Nat.le_log2 (by omega)).2 (by omega)
    rw [Nat.sub_eq_zero_of_le hlog, zero_add] at hroom
    rw [if_neg hshort, Nat.sub_eq_zero_of_le hlog, pow_zero, pow_zero, mul_one, mul_one]
    exact ⟨rfl, h, hroom⟩

theorem decode_lower {cx : Context} (hlt : e.c >>> 16 < (Row.at cx.index).qe.toNat) :
    e.decode cx = (lowerSymbol e.a cx, (Part.lower e.a cx).context,
      ({ e with a := (Row.at cx.index).qe.toNat } : Reference).renormalise) := by
  unfold Reference.decode Reference.lpsExchange lowerSymbol Part.lower
  simp only
  rw [if_pos hlt]
  split
  · rfl
  · rfl

theorem decode_upper {cx : Context} (hge : ¬e.c >>> 16 < (Row.at cx.index).qe.toNat) :
    e.decode cx = (!lowerSymbol e.a cx, (Part.upper e.a cx).context,
      let rest : Reference :=
        { e with
          a := e.a - (Row.at cx.index).qe.toNat
          c := e.c - (Row.at cx.index).qe.toNat <<< 16 }
      if rest.a < 0x8000 then rest.renormalise else rest) := by
  have hqe := (Row.qe_bounds cx.index).2
  unfold Reference.decode Reference.mpsExchange lowerSymbol Part.upper
  simp only
  rw [if_neg hge]
  by_cases hshort : e.a - (Row.at cx.index).qe.toNat < 0x8000
  · rw [if_pos hshort, if_pos hshort, if_pos hshort]
    split
    · rfl
    · rw [Bool.not_not]
  · rw [if_neg hshort, if_neg hshort, if_neg hshort, if_neg (by omega), Bool.not_not]

/-- The point is in the part of a symbol only if the decoder finds it there. -/
theorem Carries.part_eq (h : Carries x size p e) (hunit : 2 ^ (16 - e.count) ∣ e.c) {cx : Context}
    {bit : Bool} {part : Part} (hpart : Part.of e.a cx bit = part) (hpoint : (part.offset : ℚ) ≤ p)
    (hpoint' : p < part.offset + part.length) :
    if e.c >>> 16 < (Row.at cx.index).qe.toNat then
      bit = lowerSymbol e.a cx ∧ part = Part.lower e.a cx
    else bit = !lowerSymbol e.a cx ∧ part = Part.upper e.a cx := by
  have hlower := h.lower_iff hunit (Row.at cx.index).qe.toNat
  unfold Part.of at hpart
  split
  · -- the symbol of the upper part cannot have been coded
    rename_i hlt
    have hbit : bit = lowerSymbol e.a cx := by
      by_contra hne
      rw [if_neg hne] at hpart
      subst hpart
      exact absurd (hlower.1 hlt) (not_lt.2 hpoint)
    rw [if_pos hbit] at hpart
    exact ⟨hbit, hpart.symm⟩
  · rename_i hge
    have hbit : bit ≠ lowerSymbol e.a cx := by
      intro heq
      rw [if_pos heq] at hpart
      subst hpart
      refine hge (hlower.2 ?_)
      simpa [Part.lower] using hpoint'
    rw [if_neg hbit] at hpart
    exact ⟨Bool.eq_not.2 hbit, hpart.symm⟩

/-- **One symbol**: a plain decoder whose point is in the part of a symbol finds this symbol, and
goes on with the point in that part. -/
theorem Carries.decode {k : Nat} (h : Carries x size p e) (hunit : 2 ^ (16 - e.count) ∣ e.c)
    (hlow : 0x8000 ≤ e.a) (hhigh : e.a ≤ 0xffff) {cx : Context} {bit : Bool} {part : Part}
    (hroom : Room size e.pointer e.count (part.shifts + k)) (hpart : Part.of e.a cx bit = part)
    (hpoint : (part.offset : ℚ) ≤ p) (hpoint' : p < part.offset + part.length) :
    (e.decode cx).1 = bit ∧ (e.decode cx).2.1 = part.context ∧ (e.decode cx).2.2.a = part.scaled ∧
      Carries x size ((p - part.offset) * 2 ^ part.shifts) (e.decode cx).2.2 ∧
      Room size (e.decode cx).2.2.pointer (e.decode cx).2.2.count k := by
  obtain ⟨hqepos, hqe⟩ := Row.qe_bounds cx.index
  have hfound := h.part_eq hunit hpart hpoint hpoint'
  by_cases hlt : e.c >>> 16 < (Row.at cx.index).qe.toNat
  · rw [if_pos hlt] at hfound
    obtain ⟨rfl, rfl⟩ := hfound
    have hcut : Carries x size (p - (0 : Nat)) { e with a := (Row.at cx.index).qe.toNat } := by
      rw [Nat.cast_zero, sub_zero]
      exact ⟨h.data, h.count, h.sum⟩
    have hshort : (Row.at cx.index).qe.toNat < 0x8000 := by omega
    rw [decode_lower hlt]
    exact ⟨rfl, rfl,
      hcut.rescale (Part.lower e.a cx) rfl hqepos (Nat.le_trans hqe (by decide)) hroom
        (if_pos hshort).symm⟩
  · rw [if_neg hlt] at hfound
    obtain ⟨rfl, rfl⟩ := hfound
    have hrest : 0 < e.a - (Row.at cx.index).qe.toNat ∧
        e.a - (Row.at cx.index).qe.toNat ≤ 0xffff := by omega
    rw [decode_upper hlt]
    exact ⟨rfl, rfl,
      (h.cutLower hlt _).rescale (Part.upper e.a cx) rfl hrest.1 hrest.2 hroom rfl⟩

end Bilevel.MQ
