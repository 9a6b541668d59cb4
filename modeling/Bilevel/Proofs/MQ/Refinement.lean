import Bilevel.Proofs.MQ.Reference

/-!
# Each symbol of the two decoders

* `Linked` — the two decoders hold one interval and measure one point in it.
* `Linked.shift`, `Linked.shiftBy`, `Linked.renormalise` — scaling up keeps them linked; the number
  of shifts read off the length is the number of rounds that the plain decoder takes.
* `Decoder.narrow`, `decode_eq_narrow` — a symbol narrows the interval, which is then scaled up.
* `Ready.decode` — each symbol of the two decoders is the same, and keeps them linked.
-/

set_option autoImplicit false

namespace Bilevel.MQ

variable {d : Decoder} {e : Reference}

/-! ## Steps of both decoders -/

/-- The two decoders measure one point from the two ends of the interval that both hold. -/
structure Linked (d : Decoder) (e : Reference) : Prop extends Mirrors d e d.a.toNat where
  a : e.a = d.a.toNat

theorem Decoder.a_takeByte (d : Decoder) : d.takeByte.a = d.a := by
  unfold takeByte
  simp only
  split
  · split <;> rfl
  · rfl

theorem Linked.takeByte (h : Linked d e) (hempty : d.count = 0) (hstall : ¬d.Stalled)
    (hlow : d.a.toNat ≤ 0x10000) : Linked d.takeByte e.byteIn := by
  have ha := d.a_takeByte
  refine ⟨?_, ?_⟩
  · rw [ha]
    exact h.toMirrors.takeByte hempty hstall hlow
  · rw [Reference.a_byteIn, ha, h.a]

theorem le_count_takeByte (d : Decoder) : 7 ≤ d.takeByte.count := by
  unfold Decoder.takeByte
  simp only
  split
  · split
    · exact Nat.le_succ 7
    · exact Nat.le_refl 7
  · exact Nat.le_succ 7

theorem Linked.double (h : Linked d e) (hcount : 0 < d.count) (hlow : d.a.toNat < 0x8000) :
    Linked { d with a := d.a <<< 1, c := d.c <<< 1, count := d.count - 1 }
      { e with a := e.a <<< 1, c := e.c <<< 1, count := e.count - 1 } := by
  have ha : (d.a <<< 1).toNat = d.a.toNat * 2 ^ 1 :=
    toNat_shiftLeft_of_lt (k := 1) (by decide) (by omega)
  refine ⟨?_, ?_⟩
  · simp only
    rw [ha]
    exact h.toMirrors.scale (k := 1) hcount (by omega) _ _
  · simp only
    rw [ha, h.a, Nat.shiftLeft_eq]

theorem toNat_a_shift {d : Decoder} (hlow : d.a.toNat < 0x8000) :
    d.shift.a.toNat = 2 * d.a.toNat := by
  have hshift : d.shift.a = d.a <<< UInt32.ofNat 1 := by
    unfold Decoder.shift
    simp only
    split
    · rw [d.a_takeByte]
      rfl
    · rfl
  rw [hshift, toNat_shiftLeft_of_lt (by decide) (by omega), Nat.pow_one, Nat.mul_comm]

theorem Linked.shift (h : Linked d e) (hstall : ¬d.Stalled) (hlow : d.a.toNat < 0x8000) :
    Linked d.shift e.shift := by
  unfold Decoder.shift Reference.shift
  rw [h.count]
  by_cases hempty : d.count = 0
  · rw [if_pos hempty, if_pos hempty]
    exact (h.takeByte hempty hstall (by omega)).double
      (Nat.lt_of_lt_of_le (by decide) (le_count_takeByte d)) (by rw [d.a_takeByte]; exact hlow)
  · rw [if_neg hempty, if_neg hempty]
    exact h.double (by omega) hlow

/-- Doubling so many times that the length just reaches `0x8000` is what the loop of the plain
decoder does. -/
theorem Linked.shiftBy {n : Nat} (h : Linked d e) (hlow : 0x8000 ≤ d.a.toNat * 2 ^ (n + 1))
    (hhigh : d.a.toNat * 2 ^ (n + 1) < 0x10000) (hstall : ∀ k ≤ n, ¬(d.shiftBy k).Stalled) :
    Linked (d.shiftBy (n + 1)) e.renormalise ∧
      (d.shiftBy (n + 1)).a.toNat = d.a.toNat * 2 ^ (n + 1) := by
  induction n generalizing d e with
  | zero =>
    have hshift := h.shift (hstall 0 (Nat.le_refl 0)) (by omega)
    have ha := toNat_a_shift (d := d) (by omega)
    have hea := hshift.a
    rw [Reference.renormalise_stop (by omega)]
    refine ⟨hshift, ?_⟩
    rw [Nat.mul_comm]
    exact ha
  | succ n ih =>
    have hpow : d.a.toNat * 2 ^ (n + 1 + 1) = 2 * d.a.toNat * 2 ^ (n + 1) := by
      rw [Nat.pow_succ 2 (n + 1), Nat.mul_comm _ 2, ← Nat.mul_assoc, Nat.mul_comm _ 2]
    have hone : 2 * d.a.toNat * 2 ^ 1 ≤ 2 * d.a.toNat * 2 ^ (n + 1) :=
      Nat.mul_le_mul_left _ (Nat.pow_le_pow_right (by decide) (by omega))
    have hpos : 0 < d.a.toNat := by
      rcases Nat.eq_zero_or_pos d.a.toNat with h0 | h0
      · rw [h0, Nat.zero_mul] at hlow
        omega
      · exact h0
    have hshift := h.shift (hstall 0 (Nat.zero_le _)) (by omega)
    have ha := toNat_a_shift (d := d) (by omega)
    have hea := hshift.a
    rw [Reference.renormalise_next (by omega) (by omega), hpow, ← ha]
    rw [hpow, ← ha] at hlow hhigh
    exact ih hshift hlow hhigh fun k hk => hstall (k + 1) (by omega)

theorem log2_bounds {n : Nat} (hn : 0 < n) (hlt : n < 0x8000) :
    n.log2 < 15 ∧ 0x8000 ≤ n * 2 ^ (15 - n.log2) ∧ n * 2 ^ (15 - n.log2) < 0x10000 := by
  have hlow := Nat.log2_self_le (n := n) (by omega)
  have hhigh := Nat.lt_log2_self (n := n)
  have hlog : n.log2 < 15 := (Nat.log2_lt (by omega)).2 hlt
  have hp : 0 < 2 ^ (15 - n.log2) := Nat.two_pow_pos _
  have hprod : 2 ^ n.log2 * 2 ^ (15 - n.log2) = 0x8000 := by
    rw [← Nat.pow_add, show n.log2 + (15 - n.log2) = 15 by omega]
  have hprod' : 2 ^ (n.log2 + 1) * 2 ^ (15 - n.log2) = 0x10000 := by
    rw [← Nat.pow_add, show n.log2 + 1 + (15 - n.log2) = 16 by omega]
  refine ⟨hlog, ?_, ?_⟩
  · rw [← hprod]
    exact Nat.mul_le_mul_right _ hlow
  · rw [← hprod']
    exact Nat.mul_lt_mul_of_pos_right hhigh hp

/-- One of the shifts of a renormalisation meets a carry that has nowhere to go. -/
def Decoder.Stalls (d : Decoder) : Prop := ∃ k < 15 - d.a.toNat.log2, (d.shiftBy k).Stalled

instance (d : Decoder) : Decidable d.Stalls := inferInstanceAs (Decidable (∃ _ < _, _))

/-- The two decoders between symbols: linked, with an interval that has been scaled up. -/
structure Ready (d : Decoder) (e : Reference) : Prop extends Linked d e where
  low : 0x8000 ≤ d.a.toNat
  high : d.a.toNat < 0x10000

theorem Linked.renormalise (h : Linked d e) (hstall : ¬d.Stalls) (hpos : 0 < d.a.toNat)
    (hlow : d.a.toNat < 0x8000) : Ready d.renormalise e.renormalise := by
  obtain ⟨hlog, hge, hlt⟩ := log2_bounds hpos hlow
  have hn : 15 - d.a.toNat.log2 = 14 - d.a.toNat.log2 + 1 := by omega
  rw [hn] at hge hlt
  unfold Decoder.renormalise
  rw [hn]
  obtain ⟨hlinked, ha⟩ := h.shiftBy hge hlt fun k hk hk' => hstall ⟨k, by omega, hk'⟩
  exact ⟨hlinked, by omega, by omega⟩

theorem Decoder.renormalise_of_le {d : Decoder} (h : 0x8000 ≤ d.a.toNat) : d.renormalise = d := by
  have hlog : 15 ≤ d.a.toNat.log2 := (Nat.le_log2 (by omega)).2 h
  unfold renormalise
  rw [show 15 - d.a.toNat.log2 = 0 by omega]
  rfl

/-! ## Symbols -/

theorem Row.qe_bounds (index : Nat) :
    0 < (Row.at index).qe.toNat ∧ (Row.at index).qe.toNat ≤ 0x5601 := by
  have htable : ∀ i : Fin 47, 0 < (Row.at i).qe.toNat ∧ (Row.at i).qe.toNat ≤ 0x5601 := by decide
  by_cases h : index < 47
  · exact htable ⟨index, h⟩
  · have hlast : Row.at index = ⟨0x5601, 46, 46, false⟩ := by
      unfold Row.at
      rw [Array.getD_eq_getD_getElem?, Array.getElem?_eq_none (by rw [rows_size]; omega)]
      rfl
    rw [hlast]
    decide

/-- The decoder when it has chosen a part of the interval and not yet scaled it up. -/
def Decoder.narrow (d : Decoder) (cx : Context) : Decoder :=
  if d.c >>> 16 < d.a - (Row.at cx.index).qe then { d with a := d.a - (Row.at cx.index).qe }
  else
    { d with
      a := (Row.at cx.index).qe
      c := d.c - (d.a - (Row.at cx.index).qe) <<< 16 }

theorem decode_eq_narrow (d : Decoder) (cx : Context) :
    (d.decode cx).2.2 = (d.narrow cx).renormalise := by
  unfold Decoder.decode Decoder.narrow
  simp only
  split
  · split
    · split <;> rfl
    · rename_i hbit
      exact (Decoder.renormalise_of_le (Nat.le_of_not_lt fun hlt =>
        hbit (and_eq_zero_of_lt hlt))).symm
  · split <;> rfl

/-- What is left of an interval without the part of the table row. -/
theorem Decoder.toNat_rest {d : Decoder} (hlow : 0x8000 ≤ d.a.toNat) (cx : Context) :
    (d.a - (Row.at cx.index).qe).toNat = d.a.toNat - (Row.at cx.index).qe.toNat := by
  have hqe := (Row.qe_bounds cx.index).2
  exact UInt32.toNat_sub_of_le _ _ (by rw [UInt32.le_iff_toNat_le]; omega)

theorem Ready.toNat_rest (h : Ready d e) (cx : Context) :
    (d.a - (Row.at cx.index).qe).toNat = d.a.toNat - (Row.at cx.index).qe.toNat :=
  Decoder.toNat_rest h.low cx

/-- The two decoders choose the same part of the interval. -/
theorem Ready.upper_iff (h : Ready d e) (cx : Context) :
    d.c >>> 16 < d.a - (Row.at cx.index).qe ↔ ¬e.c >>> 16 < (Row.at cx.index).qe.toNat := by
  have hqe := (Row.qe_bounds cx.index).2
  have hlow := h.low
  rw [UInt32.lt_iff_toNat_lt, h.toNat_rest, UInt32.toNat_shiftRight, Nat.shiftRight_eq_div_pow,
    Nat.shiftRight_eq_div_pow]
  exact h.toMirrors.high_lt_iff (by omega)

theorem Ready.exchange_iff (h : Ready d e) (cx : Context) :
    d.a - (Row.at cx.index).qe < (Row.at cx.index).qe ↔
      e.a - (Row.at cx.index).qe.toNat < (Row.at cx.index).qe.toNat := by
  rw [UInt32.lt_iff_toNat_lt, h.toNat_rest, h.a]

theorem Ready.short_iff (h : Ready d e) (cx : Context) :
    d.a - (Row.at cx.index).qe &&& 0x8000 = 0 ↔ e.a - (Row.at cx.index).qe.toNat < 0x8000 := by
  have hhigh := h.high
  rw [and_eq_zero_iff (by rw [h.toNat_rest]; omega), h.toNat_rest, h.a]

/-- The upper part of the interval, with the plain decoder counting from its lower end. -/
theorem Ready.linkedUpper (h : Ready d e) (cx : Context)
    (hge : ¬e.c >>> 16 < (Row.at cx.index).qe.toNat) :
    Linked { d with a := d.a - (Row.at cx.index).qe }
      { e with
        a := e.a - (Row.at cx.index).qe.toNat
        c := e.c - (Row.at cx.index).qe.toNat <<< 16 } := by
  have hqe := (Row.qe_bounds cx.index).2
  have hlow := h.low
  rw [Nat.shiftRight_eq_div_pow] at hge
  refine ⟨?_, ?_⟩
  · simp only
    rw [h.toNat_rest]
    exact h.toMirrors.cutLower (by omega) hge _ _
  · simp only
    rw [h.toNat_rest, h.a]

/-- The lower part of the interval, with the decoder counting from its upper end. -/
theorem Ready.linkedLower (h : Ready d e) (cx : Context)
    (hlt : e.c >>> 16 < (Row.at cx.index).qe.toNat) :
    Linked
      { d with
        a := (Row.at cx.index).qe
        c := d.c - (d.a - (Row.at cx.index).qe) <<< 16 }
      { e with a := (Row.at cx.index).qe.toNat } := by
  have hqe := (Row.qe_bounds cx.index).2
  have hlow := h.low
  rw [Nat.shiftRight_eq_div_pow] at hlt
  exact ⟨h.toMirrors.cutUpper (by omega) hlt (h.toNat_rest cx) h.high _ _, rfl⟩

/-- **One symbol**: the two decoders give the same symbol and context and are linked afterwards. -/
theorem Ready.decode (h : Ready d e) (cx : Context) (hstall : ¬(d.narrow cx).Stalls) :
    (e.decode cx).1 = (d.decode cx).1 ∧ (e.decode cx).2.1 = (d.decode cx).2.1 ∧
      Ready (d.decode cx).2.2 (e.decode cx).2.2 := by
  obtain ⟨hpos, hqe⟩ := Row.qe_bounds cx.index
  have hlow := h.low
  have hhigh := h.high
  have ha := h.a
  have hrest := h.toNat_rest cx
  have hexchange := h.exchange_iff cx
  rw [decode_eq_narrow]
  unfold Decoder.narrow at hstall ⊢
  unfold Decoder.decode Reference.decode Reference.lpsExchange Reference.mpsExchange
  simp only
  by_cases hupper : d.c >>> 16 < d.a - (Row.at cx.index).qe
  · have hge := (h.upper_iff cx).1 hupper
    have hlinked := h.linkedUpper cx hge
    simp only [if_pos hupper] at hstall ⊢
    rw [if_neg hge]
    by_cases hshort : d.a - (Row.at cx.index).qe &&& 0x8000 = 0
    · have hshort' := (h.short_iff cx).1 hshort
      have hready := hlinked.renormalise hstall (by simp only; omega) (by simp only; omega)
      rw [if_pos hshort, if_pos hshort']
      by_cases hless : d.a - (Row.at cx.index).qe < (Row.at cx.index).qe
      · rw [if_pos hless, if_pos (hexchange.1 hless)]
        exact ⟨rfl, rfl, hready⟩
      · rw [if_neg hless, if_neg (fun hlt => hless (hexchange.2 hlt))]
        exact ⟨rfl, rfl, hready⟩
    · have hlong : ¬e.a - (Row.at cx.index).qe.toNat < 0x8000 :=
        fun hlt => hshort ((h.short_iff cx).2 hlt)
      rw [if_neg hshort, if_neg hlong, Decoder.renormalise_of_le (by simp only; omega)]
      exact ⟨rfl, rfl, hlinked, by simp only; omega, by simp only; omega⟩
  · have hlt : e.c >>> 16 < (Row.at cx.index).qe.toNat :=
      Classical.byContradiction fun hge => hupper ((h.upper_iff cx).2 hge)
    have hlinked := h.linkedLower cx hlt
    simp only [if_neg hupper] at hstall ⊢
    rw [if_pos hlt]
    have hready := hlinked.renormalise hstall hpos (by simp only; omega)
    by_cases hless : d.a - (Row.at cx.index).qe < (Row.at cx.index).qe
    · rw [if_pos hless, if_pos (hexchange.1 hless)]
      exact ⟨rfl, rfl, hready⟩
    · rw [if_neg hless, if_neg (fun hlt => hless (hexchange.2 hlt))]
      exact ⟨rfl, rfl, hready⟩

end Bilevel.MQ
