import Mathlib.Data.Nat.Find
import Bilevel.Proofs.MQ.Checked

/-!
# Every decoder runs dry

A symbol need not use up any coded bits, and behind the data there is always one more byte to be
missed.  Still no decoder goes on for ever: what is not used up in bits is taken from the length of
the interval.

* `Decoder.shiftsLeft` — how often a decoder can be shifted before it is complete, at most;
  `shiftsLeft_shift` says that each shift uses up one of them.
* `Decoder.work` — the same with the length of the interval counted in; `Sound.work_decode` says
  that each symbol uses up some of it, and `work_init` how much there is at the start.
* `Budgeted` — a session whose decodes so far and whose work left are within a bound.
* `Budgeted.exists_complete_from` — a decoder that is asked again and again is complete from
  some decode on.
-/

set_option autoImplicit false

namespace Bilevel.MQ

/-- How many bytes may be missed before the one whose lack completes the decoder. -/
def Supply.spare : Supply → Nat
  | .plenty => 2
  | .missedOnce => 1
  | .missedTwice => 0
  | .exhausted => 0

namespace Decoder

variable {d : Decoder}

/-! ## Shifts -/

/-- The shifts that are left: those with bits that have been taken in, eight for each byte that may
still be taken in or missed, and the one that finds that too many have been missed. -/
def shiftsLeft (d : Decoder) : Nat :=
  if d.supply = .exhausted then 0
  else d.count + 8 * (d.data.size - d.pointer + d.supply.spare) + 1

theorem shiftsLeft_pos (h : d.isComplete = false) : 0 < d.shiftsLeft := by
  have hsupply : d.supply ≠ .exhausted := by
    intro heq
    rw [d.isComplete_iff.2 heq] at h
    cases h
  unfold shiftsLeft
  rw [if_neg hsupply]
  exact Nat.succ_pos _

theorem shiftsLeft_takeByte (hempty : d.count = 0) : d.takeByte.shiftsLeft ≤ d.shiftsLeft := by
  unfold shiftsLeft
  rcases d.takeByte_cases with ⟨-, heq⟩ | ⟨hmarker, c, count, -, hcount, heq⟩
  · -- eight bits for a byte that is missed
    rw [heq, hempty]
    cases hsupply : d.supply with
    | plenty =>
      simp [Supply.miss, Supply.spare]
      omega
    | missedOnce =>
      simp [Supply.miss, Supply.spare]
      omega
    | missedTwice => simp [Supply.miss]
    | exhausted => simp [Supply.miss]
  · -- at most eight bits for a byte that is there
    have hlt := lt_size_of_not_atMarker hmarker
    rw [heq, hempty]
    simp only
    split
    · exact Nat.le_refl 0
    · omega

/-- Each shift uses up one of those that are left. -/
theorem shiftsLeft_shift (d : Decoder) : d.shift.shiftsLeft ≤ d.shiftsLeft - 1 := by
  have hdouble : ∀ e : Decoder, 0 < e.count →
      shiftsLeft { e with a := e.a <<< 1, c := e.c <<< 1, count := e.count - 1 } ≤
        e.shiftsLeft - 1 := by
    intro e hcount
    unfold shiftsLeft
    simp only
    split
    · exact Nat.zero_le _
    · omega
  unfold shift
  simp only
  by_cases hempty : d.count = 0
  · have hcount := le_count_takeByte d
    have htake := shiftsLeft_takeByte hempty
    have hstep := hdouble d.takeByte (by omega)
    rw [if_pos hempty]
    omega
  · rw [if_neg hempty]
    exact hdouble d (by omega)

theorem shiftsLeft_shiftBy (d : Decoder) (n : Nat) :
    (d.shiftBy n).shiftsLeft ≤ d.shiftsLeft - n := by
  induction n generalizing d with
  | zero => exact Nat.le_refl _
  | succ n ih =>
    have hfirst := d.shiftsLeft_shift
    have hrest := ih d.shift
    rw [shiftBy]
    omega

/-- The work that is left: for each shift the shorter parts of the interval that it may bring. -/
def work (d : Decoder) : Nat := 2 ^ 15 * d.shiftsLeft + (d.a.toNat - 0x8000)

theorem shiftsLeft_narrow (d : Decoder) (cx : Context) :
    (d.narrow cx).shiftsLeft = d.shiftsLeft := by
  unfold narrow
  split <;> rfl

/-- Each symbol uses up some work: it is a shift, or the interval gets shorter. -/
theorem Sound.work_decode (h : d.Sound) (hopen : d.isComplete = false) (cx : Context) :
    (d.decode cx).2.2.work < d.work := by
  obtain ⟨hpos, hlt⟩ := h.a_narrow cx
  have hleft := shiftsLeft_pos hopen
  have hlow := h.low
  have hhigh := h.high
  have hhigh' := (h.decode cx).high
  rw [decode_eq_narrow] at hhigh' ⊢
  unfold work
  by_cases hlong : 0x8000 ≤ (d.narrow cx).a.toNat
  · rw [renormalise_of_le hlong, d.shiftsLeft_narrow cx]
    omega
  · have hlog := (log2_bounds hpos (by omega)).1
    have hshifts := (d.narrow cx).shiftsLeft_shiftBy (15 - (d.narrow cx).a.toNat.log2)
    rw [d.shiftsLeft_narrow cx] at hshifts
    have hused : (d.narrow cx).renormalise.shiftsLeft ≤ d.shiftsLeft - 1 := by
      unfold renormalise
      omega
    omega

theorem work_init (data : Array UInt8) :
    (Decoder.init data).work ≤ 2 ^ 15 * (8 * data.size + 10) := by
  have ha : (Decoder.init data).a = 0x8000 := (first data).a_takeByte
  have hshifts : (Decoder.init data).shiftsLeft ≤ 8 * data.size + 10 := by
    unfold shiftsLeft
    rw [init_eq]
    rcases (first data).takeByte_cases with ⟨-, heq⟩ | ⟨hmarker, c, count, -, hcount, heq⟩
    · rw [heq]
      show 1 + 8 * (data.size - 0 + 1) + 1 ≤ _
      omega
    · have hlt : 0 < data.size := lt_size_of_not_atMarker hmarker
      rw [heq]
      show count - 7 + 8 * (data.size - (0 + 1) + 2) + 1 ≤ _
      omega
  have hzero : (0x8000 : UInt32).toNat - 0x8000 = 0 := by decide
  unfold work
  rw [ha, hzero, Nat.add_zero]
  exact Nat.mul_le_mul_left _ hshifts

end Decoder

/-! ## Sessions -/

/-- As long as the decoder is not complete, the decodes made so far and the work that is left are no
more than a number. -/
structure Budgeted (bound : Nat) (s : Session Decoder) : Prop where
  sound : s.source.Sound
  work : s.isComplete = false → s.trace.size + s.source.work ≤ bound

theorem Budgeted.init (data : Array UInt8) (contexts : Array Context) :
    Budgeted (2 ^ 15 * (8 * data.size + 10)) ⟨Decoder.init data, contexts, #[]⟩ := by
  refine ⟨.init data, ?_⟩
  intro _
  show 0 + _ ≤ _
  rw [Nat.zero_add]
  exact Decoder.work_init data

variable {bound : Nat} {s : Session Decoder}

theorem source_decode {number : Nat} (hn : number < s.contexts.size) :
    (s.decode number hn).2.source = (s.source.decode s.contexts[number]).2.2 := rfl

theorem isComplete_of_decode {number : Nat} {h : number < s.contexts.size}
    (hopen : (s.decode number h).2.isComplete = false) : s.isComplete = false := by
  rw [← Bool.not_eq_true]
  intro hcomplete
  have hlater : (s.decode number h).2.isComplete = true :=
    Decoder.isComplete_decode hcomplete s.contexts[number]
  rw [hlater] at hopen
  cases hopen

theorem Budgeted.decode (h : Budgeted bound s) {number : Nat} (hn : number < s.contexts.size) :
    Budgeted bound (s.decode number hn).2 := by
  refine ⟨h.sound.decode _, ?_⟩
  intro hopen
  have hopen' := isComplete_of_decode hopen
  have hless := h.sound.work_decode hopen' s.contexts[number]
  have hwork := h.work hopen'
  rw [Session.trace_decode, Array.size_push, source_decode]
  omega

theorem Budgeted.trace_lt (h : Budgeted bound s) (hopen : s.isComplete = false) :
    s.trace.size < bound := by
  have hwork := h.work hopen
  have hleft := Decoder.shiftsLeft_pos hopen
  unfold Decoder.work at hwork
  omega

/-- A decoder that is asked again and again is complete from some decode on, which comes before the
work that it started with is used up. -/
theorem Budgeted.exists_complete_from {start : Session Decoder} (h : Budgeted bound start)
    (htrace : start.trace.size = 0) {numbers : Nat → Nat}
    (hnumbers : ∀ i, numbers i < start.contexts.size) :
    ∃ m ≤ bound, ∀ n, ∃ bits s, start.decodeMany numbers n = some (bits, s) ∧
      (s.isComplete = true ↔ m ≤ n) := by
  let Dry (n : Nat) : Prop := ∃ bits s, start.decodeMany numbers n = some (bits, s) ∧
    s.isComplete = true
  have hrun : ∀ n, ∃ bits s, start.decodeMany numbers n = some (bits, s) ∧ Budgeted bound s ∧
      s.contexts.size = start.contexts.size ∧ s.trace.size = n := by
    intro n
    obtain ⟨bits, s, hrun, hs, hsize, hlength⟩ :=
      Session.decodeMany_induction (fun s number hn h => h.decode hn) (fun i _ => hnumbers i) h
    exact ⟨bits, s, hrun, hs, hsize, by omega⟩
  have hbound : Dry bound := by
    obtain ⟨bits, s, hs, hbudget, -, hlength⟩ := hrun bound
    refine ⟨bits, s, hs, ?_⟩
    rw [← Bool.not_eq_false]
    intro hopen
    have hlt := hbudget.trace_lt hopen
    omega
  have hmono : ∀ m k, Dry m → Dry (m + k) := by
    rintro m k ⟨bits, s, hs, hcomplete⟩
    obtain ⟨bits₁, s₁, hs₁, -, hsize, -⟩ := hrun m
    rw [hs] at hs₁
    cases hs₁
    have hstay : ∀ (s : Session Decoder) (number : Nat) (h : number < s.contexts.size),
        s.isComplete = true → (s.decode number h).2.isComplete = true :=
      fun s number h hs => Decoder.isComplete_decode hs s.contexts[number]
    exact Session.decodeMany_induction_from hstay (Nat.le_add_right m k) (fun i _ => hnumbers i) hs
      hsize hcomplete
  classical
  refine ⟨Nat.find ⟨bound, hbound⟩, Nat.find_min' _ hbound, ?_⟩
  intro n
  obtain ⟨bits, s, hs, -⟩ := hrun n
  refine ⟨bits, s, hs, fun hcomplete => Nat.find_min' _ ⟨bits, s, hs, hcomplete⟩, ?_⟩
  intro hle
  obtain ⟨k, rfl⟩ := Nat.exists_eq_add_of_le hle
  obtain ⟨bits', s', hs', hcomplete⟩ := hmono _ k (Nat.find_spec ⟨bound, hbound⟩)
  rw [hs] at hs'
  cases hs'
  exact hcomplete

end Bilevel.MQ
