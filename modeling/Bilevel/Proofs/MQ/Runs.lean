import Bilevel.Proofs.MQ.Refinement

/-!
# Runs of the two decoders

* `Decoder.first` — a decoder before it has taken in a second byte.
* `ready_init` — the two decoders are linked from the start.
* `Steady` — a run of the decoder in which no carry is lost.
* `decodeFrom_together` — such a run gives the same bits and contexts with both decoders.
* `decodeMany_eq_reference` — the decoder refines the plain decoder.
-/

set_option autoImplicit false

namespace Bilevel.MQ

/-- A decoder at the start of its data, before it takes in the byte behind the first one. -/
def Decoder.first (data : Array UInt8) : Decoder :=
  ⟨data, ((data.getD 0 0xff).toUInt32 ^^^ 0xff) <<< 16, 0x8000, 0, 0, .plenty⟩

theorem Decoder.init_eq (data : Array UInt8) :
    Decoder.init data =
      { (Decoder.first data).takeByte with
        c := (Decoder.first data).takeByte.c <<< 7
        count := (Decoder.first data).takeByte.count - 7 } := rfl

theorem toNat_complement (byte : UInt8) : (byte.toUInt32 ^^^ 0xff).toNat = 255 - byte.toNat := by
  have hsub : 255 - byte.toNat = 2 ^ 8 - (byte.toNat + 1) := by omega
  have hones : (0xff : UInt32).toNat = 2 ^ 8 - 1 := rfl
  rw [UInt32.toNat_xor, UInt8.toNat_toUInt32, hsub, hones]
  apply Nat.eq_of_testBit_eq
  intro i
  rw [Nat.testBit_xor, Nat.testBit_two_pow_sub_one, Nat.testBit_two_pow_sub_succ byte.toNat_lt]
  by_cases hi : i < 8
  · rw [decide_eq_true hi, Bool.xor_true, Bool.true_and]
  · rw [decide_eq_false hi, Bool.xor_false, Bool.false_and]
    exact Nat.testBit_lt_two_pow
      (Nat.lt_of_lt_of_le byte.toNat_lt (Nat.pow_le_pow_right (by decide) (by omega)))

theorem ready_init {data : Array UInt8} (hstall : ¬(Decoder.first data).Stalled) :
    Ready (Decoder.init data) (Reference.init data) := by
  have hbyte := (data.getD 0 0xff).toNat_lt
  have hc : (Decoder.first data).c.toNat = (255 - (data.getD 0 0xff).toNat) * 2 ^ 16 := by
    rw [← toNat_complement]
    exact toNat_shiftLeft_of_lt (k := 16) (by decide) (by rw [toNat_complement]; omega)
  have hfirst : Mirrors (Decoder.first data)
      ⟨data, (data.getD 0 0xff).toNat <<< 16, 0, 0, 0⟩ 0x100 := by
    refine ⟨rfl, rfl, rfl, Nat.zero_le _, ?_, ?_⟩
    · simp only
      rw [hc, Nat.shiftLeft_eq]
      show _ + _ + 2 ^ 16 = _
      omega
    · exact ⟨(data.getD 0 0xff).toNat, by rw [Nat.shiftLeft_eq, Nat.mul_comm]; rfl⟩
  have htaken := (hfirst.takeByte rfl hstall (by decide)).scale (le_count_takeByte _)
    (by decide) (Decoder.first data).takeByte.a 0x8000
  have ha : (Decoder.init data).a = 0x8000 := by
    rw [Decoder.init_eq]
    exact (Decoder.first data).a_takeByte
  have hinit : Mirrors (Decoder.init data) (Reference.init data) (0x100 * 2 ^ 7) := htaken
  refine ⟨⟨?_, ?_⟩, ?_, ?_⟩
  · rw [ha]
    exact hinit
  · rw [ha]
    rfl
  · rw [ha]
    decide
  · rw [ha]
    decide

/-- The sessions of the two decoders are linked and have the same contexts. -/
structure Together (s : Session Decoder) (t : Session Reference) : Prop where
  ready : Ready s.source t.source
  contexts : t.contexts = s.contexts
  trace : t.trace = s.trace

/-- None of the next `left` decodes, the first of which is bit `i`, loses a carry. -/
def Steady (numbers : Nat → Nat) : (left i : Nat) → Session Decoder → Prop
  | 0, _, _ => True
  | left + 1, i, s =>
    ∀ h : numbers i < s.contexts.size,
      ¬(s.source.narrow s.contexts[numbers i]).Stalls ∧
        Steady numbers left (i + 1) (s.decode (numbers i) h).2

instance decidableSteady (numbers : Nat → Nat) :
    (left i : Nat) → (s : Session Decoder) → Decidable (Steady numbers left i s)
  | 0, _, _ => isTrue trivial
  | left + 1, i, s =>
    have := fun h : numbers i < s.contexts.size =>
      decidableSteady numbers left (i + 1) (s.decode (numbers i) h).2
    inferInstanceAs (Decidable (∀ h : numbers i < s.contexts.size,
      ¬(s.source.narrow s.contexts[numbers i]).Stalls ∧
        Steady numbers left (i + 1) (s.decode (numbers i) h).2))

theorem Together.decode {s : Session Decoder} {t : Session Reference} (h : Together s t)
    {number : Nat} (hs : number < s.contexts.size) (ht : number < t.contexts.size)
    (hstall : ¬(s.source.narrow s.contexts[number]).Stalls) :
    (t.decode number ht).1 = (s.decode number hs).1 ∧
      Together (s.decode number hs).2 (t.decode number ht).2 := by
  obtain ⟨source, contexts, trace⟩ := t
  obtain ⟨hready, hcontexts, htrace⟩ := h
  simp only at hready hcontexts htrace
  subst hcontexts htrace
  obtain ⟨hbit, hcontext, hnext⟩ := hready.decode s.contexts[number] hstall
  refine ⟨hbit, hnext, ?_, rfl⟩
  exact congrArg (fun context => s.contexts.set number context hs) hcontext

theorem decodeFrom_together {numbers : Nat → Nat} {left i : Nat} (bits : Array Bool)
    {s : Session Decoder} {t : Session Reference} (h : Together s t)
    (hnumbers : ∀ j < left, numbers (i + j) < s.contexts.size) (hsteady : Steady numbers left i s) :
    ∃ bits' s' t', s.decodeFrom numbers true left i bits = some (bits', s') ∧
      t.decodeFrom numbers true left i bits = some (bits', t') ∧ Together s' t' := by
  induction left generalizing i bits s t with
  | zero => exact ⟨bits, s, t, rfl, rfl, h⟩
  | succ left ih =>
    have hs : numbers i < s.contexts.size := hnumbers 0 (Nat.zero_lt_succ _)
    have ht : numbers i < t.contexts.size := by
      rw [h.contexts]
      exact hs
    obtain ⟨hstall, hrest⟩ := hsteady hs
    obtain ⟨hbit, hnext⟩ := h.decode hs ht hstall
    have hnumbers' : ∀ j < left,
        numbers (i + 1 + j) < (s.decode (numbers i) hs).2.contexts.size := by
      intro j hj
      rw [Session.size_contexts_decode, Nat.add_right_comm]
      exact hnumbers (j + 1) (Nat.succ_lt_succ hj)
    obtain ⟨bits', s', t', hrun, hrun', htogether⟩ :=
      ih (bits.push (s.decode (numbers i) hs).1) hnext hnumbers' hrest
    refine ⟨bits', s', t', ?_, ?_, htogether⟩
    · rw [Session.decodeFrom, Bool.true_or, if_pos rfl, dif_pos hs]
      exact hrun
    · rw [Session.decodeFrom, Bool.true_or, if_pos rfl, dif_pos ht]
      simp only
      rw [hbit]
      exact hrun'

/-- **The decoder refines the plain decoder.**  As long as no carry is lost, neither at the start
nor in one of `n` decodes under whatever contexts, both decoders give the same bits, leave the same
contexts and stand at the same byte with the same number of bits left and the same length of the
interval; the distances and the unit of the bits left make up the interval, so that the distance is
less than the length. -/
theorem decodeMany_eq_reference (data : Array UInt8) (contexts : Array Context)
    (numbers : Nat → Nat) (n : Nat) (hnumbers : ∀ i < n, numbers i < contexts.size)
    (hinit : ¬(Decoder.first data).Stalled)
    (hsteady : Steady numbers n 0 ⟨Decoder.init data, contexts, #[]⟩) :
    ∃ bits s t,
      (⟨Decoder.init data, contexts, #[]⟩ : Session Decoder).decodeMany numbers n =
        some (bits, s) ∧
      (⟨Reference.init data, contexts, #[]⟩ : Session Reference).decodeMany numbers n =
        some (bits, t) ∧
      t.contexts = s.contexts ∧ t.source.a = s.source.a.toNat ∧
      t.source.count = s.source.count ∧ t.source.pointer = s.source.pointer ∧
      s.source.c.toNat + t.source.c + 2 ^ (16 - s.source.count) = s.source.a.toNat * 2 ^ 16 ∧
      s.source.c >>> 16 < s.source.a := by
  have htogether :
      Together ⟨Decoder.init data, contexts, #[]⟩ ⟨Reference.init data, contexts, #[]⟩ :=
    ⟨ready_init hinit, rfl, rfl⟩
  obtain ⟨bits, s, t, hrun, hrun', h⟩ := decodeFrom_together #[] htogether
    (fun j hj => by rw [Nat.zero_add]; exact hnumbers j hj) hsteady
  have hhigh : s.source.c >>> 16 < s.source.a := by
    have hlt := h.ready.toMirrors.toNat_lt
    rw [UInt32.lt_iff_toNat_lt, UInt32.toNat_shiftRight, Nat.shiftRight_eq_div_pow]
    exact (Nat.div_lt_iff_lt_mul (by decide)).2 hlt
  exact ⟨bits, s, t, hrun, hrun', h.contexts, h.ready.a, h.ready.count, h.ready.pointer,
    h.ready.sum, hhigh⟩

/-- Data with a seven-bit byte and a marker behind it. -/
theorem decodeMany_eq_reference_marker :
    let data : Array UInt8 := #[0x84, 0xff, 0x7f, 0x2e, 0xff, 0xac]
    let contexts : Array Context := #[{}, {}]
    let numbers : Nat → Nat := fun i => i % 2
    ((∀ i < 24, numbers i < contexts.size) ∧ ¬(Decoder.first data).Stalled ∧
      Steady numbers 24 0 ⟨Decoder.init data, contexts, #[]⟩) ∧
    ∃ bits s t,
      (⟨Decoder.init data, contexts, #[]⟩ : Session Decoder).decodeMany numbers 24 =
        some (bits, s) ∧
      (⟨Reference.init data, contexts, #[]⟩ : Session Reference).decodeMany numbers 24 =
        some (bits, t) ∧
      t.contexts = s.contexts ∧ t.source.a = s.source.a.toNat ∧
      t.source.count = s.source.count ∧ t.source.pointer = s.source.pointer ∧
      s.source.c.toNat + t.source.c + 2 ^ (16 - s.source.count) = s.source.a.toNat * 2 ^ 16 ∧
      s.source.c >>> 16 < s.source.a := by
  intro data contexts numbers
  have hnumbers : ∀ i < 24, numbers i < contexts.size := fun i _ => Nat.mod_lt i (by decide)
  have hinit : ¬(Decoder.first data).Stalled := by decide
  have hsteady : Steady numbers 24 0 ⟨Decoder.init data, contexts, #[]⟩ := by decide +kernel
  exact ⟨⟨hnumbers, hinit, hsteady⟩,
    decodeMany_eq_reference data contexts numbers 24 hnumbers hinit hsteady⟩

end Bilevel.MQ
