import Mathlib.Data.Finset.Insert
import Bilevel.Proofs.MQ.Invariant
import Bilevel.Proofs.Source.Session

/-!
# Colours exchanged

Which of the two colours a context holds for the more probable one is a matter of naming: a decoder
works with the more and the less probable symbol, and turns them into a colour at the end.  So
exchanging the colours in some of the contexts exchanges them in what is decoded under these
contexts, and changes nothing else.

* `Context.complement`, `complementAt` — a context with its colours exchanged, and contexts in some
  of which they are.
* `decode_complement` — one symbol under a complemented context: the other colour, the complemented
  context afterwards and the same decoder.
* `complementSession` — a session whose contexts are complemented at some positions;
  `decode_complementSession` and `decodeFrom_complementSession` say what one symbol and what a run
  does.
* `decodeMany_complementAt` — the two runs from the start of the data side by side.
-/

set_option autoImplicit false

namespace Bilevel

def Context.complement (cx : Context) : Context := { cx with mps := !cx.mps }

namespace MQ

/-- The contexts with the colours exchanged in those at the positions `F`. -/
def complementAt (F : Finset Nat) (contexts : Array Context) : Array Context :=
  contexts.mapIdx fun i cx => if i ∈ F then cx.complement else cx

/-- The bits with those exchanged that were decoded under a context at one of the positions `F`. -/
def complementBits (F : Finset Nat) (numbers : Nat → Nat) (bits : Array Bool) : Array Bool :=
  bits.mapIdx fun i bit => if numbers i ∈ F then !bit else bit

variable {F : Finset Nat}

@[simp] theorem size_complementAt (contexts : Array Context) :
    (complementAt F contexts).size = contexts.size := Array.size_mapIdx

theorem getElem?_complementAt (contexts : Array Context) (i : Nat) :
    (complementAt F contexts)[i]? =
      contexts[i]?.map fun cx => if i ∈ F then cx.complement else cx := Array.getElem?_mapIdx

theorem getElem_complementAt {contexts : Array Context} {i : Nat} (h : i < contexts.size)
    (h' : i < (complementAt F contexts).size) :
    (complementAt F contexts)[i] = if i ∈ F then contexts[i].complement else contexts[i] :=
  Array.getElem_mapIdx h'

/-- A context put in at a position of `F` is complemented there. -/
theorem complementAt_set (contexts : Array Context) {i : Nat} (cx : Context)
    (h : i < contexts.size) (h' : i < (complementAt F contexts).size) :
    complementAt F (contexts.set i cx h) =
      (complementAt F contexts).set i (if i ∈ F then cx.complement else cx) h' := by
  apply Array.ext_getElem?
  intro j
  rw [getElem?_complementAt, Array.getElem?_set, Array.getElem?_set, getElem?_complementAt]
  by_cases hij : i = j
  · subst hij
    simp
  · simp [hij]

theorem complementBits_extract (numbers : Nat → Nat) (bits : Array Bool) (k : Nat) :
    complementBits F numbers (bits.extract 0 k) = (complementBits F numbers bits).extract 0 k := by
  apply Array.ext_getElem?
  intro i
  unfold complementBits
  rw [Array.getElem?_mapIdx, Array.getElem?_extract, Array.getElem?_extract, Array.getElem?_mapIdx,
    Array.size_mapIdx, Nat.zero_add]
  by_cases hi : i < min k bits.size - 0
  · rw [if_pos hi, if_pos hi]
  · rw [if_neg hi, if_neg hi, Option.map_none]

namespace Decoder

/-- Whether the colours change parts on the way is told by the row alone. -/
theorem afterLps_complement (row : Row) (cx : Context) :
    afterLps row cx.complement = (afterLps row cx).complement := by
  unfold afterLps Context.complement
  cases row.switch <;> rfl

/-- **One symbol under a complemented context** is the other colour.  The context afterwards is the
complemented one, and the decoder is the same. -/
theorem decode_complement (d : Decoder) (cx : Context) :
    d.decode cx.complement =
      (!(d.decode cx).1, (d.decode cx).2.1.complement, (d.decode cx).2.2) := by
  have hindex : cx.complement.index = cx.index := rfl
  have hmps : cx.complement.mps = !cx.mps := rfl
  unfold decode
  simp only [hindex, hmps, afterLps_complement]
  split
  · split
    · -- the rest is scaled up: its symbol is the less probable one if it is now the shorter part
      split <;> rfl
    · rfl
  · split <;> rfl

end Decoder

variable {s : Session Decoder} {numbers : Nat → Nat}

def complementSession (F : Finset Nat) (s : Session Decoder) : Session Decoder :=
  { s with contexts := complementAt F s.contexts }

theorem decode_complementSession {number : Nat} (h : number < s.contexts.size)
    (h' : number < (complementSession F s).contexts.size) :
    (complementSession F s).decode number h' =
      (if number ∈ F then !(s.decode number h).1 else (s.decode number h).1,
        complementSession F (s.decode number h).2) := by
  have hget : (complementSession F s).contexts[number] =
      if number ∈ F then s.contexts[number].complement else s.contexts[number] :=
    getElem_complementAt h h'
  have hsymbol : ∀ cx, BitSource.decode s.source cx = s.source.decode cx := fun _ => rfl
  unfold Session.decode
  simp only [hget]
  unfold complementSession
  simp only [complementAt_set s.contexts _ h h', hsymbol]
  by_cases hF : number ∈ F
  · simp only [if_pos hF, Decoder.decode_complement]
  · simp only [if_neg hF]

/-- A run with the colours exchanged in some contexts is the same run with the bits exchanged that
come from these contexts, also where it stops. -/
theorem decodeFrom_complementSession (whole : Bool) (left : Nat) (bits : Array Bool) :
    (complementSession F s).decodeFrom numbers whole left bits.size
        (complementBits F numbers bits) =
      (s.decodeFrom numbers whole left bits.size bits).map fun (bits, s) =>
        (complementBits F numbers bits, complementSession F s) := by
  induction left generalizing bits s with
  | zero => rfl
  | succ left ih =>
    have hcomplete : (complementSession F s).isComplete = s.isComplete := rfl
    rw [Session.decodeFrom, Session.decodeFrom, hcomplete]
    by_cases hgo : (whole || !s.isComplete) = true
    · rw [if_pos hgo, if_pos hgo]
      by_cases h : numbers bits.size < s.contexts.size
      · have h' : numbers bits.size < (complementSession F s).contexts.size := by
          rw [complementSession, size_complementAt]
          exact h
        have hpush : ∀ bit, (complementBits F numbers bits).push
            (if numbers bits.size ∈ F then !bit else bit) =
              complementBits F numbers (bits.push bit) := by
          intro bit
          unfold complementBits
          rw [Array.mapIdx_push]
        have hnext := ih (s := (s.decode (numbers bits.size) h).2)
          (bits.push (s.decode (numbers bits.size) h).1)
        rw [Array.size_push, ← hpush] at hnext
        rw [dif_pos h, dif_pos h', decode_complementSession h h']
        exact hnext
      · have h' : ¬numbers bits.size < (complementSession F s).contexts.size := by
          rw [complementSession, size_complementAt]
          exact h
        rw [dif_neg h, dif_neg h']
        rfl
    · rw [if_neg hgo, if_neg hgo]
      rfl

theorem decodeMany_complementSession (numbers : Nat → Nat) (n : Nat) :
    (complementSession F s).decodeMany numbers n =
      (s.decodeMany numbers n).map fun (bits, s) =>
        (complementBits F numbers bits, complementSession F s) :=
  decodeFrom_complementSession true n #[]

/-- **Colours have no meaning to the decoder.**  Take any data, any contexts, any positions `F`
among them and any run of decodes, and run it once more with the colours exchanged in the contexts
at `F`. Then bit by bit the second run gives the other colour where the context is at a position of
`F`, and the same colour elsewhere.  After each number of decodes both runs have the same registers,
the same position, and are both complete or both not; all contexts have come to the same row of the
table, and those in which the runs hold different colours are again those at `F`. -/
theorem decodeMany_complementAt (data : Array UInt8) (contexts : Array Context) (F : Finset Nat)
    (numbers : Nat → Nat) (n : Nat) (hnumbers : ∀ i < n, numbers i < contexts.size) :
    let start (contexts : Array Context) : Session Decoder := ⟨Decoder.init data, contexts, #[]⟩
    ∃ bits bits' : Array Bool, bits.size = n ∧ bits'.size = n ∧
      (∀ i < n, bits'[i]? = bits[i]?.map fun bit => if numbers i ∈ F then !bit else bit) ∧
      ∀ k ≤ n, ∃ s s', (start contexts).decodeMany numbers k = some (bits.extract 0 k, s) ∧
        (start (complementAt F contexts)).decodeMany numbers k = some (bits'.extract 0 k, s') ∧
        s'.source = s.source ∧ s'.source.position = s.source.position ∧
        s'.isComplete = s.isComplete ∧
        s.contexts.size = contexts.size ∧ s'.contexts.size = contexts.size ∧
        ∀ (i : Nat) (h : i < s.contexts.size) (h' : i < s'.contexts.size),
          s'.contexts[i].index = s.contexts[i].index ∧
            (s'.contexts[i].mps ≠ s.contexts[i].mps ↔ i ∈ F) := by
  intro start
  have hexists : ∀ k ≤ n, ∃ bits s, (start contexts).decodeMany numbers k = some (bits, s) ∧
      s.contexts.size = contexts.size := by
    intro k hk
    obtain ⟨bits, s, hrun, -, hsize, -⟩ := Session.decodeMany_induction (P := fun _ => True)
      (fun _ _ _ _ => trivial) (n := k) (s := start contexts)
      (fun i hi => hnumbers i (Nat.lt_of_lt_of_le hi hk)) trivial
    exact ⟨bits, s, hrun, hsize⟩
  obtain ⟨bits, t, hrun, -⟩ := hexists n (Nat.le_refl n)
  have hbits : bits.size = n := by
    obtain ⟨more, hmore, rfl⟩ := Session.exists_append_of_decodeFrom hrun
    simpa using hmore
  refine ⟨bits, complementBits F numbers bits, hbits, Array.size_mapIdx.trans hbits,
    fun i _ => Array.getElem?_mapIdx, fun k hk => ?_⟩
  obtain ⟨first, s, hs, hsize⟩ := hexists k hk
  obtain ⟨s₁, hs₁⟩ := Session.decodeMany_prefix hk hrun
  rw [hs] at hs₁
  cases hs₁
  have hs' : (start (complementAt F contexts)).decodeMany numbers k = some
      ((complementBits F numbers bits).extract 0 k, complementSession F s) := by
    have hmap := decodeMany_complementSession (F := F) (s := start contexts) numbers k
    rw [hs] at hmap
    rw [← complementBits_extract]
    exact hmap
  refine ⟨s, complementSession F s, hs, hs', rfl, rfl, rfl, hsize,
    (size_complementAt s.contexts).trans hsize, fun i h h' => ?_⟩
  have hget : (complementSession F s).contexts[i] =
      if i ∈ F then s.contexts[i].complement else s.contexts[i] := getElem_complementAt h h'
  rw [hget]
  by_cases hF : i ∈ F
  · simp [hF, Context.complement]
  · simp [hF]

/-- Three contexts, the first of which comes to hold the other colour on the way, exchanged in the
first and the last. -/
theorem decodeMany_complementAt_switch :
    let data : Array UInt8 := #[0x84, 0xff, 0x7f, 0x2e, 0xff, 0xac]
    let contexts : Array Context := #[{}, { index := 6, mps := true }, { index := 46 }]
    let F : Finset Nat := {0, 2}
    let numbers : Nat → Nat := fun i => i % 3
    let start (contexts : Array Context) : Session Decoder := ⟨Decoder.init data, contexts, #[]⟩
    (∀ i < 30, numbers i < contexts.size) ∧
    (((start contexts).decodeMany numbers 30).map fun run => run.2.contexts.map (·.mps)) =
      some #[true, true, false] ∧
    ∃ bits bits' : Array Bool, bits.size = 30 ∧ bits'.size = 30 ∧
      (∀ i < 30, bits'[i]? = bits[i]?.map fun bit => if numbers i ∈ F then !bit else bit) ∧
      ∀ k ≤ 30, ∃ s s', (start contexts).decodeMany numbers k = some (bits.extract 0 k, s) ∧
        (start (complementAt F contexts)).decodeMany numbers k = some (bits'.extract 0 k, s') ∧
        s'.source = s.source ∧ s'.source.position = s.source.position ∧
        s'.isComplete = s.isComplete ∧
        s.contexts.size = contexts.size ∧ s'.contexts.size = contexts.size ∧
        ∀ (i : Nat) (h : i < s.contexts.size) (h' : i < s'.contexts.size),
          s'.contexts[i].index = s.contexts[i].index ∧
            (s'.contexts[i].mps ≠ s.contexts[i].mps ↔ i ∈ F) := by
  intro data contexts F numbers start
  have hnumbers : ∀ i < 30, numbers i < contexts.size := fun i _ => Nat.mod_lt i (by decide)
  have hswitch : (((start contexts).decodeMany numbers 30).map fun run =>
      run.2.contexts.map (·.mps)) = some #[true, true, false] := by decide +kernel
  exact ⟨hnumbers, hswitch, decodeMany_complementAt data contexts F numbers 30 hnumbers⟩

end MQ

end Bilevel
