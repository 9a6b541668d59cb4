import Bilevel.Proofs.Source.Session

/-!
# Contexts that are not asked for

A decode reads and adapts the one context that it is asked under.

* `Session.Asked` — the context numbers that have been asked for between two sessions, with no other
  context changed; `keeps_asked`: so it is with every number of decodes.
* `Session.Agree n` — sessions that differ in nothing but contexts behind the first `n`;
  `Agree.exists_extend`: they are one session with different contexts behind it.
* `Session.SameWork n` — two pieces of work that ask for the same of the first `n` contexts, do the
  same to them, come to the same result and leave all other contexts alone.
* `Local.sameWork` — work that uses only the first `n` contexts is such on sessions that agree.
-/

set_option autoImplicit false

namespace Bilevel.Session

variable {σ α : Type} {s s' t : Session σ} {n : Nat} {numbers : List Nat}

/-- From the one session to the other just these context numbers have been asked for, in this
order. -/
structure Asked (s s' : Session σ) (numbers : List Nat) : Prop where
  trace : s'.trace = s.trace ++ numbers.toArray
  size : s'.contexts.size = s.contexts.size
  lt : ∀ i ∈ numbers, i < s.contexts.size
  others : ∀ i, i ∉ numbers → s'.contexts[i]? = s.contexts[i]?

theorem Asked.refl (s : Session σ) : s.Asked s [] :=
  ⟨Array.append_empty.symm, rfl, nofun, fun _ _ => rfl⟩

theorem Asked.decode [BitSource σ] (h : s.Asked s' numbers) {number : Nat}
    (hn : number < s'.contexts.size) : s.Asked (s'.decode number hn).2 (numbers ++ [number]) := by
  refine ⟨?_, ?_, ?_, ?_⟩
  · rw [trace_decode, h.trace]
    simp
  · rw [size_contexts_decode, h.size]
  · intro i hi
    rcases List.mem_append.1 hi with hi | hi
    · exact h.lt i hi
    · rw [List.mem_singleton.1 hi, ← h.size]
      exact hn
  · intro i hi
    obtain ⟨hold, hnew⟩ := not_or.1 (mt List.mem_append.2 hi)
    have hne : number ≠ i := by
      rintro rfl
      exact hnew (List.mem_singleton_self _)
    rw [contexts_decode, Array.getElem?_set_ne hn hne]
    exact h.others i hold

/-- Whatever is decoded, some context numbers have been asked for and no other context changed. -/
theorem keeps_asked [BitSource σ] (s : Session σ) :
    Keeps fun s' : Session σ => ∃ numbers, s.Asked s' numbers := by
  rintro s' number hn - ⟨numbers, h⟩
  exact ⟨numbers ++ [number], h.decode hn⟩

theorem Asked.extend (h : s.Asked s' numbers) (kept : Array Context) :
    (s.extend kept).Asked (s'.extend kept) numbers := by
  refine ⟨h.trace, ?_, fun i hi => ?_, fun i hi => ?_⟩
  · rw [size_contexts_extend, size_contexts_extend, h.size]
  · have hlt := h.lt i hi
    rw [size_contexts_extend]
    omega
  · have hold := h.others i hi
    unfold Session.extend
    simp only [Array.getElem?_append, h.size, hold]

/-- The two sessions differ in nothing but contexts behind the first `n`. -/
structure Agree (n : Nat) (s t : Session σ) : Prop where
  source : s.source = t.source
  trace : s.trace = t.trace
  left : n ≤ s.contexts.size
  right : n ≤ t.contexts.size
  first : ∀ i < n, s.contexts[i]? = t.contexts[i]?

theorem agree_extend (s : Session σ) (kept kept' : Array Context) :
    Agree s.contexts.size (s.extend kept) (s.extend kept') := by
  refine ⟨rfl, rfl, ?_, ?_, fun i hi => ?_⟩
  · rw [size_contexts_extend]
    omega
  · rw [size_contexts_extend]
    omega
  · unfold extend
    rw [Array.getElem?_append_left hi, Array.getElem?_append_left hi]

/-- Sessions that agree are one session with different contexts behind it. -/
theorem Agree.exists_extend (h : Agree n s t) :
    ∃ (first : Session σ) (kept kept' : Array Context),
      first.contexts.size = n ∧ s = first.extend kept ∧ t = first.extend kept' := by
  have hleft := h.left
  have hfirst : s.contexts.extract 0 n = t.contexts.extract 0 n := by
    refine Array.ext_getElem? fun i => ?_
    rw [Array.getElem?_extract, Array.getElem?_extract]
    by_cases hi : i < n
    · rw [if_pos (by omega), if_pos (by have := h.right; omega), Nat.zero_add]
      exact h.first i hi
    · rw [if_neg (by omega), if_neg (by omega)]
  have ht := extend_extract t h.right
  rw [← hfirst, ← h.source, ← h.trace] at ht
  refine ⟨_, _, _, ?_, (extend_extract s hleft).symm, ht.symm⟩
  rw [Array.size_extract]
  omega

/-- Two pieces of work, begun with two sessions that need not have the same contexts, and done with
the first `n` of them in the same way: the results are the same, the same context numbers have been
asked for, and no other context has changed. -/
structure SameWork (n : Nat) (s t : Session σ) (out out' : α × Session σ) : Prop where
  result : out.1 = out'.1
  agree : Agree n out.2 out'.2
  asked : ∃ numbers : List Nat, (∀ i ∈ numbers, i < n) ∧ s.Asked out.2 numbers ∧
    t.Asked out'.2 numbers
  beyond : ∀ i, n ≤ i → out.2.contexts[i]? = s.contexts[i]? ∧ out'.2.contexts[i]? = t.contexts[i]?

/-- Work that uses only the first `n` contexts is the same on sessions that agree. -/
theorem Local.sameWork {work : Session σ → α × Session σ} (hlocal : Local n work)
    (hasked : ∀ s : Session σ, ∃ numbers, s.Asked (work s).2 numbers) (h : Agree n s t) :
    SameWork n s t (work s) (work t) := by
  obtain ⟨first, kept, kept', rfl, rfl, rfl⟩ := h.exists_extend
  rw [hlocal first kept (Nat.le_refl _), hlocal first kept' (Nat.le_refl _)]
  obtain ⟨numbers, hfirst⟩ := hasked first
  have hagree := agree_extend (work first).2 kept kept'
  rw [hfirst.size] at hagree
  refine ⟨rfl, hagree, ⟨numbers, hfirst.lt, hfirst.extend kept, hfirst.extend kept'⟩, ?_⟩
  intro i hi
  have hnot : i ∉ numbers := fun hmem => Nat.not_lt.2 hi (hfirst.lt i hmem)
  exact ⟨(hfirst.extend kept).others i hnot, (hfirst.extend kept').others i hnot⟩

end Bilevel.Session
