import Bilevel.Proofs.Source.Dialogue

/-!
# What has been asked and answered when a run ends

A run goes down one branch of its dialogue, led by the answers of the source.  A script answers its
bits in order whatever it is asked, so how far a dialogue comes with it depends on these bits alone.

* `Yields.run_script` — given the bits that lead to a result, and any others behind them, a dialogue
  uses just those.
* `Yields.run_script_short` — given only the first of them it uses all and stops at the end.
* `Within.run_script_cases` — any bits either begin with some that lead to a result, or are all
  used.
* `Dialogue.Wants code number` — asked for the context numbers in `code` and answered with the bits
  in it, the dialogue wants one more bit, under context `number`.  `Wants.run`: if the source is
  complete by then, the run stops there.
* `Within.run_transcript` — under enough contexts a run asks until it has its result, or until it
  wants a bit of a source that is complete, and before that it asks no complete source.
* `Within.exists_yields`, `Wants.exists_yields` — any answers lead to a result, and answers that
  leave a bit to be wanted lead to one with at least one more bit.
-/

set_option autoImplicit false

namespace Bilevel.Dialogue

variable {π α : Type} {d : Dialogue π α} {n : Nat} {P : α → Prop} {a : α}
  {code : List (Nat × Bool)} {contexts : Array Context}

/-- A script takes no notice of the contexts, and does not adapt them. -/
theorem run_ask_script (held : π) {number : Nat} (next : Bool → Dialogue π α) (bit : Bool)
    (rest : List Bool) (used : Nat) (trace : Array Nat) (h : number < contexts.size) :
    (ask held number next).run (⟨⟨bit :: rest, used⟩, contexts, trace⟩ : Session Script) =
      (next bit).run ⟨⟨rest, used + 1⟩, contexts, trace.push number⟩ := by
  have hset : contexts.set number contexts[number] h = contexts := Array.set_getElem_self h
  rw [run_ask held next rfl h]
  show (next bit).run (⟨⟨rest, used + 1⟩, contexts.set number contexts[number] h, _⟩ :
    Session Script) = _
  rw [hset]

/-! ## Whole runs -/

theorem Yields.run_script (h : d.Yields code a)
    (hcode : ∀ question ∈ code, question.1 < contexts.size) (more : List Bool) (used : Nat)
    (trace : Array Nat) :
    d.run (⟨⟨code.map Prod.snd ++ more, used⟩, contexts, trace⟩ : Session Script) =
      (.ok a, ⟨⟨more, used + code.length⟩, contexts, trace ++ (code.map Prod.fst).toArray⟩) := by
  induction d generalizing code used trace with
  | done result =>
    obtain ⟨rfl, rfl⟩ := yields_done.1 h
    simp
  | fail held reason => exact absurd h not_yields_fail
  | ask held number next ih =>
    obtain ⟨bit, rest, rfl, hnext⟩ := yields_ask.1 h
    obtain ⟨hlt, hrest⟩ := List.forall_mem_cons.1 hcode
    rw [List.map_cons, List.cons_append, run_ask_script held next bit _ used trace hlt,
      ih bit hnext hrest]
    simp [Nat.add_assoc, Nat.add_comm 1]

theorem Yields.run_script_short (h : d.Yields code a)
    (hcode : ∀ question ∈ code, question.1 < contexts.size) {bits missing : List Bool}
    (hbits : code.map Prod.snd = bits ++ missing) (hmissing : missing ≠ []) (used : Nat)
    (trace : Array Nat) :
    ∃ held trace', d.run (⟨⟨bits, used⟩, contexts, trace⟩ : Session Script) =
      (.error (held, .unexpectedEnd), ⟨⟨[], used + bits.length⟩, contexts, trace'⟩) := by
  induction d generalizing code bits used trace with
  | done result =>
    obtain ⟨rfl, -⟩ := yields_done.1 h
    obtain ⟨-, rfl⟩ := List.append_eq_nil_iff.1 hbits.symm
    exact absurd rfl hmissing
  | fail held reason => exact absurd h not_yields_fail
  | ask held number next ih =>
    obtain ⟨bit, rest, rfl, hnext⟩ := yields_ask.1 h
    obtain ⟨hlt, hrest⟩ := List.forall_mem_cons.1 hcode
    cases bits with
    | nil => exact ⟨held, trace, run_ask_complete held number next rfl⟩
    | cons bit' bits =>
      obtain ⟨rfl, htail⟩ := List.cons.inj hbits
      obtain ⟨held', trace', hrun⟩ := ih bit hnext hrest htail (used + 1) (trace.push number)
      refine ⟨held', trace', ?_⟩
      rw [run_ask_script held next bit bits used trace hlt, hrun, List.length_cons,
        Nat.add_assoc, Nat.add_comm 1]

/-- Any bits begin with some that lead to a result, or are all used without one. -/
theorem Within.run_script_cases (h : d.Within n P)
    (hn : n ≤ contexts.size) (bits : List Bool) (used : Nat) (trace : Array Nat) :
    (∃ code a more, d.Yields code a ∧ bits = code.map Prod.snd ++ more) ∨
      ∃ held trace', d.run (⟨⟨bits, used⟩, contexts, trace⟩ : Session Script) =
        (.error (held, .unexpectedEnd), ⟨⟨[], used + bits.length⟩, contexts, trace'⟩) := by
  induction d generalizing bits used trace with
  | done result => exact .inl ⟨[], result, bits, rfl, rfl⟩
  | fail held reason => exact h.elim
  | ask held number next ih =>
    cases bits with
    | nil => exact .inr ⟨held, trace, run_ask_complete held number next rfl⟩
    | cons bit bits =>
      rcases ih bit (h.2 bit) bits (used + 1) (trace.push number) with
        ⟨code, a, more, hyields, rfl⟩ | ⟨held', trace', hrun⟩
      · exact .inl ⟨(number, bit) :: code, a, more, ⟨rfl, hyields⟩, rfl⟩
      · refine .inr ⟨held', trace', ?_⟩
        rw [run_ask_script held next bit bits used trace (Nat.lt_of_lt_of_le h.1 hn), hrun,
          List.length_cons, Nat.add_assoc, Nat.add_comm 1]

/-! ## Wanting a bit -/

/-- After the context numbers of `code` have been asked for and answered with its bits, the dialogue
asks for a bit under this context number. -/
def Wants : Dialogue π α → List (Nat × Bool) → Nat → Prop
  | ask _ number _, [], wanted => number = wanted
  | ask _ number next, (number', bit) :: rest, wanted =>
    number = number' ∧ (next bit).Wants rest wanted
  | _, _, _ => False

theorem not_wants_done {number : Nat} :
    ¬(done a : Dialogue π α).Wants code number := by
  cases code <;> exact id

theorem wants_forget (d : Dialogue π α) (code : List (Nat × Bool)) (number : Nat) :
    d.forget.Wants code number ↔ d.Wants code number := by
  induction d generalizing code with
  | done a => cases code <;> exact Iff.rfl
  | fail held reason => cases code <;> exact Iff.rfl
  | ask held number' next ih =>
    cases code with
    | nil => exact Iff.rfl
    | cons question rest => exact and_congr_right fun _ => ih question.2 rest

/-! ## How a run ends -/

section

variable {σ : Type} [BitSource σ] {s : Session σ}

theorem Wants.run {number : Nat} (h : d.Wants code number)
    (hs : s.Answers code) (hcomplete : (s.after (code.map Prod.fst)).isComplete = true) :
    ∃ held, d.run s = (.error (held, .unexpectedEnd), s.after (code.map Prod.fst)) := by
  induction d generalizing code s with
  | done a => exact absurd h not_wants_done
  | fail held reason => cases code <;> exact h.elim
  | ask held number' next ih =>
    cases code with
    | nil => exact ⟨held, run_ask_complete held number' next hcomplete⟩
    | cons question rest =>
      obtain ⟨number'', bit⟩ := question
      obtain ⟨rfl, hnext⟩ := h
      obtain ⟨hopen, hlt, rfl, hrest⟩ := hs
      rw [List.map_cons, Session.after, dif_pos hlt] at hcomplete ⊢
      rw [run_ask held next hopen hlt]
      exact ih _ hnext hrest hcomplete

/-- Under enough contexts a run ends in one of two ways.  All it has asked by then has been asked of
a source that was not complete. -/
theorem Within.run_transcript (h : d.Within n P) (hn : n ≤ s.contexts.size) :
    ∃ code, s.Answers code ∧ (d.run s).2 = s.after (code.map Prod.fst) ∧
      ((∃ a, d.Yields code a ∧ (d.run s).1 = .ok a) ∨
        ∃ held number, d.Wants code number ∧ (d.run s).2.isComplete = true ∧
          (d.run s).1 = .error (held, .unexpectedEnd)) := by
  induction d generalizing s with
  | done a => exact ⟨[], trivial, rfl, .inl ⟨a, rfl, rfl⟩⟩
  | fail held reason => exact h.elim
  | ask held number next ih =>
    cases hs : s.isComplete with
    | true =>
      rw [run_ask_complete held number next hs]
      exact ⟨[], trivial, rfl, .inr ⟨held, number, rfl, hs, rfl⟩⟩
    | false =>
      have hlt : number < s.contexts.size := Nat.lt_of_lt_of_le h.1 hn
      have hsize := Session.size_contexts_decode s number hlt
      rw [run_ask held next hs hlt]
      obtain ⟨code, hanswers, hafter, hend⟩ :=
        ih (s.decode number hlt).1 (h.2 _) (s := (s.decode number hlt).2) (by rw [hsize]; exact hn)
      refine ⟨(number, (s.decode number hlt).1) :: code, ⟨hs, hlt, rfl, hanswers⟩, ?_, ?_⟩
      · rw [hafter, List.map_cons, Session.after, dif_pos hlt]
      · rcases hend with ⟨a, hyields, hok⟩ | ⟨held', number', hwants, hcomplete, herror⟩
        · exact .inl ⟨a, ⟨rfl, hyields⟩, hok⟩
        · exact .inr ⟨held', number', ⟨rfl, hwants⟩, hcomplete, herror⟩

end

/-- Whatever is answered, and zeros behind it, leads to a result. -/
theorem Within.exists_yields (h : d.Within n P) (answers : List Bool) :
    ∃ code a zeros, d.Yields code a ∧
      code.map Prod.snd <+: answers ++ List.replicate zeros false := by
  induction d generalizing answers with
  | done a => exact ⟨[], a, 0, rfl, List.nil_prefix⟩
  | fail held reason => exact h.elim
  | ask held number next ih =>
    cases answers with
    | nil =>
      obtain ⟨code, a, zeros, hyields, hbits⟩ := ih false (h.2 _) []
      refine ⟨(number, false) :: code, a, zeros + 1, ⟨rfl, hyields⟩, ?_⟩
      exact List.cons_prefix_cons.2 ⟨rfl, hbits⟩
    | cons bit answers =>
      obtain ⟨code, a, zeros, hyields, hbits⟩ := ih bit (h.2 _) answers
      refine ⟨(number, bit) :: code, a, zeros, ⟨rfl, hyields⟩, ?_⟩
      exact List.cons_prefix_cons.2 ⟨rfl, hbits⟩

/-- A dialogue that wants a bit comes to a result with that bit and whatever is answered then. -/
theorem Wants.exists_yields {number : Nat} (hwants : d.Wants code number)
    (h : d.Within n P) (answers : List Bool) :
    ∃ rest a zeros, rest ≠ [] ∧ d.Yields (code ++ rest) a ∧
      rest.map Prod.snd <+: answers ++ List.replicate zeros false := by
  induction d generalizing code with
  | done a => exact absurd hwants not_wants_done
  | fail held reason => exact h.elim
  | ask held number' next ih =>
    cases code with
    | nil =>
      obtain ⟨rest, a, zeros, hyields, hbits⟩ := h.exists_yields answers
      refine ⟨rest, a, zeros, ?_, hyields, hbits⟩
      rintro rfl
      exact hyields
    | cons question code =>
      obtain ⟨number'', bit⟩ := question
      obtain ⟨rfl, hnext⟩ := hwants
      obtain ⟨rest, a, zeros, hrest, hyields, hbits⟩ := ih bit hnext (h.2 bit)
      exact ⟨rest, a, zeros, hrest, ⟨rfl, hyields⟩, hbits⟩

end Bilevel.Dialogue
