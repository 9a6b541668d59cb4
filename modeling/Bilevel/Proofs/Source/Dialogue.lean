import Bilevel.Proofs.Source.Session

/-!
# Comparing and bounding dialogues

* `Dialogue.forget` — the same questions and results without what is held on the way.  `run_forget`:
  a run shows no more than that, apart from what is held when it stops.
* `run_induction` — what every decode keeps is kept by a run.
* `Dialogue.Within n P` — no branch of the dialogue gives up, every question is about one of the
  first `n` contexts, and every result satisfies `P`.  Under enough contexts such a dialogue can
  only be stopped by the end of the bits (`Within.run`), and further contexts play no part in it
  (`Within.run_extend`).
* `Dialogue.Holds Q P` — everything held on the way is in `Q` and every result in `P`.
  `Holds.run`: so is what a run ends with.
* `Dialogue.Rel R` — two dialogues that ask the same questions, with results related by `R` after
  the same answers.  `Rel.run_ok`: if one of them comes to a result, so does the other.
* `Dialogue.Yields code a` — asked for exactly the context numbers in `code` and answered with the
  bits in it, the dialogue ends with `a`.  `Yields.run`: so it does with every session that answers
  in this way.  `Yields.bind` and `Yields.of_bind`: one dialogue after another.
-/

set_option autoImplicit false

namespace Bilevel.Dialogue

variable {π α β σ : Type}

@[simp] theorem bind_done_left (a : α) (k : α → Dialogue π β) : (done a).bind k = k a := rfl

@[simp] theorem bind_ask (held : π) (number : Nat) (next : Bool → Dialogue π α)
    (k : α → Dialogue π β) :
    (ask held number next).bind k = ask held number fun bit => (next bit).bind k := rfl

/-- The dialogue without what is held on the way. -/
def forget : Dialogue π α → Dialogue Unit α
  | done result => done result
  | fail _ reason => fail () reason
  | ask _ number next => ask () number fun bit => (next bit).forget

@[simp] theorem forget_ask (held : π) (number : Nat) (next : Bool → Dialogue π α) :
    (ask held number next).forget = ask () number fun bit => (next bit).forget := rfl

theorem forget_bind (d : Dialogue π α) (k : α → Dialogue π β) :
    (d.bind k).forget = d.forget.bind fun a => (k a).forget := by
  induction d with
  | done result => rfl
  | fail held reason => rfl
  | ask held number next ih => exact congrArg (ask () number) (funext ih)

/-! ## Dialogues that stay within some contexts -/

/-- No branch gives up, all questions are about the first `n` contexts, all results are in `P`. -/
def Within (n : Nat) (P : α → Prop) : Dialogue π α → Prop
  | done result => P result
  | fail _ _ => False
  | ask _ number next => number < n ∧ ∀ bit, (next bit).Within n P

theorem Within.bind {n : Nat} {P : α → Prop} {Q : β → Prop} {d : Dialogue π α}
    (h : d.Within n P) {k : α → Dialogue π β} (hk : ∀ a, P a → (k a).Within n Q) :
    (d.bind k).Within n Q := by
  induction d with
  | done result => exact hk result h
  | fail held reason => exact h.elim
  | ask held number next ih => exact ⟨h.1, fun bit => ih bit (h.2 bit)⟩

/-- Two continuations that forget alike on the results that a dialogue can have. -/
theorem Within.forget_bind_congr {n : Nat} {P : α → Prop} {d : Dialogue π α} (h : d.Within n P)
    {k l : α → Dialogue π β} (hkl : ∀ a, P a → (k a).forget = (l a).forget) :
    (d.bind k).forget = (d.bind l).forget := by
  induction d with
  | done result => exact hkl result h
  | fail held reason => exact h.elim
  | ask held number next ih =>
    exact congrArg (ask () number) (funext fun bit => ih bit (h.2 bit))

theorem Within.bind_congr {n : Nat} {P : α → Prop} {d : Dialogue π α} (h : d.Within n P)
    {k l : α → Dialogue π β} (hkl : ∀ a, P a → k a = l a) : d.bind k = d.bind l := by
  induction d with
  | done result => exact hkl result h
  | fail held reason => exact h.elim
  | ask held number next ih =>
    exact congrArg (ask held number) (funext fun bit => ih bit (h.2 bit))

theorem within_forget {n : Nat} {P : α → Prop} (d : Dialogue π α) :
    d.forget.Within n P ↔ d.Within n P := by
  induction d with
  | done result => exact Iff.rfl
  | fail held reason => exact Iff.rfl
  | ask held number next ih => exact and_congr_right fun _ => forall_congr' ih

/-! ## What is held on the way -/

/-- Everything that is held on the way is in `Q`, and all results are in `P`. -/
def Holds (Q : π → Prop) (P : α → Prop) : Dialogue π α → Prop
  | done result => P result
  | fail held _ => Q held
  | ask held _ next => Q held ∧ ∀ bit, (next bit).Holds Q P

section

variable {Q : π → Prop} {P : α → Prop} {d : Dialogue π α}

theorem Holds.bind {R : β → Prop} (h : d.Holds Q P) {k : α → Dialogue π β}
    (hk : ∀ a, P a → (k a).Holds Q R) : (d.bind k).Holds Q R := by
  induction d with
  | done result => exact hk result h
  | fail held reason => exact h
  | ask held number next ih => exact ⟨h.1, fun bit => ih bit (h.2 bit)⟩

theorem Holds.mono {Q' : π → Prop} {P' : α → Prop} (h : d.Holds Q P)
    (hQ : ∀ held, Q held → Q' held) (hP : ∀ a, P a → P' a) : d.Holds Q' P' := by
  induction d with
  | done result => exact hP result h
  | fail held reason => exact hQ held h
  | ask held number next ih => exact ⟨hQ held h.1, fun bit => ih bit (h.2 bit)⟩

end

/-! ## The same questions -/

/-- The same questions, and after the same answers results that are related. -/
def Rel {ρ : Type} (R : α → β → Prop) : Dialogue π α → Dialogue ρ β → Prop
  | done a, done b => R a b
  | fail _ reason, fail _ reason' => reason = reason'
  | ask _ number next, ask _ number' next' =>
    number = number' ∧ ∀ bit, (next bit).Rel R (next' bit)
  | _, _ => False

section

variable {ρ : Type} {R : α → β → Prop} {d : Dialogue π α} {e : Dialogue ρ β}

theorem Rel.bind {γ δ : Type} {S : γ → δ → Prop} (h : d.Rel R e) {k : α → Dialogue π γ}
    {l : β → Dialogue ρ δ} (hkl : ∀ a b, R a b → (k a).Rel S (l b)) :
    (d.bind k).Rel S (e.bind l) := by
  induction d generalizing e with
  | done a =>
    cases e with
    | done b => exact hkl a b h
    | fail held reason => exact h.elim
    | ask held number next => exact h.elim
  | fail held reason =>
    cases e with
    | done b => exact h.elim
    | fail held' reason' => exact h
    | ask held' number next => exact h.elim
  | ask held number next ih =>
    cases e with
    | done b => exact h.elim
    | fail held' reason => exact h.elim
    | ask held' number' next' => exact ⟨h.1, fun bit => ih bit (h.2 bit)⟩

/-- What is held plays no part in the questions and results. -/
theorem rel_forget : d.forget.Rel R e.forget ↔ d.Rel R e := by
  induction d generalizing e with
  | done a => cases e <;> exact Iff.rfl
  | fail held reason => cases e <;> exact Iff.rfl
  | ask held number next ih =>
    cases e with
    | done b => exact Iff.rfl
    | fail held' reason => exact Iff.rfl
    | ask held' number' next' => exact and_congr_right fun _ => forall_congr' fun bit => ih bit

end

/-! ## Runs -/

variable [BitSource σ]

@[simp] theorem run_done (a : α) (s : Session σ) :
    (done a : Dialogue π α).run s = (.ok a, s) := rfl

theorem run_ask_complete (held : π) (number : Nat) (next : Bool → Dialogue π α) {s : Session σ}
    (hs : s.isComplete = true) :
    (ask held number next).run s = (.error (held, .unexpectedEnd), s) := by
  rw [run, if_pos hs]

theorem run_ask (held : π) {number : Nat} (next : Bool → Dialogue π α) {s : Session σ}
    (hs : s.isComplete = false) (h : number < s.contexts.size) :
    (ask held number next).run s = (next (s.decode number h).1).run (s.decode number h).2 := by
  rw [run, if_neg (by rw [hs]; decide), dif_pos h]

theorem run_ask_missing (held : π) {number : Nat} (next : Bool → Dialogue π α) {s : Session σ}
    (hs : s.isComplete = false) (h : ¬number < s.contexts.size) :
    (ask held number next).run s = (.error (held, .fault .context), s) := by
  rw [run, if_neg (by rw [hs]; decide), dif_neg h]

theorem run_forget (d : Dialogue π α) (s : Session σ) :
    d.forget.run s = ((d.run s).1.mapError fun stop => ((), stop.2), (d.run s).2) := by
  induction d generalizing s with
  | done result => rfl
  | fail held reason => rfl
  | ask held number next ih =>
    rw [forget_ask, run, run]
    split
    · rfl
    · split
      · exact ih _ _
      · rfl

/-- What is kept by every decode from a source that is not complete is kept by a run. -/
theorem run_induction {P : Session σ → Prop} (hP : Session.Keeps P) (d : Dialogue π α)
    {s : Session σ} (hs : P s) : P (d.run s).2 := by
  induction d generalizing s with
  | done result => exact hs
  | fail held reason => exact hs
  | ask held number next ih =>
    cases hopen : s.isComplete with
    | true =>
      rw [run_ask_complete held number next hopen]
      exact hs
    | false =>
      by_cases h : number < s.contexts.size
      · rw [run_ask held next hopen h]
        exact ih _ (hP s number h hopen hs)
      · rw [run_ask_missing held next hopen h]
        exact hs

/-- A run under enough contexts ends with a result in `P` or at the end of the bits. -/
theorem Within.run {n : Nat} {P : α → Prop} {d : Dialogue π α} (h : d.Within n P)
    {s : Session σ} (hn : n ≤ s.contexts.size) :
    (∃ a s', P a ∧ d.run s = (.ok a, s')) ∨
      ∃ held s', d.run s = (.error (held, .unexpectedEnd), s') := by
  induction d generalizing s with
  | done result => exact .inl ⟨result, s, h, rfl⟩
  | fail held reason => exact h.elim
  | ask held number next ih =>
    have hlt : number < s.contexts.size := Nat.lt_of_lt_of_le h.1 hn
    cases hs : s.isComplete with
    | true => exact .inr ⟨held, s, run_ask_complete held number next hs⟩
    | false =>
      rw [run_ask held next hs hlt]
      exact ih _ (h.2 _) (by rw [Session.size_contexts_decode]; exact hn)

theorem Within.run_ok {n : Nat} {P : α → Prop} {d : Dialogue π α} (h : d.Within n P)
    {s s' : Session σ} (hn : n ≤ s.contexts.size) {a : α} (hrun : d.run s = (.ok a, s')) : P a := by
  rcases h.run hn with ⟨a', s'', ha, heq⟩ | ⟨held, s'', heq⟩
  · rw [hrun] at heq
    cases heq
    exact ha
  · rw [hrun] at heq
    cases heq

/-- What a run ends with is as the dialogue says, be it a result or what was held when it
stopped. -/
theorem Holds.run {Q : π → Prop} {P : α → Prop} {d : Dialogue π α} (h : d.Holds Q P)
    (s : Session σ) :
    (∃ a s', P a ∧ d.run s = (.ok a, s')) ∨
      ∃ held reason s', Q held ∧ d.run s = (.error (held, reason), s') := by
  induction d generalizing s with
  | done result => exact .inl ⟨result, s, h, rfl⟩
  | fail held reason => exact .inr ⟨held, reason, s, h, rfl⟩
  | ask held number next ih =>
    cases hs : s.isComplete with
    | true => exact .inr ⟨held, .unexpectedEnd, s, h.1, run_ask_complete held number next hs⟩
    | false =>
      by_cases hlt : number < s.contexts.size
      · rw [run_ask held next hs hlt]
        exact ih _ (h.2 _) _
      · exact .inr ⟨held, .fault .context, s, h.1, run_ask_missing held next hs hlt⟩

theorem Holds.run_ok {Q : π → Prop} {P : α → Prop} {d : Dialogue π α} (h : d.Holds Q P)
    {s s' : Session σ} {a : α} (hrun : d.run s = (.ok a, s')) : P a := by
  rcases h.run s with ⟨a', s'', ha, heq⟩ | ⟨held, reason, s'', -, heq⟩
  · rw [hrun] at heq
    cases heq
    exact ha
  · rw [hrun] at heq
    cases heq

theorem Holds.run_error {Q : π → Prop} {P : α → Prop} {d : Dialogue π α} (h : d.Holds Q P)
    {s s' : Session σ} {held : π} {reason : Failure}
    (hrun : d.run s = (.error (held, reason), s')) : Q held := by
  rcases h.run s with ⟨a, s'', -, heq⟩ | ⟨held', reason', s'', hheld, heq⟩
  · rw [hrun] at heq
    cases heq
  · rw [hrun] at heq
    cases heq
    exact hheld

/-- Where one of two related dialogues comes to a result, so does the other, with the same session
left over. -/
theorem Rel.run_ok {ρ : Type} {R : α → β → Prop} {d : Dialogue π α} {e : Dialogue ρ β}
    (h : d.Rel R e) {s s' : Session σ} {a : α} (hrun : d.run s = (.ok a, s')) :
    ∃ b, R a b ∧ e.run s = (.ok b, s') := by
  induction d generalizing e s with
  | done a' =>
    cases e with
    | done b =>
      cases hrun
      exact ⟨b, h, rfl⟩
    | fail held reason => exact h.elim
    | ask held number next => exact h.elim
  | fail held reason => cases hrun
  | ask held number next ih =>
    cases e with
    | done b => exact h.elim
    | fail held' reason => exact h.elim
    | ask held' number' next' =>
      obtain ⟨rfl, hnext⟩ := h
      cases hs : s.isComplete with
      | true =>
        rw [run_ask_complete held number next hs] at hrun
        cases hrun
      | false =>
        by_cases hlt : number < s.contexts.size
        · rw [run_ask held next hs hlt] at hrun
          rw [run_ask held' next' hs hlt]
          exact ih _ (hnext _) hrun
        · rw [run_ask_missing held next hs hlt] at hrun
          cases hrun

theorem Within.run_extend {n : Nat} {P : α → Prop} {d : Dialogue π α} (h : d.Within n P)
    {s : Session σ} (hn : n ≤ s.contexts.size) (kept : Array Context) :
    d.run (s.extend kept) = ((d.run s).1, (d.run s).2.extend kept) := by
  induction d generalizing s with
  | done result => rfl
  | fail held reason => exact h.elim
  | ask held number next ih =>
    have hlt : number < s.contexts.size := Nat.lt_of_lt_of_le h.1 hn
    have hlt' : number < (s.extend kept).contexts.size := by
      rw [Session.size_contexts_extend]
      omega
    have hext := Session.isComplete_extend s kept
    cases hs : s.isComplete with
    | true =>
      rw [run_ask_complete held number next hs, run_ask_complete held number next (hext.trans hs)]
    | false =>
      rw [run_ask held next hs hlt, run_ask held next (hext.trans hs) hlt',
        Session.decode_extend s kept hlt hlt']
      exact ih _ (h.2 _) (by rw [Session.size_contexts_decode]; exact hn)

/-! ## Dialogues with known answers -/

/-- The dialogue asks for exactly the context numbers of `code`, and answered with its bits it ends
with this result. -/
def Yields : Dialogue π α → List (Nat × Bool) → α → Prop
  | done result, [], a => result = a
  | ask _ number next, (number', bit) :: rest, a => number = number' ∧ (next bit).Yields rest a
  | _, _, _ => False

theorem Yields.bind {d : Dialogue π α} {k : α → Dialogue π β} {code code' : List (Nat × Bool)}
    {a : α} {b : β} (h : d.Yields code a) (hk : (k a).Yields code' b) :
    (d.bind k).Yields (code ++ code') b := by
  induction d generalizing code with
  | done result =>
    cases code with
    | nil =>
      cases h
      exact hk
    | cons question rest => exact h.elim
  | fail held reason => cases code <;> exact h.elim
  | ask held number next ih =>
    cases code with
    | nil => exact h.elim
    | cons question rest => exact ⟨h.1, ih question.2 h.2⟩

/-- What only makes a result of the result asks for nothing more. -/
theorem Yields.bind_done {d : Dialogue π α} {k : α → Dialogue π β} {code : List (Nat × Bool)}
    {a : α} {b : β} (h : d.Yields code a) (hk : k a = done b) : (d.bind k).Yields code b := by
  rw [← List.append_nil code]
  apply h.bind
  rw [hk]
  rfl

theorem yields_done {a b : α} {code : List (Nat × Bool)} :
    (done a : Dialogue π α).Yields code b ↔ code = [] ∧ a = b := by
  cases code with
  | nil => exact (and_iff_right rfl).symm
  | cons question rest => exact iff_of_false id nofun

theorem not_yields_fail {held : π} {reason : Failure} {code : List (Nat × Bool)} {a : α} :
    ¬(fail held reason).Yields code a := by
  cases code <;> exact id

theorem yields_ask {held : π} {number : Nat} {next : Bool → Dialogue π α}
    {code : List (Nat × Bool)} {a : α} :
    (ask held number next).Yields code a ↔
      ∃ bit rest, code = (number, bit) :: rest ∧ (next bit).Yields rest a := by
  constructor
  · intro h
    cases code with
    | nil => exact h.elim
    | cons question rest =>
      obtain ⟨number', bit⟩ := question
      obtain ⟨rfl, hnext⟩ := h
      exact ⟨bit, rest, rfl, hnext⟩
  · rintro ⟨bit, rest, rfl, hnext⟩
    exact ⟨rfl, hnext⟩

theorem Yields.of_bind {d : Dialogue π α} {k : α → Dialogue π β} {code : List (Nat × Bool)}
    {b : β} (h : (d.bind k).Yields code b) :
    ∃ first rest a, code = first ++ rest ∧ d.Yields first a ∧ (k a).Yields rest b := by
  induction d generalizing code with
  | done result => exact ⟨[], code, result, rfl, rfl, h⟩
  | fail held reason => exact absurd h not_yields_fail
  | ask held number next ih =>
    obtain ⟨bit, code, rfl, hnext⟩ := yields_ask.1 h
    obtain ⟨first, rest, a, rfl, hd, hk⟩ := ih bit hnext
    exact ⟨(number, bit) :: first, rest, a, rfl, ⟨rfl, hd⟩, hk⟩

theorem Within.of_yields {n : Nat} {P : α → Prop} {d : Dialogue π α} (h : d.Within n P)
    {code : List (Nat × Bool)} {a : α} (hyields : d.Yields code a) :
    P a ∧ ∀ question ∈ code, question.1 < n := by
  induction d generalizing code with
  | done result =>
    obtain ⟨rfl, rfl⟩ := yields_done.1 hyields
    exact ⟨h, nofun⟩
  | fail held reason => exact h.elim
  | ask held number next ih =>
    obtain ⟨bit, rest, rfl, hnext⟩ := yields_ask.1 hyields
    obtain ⟨ha, hrest⟩ := ih bit (h.2 bit) hnext
    exact ⟨ha, List.forall_mem_cons.2 ⟨h.1, hrest⟩⟩

theorem Holds.of_yields {Q : π → Prop} {P : α → Prop} {d : Dialogue π α} (h : d.Holds Q P)
    {code : List (Nat × Bool)} {a : α} (hyields : d.Yields code a) : P a := by
  induction d generalizing code with
  | done result =>
    obtain ⟨-, rfl⟩ := yields_done.1 hyields
    exact h
  | fail held reason => exact absurd hyields not_yields_fail
  | ask held number next ih =>
    obtain ⟨bit, rest, -, hnext⟩ := yields_ask.1 hyields
    exact ih bit (h.2 bit) hnext

theorem yields_forget (d : Dialogue π α) (code : List (Nat × Bool)) (a : α) :
    d.forget.Yields code a ↔ d.Yields code a := by
  induction d generalizing code with
  | done result => cases code <;> exact Iff.rfl
  | fail held reason => cases code <;> exact Iff.rfl
  | ask held number next ih =>
    cases code with
    | nil => exact Iff.rfl
    | cons question rest => exact and_congr_right fun _ => ih question.2 rest

/-- With a session that answers so, the dialogue ends with its result after just these questions. -/
theorem Yields.run {d : Dialogue π α} {code : List (Nat × Bool)} {a : α} (h : d.Yields code a)
    {s : Session σ} (hs : s.Answers code) :
    d.run s = (.ok a, s.after (code.map Prod.fst)) := by
  induction d generalizing code s with
  | done result =>
    cases code with
    | nil =>
      cases h
      rfl
    | cons question rest => exact h.elim
  | fail held reason => cases code <;> exact h.elim
  | ask held number next ih =>
    cases code with
    | nil => exact h.elim
    | cons question rest =>
      obtain ⟨number', bit⟩ := question
      obtain ⟨rfl, hnext⟩ := h
      obtain ⟨hopen, hlt, rfl, hrest⟩ := hs
      rw [run_ask held next hopen hlt, List.map_cons, Session.after, dif_pos hlt]
      exact ih _ hnext hrest

end Bilevel.Dialogue
