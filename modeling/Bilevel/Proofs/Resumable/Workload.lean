import Bilevel.Proofs.MQ.Exhaustion
import Bilevel.Proofs.Resumable.Calls

/-!
# Many regions from one source

Regions may be decoded one after another, in one go or in steps and in any interleaving, all from
one source.

* `decode_induction`, `start_induction`, `resume_induction` — what every decode of a bit keeps is
  kept by every call.
* `Task` — one call with the contexts that it brings; `runAll` — calls one after another.
* `runs_dry` — an arithmetic decoder is complete after a number of decodes that is known from the
  size of its data, and calls that use it make no more decodes than that.
-/

set_option autoImplicit false

namespace Bilevel

/-! ## What every call keeps -/

section

variable {σ : Type} [BitSource σ] {P : Session σ → Prop} {s : Session σ}

theorem Region.decode_induction (hP : Session.Keeps P) (r : Region) (pixelwise : Bool)
    (hs : P s) : P (r.decode pixelwise s).2 := by
  unfold Region.decode
  split
  · split
    · exact hs
    · split
      · exact hs
      · rename_i bitmap _
        have hrun := Dialogue.run_induction hP
          (r.decodeRows (r.plan pixelwise).strategy r.height ⟨bitmap, 0, false⟩) hs
        split
        · rename_i heq
          rw [heq] at hrun
          exact hrun
        · rename_i heq
          rw [heq] at hrun
          exact hrun
  · exact hs

namespace Resumable

theorem step_induction (hP : Session.Keeps P) (d : Resumable) (p : Indicator)
    (hs : P s) : P (d.step p s).2.2 := by
  unfold step
  split
  · exact advance_induction hP _ _ _ _ p hs
  · exact hs

theorem start_induction (hP : Session.Keeps P) (d : Resumable) (p : Indicator)
    (hs : P s) : P (d.start p s).2.2 := by
  unfold start
  split
  · split
    · exact hs
    · split
      · exact hs
      · exact step_induction hP _ p hs
  · exact hs

theorem resume_induction (hP : Session.Keeps P) (d : Resumable) (p : Indicator)
    (hs : P s) : P (d.resume p s).2.2 := by
  unfold resume
  split
  · split
    · split
      · exact hs
      · exact step_induction hP d p hs
    · exact hs
  · exact hs

end Resumable

end

/-! ## Calls one after another -/

/-- A call that may decode bits, with the contexts that it brings. -/
inductive Task where
  | decode (r : Region) (pixelwise : Bool) (contexts : Array Context)
  | start (d : Resumable) (p : Indicator) (contexts : Array Context)
  | resume (d : Resumable) (p : Indicator) (contexts : Array Context)

section

variable {σ : Type} [BitSource σ]

def Task.run (s : Session σ) : Task → Session σ
  | .decode r pixelwise contexts => (r.decode pixelwise { s with contexts := contexts }).2
  | .start d p contexts => (d.start p { s with contexts := contexts }).2.2
  | .resume d p contexts => (d.resume p { s with contexts := contexts }).2.2

def runAll (s : Session σ) (tasks : List Task) : Session σ := tasks.foldl Task.run s

/-- What decodes of bits keep whatever the contexts are is kept by calls. -/
theorem runAll_induction {P : Session σ → Prop} (hP : Session.Keeps P)
    (hcontexts : ∀ (s : Session σ) (contexts : Array Context), P s →
      P { s with contexts := contexts })
    {s : Session σ} (tasks : List Task) (hs : P s) : P (runAll s tasks) := by
  induction tasks generalizing s with
  | nil => exact hs
  | cons task tasks ih =>
    refine ih (s := task.run s) ?_
    cases task with
    | decode r pixelwise contexts =>
      exact r.decode_induction hP pixelwise (hcontexts s contexts hs)
    | start d p contexts => exact d.start_induction hP p (hcontexts s contexts hs)
    | resume d p contexts => exact d.resume_induction hP p (hcontexts s contexts hs)

theorem runAll_append (s : Session σ) (tasks later : List Task) :
    runAll s (tasks ++ later) = runAll (runAll s tasks) later :=
  List.foldl_append

/-- From a source that is complete no call decodes anything. -/
theorem runAll_complete {s : Session σ} (hs : s.isComplete = true) (tasks : List Task) :
    (runAll s tasks).source = s.source ∧ (runAll s tasks).trace = s.trace := by
  refine runAll_induction (P := fun s' => s'.source = s.source ∧ s'.trace = s.trace) ?_ ?_ tasks
    ⟨rfl, rfl⟩
  · rintro s' number h hopen ⟨hsource, -⟩
    unfold Session.isComplete at hs hopen
    rw [hsource, hs] at hopen
    cases hopen
  · exact fun s' contexts h => h

end

namespace MQ

variable {bound : Nat} {s : Session Decoder}

/-- Calls make no more decodes than the work allows, and as many only if they complete the
decoder. -/
theorem Budgeted.runAll (h : Budgeted bound s) (htrace : s.trace.size ≤ bound)
    (tasks : List Task) :
    Budgeted bound (runAll s tasks) ∧ (runAll s tasks).trace.size ≤ bound := by
  refine runAll_induction (P := fun s => Budgeted bound s ∧ s.trace.size ≤ bound) ?_ ?_ tasks
    ⟨h, htrace⟩
  · rintro s number hn hopen ⟨hs, -⟩
    have hlt := hs.trace_lt hopen
    refine ⟨hs.decode hn, ?_⟩
    rw [Session.trace_decode, Array.size_push]
    exact hlt
  · rintro s contexts ⟨hs, hsize⟩
    exact ⟨⟨hs.sound, hs.work⟩, hsize⟩

/-- **Every decoder runs dry.**  Asked again and again under contexts that were new, a decoder is
complete from some decode on, and that comes after no more than `2 ^ 15` decodes for each of ten
bits and eight more for each byte of its data.  Calls that decode from it one after another,
whatever they decode and whatever contexts they bring, together make no more decodes than that; and
once it is complete, no later call decodes anything, and wherever one more bit is wanted the answer
is that the bits are at their end. -/
theorem runs_dry (data : Array UInt8) (count : Nat) (numbers : Nat → Nat)
    (hnumbers : ∀ i, numbers i < count) :
    let start : Session Decoder := ⟨Decoder.init data, Context.fresh count, #[]⟩
    let bound := 2 ^ 15 * (8 * data.size + 10)
    (∃ m ≤ bound, ∀ n, ∃ bits s, start.decodeMany numbers n = some (bits, s) ∧
      (s.isComplete = true ↔ m ≤ n)) ∧
    ∀ tasks : List Task,
      (runAll start tasks).trace.size ≤ bound ∧
      ((runAll start tasks).trace.size = bound → (runAll start tasks).isComplete = true) ∧
      ((runAll start tasks).isComplete = true → ∀ (later : List Task) (contexts : Array Context),
        let s : Session Decoder := { runAll start (tasks ++ later) with contexts := contexts }
        s.isComplete = true ∧ s.trace = (runAll start tasks).trace ∧
        ∀ (π α : Type) (held : π) (number : Nat) (next : Bool → Dialogue π α),
          (Dialogue.ask held number next).run s = (.error (held, .unexpectedEnd), s)) := by
  intro start bound
  have hcount : start.contexts.size = count := Array.size_replicate
  have hstart : Budgeted bound start := .init data (Context.fresh count)
  refine ⟨hstart.exists_complete_from rfl (fun i => by rw [hcount]; exact hnumbers i), ?_⟩
  intro tasks
  obtain ⟨hall, htrace⟩ := hstart.runAll (Nat.zero_le bound) tasks
  refine ⟨htrace, ?_, ?_⟩
  · intro hfull
    rw [← Bool.not_eq_false]
    intro hopen
    have hlt := hall.trace_lt hopen
    omega
  · intro hcomplete later contexts s
    obtain ⟨hsource, hsame⟩ := runAll_complete hcomplete later
    rw [← runAll_append] at hsource hsame
    have hs : s.isComplete = true := by
      unfold Session.isComplete at hcomplete ⊢
      rw [← hcomplete]
      exact congrArg BitSource.isComplete hsource
    exact ⟨hs, hsame, fun π α held number next => Dialogue.run_ask_complete held number next hs⟩

/-- Two contexts in turn, on data of three bytes. -/
theorem runs_dry_alternating :
    let data : Array UInt8 := #[0x00, 0xff, 0x7f]
    let numbers : Nat → Nat := fun i => i % 2
    let start : Session Decoder := ⟨Decoder.init data, Context.fresh 2, #[]⟩
    let bound := 2 ^ 15 * (8 * data.size + 10)
    (∀ i, numbers i < 2) ∧
    (∃ m ≤ bound, ∀ n, ∃ bits s, start.decodeMany numbers n = some (bits, s) ∧
      (s.isComplete = true ↔ m ≤ n)) ∧
    ∀ tasks : List Task,
      (runAll start tasks).trace.size ≤ bound ∧
      ((runAll start tasks).trace.size = bound → (runAll start tasks).isComplete = true) ∧
      ((runAll start tasks).isComplete = true → ∀ (later : List Task) (contexts : Array Context),
        let s : Session Decoder := { runAll start (tasks ++ later) with contexts := contexts }
        s.isComplete = true ∧ s.trace = (runAll start tasks).trace ∧
        ∀ (π α : Type) (held : π) (number : Nat) (next : Bool → Dialogue π α),
          (Dialogue.ask held number next).run s = (.error (held, .unexpectedEnd), s)) := by
  intro data numbers
  have hnumbers : ∀ i, numbers i < 2 := fun i => Nat.mod_lt i (by decide)
  exact ⟨hnumbers, runs_dry data 2 numbers hnumbers⟩

end MQ

end Bilevel
