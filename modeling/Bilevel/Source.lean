import Bilevel.Failure

/-!
# Bit sources and what is decoded from them

A coder adapts to the pixels seen so far: for each neighbourhood it keeps a `Context`, the row of
its probability table it has come to and the colour it holds for the more probable one.  A new
context stands at row 0 and expects white.

What a decoder does with the bits can be told without saying where they come from: it asks for a
bit under a context number, goes on according to the answer, and in the end holds a result or
gives up.  A `Dialogue` is that tree of questions.  At each question it shows what has been made
so far, which is what remains if the bits run out there.

* `BitSource` — anything that answers bits one at a time, given a context that it may adapt.
* `Session` — a source together with the contexts it is asked under, and a record of which of them
  were used.  `Session.decodeMany`, `Session.decodeUntilComplete` — a run of bits;
  `Session.lend` — work done with only the first contexts at hand.
* `Script` — a source of bits known beforehand, whatever the contexts are.
* `Dialogue.bind` — one dialogue after another; `Dialogue.run` — the dialogue held with a session.
  A complete source is never asked.
* `Dialogue.run_bind` — running two dialogues in a row is running the first and then the second;
  `Dialogue.size_contexts_run` — a run adapts contexts and neither adds nor removes any.
-/

set_option autoImplicit false

namespace Bilevel

/-- The state of one context: a row of the probability table, and the more probable symbol. -/
structure Context where
  index : Nat := 0
  mps : Bool := false
  deriving DecidableEq, Repr, Inhabited

def Context.fresh (count : Nat) : Array Context := Array.replicate count {}

/-! ## Sources and sessions -/

/-- A source of bits. -/
class BitSource (σ : Type) where
  /-- The next bit under a context: the bit, the context after it and the source after it. -/
  decode : σ → Context → Bool × Context × σ
  isComplete : σ → Bool

/-- A source, the contexts it is used with and the context numbers asked for so far. -/
structure Session (σ : Type) where
  source : σ
  contexts : Array Context
  trace : Array Nat := #[]

namespace Session

variable {σ α : Type} [BitSource σ]

def isComplete (s : Session σ) : Bool := BitSource.isComplete s.source

/-- The next bit under the context with a given number. -/
def decode (s : Session σ) (number : Nat) (h : number < s.contexts.size) : Bool × Session σ :=
  let (bit, context, source) := BitSource.decode s.source s.contexts[number]
  (bit, ⟨source, s.contexts.set number context h, s.trace.push number⟩)

@[simp] theorem size_contexts_decode (s : Session σ) (number : Nat)
    (h : number < s.contexts.size) :
    (s.decode number h).2.contexts.size = s.contexts.size := Array.size_set h

/-- Up to `left` more bits, the next of which is bit `i`.  Bit `i` is decoded under the context with
number `numbers i`; `none` if that does not exist.  Unless `whole` is set, decoding stops before
the first bit for which the source is complete. -/
def decodeFrom (numbers : Nat → Nat) (whole : Bool) :
    (left i : Nat) → Array Bool → Session σ → Option (Array Bool × Session σ)
  | 0, _, bits, s => some (bits, s)
  | left + 1, i, bits, s =>
    if whole || !s.isComplete then
      if h : numbers i < s.contexts.size then
        let (bit, s) := s.decode (numbers i) h
        decodeFrom numbers whole left (i + 1) (bits.push bit) s
      else none
    else some (bits, s)

/-- A number of bits, whether the source is complete or not. -/
def decodeMany (numbers : Nat → Nat) (count : Nat) (s : Session σ) :
    Option (Array Bool × Session σ) :=
  s.decodeFrom numbers true count 0 #[]

/-- Bits until the source is complete, and at most a number of them. -/
def decodeUntilComplete (numbers : Nat → Nat) (limit : Nat) (s : Session σ) :
    Option (Array Bool × Session σ) :=
  s.decodeFrom numbers false limit 0 #[]

/-- Does some work with only the first `count` contexts at hand, and puts the others back behind
them. -/
def lend (count : Nat) (work : Session σ → α × Session σ) (s : Session σ) : α × Session σ :=
  let kept := s.contexts.extract count s.contexts.size
  let (result, after) := work { s with contexts := s.contexts.extract 0 count }
  (result, { after with contexts := after.contexts ++ kept })

end Session

/-! ## Scripted bits -/

/-- Bits known beforehand. -/
structure Script where
  rest : List Bool
  used : Nat := 0
  deriving DecidableEq, Repr

namespace Script

def take (s : Script) : Bool × Script :=
  match s.rest with
  | [] => (false, ⟨[], s.used + 1⟩)
  | bit :: rest => (bit, ⟨rest, s.used + 1⟩)

instance : BitSource Script where
  decode s context := (s.take.1, context, s.take.2)
  isComplete s := s.rest.isEmpty

end Script

/-! ## Dialogues -/

/-- A tree of questions with results of type `α`; `π` is what is held on the way. -/
inductive Dialogue (π α : Type) where
  | done (result : α)
  | fail (held : π) (reason : Failure)
  | ask (held : π) (number : Nat) (next : Bool → Dialogue π α)

namespace Dialogue

variable {π α β γ σ : Type}

def bind : Dialogue π α → (α → Dialogue π β) → Dialogue π β
  | done result, k => k result
  | fail held reason, _ => fail held reason
  | ask held number next, k => ask held number fun bit => (next bit).bind k

theorem bind_assoc (d : Dialogue π α) (k : α → Dialogue π β) (l : β → Dialogue π γ) :
    (d.bind k).bind l = d.bind fun result => (k result).bind l := by
  induction d with
  | done result => rfl
  | fail held reason => rfl
  | ask held number next ih => exact congrArg (ask held number) (funext ih)

variable [BitSource σ]

/-- Holds a dialogue with a session.  A question to a complete source ends it with
`unexpectedEnd`, and one about a context that does not exist with a fault; both leave the session
as it was. -/
def run : Dialogue π α → Session σ → Except (π × Failure) α × Session σ
  | done result, s => (.ok result, s)
  | fail held reason, s => (.error (held, reason), s)
  | ask held number next, s =>
    if s.isComplete then (.error (held, .unexpectedEnd), s)
    else if h : number < s.contexts.size then
      let (bit, s) := s.decode number h
      (next bit).run s
    else (.error (held, .fault .context), s)

theorem run_bind (d : Dialogue π α) (k : α → Dialogue π β) (s : Session σ) :
    (d.bind k).run s =
      match d.run s with
      | (.ok result, s) => (k result).run s
      | (.error stop, s) => (.error stop, s) := by
  induction d generalizing s with
  | done result => rfl
  | fail held reason => rfl
  | ask held number next ih =>
    simp only [bind, run]
    split
    · rfl
    · split
      · exact ih _ _
      · rfl

/-- No context is added or lost. -/
@[simp] theorem size_contexts_run (d : Dialogue π α) (s : Session σ) :
    (d.run s).2.contexts.size = s.contexts.size := by
  induction d generalizing s with
  | done result => rfl
  | fail held reason => rfl
  | ask held number next ih =>
    unfold run
    split
    · rfl
    · split
      · rw [ih, Session.size_contexts_decode]
      · rfl

end Dialogue

end Bilevel
