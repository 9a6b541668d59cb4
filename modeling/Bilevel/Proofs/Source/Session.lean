import Bilevel.Source

/-!
# Sessions under contexts that are not used

A piece of work that only ever uses the first contexts of a session does the same with those alone.

* `Session.extend` — a session with further contexts behind its own.
* `Session.Local` — work that goes on in the same way when contexts are added behind the first `n`.
* `lend_eq_of_local` — lending the first contexts to such work, or lending all to any work, is
  doing the work.
* `Session.Answers`, `Session.after` — what a session answers to a list of questions known
  beforehand, and how it stands afterwards; `trace_after` says that these are all it was asked.
* `Session.Keeps` — a property of sessions that every decode keeps.
* `decodeMany_induction`, `decodeFrom_add`, `decodeMany_induction_from` — runs of a given length, by
  what every decode keeps, in two parts, and from a point on.
* `decodeMany_prefix` — what a run decodes first is what a shorter one decodes.
-/

set_option autoImplicit false

namespace Bilevel.Session

variable {σ α : Type}

/-! ## Further contexts -/

/-- The same session with further contexts behind its own. -/
def extend (s : Session σ) (kept : Array Context) : Session σ :=
  { s with contexts := s.contexts ++ kept }

@[simp] theorem size_contexts_extend (s : Session σ) (kept : Array Context) :
    (s.extend kept).contexts.size = s.contexts.size + kept.size := Array.size_append

/-- A session is one with its first contexts, and with the others behind them. -/
theorem extend_extract (s : Session σ) {n : Nat} (h : n ≤ s.contexts.size) :
    extend { s with contexts := s.contexts.extract 0 n } (s.contexts.extract n s.contexts.size) =
      s := by
  unfold extend
  rw [Array.extract_append_extract, Nat.zero_min, Nat.max_eq_right h, Array.extract_size]

/-- Work that uses only the first `n` contexts: further ones change nothing and are not changed. -/
def Local (n : Nat) (work : Session σ → α × Session σ) : Prop :=
  ∀ (s : Session σ) (kept : Array Context), n ≤ s.contexts.size →
    work (s.extend kept) = ((work s).1, (work s).2.extend kept)

theorem lend_whole (work : Session σ → α × Session σ) (s : Session σ) {count : Nat}
    (h : s.contexts.size ≤ count) : s.lend count work = work s := by
  unfold lend
  simp only
  rw [Array.extract_eq_self_of_le h, Array.extract_empty_of_size_le_start h]
  simp

/-- Work that uses only the first `n` contexts may be lent no more than those. -/
theorem lend_eq_of_local {n : Nat} {work : Session σ → α × Session σ} (hw : Local n work)
    (s : Session σ) {count : Nat} (h : s.contexts.size ≤ count ∨ n ≤ count) :
    s.lend count work = work s := by
  by_cases hc : s.contexts.size ≤ count
  · exact lend_whole work s hc
  · have hcount : n ≤ count := by omega
    have hsize : n ≤ (s.contexts.extract 0 count).size := by
      rw [Array.size_extract]
      omega
    have hwork := hw { s with contexts := s.contexts.extract 0 count }
      (s.contexts.extract count s.contexts.size) hsize
    rw [extend_extract s (by omega)] at hwork
    exact hwork.symm

/-! ## Questions known beforehand -/

variable [BitSource σ]

@[simp] theorem isComplete_extend (s : Session σ) (kept : Array Context) :
    (s.extend kept).isComplete = s.isComplete := rfl

theorem decode_extend (s : Session σ) (kept : Array Context) {number : Nat}
    (h : number < s.contexts.size) (h' : number < (s.extend kept).contexts.size) :
    (s.extend kept).decode number h' =
      ((s.decode number h).1, (s.decode number h).2.extend kept) := by
  have hget : (s.extend kept).contexts[number] = s.contexts[number] := Array.getElem_append_left h
  unfold decode
  simp only [hget]
  unfold extend
  simp only [Array.set_append_left h]

/-- Asked for these context numbers in order, the session answers these bits and is not complete
before any of them. -/
def Answers (s : Session σ) : List (Nat × Bool) → Prop
  | [] => True
  | (number, bit) :: rest =>
    s.isComplete = false ∧ ∃ h : number < s.contexts.size,
      (s.decode number h).1 = bit ∧ (s.decode number h).2.Answers rest

def after (s : Session σ) : List Nat → Session σ
  | [] => s
  | number :: rest =>
    if h : number < s.contexts.size then (s.decode number h).2.after rest else s.after rest

theorem trace_after {s : Session σ} {code : List (Nat × Bool)} (h : s.Answers code) :
    (s.after (code.map Prod.fst)).trace = s.trace ++ (code.map Prod.fst).toArray := by
  induction code generalizing s with
  | nil => simp [after]
  | cons question rest ih =>
    obtain ⟨number, bit⟩ := question
    obtain ⟨-, hn, -, hrest⟩ := h
    rw [List.map_cons, after, dif_pos hn, ih hrest]
    simp [decode]

/-- Every decode from a source that is not complete keeps `P`. -/
def Keeps (P : Session σ → Prop) : Prop :=
  ∀ (s : Session σ) (number : Nat) (h : number < s.contexts.size),
    s.isComplete = false → P s → P (s.decode number h).2

/-! ## Runs of a given length -/

@[simp] theorem trace_decode (s : Session σ) (number : Nat) (h : number < s.contexts.size) :
    (s.decode number h).2.trace = s.trace.push number := rfl

theorem contexts_decode (s : Session σ) (number : Nat) (h : number < s.contexts.size) :
    (s.decode number h).2.contexts =
      s.contexts.set number (BitSource.decode s.source s.contexts[number]).2.1 h := rfl

theorem decodeFrom_succ (numbers : Nat → Nat) (left i : Nat) (bits : Array Bool) {s : Session σ}
    (h : numbers i < s.contexts.size) :
    s.decodeFrom numbers true (left + 1) i bits =
      (s.decode (numbers i) h).2.decodeFrom numbers true left (i + 1)
        (bits.push (s.decode (numbers i) h).1) := by
  rw [decodeFrom, Bool.true_or, if_pos rfl, dif_pos h]

/-- A run under contexts that there are comes to its end, and keeps what every decode keeps. -/
theorem decodeFrom_induction {P : Session σ → Prop}
    (hstep : ∀ (s : Session σ) (number : Nat) (h : number < s.contexts.size), P s →
      P (s.decode number h).2)
    {numbers : Nat → Nat} {left i : Nat} (bits : Array Bool) {s : Session σ}
    (hnumbers : ∀ j < left, numbers (i + j) < s.contexts.size) (hs : P s) :
    ∃ bits' s', s.decodeFrom numbers true left i bits = some (bits', s') ∧ P s' ∧
      s'.contexts.size = s.contexts.size ∧ s'.trace.size = s.trace.size + left := by
  induction left generalizing i bits s with
  | zero => exact ⟨bits, s, rfl, hs, rfl, rfl⟩
  | succ left ih =>
    have h : numbers i < s.contexts.size := hnumbers 0 (Nat.zero_lt_succ _)
    have hsize := size_contexts_decode s (numbers i) h
    have hnumbers' : ∀ j < left,
        numbers (i + 1 + j) < (s.decode (numbers i) h).2.contexts.size := by
      intro j hj
      rw [hsize, Nat.add_right_comm]
      exact hnumbers (j + 1) (Nat.succ_lt_succ hj)
    obtain ⟨bits', s', hrun, hs', hsize', htrace⟩ :=
      ih (bits.push (s.decode (numbers i) h).1) hnumbers' (hstep s (numbers i) h hs)
    rw [trace_decode, Array.size_push] at htrace
    refine ⟨bits', s', ?_, hs', hsize'.trans hsize, by omega⟩
    rw [decodeFrom_succ numbers left i bits h]
    exact hrun

theorem decodeMany_induction {P : Session σ → Prop}
    (hstep : ∀ (s : Session σ) (number : Nat) (h : number < s.contexts.size), P s →
      P (s.decode number h).2)
    {numbers : Nat → Nat} {n : Nat} {s : Session σ}
    (hnumbers : ∀ i < n, numbers i < s.contexts.size) (hs : P s) :
    ∃ bits s', s.decodeMany numbers n = some (bits, s') ∧ P s' ∧
      s'.contexts.size = s.contexts.size ∧ s'.trace.size = s.trace.size + n := by
  refine decodeFrom_induction hstep #[] ?_ hs
  intro j hj
  rw [Nat.zero_add]
  exact hnumbers j hj

/-- A run in two parts. -/
theorem decodeFrom_add (numbers : Nat → Nat) (m n i : Nat) (bits : Array Bool) (s : Session σ) :
    s.decodeFrom numbers true (m + n) i bits =
      (s.decodeFrom numbers true m i bits).bind fun (bits', s') =>
        s'.decodeFrom numbers true n (i + m) bits' := by
  induction m generalizing i bits s with
  | zero =>
    rw [Nat.zero_add]
    rfl
  | succ m ih =>
    rw [Nat.add_right_comm m 1 n, decodeFrom, decodeFrom, Bool.true_or, if_pos rfl, if_pos rfl]
    by_cases h : numbers i < s.contexts.size
    · rw [dif_pos h, dif_pos h, show i + (m + 1) = i + 1 + m by omega]
      exact ih _ _ _
    · rw [dif_neg h, dif_neg h]
      rfl

/-- A run that comes to its end puts one bit for each decode behind those that there were. -/
theorem exists_append_of_decodeFrom {numbers : Nat → Nat} {left i : Nat} {bits bits' : Array Bool}
    {s s' : Session σ} (h : s.decodeFrom numbers true left i bits = some (bits', s')) :
    ∃ more, more.size = left ∧ bits' = bits ++ more := by
  induction left generalizing i bits s with
  | zero =>
    cases h
    exact ⟨#[], rfl, Array.append_empty.symm⟩
  | succ left ih =>
    by_cases hn : numbers i < s.contexts.size
    · rw [decodeFrom_succ numbers left i bits hn] at h
      obtain ⟨more, hsize, rfl⟩ := ih h
      refine ⟨#[(s.decode (numbers i) hn).1] ++ more, ?_, ?_⟩
      · rw [Array.size_append, hsize]
        exact Nat.add_comm 1 left
      · rw [Array.push_eq_append, Array.append_assoc]
    · rw [decodeFrom, Bool.true_or, if_pos rfl, dif_neg hn] at h
      cases h

/-- A run begins with the bits of any shorter one. -/
theorem decodeMany_prefix {numbers : Nat → Nat} {k n : Nat} (hk : k ≤ n) {bits : Array Bool}
    {s t : Session σ} (h : s.decodeMany numbers n = some (bits, t)) :
    ∃ s', s.decodeMany numbers k = some (bits.extract 0 k, s') := by
  obtain ⟨m, rfl⟩ := Nat.exists_eq_add_of_le hk
  unfold decodeMany at h ⊢
  rw [decodeFrom_add] at h
  obtain ⟨⟨start, s'⟩, hstart, hrest⟩ := Option.bind_eq_some_iff.1 h
  obtain ⟨more, hmore, rfl⟩ := exists_append_of_decodeFrom hrest
  obtain ⟨all, hall, rfl⟩ := exists_append_of_decodeFrom hstart
  refine ⟨s', ?_⟩
  rw [hstart, Array.empty_append, ← hall, Array.extract_append_left]
  simp

/-- What every decode keeps is kept from any point of a run to its end. -/
theorem decodeMany_induction_from {P : Session σ → Prop}
    (hstep : ∀ (s : Session σ) (number : Nat) (h : number < s.contexts.size), P s →
      P (s.decode number h).2)
    {numbers : Nat → Nat} {m n : Nat} (hm : m ≤ n) {s s' : Session σ} {bits' : Array Bool}
    (hnumbers : ∀ i < n, numbers i < s.contexts.size)
    (hrun : s.decodeMany numbers m = some (bits', s'))
    (hsize : s'.contexts.size = s.contexts.size) (hs' : P s') :
    ∃ bits t, s.decodeMany numbers n = some (bits, t) ∧ P t := by
  obtain ⟨k, rfl⟩ := Nat.exists_eq_add_of_le hm
  have hnumbers' : ∀ j < k, numbers (0 + m + j) < s'.contexts.size := by
    intro j hj
    rw [hsize]
    exact hnumbers _ (by omega)
  obtain ⟨bits, t, hrest, ht, -, -⟩ := decodeFrom_induction hstep bits' hnumbers' hs'
  refine ⟨bits, t, ?_, ht⟩
  unfold decodeMany at hrun ⊢
  rw [decodeFrom_add, hrun]
  exact hrest

end Bilevel.Session
