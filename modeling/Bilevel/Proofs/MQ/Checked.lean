import Bilevel.Proofs.MQ.Invariant
import Bilevel.Proofs.Source.Session

/-!
# A decoder that watches its arithmetic

The registers of a decoder are words and counts whose operations wrap or stop at zero where a result
does not fit.  Here every operation is made to fail instead, and so is every access outside the
table and every symbol that is no bit.  Failing is `none`.

* `sub?`, `less?`, `next?`, `raise?`, `flip?` — the operations that can fail.
* `takeByte?`, `shift?`, `renormalise?`, `init?`, `decode?` — the decoder made of them.  The loop
  that scales the interval up fails when it is not done after a number of rounds.
* `takeByte?_eq`, `shift?_eq`, `renormalise?_eq`, `decode?_eq` — on a sound decoder none of them
  fails, and their results are those of the decoder that does not watch.
* `decode_checked` — so it is at the start and after any number of symbols, whatever the data are.
* `Answers` — what the decoder answers to a list of questions known beforehand;
  `Sturdy.answers` — the same as the decoder that does not watch.
-/

set_option autoImplicit false

namespace Bilevel.MQ

namespace Checked

/-! ## Operations that can fail -/

def sub? (x y : UInt32) : Option UInt32 := if y ≤ x then some (x - y) else none

def less? (n k : Nat) : Option Nat := if k ≤ n then some (n - k) else none

/-- The next place, unless it is no 32-bit number. -/
def next? (i : Nat) : Option Nat := if i + 1 < 2 ^ 32 then some (i + 1) else none

/-- A word moved up, unless it loses a set bit. -/
def raise? (x : UInt32) (k : Nat) : Option UInt32 :=
  if x.toNat * 2 ^ k < 2 ^ 32 then some (x <<< UInt32.ofNat k) else none

def flip? (symbol : Nat) : Option Nat := if symbol ≤ 1 then some (1 - symbol) else none

theorem sub?_eq {x y : UInt32} (h : y.toNat ≤ x.toNat) : sub? x y = some (x - y) :=
  if_pos (UInt32.le_iff_toNat_le.2 h)

theorem less?_eq {n k : Nat} (h : k ≤ n) : less? n k = some (n - k) := if_pos h

theorem next?_eq {i : Nat} (h : i + 1 < 2 ^ 32) : next? i = some (i + 1) := if_pos h

theorem raise?_eq {x : UInt32} {k : Nat} (h : x.toNat * 2 ^ k < 2 ^ 32) :
    raise? x k = some (x <<< UInt32.ofNat k) := if_pos h

theorem flip?_toNat (symbol : Bool) : flip? symbol.toNat = some (!symbol).toNat := by
  cases symbol <;> rfl

/-- The state of a context with its symbol as a number. -/
structure Numbers where
  index : Nat
  mps : Nat
  deriving DecidableEq, Repr

def Numbers.of (cx : Context) : Numbers := ⟨cx.index, cx.mps.toNat⟩

def moreProbable (row : Row) (cx : Numbers) : Nat × Numbers := (cx.mps, ⟨row.nextMps, cx.mps⟩)

def lessProbable? (row : Row) (cx : Numbers) : Option (Nat × Numbers) := do
  let symbol ← flip? cx.mps
  let mps ← if row.switch then flip? cx.mps else some cx.mps
  some (symbol, ⟨row.nextLps, mps⟩)

theorem lessProbable?_eq (row : Row) (cx : Context) :
    lessProbable? row (.of cx) =
      some ((!cx.mps).toNat, .of (Decoder.afterLps row cx)) := by
  unfold lessProbable? Numbers.of Decoder.afterLps
  simp only [flip?_toNat]
  cases row.switch <;> rfl

def takeByte? (d : Decoder) : Option Decoder :=
  if d.byteAt d.pointer = 0xff then do
    let following ← next? d.pointer
    if d.byteAt following > 0x8f then some { d with count := 8, supply := d.supply.miss }
    else
      let pointer ← next? d.pointer
      some
        { d with
          pointer := pointer
          c := d.c + 0xfe00 - ((d.byteAt pointer).toUInt32 <<< (9 : UInt32))
          count := 7 }
  else do
    let pointer ← next? d.pointer
    some
      { d with
        pointer := pointer
        c := d.c + 0xff00 - ((d.byteAt pointer).toUInt32 <<< (8 : UInt32))
        count := 8 }

def shift? (d : Decoder) : Option Decoder := do
  let d ← if d.count = 0 then takeByte? d else some d
  let a ← raise? d.a 1
  let count ← less? d.count 1
  some { d with a := a, c := d.c <<< 1, count := count }

/-- Doubles the interval until its length has reached `0x8000`, in no more than a number of
rounds. -/
def renormalise? : (rounds : Nat) → Decoder → Option Decoder
  | 0, _ => none
  | rounds + 1, d => do
    let d ← shift? d
    if d.a &&& 0x8000 = 0 then renormalise? rounds d else some d

def init? (data : Array UInt8) : Option Decoder := do
  let d ← takeByte? (Decoder.first data)
  let count ← less? d.count 7
  some { d with c := d.c <<< 7, count := count }

def decode? (d : Decoder) (cx : Numbers) : Option (Nat × Numbers × Decoder) := do
  let row ← rows[cx.index]?
  let rest ← sub? d.a row.qe
  if d.c >>> 16 < rest then
    if rest &&& 0x8000 = 0 then
      let (symbol, cx) ←
        if rest < row.qe then lessProbable? row cx else some (moreProbable row cx)
      let d ← renormalise? 15 { d with a := rest }
      some (symbol, cx, d)
    else some (cx.mps, cx, { d with a := rest })
  else
    let part ← raise? rest 16
    let c ← sub? d.c part
    let (symbol, cx) ← if rest < row.qe then some (moreProbable row cx) else lessProbable? row cx
    let d ← renormalise? 15 { d with a := row.qe, c := c }
    some (symbol, cx, d)

/-! ## Nothing fails -/

variable {d : Decoder}

theorem takeByte?_eq (h : d.Placed) (hsize : d.data.size < 2 ^ 32 - 1) :
    takeByte? d = some d.takeByte := by
  have hpointer := h.pointer
  have hnext : next? d.pointer = some (d.pointer + 1) := next?_eq (by omega)
  unfold takeByte? Decoder.takeByte
  simp only [hnext, Option.bind_eq_bind, Option.bind_some]
  split
  · split <;> rfl
  · rfl

theorem shift?_eq (h : d.Placed) (hsize : d.data.size < 2 ^ 32 - 1) (hlow : d.a.toNat < 0x8000) :
    shift? d = some d.shift := by
  have hraise : raise? d.a 1 = some (d.a <<< 1) := raise?_eq (by omega)
  unfold shift? Decoder.shift
  by_cases hempty : d.count = 0
  · have hcount := le_count_takeByte d
    rw [if_pos hempty, takeByte?_eq h hsize]
    simp only [if_pos hempty, Option.bind_eq_bind, Option.bind_some, d.a_takeByte, hraise,
      less?_eq (show 1 ≤ d.takeByte.count by omega)]
  · rw [if_neg hempty]
    simp only [if_neg hempty, Option.bind_eq_bind, Option.bind_some, hraise,
      less?_eq (show 1 ≤ d.count by omega)]

/-- The loop is done after the number of rounds that is read off the length. -/
theorem renormalise?_of_shiftBy {n : Nat} (h : d.Placed) (hsize : d.data.size < 2 ^ 32 - 1)
    (hlow : 0x8000 ≤ d.a.toNat * 2 ^ (n + 1)) (hhigh : d.a.toNat * 2 ^ (n + 1) < 0x10000)
    {rounds : Nat} (hrounds : n < rounds) : renormalise? rounds d = some (d.shiftBy (n + 1)) := by
  induction n generalizing d rounds with
  | zero =>
    obtain ⟨rounds, rfl⟩ := Nat.exists_eq_succ_of_ne_zero (Nat.ne_of_gt hrounds)
    have ha := toNat_a_shift (d := d) (by omega)
    have hdone : ¬d.shift.a &&& 0x8000 = 0 := by
      intro hzero
      have hlt := (and_eq_zero_iff (by omega)).1 hzero
      omega
    rw [renormalise?, shift?_eq h hsize (by omega)]
    simp only [Option.bind_eq_bind, Option.bind_some, if_neg hdone]
    rfl
  | succ n ih =>
    obtain ⟨rounds, rfl⟩ := Nat.exists_eq_succ_of_ne_zero (Nat.ne_of_gt (Nat.zero_lt_of_lt hrounds))
    have hpow : d.a.toNat * 2 ^ (n + 1 + 1) = 2 * d.a.toNat * 2 ^ (n + 1) := by
      rw [Nat.pow_succ 2 (n + 1), Nat.mul_comm _ 2, ← Nat.mul_assoc, Nat.mul_comm _ 2]
    have hone : 2 * d.a.toNat * 2 ^ 1 ≤ 2 * d.a.toNat * 2 ^ (n + 1) :=
      Nat.mul_le_mul_left _ (Nat.pow_le_pow_right (by decide) (by omega))
    have ha := toNat_a_shift (d := d) (by omega)
    rw [renormalise?, shift?_eq h hsize (by omega)]
    simp only [Option.bind_eq_bind, Option.bind_some]
    rw [if_pos (and_eq_zero_of_lt (by omega))]
    rw [hpow, ← ha] at hlow hhigh
    exact ih h.shift (by rw [d.data_shift]; exact hsize) hlow hhigh (by omega)

/-- Scaling up takes at most fifteen rounds. -/
theorem renormalise?_eq (h : d.Placed) (hsize : d.data.size < 2 ^ 32 - 1) (hpos : 0 < d.a.toNat)
    (hlow : d.a.toNat < 0x8000) : renormalise? 15 d = some d.renormalise := by
  obtain ⟨hlog, hge, hlt⟩ := log2_bounds hpos hlow
  have hn : 15 - d.a.toNat.log2 = 14 - d.a.toNat.log2 + 1 := by omega
  rw [hn] at hge hlt
  unfold Decoder.renormalise
  rw [hn]
  exact renormalise?_of_shiftBy h hsize hge hlt (by omega)

theorem rows_getElem? {index : Nat} (h : index ≤ 46) : rows[index]? = some (Row.at index) := by
  have hlt : index < rows.size := by
    rw [rows_size]
    omega
  unfold Row.at
  rw [Array.getD_eq_getD_getElem?, Array.getElem?_eq_getElem hlt]
  rfl

theorem decode?_eq (h : d.Sound) (hsize : d.data.size < 2 ^ 32 - 1) {cx : Context}
    (hcx : cx.index ≤ 46) :
    decode? d (.of cx) =
      some ((d.decode cx).1.toNat, .of (d.decode cx).2.1, (d.decode cx).2.2) := by
  obtain ⟨hpos, hqe⟩ := Row.qe_bounds cx.index
  have hlow := h.low
  have hhigh := h.high
  have hrest := Decoder.toNat_rest h.low cx
  unfold decode? Decoder.decode
  simp only [show (Numbers.of cx).index = cx.index from rfl, rows_getElem? hcx,
    Option.bind_eq_bind, Option.bind_some, sub?_eq (show (Row.at cx.index).qe.toNat ≤ d.a.toNat by
      omega)]
  generalize hrow : Row.at cx.index = row at *
  by_cases hupper : d.c >>> 16 < d.a - row.qe
  · rw [if_pos hupper, if_pos hupper]
    by_cases hshort : d.a - row.qe &&& 0x8000 = 0
    · have hshort' := (and_eq_zero_iff (by omega)).1 hshort
      have hplaced : Decoder.Placed { d with a := d.a - row.qe } := ⟨h.count, h.pointer⟩
      rw [if_pos hshort, if_pos hshort]
      simp only [renormalise?_eq hplaced hsize (show 0 < (d.a - row.qe).toNat by omega) hshort',
        Option.bind_some]
      by_cases hless : d.a - row.qe < row.qe
      · simp only [if_pos hless, lessProbable?_eq, Option.bind_some]
      · simp only [if_neg hless]
        rfl
    · rw [if_neg hshort, if_neg hshort]
      rfl
  · -- the branch taken is what makes room for the difference, whatever `c` has become
    have hroom : (d.a - row.qe).toNat * 2 ^ 16 ≤ d.c.toNat := by
      rw [UInt32.lt_iff_toNat_lt, UInt32.toNat_shiftRight, Nat.shiftRight_eq_div_pow] at hupper
      exact (Nat.le_div_iff_mul_le (by decide)).1 (Nat.le_of_not_lt hupper)
    have hfit : (d.a - row.qe).toNat * 2 ^ 16 < 2 ^ 32 := by omega
    have hpart : ((d.a - row.qe) <<< (16 : UInt32)).toNat = (d.a - row.qe).toNat * 2 ^ 16 :=
      toNat_shiftLeft_of_lt (k := 16) (by decide) hfit
    have hraise : raise? (d.a - row.qe) 16 = some ((d.a - row.qe) <<< 16) := raise?_eq hfit
    have hplaced : Decoder.Placed
        { d with a := row.qe, c := d.c - (d.a - row.qe) <<< 16 } := ⟨h.count, h.pointer⟩
    rw [if_neg hupper, if_neg hupper]
    simp only [hraise, sub?_eq (show ((d.a - row.qe) <<< 16).toNat ≤ d.c.toNat by omega),
      renormalise?_eq hplaced hsize hpos (show row.qe.toNat < 0x8000 by omega), Option.bind_some]
    by_cases hless : d.a - row.qe < row.qe
    · simp only [if_pos hless]
      rfl
    · simp only [if_neg hless, lessProbable?_eq, Option.bind_some]

theorem init?_eq {data : Array UInt8} (hsize : data.size < 2 ^ 32 - 1) :
    init? data = some (Decoder.init data) := by
  have hfirst : (Decoder.first data).Placed := ⟨Nat.zero_le 8, Nat.zero_le _⟩
  have hcount := le_count_takeByte (Decoder.first data)
  unfold init?
  rw [takeByte?_eq hfirst hsize]
  simp only [Option.bind_eq_bind, Option.bind_some, less?_eq hcount]
  rfl

/-! ## Runs -/

/-- What a session keeps: a sound decoder on its data, and contexts in the table. -/
structure Sturdy (data : Array UInt8) (s : Session Decoder) : Prop where
  data : s.source.data = data
  sound : s.source.Sound
  contexts : InTable s.contexts

theorem Sturdy.init (data : Array UInt8) (count : Nat) :
    Sturdy data ⟨Decoder.init data, Context.fresh count, #[]⟩ :=
  ⟨Decoder.data_init data, .init data, inTable_fresh count⟩

theorem Sturdy.decode {data : Array UInt8} {s : Session Decoder} (h : Sturdy data s) {number : Nat}
    (hn : number < s.contexts.size) : Sturdy data (s.decode number hn).2 := by
  refine ⟨(s.source.data_decode _).trans h.data, h.sound.decode _, ?_⟩
  intro cx hmem
  rw [Session.contexts_decode] at hmem
  rcases Array.mem_or_eq_of_mem_set hmem with hold | rfl
  · exact h.contexts cx hold
  · exact index_decode _ (h.contexts _ (Array.getElem_mem hn))

/-- **No arithmetic fault.**  On data of fewer than `2 ^ 32 - 1` bytes, whatever they are, the
decoder that watches its arithmetic starts as the one that does not.  After any number of symbols
under contexts that were new, the interval is in range, at most eight bits are left, the pointer is
inside the data or just behind them and the contexts point into the table; and the next symbol,
whatever its context, is decoded without a fault, in at most fifteen rounds of scaling up, and as by
the decoder that does not watch. -/
theorem decode_checked (data : Array UInt8) (hsize : data.size < 2 ^ 32 - 1) (count : Nat)
    (numbers : Nat → Nat) (n : Nat) (hnumbers : ∀ i < n, numbers i < count) :
    init? data = some (Decoder.init data) ∧
    ∃ bits s,
      (⟨Decoder.init data, Context.fresh count, #[]⟩ : Session Decoder).decodeMany numbers n =
        some (bits, s) ∧
      0x8000 ≤ s.source.a.toNat ∧ s.source.a.toNat ≤ 0xffff ∧ s.source.count ≤ 8 ∧
      s.source.data = data ∧ s.source.pointer ≤ data.size ∧
      (∀ cx ∈ s.contexts, cx.index ≤ 46 ∧ cx.mps.toNat ≤ 1) ∧
      ∀ (number : Nat) (h : number < s.contexts.size),
        decode? s.source (.of s.contexts[number]) =
          some ((s.source.decode s.contexts[number]).1.toNat,
            .of (s.source.decode s.contexts[number]).2.1,
            (s.source.decode s.contexts[number]).2.2) := by
  have hcount : (Context.fresh count).size = count := Array.size_replicate
  have hstart : Sturdy data ⟨Decoder.init data, Context.fresh count, #[]⟩ := .init data count
  obtain ⟨bits, s, hrun, hs, -, -⟩ :=
    Session.decodeMany_induction (fun s number hn h => h.decode hn)
      (fun i hi => by rw [hcount]; exact hnumbers i hi) hstart
  have hpointer := hs.sound.pointer
  rw [hs.data] at hpointer
  refine ⟨init?_eq hsize, bits, s, hrun, hs.sound.low, hs.sound.high, hs.sound.count, hs.data,
    hpointer, ?_, ?_⟩
  · intro cx hmem
    exact ⟨hs.contexts cx hmem, Bool.toNat_le cx.mps⟩
  · intro number h
    exact decode?_eq hs.sound (by rw [hs.data]; exact hsize)
      (hs.contexts _ (Array.getElem_mem h))

/-- Data with a stuffed byte of `0x8f`, then a marker, decoded beyond their end. -/
theorem decode_checked_stuffed :
    let data : Array UInt8 := #[0xff, 0x8f, 0x00, 0xff, 0x80, 0xff, 0xac]
    let numbers : Nat → Nat := fun i => i % 3
    (data.size < 2 ^ 32 - 1 ∧ ∀ i < 500, numbers i < 3) ∧
    init? data = some (Decoder.init data) ∧
    ∃ bits s,
      (⟨Decoder.init data, Context.fresh 3, #[]⟩ : Session Decoder).decodeMany numbers 500 =
        some (bits, s) ∧
      0x8000 ≤ s.source.a.toNat ∧ s.source.a.toNat ≤ 0xffff ∧ s.source.count ≤ 8 ∧
      s.source.data = data ∧ s.source.pointer ≤ data.size ∧
      (∀ cx ∈ s.contexts, cx.index ≤ 46 ∧ cx.mps.toNat ≤ 1) ∧
      ∀ (number : Nat) (h : number < s.contexts.size),
        decode? s.source (.of s.contexts[number]) =
          some ((s.source.decode s.contexts[number]).1.toNat,
            .of (s.source.decode s.contexts[number]).2.1,
            (s.source.decode s.contexts[number]).2.2) := by
  intro data numbers
  have hsize : data.size < 2 ^ 32 - 1 := by decide
  have hnumbers : ∀ i < 500, numbers i < 3 := fun i _ => Nat.mod_lt i (by decide)
  exact ⟨⟨hsize, hnumbers⟩, decode_checked data hsize 3 numbers 500 hnumbers⟩

/-! ## Questions known beforehand -/

/-- Asked for these context numbers in order, the decoder that watches gives these bits without a
fault, and it is not complete before any of them. -/
def Answers : Decoder → Array Numbers → List (Nat × Bool) → Prop
  | _, _, [] => True
  | d, contexts, (number, bit) :: rest =>
    d.isComplete = false ∧ ∃ (h : number < contexts.size) (cx : Numbers) (d' : Decoder),
      decode? d contexts[number] = some (bit.toNat, cx, d') ∧
        Answers d' (contexts.set number cx h) rest

theorem Sturdy.answers {data : Array UInt8} (hsize : data.size < 2 ^ 32 - 1)
    {code : List (Nat × Bool)} {s : Session Decoder} (h : Sturdy data s) (hs : s.Answers code) :
    Answers s.source (s.contexts.map .of) code := by
  induction code generalizing s with
  | nil => exact trivial
  | cons question rest ih =>
    obtain ⟨number, bit⟩ := question
    obtain ⟨hcomplete, hn, rfl, hrest⟩ := hs
    have hnext := ih (h.decode hn) hrest
    have hdecode := decode?_eq h.sound (by rw [h.data]; exact hsize)
      (h.contexts _ (Array.getElem_mem hn))
    rw [Session.contexts_decode, Array.map_set] at hnext
    refine ⟨hcomplete, by rw [Array.size_map]; exact hn, _, _, ?_, hnext⟩
    rw [Array.getElem_map]
    exact hdecode

end Checked

end Bilevel.MQ
