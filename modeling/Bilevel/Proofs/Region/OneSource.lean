import Bilevel.Proofs.Region.BitCount

/-!
# Regions one after another on one source

A region uses just the bits that it takes, so the next one begins where it ends.

* `Job` — a region and how it is decoded; `runJobs` — jobs one after another.
* `Piece` — a job with bits of its own; `Piece.run_append` — on longer bits it leaves the others.
* `runJobs_pieces` — jobs whose bits are put together each do what they do alone.
* `decode_takes_bitsTaken` — how many bits a region takes, that it looks at no others, and that
  regions follow one another on one source.
-/

set_option autoImplicit false

namespace Bilevel.Region

/-- A region and how it is decoded. -/
structure Job where
  region : Region
  pixelwise : Bool
  contexts : Array Context

section

variable {σ : Type} [BitSource σ]

def Job.run (job : Job) (s : Session σ) : Except Failure Bitmap × Session σ :=
  job.region.decode job.pixelwise { s with contexts := job.contexts }

/-- Does jobs one after another, each with the source that the one before has left. -/
def runJobs : List Job → Session σ → List (Except Failure Bitmap) × Session σ
  | [], s => ([], s)
  | job :: jobs, s =>
    let (result, s) := job.run s
    let (results, s) := runJobs jobs s
    (result :: results, s)

end

/-- A job with bits of its own and the bitmap that is made of them. -/
structure Piece extends Job where
  bits : List Bool
  bitmap : Bitmap

namespace Piece

variable {piece : Piece} {s : Session Script} {more : List Bool}

/-- Alone on its bits the job gives the bitmap and uses all of them. -/
def Complete (piece : Piece) : Prop :=
  let out := piece.toJob.run (⟨⟨piece.bits, 0⟩, #[], #[]⟩ : Session Script)
  out.1 = .ok piece.bitmap ∧ out.2.source.rest = []

theorem Complete.of_invalid (h : piece.Complete)
    (hsize : ¬Bitmap.ValidSize piece.region.width piece.region.height) :
    piece.bitmap = Bitmap.withoutStorage piece.region.width piece.region.height ∧
      piece.bits = [] := by
  unfold Complete Job.run at h
  rw [decode_invalid hsize] at h
  obtain ⟨hok, hrest⟩ := h
  constructor
  · exact (Except.ok.inj hok).symm
  · exact hrest

/-- A valid size takes the bits of a code. -/
theorem Complete.decodesTo (h : piece.Complete)
    (hsize : Bitmap.ValidSize piece.region.width piece.region.height) :
    piece.region.adaptivePixels.length = piece.region.template.adaptiveCount ∧
      piece.region.template.contextCount ≤ piece.contexts.size ∧
      ∃ code, piece.region.DecodesTo code piece.bitmap ∧ piece.bits = code.map Prod.snd := by
  obtain ⟨hok, hrest⟩ := h
  unfold Job.run at hok hrest
  cases hcheck : piece.region.check piece.contexts.size with
  | error reason =>
    rw [decode_refused hsize hcheck] at hok
    cases hok
  | ok u =>
    obtain ⟨hcount, hcontexts⟩ := check_eq_ok.1 hcheck
    refine ⟨hcount, hcontexts, ?_⟩
    rcases decode_script_cases hsize hcount piece.pixelwise hcontexts
        (s := ⟨⟨piece.bits, 0⟩, piece.contexts, #[]⟩) with
      ⟨code, b, more, hcode, hbits⟩ | ⟨trace, herror⟩
    · rw [hcode.decode hsize hcount piece.pixelwise hcontexts hbits] at hok hrest
      cases hok
      have hmore : more = [] := hrest
      rw [hmore, List.append_nil] at hbits
      exact ⟨code, hcode, hbits⟩
    · rw [herror] at hok
      cases hok

/-- Bits behind those of the job make no difference to it. -/
theorem Complete.run_append (h : piece.Complete) (hbits : s.source.rest = piece.bits ++ more) :
    ∃ trace, piece.toJob.run s =
      (.ok piece.bitmap,
        ⟨⟨more, s.source.used + piece.bits.length⟩, piece.contexts, trace⟩) := by
  obtain ⟨⟨bits, used⟩, contexts, trace⟩ := s
  by_cases hsize : Bitmap.ValidSize piece.region.width piece.region.height
  · obtain ⟨hcount, hcontexts, code, hcode, hpiece⟩ := h.decodesTo hsize
    rw [hpiece] at hbits ⊢
    refine ⟨trace ++ (code.map Prod.fst).toArray, ?_⟩
    rw [List.length_map]
    exact hcode.decode hsize hcount piece.pixelwise (s := ⟨⟨bits, used⟩, piece.contexts, trace⟩)
      hcontexts hbits
  · obtain ⟨hbitmap, hnone⟩ := h.of_invalid hsize
    rw [hnone, List.nil_append] at hbits
    obtain rfl : bits = more := hbits
    refine ⟨trace, ?_⟩
    unfold Job.run
    rw [decode_invalid hsize, hbitmap, hnone]
    rfl

end Piece

theorem runJobs_pieces (pieces : List Piece) (h : ∀ piece ∈ pieces, piece.Complete)
    {s : Session Script} {more : List Bool}
    (hbits : s.source.rest = pieces.flatMap Piece.bits ++ more) :
    let out := runJobs (pieces.map Piece.toJob) s
    out.1 = (pieces.map fun piece => .ok piece.bitmap) ∧
      out.2.source = ⟨more, s.source.used + (pieces.flatMap Piece.bits).length⟩ := by
  induction pieces generalizing s with
  | nil =>
    obtain ⟨⟨bits, used⟩, contexts, trace⟩ := s
    obtain rfl : bits = more := hbits
    exact ⟨rfl, rfl⟩
  | cons piece pieces ih =>
    obtain ⟨hpiece, hpieces⟩ := List.forall_mem_cons.1 h
    rw [List.flatMap_cons, List.append_assoc] at hbits
    obtain ⟨trace, hrun⟩ := hpiece.run_append hbits
    obtain ⟨hresults, hsource⟩ := ih hpieces (s := ⟨⟨_, _⟩, piece.contexts, trace⟩) rfl
    simp only [List.map_cons, runJobs, hrun, List.flatMap_cons, List.length_append]
    rw [hresults, hsource, Nat.add_assoc]
    exact ⟨rfl, rfl⟩

theorem eq_ok_of_toOption {ε α : Type} {result : Except ε α} {a : α}
    (h : result.toOption = some a) : result = .ok a := by
  cases result with
  | error reason => cases h
  | ok a' => exact congrArg Except.ok (Option.some.inj h)

/-- **A region takes just the bits that it needs.**  Let a region of valid size, with all adaptive
pixels and enough contexts, be decoded from a script.  If that succeeds, then the number of bits
used is one for each row, if rows may be typical, and one for each pixel that is neither skipped nor
in a typical row; from any bits of which so many are the same, whatever comes behind them, any
decode gives the same bitmap after the same questions, and uses as many; and from fewer of them any
decode uses all and stops at the end of the bits.  If the bits do not suffice, all are used.  So
regions follow one another on one source: if each of them alone on some bits succeeds and uses all
of them, then one after another on these bits put together each gives the same bitmap. -/
theorem decode_takes_bitsTaken :
    (∀ (r : Region) (pixelwise : Bool) (s : Session Script),
      Bitmap.ValidSize r.width r.height →
      r.adaptivePixels.length = r.template.adaptiveCount →
      r.template.contextCount ≤ s.contexts.size →
      let bits := s.source.rest
      let n := r.bitsTaken bits
      let out := r.decode pixelwise s
      (∀ b, out.1 = .ok b →
        n ≤ bits.length ∧ out.2.source = ⟨bits.drop n, s.source.used + n⟩ ∧
        ∃ numbers : List Nat, numbers.length = n ∧
          ∀ (pixelwise' : Bool) (s' : Session Script),
            r.template.contextCount ≤ s'.contexts.size →
            (s'.source.rest.take n = bits.take n →
              r.decode pixelwise' s' =
                (.ok b, ⟨⟨s'.source.rest.drop n, s'.source.used + n⟩, s'.contexts,
                  s'.trace ++ numbers.toArray⟩)) ∧
            ∀ m < n, s'.source.rest = bits.take m →
              (r.decode pixelwise' s').1 = .error .unexpectedEnd ∧
                (r.decode pixelwise' s').2.source = ⟨[], s'.source.used + m⟩) ∧
      (out.1 = .error .unexpectedEnd →
        out.2.source = ⟨[], s.source.used + bits.length⟩)) ∧
    ∀ (pieces : List Piece), (∀ piece ∈ pieces, piece.Complete) →
      ∀ (s : Session Script) (more : List Bool),
        s.source.rest = pieces.flatMap Piece.bits ++ more →
        let out := runJobs (pieces.map Piece.toJob) s
        out.1 = (pieces.map fun piece => .ok piece.bitmap) ∧
          out.2.source = ⟨more, s.source.used + (pieces.flatMap Piece.bits).length⟩ := by
  constructor
  · intro r pixelwise s hsize hcount hcontexts bits n out
    rcases decode_script_cases hsize hcount pixelwise hcontexts with
      ⟨code, b, more, hcode, hbits⟩ | ⟨trace, herror⟩
    · -- the bits begin with those of a code, which is what any decode uses of them
      have hsplit : bits = code.map Prod.snd ++ more := hbits
      have hn : code.length = n := by
        rw [hcode.length_eq hcount more, ← hbits]
      have htake : bits.take n = code.map Prod.snd := by
        rw [hsplit, ← hn, List.take_left' (List.length_map Prod.snd)]
      have hdrop : bits.drop n = more := by
        rw [hsplit, ← hn, List.drop_left' (List.length_map Prod.snd)]
      have hle : n ≤ bits.length := by
        rw [hsplit, List.length_append, List.length_map, hn]
        omega
      have hout : out = (.ok b, _) := hcode.decode hsize hcount pixelwise hcontexts hbits
      rw [hout, hdrop, hn]
      refine ⟨fun b' hb => ⟨hle, rfl, code.map Prod.fst, ?_, fun pixelwise' s' hs' => ⟨?_, ?_⟩⟩,
        nofun⟩
      · rw [List.length_map, hn]
      · intro hsame
        have hbits' : s'.source.rest = code.map Prod.snd ++ s'.source.rest.drop n := by
          rw [← htake, ← hsame, List.take_append_drop]
        cases hb
        rw [hcode.decode hsize hcount pixelwise' hs' hbits', hn]
      · intro m hm hshort
        have hcut : s'.source.rest = (code.map Prod.snd).take m := by
          rw [hshort, ← htake, List.take_take, Nat.min_eq_left (Nat.le_of_lt hm)]
        obtain ⟨trace, herror⟩ :=
          hcode.decode_take hsize hcount pixelwise' hs' (by rw [hn]; exact hm) hcut
        rw [herror]
        exact ⟨rfl, rfl⟩
    · have hout : out = (.error .unexpectedEnd, _) := herror
      rw [hout]
      exact ⟨nofun, fun _ => rfl⟩
  · intro pieces h s more hbits
    exact runJobs_pieces pieces h hbits

/-- A region whose second row is typical and whose first row has a skipped pixel, in front of a
region of a size that is not valid and the same region again. -/
theorem decode_takes_bitsTaken_typical :
    let r : Region :=
      { width := 3, height := 3, template := .t3, typicalPrediction := true,
        skip := some ⟨3, 3, #[0x40, 0, 0]⟩ }
    let bits := [false, true, false, true, true, true, false, true]
    let b : Bitmap := ⟨3, 3, #[0x80, 0x80, 0xa0]⟩
    let s : Session Script := ⟨⟨bits ++ [true, false], 0⟩, r.freshContexts, #[]⟩
    let piece : Piece := ⟨⟨r, false, r.freshContexts⟩, bits, b⟩
    let empty : Piece := ⟨⟨{ r with width := 0 }, true, #[]⟩, [], .withoutStorage 0 3⟩
    let three : Session Script := ⟨⟨bits ++ bits ++ [true], 0⟩, #[], #[]⟩
    (Bitmap.ValidSize r.width r.height ∧
      r.adaptivePixels.length = r.template.adaptiveCount ∧
      r.template.contextCount ≤ s.contexts.size ∧
      (r.decode false s).1 = .ok b ∧ r.bitsTaken s.source.rest = 8 ∧
      ∀ p ∈ [piece, empty, piece], p.Complete) ∧
    (8 ≤ s.source.rest.length ∧ (r.decode false s).2.source = ⟨[true, false], 8⟩) ∧
    (runJobs ([piece, empty, piece].map Piece.toJob) three).1 =
      [.ok b, .ok (.withoutStorage 0 3), .ok b] ∧
    (runJobs ([piece, empty, piece].map Piece.toJob) three).2.source = ⟨[true], 16⟩ := by
  intro r bits b s piece empty three
  have hsize : Bitmap.ValidSize r.width r.height := by decide
  have hcontexts : r.template.contextCount ≤ s.contexts.size :=
    Nat.le_of_eq Array.size_replicate.symm
  have hok : (r.decode false s).1 = .ok b := eq_ok_of_toOption (by decide +kernel)
  have hn : r.bitsTaken s.source.rest = 8 := by decide +kernel
  have hpiece : piece.Complete := ⟨eq_ok_of_toOption (by decide +kernel), by decide +kernel⟩
  have hempty : empty.Complete := ⟨rfl, rfl⟩
  have hpieces : ∀ p ∈ [piece, empty, piece], p.Complete := by
    simp [hpiece, hempty]
  obtain ⟨hle, hsource, -⟩ :=
    (decode_takes_bitsTaken.1 r false s hsize rfl hcontexts).1 b hok
  rw [hn] at hle hsource
  have hall := decode_takes_bitsTaken.2 [piece, empty, piece] hpieces three [true] rfl
  exact ⟨⟨hsize, rfl, hcontexts, hok, hn, hpieces⟩, ⟨hle, hsource⟩, hall⟩

end Bilevel.Region
