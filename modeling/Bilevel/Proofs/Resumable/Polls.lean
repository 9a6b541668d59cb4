import Bilevel.Proofs.Resumable.Updates

/-!
# When the indicator is asked

A decode pauses where the caller's indicator wants it to, and the indicator is asked only after
some of the rows.

* `Plan.AsksAfter` — after which rows; `Plan.asks low high` — those from one row to another;
  `Plan.length_asks` — how many there are.
* `Plan.pauseRows` — the rows to go on with after the pauses that are wanted by some answers.
* `Indicator.answersUntil` — the answers that an indicator has given until it was a later one, and
  `Indicator.Gave`, which says that these are all that has happened to it.
* `Resumable.Answered` — the answers given while some rows were decoded; `advance_answered` goes
  through the rows, and `Underway.answered_step` is a step.
* `Resumable.Report` — a call with its indicator; `reportsOfRun` — a start and all further calls
  while the decode is paused.
* `answers_of_tiles` — calls that follow one another ask after each of their rows in turn.
* `answers_follow_rows` — the indicator is asked just once after each row that it is asked after,
  and the decode pauses just where it says so.
-/

set_option autoImplicit false

namespace Bilevel

namespace Plan

variable {plan : Plan} {low mid high : Nat}

/-- The indicator is asked after row `y`: after every row, but where template 2 is decoded with
windows only after row 0 and each fiftieth one from there. -/
def AsksAfter (plan : Plan) (y : Nat) : Prop := plan = ⟨.t2, .windows⟩ → y % 50 = 0

instance (plan : Plan) (y : Nat) : Decidable (plan.AsksAfter y) :=
  inferInstanceAs (Decidable (_ → _))

theorem pollsAfter_eq (plan : Plan) (y : Nat) : plan.pollsAfter y = decide (plan.AsksAfter y) := by
  obtain ⟨template, strategy⟩ := plan
  cases template <;> cases strategy <;> simp [pollsAfter, AsksAfter]

/-- The rows from `low` on and above `high` after which the indicator is asked. -/
def asks (plan : Plan) (low high : Nat) : List Nat :=
  (List.range' low (high - low)).filter fun y => plan.AsksAfter y

theorem asks_self (plan : Plan) (low : Nat) : plan.asks low low = [] := by
  simp [asks]

theorem asks_of_lt (h : low < high) :
    plan.asks low high =
      if plan.AsksAfter low then low :: plan.asks (low + 1) high else plan.asks (low + 1) high := by
  unfold asks
  rw [show high - low = high - (low + 1) + 1 by omega, List.range'_succ, List.filter_cons]
  simp only [decide_eq_true_eq]

theorem asks_append (h : low ≤ mid) (h' : mid ≤ high) :
    plan.asks low mid ++ plan.asks mid high = plan.asks low high := by
  have hrange := List.range'_append_1 (s := low) (m := mid - low) (n := high - mid)
  rw [Nat.add_sub_cancel' h, show mid - low + (high - mid) = high - low by omega] at hrange
  unfold asks
  rw [← List.filter_append, hrange]

theorem length_asks (plan : Plan) (n : Nat) :
    (plan.asks 0 n).length = if plan = ⟨.t2, .windows⟩ then (n + 49) / 50 else n := by
  induction n with
  | zero => simp [asks_self]
  | succ n ih =>
    rw [← asks_append (Nat.zero_le n) (Nat.le_succ n), List.length_append, ih,
      asks_of_lt (Nat.lt_succ_self n), asks_self]
    by_cases hplan : plan = ⟨.t2, .windows⟩
    · have hasks : plan.AsksAfter n ↔ n % 50 = 0 := ⟨fun h => h hplan, fun h _ => h⟩
      rw [if_pos hplan, if_pos hplan]
      by_cases hn : n % 50 = 0
      · rw [if_pos (hasks.2 hn), List.length_singleton]
        omega
      · rw [if_neg (mt hasks.1 hn), List.length_nil]
        omega
    · have hasks : plan.AsksAfter n := fun h => absurd h hplan
      rw [if_neg hplan, if_neg hplan, if_pos hasks, List.length_singleton]

/-- The rows to go on with after the pauses that are wanted, where these are the answers given
after the rows from `low` on and above `high`. -/
def pauseRows (plan : Plan) (low high : Nat) (answers : List Bool) : List Nat :=
  (((plan.asks low high).zip answers).filter Prod.snd).map fun (y, _) => y + 1

theorem pauseRows_append (h : low ≤ mid) (h' : mid ≤ high) {answers more : List Bool}
    (hlength : answers.length = (plan.asks low mid).length) :
    plan.pauseRows low high (answers ++ more) =
      plan.pauseRows low mid answers ++ plan.pauseRows mid high more := by
  unfold pauseRows
  rw [← asks_append h h', List.zip_append hlength.symm, List.filter_append, List.map_append]

end Plan

/-! ## Answers -/

namespace Indicator

variable {p later : Indicator} {answers : List Bool}

/-- The answers that an indicator has given, in order, when it has become the later one. -/
def answersUntil (p later : Indicator) : List Bool :=
  (List.range' p.polls (later.polls - p.polls)).map p.answers

/-- An indicator that has given these answers since. -/
structure Gave (p : Indicator) (answers : List Bool) (later : Indicator) : Prop where
  later : later = { p with polls := p.polls + answers.length }
  answers : answers = (List.range' p.polls answers.length).map p.answers

theorem Gave.answersUntil (h : p.Gave answers later) : p.answersUntil later = answers := by
  rw [Indicator.answersUntil, h.later]
  simp only [Nat.add_sub_cancel_left]
  exact h.answers.symm

theorem Gave.refl (p : Indicator) : p.Gave [] p := ⟨rfl, rfl⟩

/-- One more question, before all others. -/
theorem Gave.cons (h : p.poll.2.Gave answers later) : p.Gave (p.poll.1 :: answers) later := by
  constructor
  · rw [h.later, List.length_cons]
    simp only [poll]
    rw [Nat.add_right_comm, Nat.add_assoc]
  · rw [List.length_cons, List.range'_succ, List.map_cons]
    exact congrArg _ h.answers

end Indicator

namespace Resumable

variable {d : Resumable} {b : Bitmap} {r : Region} {plan : Plan} {top low high : Nat}
  {status : Status}

/-! ## One call -/

/-- What has been answered while the rows from `low` on and above `high` were decoded, until this
status was reached: one answer for each row after which the indicator is asked, and only the one
before a pause was yes. -/
structure Answered (plan : Plan) (low high : Nat) (status : Status) (answers : List Bool) :
    Prop where
  le : low ≤ high
  length : answers.length = (plan.asks low high).length
  last : status = .paused ↔ answers.getLast? = some true
  others : ∀ answer ∈ answers.dropLast, answer = false
  rows : plan.pauseRows low high answers = if status = .paused then [high] else []

namespace Answered

variable {answers : List Bool}

theorem refl (plan : Plan) (low : Nat) (hstatus : status ≠ .paused) :
    Answered plan low low status [] := by
  refine ⟨Nat.le_refl low, ?_, ?_, ?_, ?_⟩
  · simp [Plan.asks_self]
  · simp [hstatus]
  · simp
  · simp [hstatus, Plan.pauseRows]

/-- A row after which the indicator is not asked. -/
theorem skip (hasks : ¬plan.AsksAfter low) (h : Answered plan (low + 1) high status answers) :
    Answered plan low high status answers := by
  have hle := h.le
  have hrows : plan.asks low high = plan.asks (low + 1) high := by
    rw [Plan.asks_of_lt (by omega), if_neg hasks]
  refine ⟨by omega, ?_, h.last, h.others, ?_⟩
  · rw [hrows]
    exact h.length
  · rw [Plan.pauseRows, hrows]
    exact h.rows

/-- A row after which the answer is no. -/
theorem no (hasks : plan.AsksAfter low) (h : Answered plan (low + 1) high status answers) :
    Answered plan low high status (false :: answers) := by
  have hle := h.le
  have hrows : plan.asks low high = low :: plan.asks (low + 1) high := by
    rw [Plan.asks_of_lt (by omega), if_pos hasks]
  refine ⟨by omega, ?_, ?_, ?_, ?_⟩
  · rw [hrows, List.length_cons, List.length_cons, h.length]
  · rw [h.last, List.getLast?_cons]
    cases answers.getLast? <;> simp
  · intro answer hmem
    cases answers with
    | nil => cases hmem
    | cons next rest =>
      rcases List.mem_cons.1 hmem with rfl | hmem
      · rfl
      · exact h.others answer hmem
  · rw [Plan.pauseRows, hrows]
    exact h.rows

/-- A row after which the answer is yes. -/
theorem yes (hasks : plan.AsksAfter low) : Answered plan low (low + 1) .paused [true] := by
  have hrows : plan.asks low (low + 1) = [low] := by
    rw [Plan.asks_of_lt (Nat.lt_succ_self low), if_pos hasks, Plan.asks_self]
  refine ⟨Nat.le_succ low, ?_, ?_, ?_, ?_⟩
  · rw [hrows]
    rfl
  · simp
  · simp
  · simp [Plan.pauseRows, hrows]

end Answered

section

variable {σ : Type} [BitSource σ]

/-- Decoding rows asks after each row that is asked after, as long as the answer is no. -/
theorem advance_answered (r : Region) (plan : Plan) (rows : Nat) (c : Canvas) (p : Indicator)
    (s : Session σ) :
    let out := advance r plan rows c p s
    ∃ answers, p.Gave answers out.2.2.1 ∧ Answered plan c.row out.2.1.row out.1 answers := by
  induction rows generalizing c p s with
  | zero => exact ⟨[], .refl p, .refl plan c.row nofun⟩
  | succ rows ih =>
    rcases hrun : (r.decodeRow plan.strategy c).run s with ⟨⟨held, reason⟩ | next, s'⟩
    · have hrow := ((r.decodeRow_holds plan.strategy c).run_error hrun).row
      rw [advance_of_error hrun]
      simp only [hrow]
      exact ⟨[], .refl p, .refl plan c.row nofun⟩
    · obtain ⟨-, hrow⟩ := (r.decodeRow_holds plan.strategy c).run_ok hrun
      rw [advance_of_ok hrun, pollAfter, Plan.pollsAfter_eq]
      by_cases hasks : plan.AsksAfter c.row
      · simp only [hasks, decide_true, Bool.true_and, if_true]
        cases hanswer : p.poll.1 with
        | true =>
          have hyes := Indicator.Gave.cons (.refl p.poll.2)
          rw [hanswer] at hyes
          simp only [if_true, hrow]
          exact ⟨[true], hyes, .yes hasks⟩
        | false =>
          obtain ⟨answers, hgave, hanswered⟩ := ih next p.poll.2 s'
          have hno := hgave.cons
          rw [hanswer] at hno
          rw [hrow] at hanswered
          exact ⟨false :: answers, hno, hanswered.no hasks⟩
      · simp only [hasks, decide_false, Bool.false_and]
        obtain ⟨answers, hgave, hanswered⟩ := ih next p s'
        rw [hrow] at hanswered
        exact ⟨answers, hgave, hanswered.skip hasks⟩

theorem Underway.answered_step (h : d.Underway b) (p : Indicator) (s : Session σ) :
    ∃ answers, p.Gave answers (d.step p s).2.1 ∧
      Answered (d.region.plan d.pixelwise) (d.step p s).1.updated.top
        (d.step p s).1.updated.bottom (d.step p s).1.status answers := by
  rw [h.step_eq]
  exact advance_answered d.region (d.region.plan d.pixelwise) (d.region.height - d.row)
    ⟨b, d.row, d.typical⟩ p s

end

/-! ## Calls with what was asked in them -/

/-- A call: the decode after it, and the indicator before and after it. -/
structure Report where
  decode : Resumable
  before : Indicator
  after : Indicator

def Report.answers (report : Report) : List Bool := report.before.answersUntil report.after

def startReport (d : Resumable) (turn : Turn) : Report :=
  ⟨d.startOn turn, turn.indicator, (d.start turn.indicator turn.session).2.1⟩

def resumeReport (d : Resumable) (turn : Turn) : Report :=
  ⟨d.resumeOn turn, turn.indicator, (d.resume turn.indicator turn.session).2.1⟩

/-- Further calls, made as long as the decode is paused. -/
def reportsWhilePaused (d : Resumable) : List Turn → List Report
  | [] => []
  | turn :: turns =>
    if d.status = .paused then d.resumeReport turn :: (d.resumeOn turn).reportsWhilePaused turns
    else []

/-- A start and further calls, made as long as the decode is paused. -/
def reportsOfRun (d : Resumable) (first : Turn) (rest : List Turn) : List Report :=
  d.startReport first :: (d.startOn first).reportsWhilePaused rest

theorem map_decode_reportsWhilePaused (d : Resumable) (turns : List Turn) :
    d :: (d.reportsWhilePaused turns).map Report.decode = d.whilePaused turns := by
  induction turns generalizing d with
  | nil => rfl
  | cons turn turns ih =>
    rw [reportsWhilePaused, whilePaused]
    split
    · rw [List.map_cons, ← ih]
      rfl
    · rfl

/-- The decodes of the reports are the states of the run. -/
theorem map_decode_reportsOfRun (d : Resumable) (first : Turn) (rest : List Turn) :
    (d.reportsOfRun first rest).map Report.decode = d.statesOfRun first rest :=
  map_decode_reportsWhilePaused (d.startOn first) rest

/-- The answers given during a call are those to the questions after the rows that it noted. -/
structure Report.Follows (report : Report) (plan : Plan) : Prop where
  after : report.after =
    { report.before with polls := report.before.polls + report.answers.length }
  answered : Answered plan report.decode.updated.top report.decode.updated.bottom
    report.decode.status report.answers

theorem Underway.follows {σ : Type} [BitSource σ] (h : d.Underway b) (p : Indicator)
    (s : Session σ) :
    Report.Follows ⟨(d.step p s).1, p, (d.step p s).2.1⟩ (d.region.plan d.pixelwise) := by
  obtain ⟨answers, hgave, hanswered⟩ := h.answered_step p s
  have hanswers : Report.answers ⟨(d.step p s).1, p, (d.step p s).2.1⟩ = answers :=
    hgave.answersUntil
  constructor
  · rw [hanswers]
    exact hgave.later
  · rw [hanswers]
    exact hanswered

theorem Stepped.follows_reportsWhilePaused (h : Stepped r top d) (turns : List Turn)
    (hturns : ∀ turn ∈ turns, r.template.contextCount ≤ turn.session.contexts.size) :
    ∀ report ∈ d.reportsWhilePaused turns, report.Follows (r.plan d.pixelwise) := by
  induction turns generalizing d top with
  | nil => exact fun report hmem => absurd hmem List.not_mem_nil
  | cons turn turns ih =>
    rw [reportsWhilePaused]
    split
    · rename_i hpaused
      have hturn := hturns turn List.mem_cons_self
      obtain ⟨-, -, b, hunder⟩ := h.endsAs hpaused
      have hregion := h.region
      have hs : d.region.template.contextCount ≤ turn.session.contexts.size := hregion ▸ hturn
      have hfirst := hunder.follows turn.indicator turn.session
      rw [hregion, ← hunder.resume_eq_step hpaused turn.indicator hs] at hfirst
      have hrest := ih (h.resumeOn hpaused turn hturn)
        fun turn' hmem => hturns turn' (List.mem_cons_of_mem _ hmem)
      have hpixelwise : (d.resumeOn turn).pixelwise = d.pixelwise :=
        (settings_resume d turn.indicator turn.session).2
      rw [hpixelwise] at hrest
      intro report hmem
      rcases List.mem_cons.1 hmem with rfl | hmem
      · exact hfirst
      · exact hrest report hmem
    · exact fun report hmem => absurd hmem List.not_mem_nil

section

variable {first : Turn} {rest : List Turn}
  (hsize : Bitmap.ValidSize d.region.width d.region.height)
  (hcount : d.region.adaptivePixels.length = d.region.template.adaptiveCount)

include hsize hcount

theorem stepped_startOn
    (hfirst : d.region.template.contextCount ≤ first.session.contexts.size) :
    Stepped d.region 0 (d.startOn first) := by
  obtain ⟨b, hb⟩ := Region.exists_blank hsize
  rw [startOn, start_opened hsize (Region.check_eq_ok.2 ⟨hcount, hfirst⟩) hb]
  exact (underway_opened hsize hcount hb).stepped first.indicator hfirst

theorem follows_startReport
    (hfirst : d.region.template.contextCount ≤ first.session.contexts.size) :
    (d.startReport first).Follows (d.region.plan d.pixelwise) := by
  obtain ⟨b, hb⟩ := Region.exists_blank hsize
  rw [startReport, startOn, start_opened hsize (Region.check_eq_ok.2 ⟨hcount, hfirst⟩) hb]
  exact (underway_opened hsize hcount hb).follows first.indicator first.session

variable (hcontexts : ∀ turn ∈ first :: rest,
  d.region.template.contextCount ≤ turn.session.contexts.size)

include hcontexts

theorem follows_reportsOfRun :
    ∀ report ∈ d.reportsOfRun first rest, report.Follows (d.region.plan d.pixelwise) := by
  have hfirst := hcontexts first List.mem_cons_self
  have hrest := (stepped_startOn hsize hcount hfirst).follows_reportsWhilePaused rest
    fun turn hmem => hcontexts turn (List.mem_cons_of_mem first hmem)
  have hpixelwise : (d.startOn first).pixelwise = d.pixelwise :=
    (settings_start d first.indicator first.session).2
  rw [hpixelwise] at hrest
  intro report hmem
  rcases List.mem_cons.1 hmem with rfl | hmem
  · exact follows_startReport hsize hcount hfirst
  · exact hrest report hmem

theorem steps_reportsOfRun :
    Steps d.region 0 ((d.reportsOfRun first rest).map Report.decode) := by
  rw [map_decode_reportsOfRun]
  exact (stepped_startOn hsize hcount (hcontexts first List.mem_cons_self)).whilePaused rest
    fun turn hmem => hcontexts turn (List.mem_cons_of_mem first hmem)

end

/-- Calls that follow one another ask after each row that is asked after in turn, and pause where
they are told to. -/
theorem answers_of_tiles {reports : List Report}
    (htiles : Rect.Tiles low (reports.map fun report => report.decode.updated) high)
    (h : ∀ report ∈ reports, report.Follows plan) :
    (reports.flatMap Report.answers).length = (plan.asks low high).length ∧
      plan.pauseRows low high (reports.flatMap Report.answers) =
        (reports.filter fun report => report.decode.status = .paused).map
          fun report => report.decode.updated.bottom := by
  induction reports generalizing low with
  | nil =>
    rw [show low = high from htiles]
    simp [Plan.pauseRows, Plan.asks_self]
  | cons report reports ih =>
    obtain ⟨htop, hle, hrest⟩ := htiles
    have hfirst := (h report List.mem_cons_self).answered
    rw [htop] at hfirst
    obtain ⟨hlength, hrows⟩ := ih hrest fun report' hmem => h report' (List.mem_cons_of_mem _ hmem)
    constructor
    · rw [List.flatMap_cons, List.length_append, hfirst.length, hlength,
        ← Plan.asks_append hle hrest.le, List.length_append]
    · rw [List.flatMap_cons, Plan.pauseRows_append hle hrest.le hfirst.length, hfirst.rows, hrows,
        List.filter_cons]
      by_cases hpaused : report.decode.status = .paused
      · simp [hpaused]
      · simp [hpaused]

/-- **The indicator is asked once after each row that it is asked after.**  A decode of a valid
size, with all adaptive pixels, is started, whatever it was before, and resumed as long as it is
paused, each time with an indicator, a source and contexts of the call's own, of which there are
enough.  Each call asks its indicator once for each row that is asked after among those noted by
the call, and never else; it pauses if and only if its last answer was yes, and no other answer was.
All calls together have asked once for each such row above the end; the rows to go on with after the
pauses are, in order, the ones below the rows after which the answer was yes.  And if the decode is
finished, all its rows are above the end, so that the number of questions is known whatever the
answers were: that of the rows, or where template 2 is decoded with windows a fiftieth of it,
rounded up. -/
theorem answers_follow_rows (d : Resumable) (first : Turn) (rest : List Turn)
    (hsize : Bitmap.ValidSize d.region.width d.region.height)
    (hcount : d.region.adaptivePixels.length = d.region.template.adaptiveCount)
    (hcontexts : ∀ turn ∈ first :: rest,
      d.region.template.contextCount ≤ turn.session.contexts.size) :
    let plan := d.region.plan d.pixelwise
    let reports := d.reportsOfRun first rest
    let answers := reports.flatMap Report.answers
    (∀ report ∈ reports,
      report.after = { report.before with
        polls := report.before.polls + report.answers.length } ∧
      report.answers.length =
        (plan.asks report.decode.updated.top report.decode.updated.bottom).length ∧
      (report.decode.status = .paused ↔ report.answers.getLast? = some true) ∧
      ∀ answer ∈ report.answers.dropLast, answer = false) ∧
    ∃ last, reports.getLast? = some last ∧
      Rect.Tiles 0 (reports.map fun report => report.decode.updated) last.decode.updated.bottom ∧
      answers.length = (plan.asks 0 last.decode.updated.bottom).length ∧
      (reports.filter fun report => report.decode.status = .paused).map
          (fun report => report.decode.row) =
        plan.pauseRows 0 last.decode.updated.bottom answers ∧
      (last.decode.status = .finished →
        last.decode.updated.bottom = d.region.height ∧
          answers.length =
            if plan = ⟨.t2, .windows⟩ then (d.region.height + 49) / 50 else d.region.height) := by
  intro plan reports answers
  have hfollows : ∀ report ∈ reports, report.Follows plan :=
    follows_reportsOfRun hsize hcount hcontexts
  have hsteps : Steps d.region 0 (reports.map Report.decode) :=
    steps_reportsOfRun hsize hcount hcontexts
  obtain ⟨last, hlast⟩ : ∃ last, reports.getLast? = some last :=
    ⟨_, List.getLast?_eq_some_getLast (List.cons_ne_nil _ _)⟩
  have hdecode : (reports.map Report.decode).getLast? = some last.decode := by
    rw [List.getLast?_map, hlast, Option.map_some]
  have htiles := hsteps.tiles hdecode
  rw [List.map_map] at htiles
  have hstepped : ∀ report ∈ reports, ∃ top, Stepped d.region top report.decode :=
    fun report hmem => hsteps.stepped (List.mem_map_of_mem hmem)
  obtain ⟨hlength, hrows⟩ := answers_of_tiles htiles hfollows
  refine ⟨fun report hmem => ?_, last, hlast, htiles, hlength, ?_, fun hfinished => ?_⟩
  · obtain ⟨hafter, hanswered⟩ := hfollows report hmem
    exact ⟨hafter, hanswered.length, hanswered.last, hanswered.others⟩
  · rw [hrows]
    refine List.map_congr_left fun report hmem => ?_
    obtain ⟨hmem, hpaused⟩ := List.mem_filter.1 hmem
    obtain ⟨top, h⟩ := hstepped report hmem
    exact (h.endsAs (of_decide_eq_true hpaused)).2.1
  · obtain ⟨top, h⟩ := hstepped last (List.mem_of_getLast? hlast)
    have hbottom : last.decode.updated.bottom = d.region.height := h.endsAs hfinished
    rw [hbottom, Plan.length_asks] at hlength
    exact ⟨hbottom, hlength⟩

/-- Template 2 with windows: asked after rows 0 and 50, the indicator says yes the second time, and
it is not asked after the last row, which is decoded by a second call. -/
theorem answers_follow_rows_windows :
    let d : Resumable := { region := { width := 1, height := 52, template := .t2 } }
    let turn (bits : List Bool) : Turn :=
      ⟨⟨fun polls => polls = 1, 0⟩, (⟨⟨bits, 0⟩, d.region.freshContexts, #[]⟩ : Session Script)⟩
    let first := turn (List.replicate 51 true)
    let rest := [turn [false]]
    let plan := d.region.plan d.pixelwise
    let reports := d.reportsOfRun first rest
    let answers := reports.flatMap Report.answers
    (Bitmap.ValidSize d.region.width d.region.height ∧
      d.region.adaptivePixels.length = d.region.template.adaptiveCount ∧
      ∀ turn ∈ first :: rest, d.region.template.contextCount ≤ turn.session.contexts.size) ∧
    (plan = ⟨.t2, .windows⟩ ∧
      reports.map (fun report => report.decode.status) = [.paused, .finished] ∧
      reports.map Report.answers = [[false, true], []] ∧
      plan.pauseRows 0 52 answers = [51]) ∧
    (∀ report ∈ reports,
      report.after = { report.before with
        polls := report.before.polls + report.answers.length } ∧
      report.answers.length =
        (plan.asks report.decode.updated.top report.decode.updated.bottom).length ∧
      (report.decode.status = .paused ↔ report.answers.getLast? = some true) ∧
      ∀ answer ∈ report.answers.dropLast, answer = false) ∧
    ∃ last, reports.getLast? = some last ∧
      Rect.Tiles 0 (reports.map fun report => report.decode.updated) last.decode.updated.bottom ∧
      answers.length = (plan.asks 0 last.decode.updated.bottom).length ∧
      (reports.filter fun report => report.decode.status = .paused).map
          (fun report => report.decode.row) =
        plan.pauseRows 0 last.decode.updated.bottom answers ∧
      (last.decode.status = .finished →
        last.decode.updated.bottom = d.region.height ∧
          answers.length =
            if plan = ⟨.t2, .windows⟩ then (d.region.height + 49) / 50 else d.region.height) := by
  intro d turn first rest plan reports answers
  have hsize : Bitmap.ValidSize d.region.width d.region.height := by decide
  have hcontexts : ∀ turn ∈ first :: rest,
      d.region.template.contextCount ≤ turn.session.contexts.size := by
    intro turn' hmem
    have hturn : turn' ∈ [List.replicate 51 true, [false]].map turn := hmem
    obtain ⟨bits, -, rfl⟩ := List.mem_map.1 hturn
    exact Nat.le_of_eq Array.size_replicate.symm
  exact ⟨⟨hsize, rfl, hcontexts⟩, by decide +kernel,
    answers_follow_rows d first rest hsize rfl hcontexts⟩

end Resumable

end Bilevel
