import ChordScript.Proofs.Schedule.ClosedForm
import ChordScript.Proofs.Schedule.Magnitude

/-!
# Chords struck again

A chord that lasts several measures ends when the measure after them begins, but its end is rounded
once and the start of that measure after every measure. A chord that begins there is struck again if
the end did not come out later. Main statement: `struck_again_iff`.
-/

namespace ChordScript

namespace Binary

def addEach (m : Rat) : Nat → Rat → Rat
  | 0, s => s
  | n + 1, s => addEach m n (nearest (s + m))

def KeepsUp (n : Nat) (m s : Rat) : Prop := nearest (s + nearest (n * m)) ≤ addEach m n s

instance (n : Nat) (m s : Rat) : Decidable (KeepsUp n m s) := inferInstanceAs (Decidable (_ ≤ _))

theorem keepsUp_one {m : Rat} (binary : nearest m = m) (s : Rat) : KeepsUp 1 m s := by
  rw [KeepsUp, Nat.cast_one, one_mul, binary]
  exact le_rfl

theorem addEach_grid {k : Int} (hk : -1074 ≤ k) {n a b : Nat} (digits : a + n * b ≤ 2 ^ 53) :
    addEach (b * 2 ^ k) n (a * 2 ^ k) = (a + n * b : Nat) * 2 ^ k := by
  induction n generalizing a with
  | zero => simp [addEach]
  | succ n ih =>
    have sum : (a * 2 ^ k + b * 2 ^ k : Rat) = (a + b : Nat) * 2 ^ k := by
      push_cast
      ring
    rw [Nat.succ_mul, Nat.add_comm (n * b), ← Nat.add_assoc] at digits ⊢
    rw [addEach, sum, nearest_mul_zpow ((Nat.le_add_right _ _).trans digits) hk, ih digits]

theorem keepsUp_grid {k : Int} (hk : -1074 ≤ k) {n a b : Nat} (digits : a + n * b ≤ 2 ^ 53) :
    KeepsUp n (b * 2 ^ k) (a * 2 ^ k) := by
  have length : (n * (b * 2 ^ k) : Rat) = (n * b : Nat) * 2 ^ k := by
    push_cast
    ring
  have sum : (a * 2 ^ k + (n * b : Nat) * 2 ^ k : Rat) = (a + n * b : Nat) * 2 ^ k := by
    push_cast
    ring
  rw [KeepsUp, addEach_grid hk digits, length,
    nearest_mul_zpow ((Nat.le_add_left _ _).trans digits) hk, sum, nearest_mul_zpow digits hk]

end Binary

open Binary

theorem Tempo.value_measure (t : Tempo) :
    value t.measure = value t.beat * 4 ∧ nearest (value t.measure) = value t.measure := by
  have beat := t.within_beat.holds.1
  have four : value (Seconds.ofNat beatsPerMeasure) = 4 := (holds_ofNat (by decide)).value_eq
  have exact : nearest (value t.beat * 4) = value t.beat * 4 := by
    have scaled := Denotes.nearest_mul_two_pow beat 2
    norm_num at scaled
    exact scaled
  have product : value t.measure = value t.beat * 4 := by
    rw [measure, t.within_beat.value_mul within_four (by norm_num) (by norm_num), four, exact]
  exact ⟨product, product ▸ exact⟩

theorem NoteValue.value_seconds_measures {n : Nat} (pos : 0 < n) (lt : n < Text.numberBound)
    (t : Tempo) : value ((measures n).seconds t) = nearest (n * value t.measure) := by
  have lt : n < 2 ^ 32 := lt
  have count : value (Seconds.ofNat n) = n := (holds_ofNat (lt.trans (by norm_num))).value_eq
  have four : value (Seconds.ofNat Tempo.beatsPerMeasure) = 4 := (holds_ofNat (by decide)).value_eq
  have beats := (within_number pos lt).mul within_four (by norm_num) (by norm_num)
  have value_beats :
      value (Seconds.ofNat n * Seconds.ofNat Tempo.beatsPerMeasure) = (n * 4 : Nat) := by
    rw [(within_number pos lt).value_mul within_four (by norm_num) (by norm_num), count, four,
      ← Nat.cast_ofNat (R := Rat), ← Nat.cast_mul, nearest_natCast (by omega)]
  rw [seconds, wholeNotes, beats.value_mul t.within_beat (by norm_num) (by norm_num), value_beats,
    t.value_measure.1]
  push_cast
  ring_nf

namespace Program

variable {τ : Type} [Seconds τ]

theorem duration_of_mem_eventsAfter {tempo : Tempo} {d : Discipline} {before : List Statement}
    {s : Statement} {e : Event τ} (he : e ∈ eventsAfter tempo d before s)
    (chord : e.kind = .chordOn) {v : NoteValue}
    (written : s.command.duration?.bind NoteValue.read? = some v) :
    e.duration = v.seconds (walked tempo d before : Walk τ).tempo := by
  obtain ⟨events, resolved, he⟩ := Walk.events_of_mem_outcome he
  obtain ⟨-, lasts | ⟨note, -⟩⟩ := Command.mem_events resolved he
  · rw [Command.writtenSeconds?, written] at lasts
    exact (Option.some.inj lasts).symm
  · rw [chord] at note
    cases note

/-- A chord of `n` measures and what comes `n` commands later, with no change of tempo between. -/
structure Repeat (p : Program) (n : Nat) where
  before : List Statement
  first : Statement
  between : List Statement
  last : Statement
  after : List Statement
  split : p.statements = before ++ first :: (between ++ last :: after)
  long : first.command.duration?.bind NoteValue.read? = some (.measures n)
  steady : ∀ s ∈ between, s.command.tempo? = none
  count : between.length + 1 = n

namespace Repeat

variable {p : Program} {n : Nat} (r : p.Repeat n) (tempo : Tempo)

def walk : Walk Float := walked tempo .measureAligned r.before

def measure : Rat := value (r.walk tempo).tempo.measure

def chordEvents : List (Event Float) := eventsAfter tempo .measureAligned r.before r.first

def lastEvents : List (Event Float) :=
  eventsAfter tempo .measureAligned (r.before ++ r.first :: r.between) r.last

theorem first_timed : r.first.command.tempo? = none := by
  have long := r.long
  cases command : r.first.command with
  | setTempo t =>
    rw [command] at long
    cases long
  | chord | note | rest => rfl

end Repeat

end Program

namespace Walk

theorem value_offset_next {w : Walk Float} (h : Reached w.cursor.offset) {c : Command}
    (timed : c.tempo? = none) :
    (w.next .measureAligned c).tempo = w.tempo ∧
      value (w.next .measureAligned c).cursor.offset =
        nearest (value w.cursor.offset + value w.tempo.measure) := by
  have measure := w.tempo.within_measure.mono le_rfl (by norm_num : (8 : Int) ≤ 40)
  rw [next_timed _ w timed]
  refine ⟨rfl, ?_⟩
  simp only [Discipline.advance, Cursor.advanceMeasure]
  rw [Cursor.offset_advance_within _ measure, h.value_add measure]

theorem value_offset_finish {w : Walk Float} (h : Reached w.cursor.offset)
    {statements : List Statement} (steady : ∀ s ∈ statements, s.command.tempo? = none) :
    value (w.finish .measureAligned statements).cursor.offset =
      addEach (value w.tempo.measure) statements.length (value w.cursor.offset) := by
  induction statements generalizing w with
  | nil => rfl
  | cons s rest ih =>
    obtain ⟨first, others⟩ := List.forall_mem_cons.1 steady
    obtain ⟨tempo, offset⟩ := value_offset_next h first
    have later := ih (reached_next .measureAligned s.command h) others
    rw [tempo, offset] at later
    exact later

end Walk

namespace Program.Repeat

variable {p : Program} {n : Nat} {r : p.Repeat n} {tempo : Tempo} {e f : Event Float}

theorem value_finish (he : e ∈ r.chordEvents tempo) (chord : e.kind = .chordOn) :
    value e.finish = nearest (value e.start + nearest (n * r.measure tempo)) := by
  have placed := placed_of_mem_place (mem_place_of_mem_eventsAfter r.split he)
  obtain ⟨token, -, read⟩ := Option.bind_eq_some_iff.1 r.long
  have pos : 0 < n := NoteValue.isPositive_of_read? read
  have small : n < Text.numberBound := NoteValue.isSmall_of_read? read
  rw [placed.value_finish, duration_of_mem_eventsAfter he chord r.long,
    NoteValue.value_seconds_measures pos small]
  rfl

theorem value_start (he : e ∈ r.chordEvents tempo) (hf : f ∈ r.lastEvents tempo) :
    value f.start = addEach (r.measure tempo) n (value e.start) := by
  have start : Reached (Walk.start tempo).cursor.offset := reached_zero
  have reached : Reached (r.walk tempo).cursor.offset :=
    Walk.reached_finish .measureAligned r.before start
  have steady : ∀ s ∈ r.first :: r.between, s.command.tempo? = none :=
    List.forall_mem_cons.2 ⟨r.first_timed, r.steady⟩
  have later := Walk.value_offset_finish reached steady
  rw [List.length_cons, r.count] at later
  rw [start_of_mem_eventsAfter he, start_of_mem_eventsAfter hf, walked, Walk.finish_append]
  exact later

/-- In a program with one chord a measure, let a chord of `n` measures be followed by another `n`
measures later, at the same tempo. It has ended when that one starts, and its notes are ended before
they are struck again, just if its end, which is rounded once, keeps up with the measures, which are
rounded one by one. It does for one measure, and if all sums have at most 53 digits. -/
theorem struck_again_iff {context : Context} {s : Schedule Float}
    (scheduled : p.schedule context = .ok s) (aligned : s.discipline = .measureAligned)
    (he : e ∈ r.chordEvents context.tempo) (chord : e.kind = .chordOn)
    (hf : f ∈ r.lastEvents context.tempo) :
    (¬ f.start < e.finish ↔ KeepsUp n (r.measure context.tempo) (value e.start)) ∧
      (∀ cues, s.cues = .ok cues → ∀ k ∈ e.notes, k ∈ f.notes →
        (Cue.Precedes cues ⟨e.finish, .noteOff, e.voice, k⟩ ⟨f.start, .noteOn, f.voice, k⟩ ↔
          KeepsUp n (r.measure context.tempo) (value e.start))) ∧
      (n = 1 → KeepsUp n (r.measure context.tempo) (value e.start)) ∧
      ∀ (a b : Nat) (place : Int), -1074 ≤ place → a + n * b ≤ 2 ^ 53 →
        value e.start = a * 2 ^ place → r.measure context.tempo = b * 2 ^ place →
          KeepsUp n (r.measure context.tempo) (value e.start) := by
  obtain ⟨d, -, rfl, -⟩ := schedule_eq_ok.1 scheduled
  obtain rfl : d = .measureAligned := aligned
  have e_mem := mem_place_of_mem_eventsAfter r.split he
  have f_split : p.statements = (r.before ++ r.first :: r.between) ++ r.last :: r.after := by
    rw [r.split, List.append_assoc, List.cons_append]
  have f_mem := mem_place_of_mem_eventsAfter f_split hf
  have in_time : ¬ f.start < e.finish ↔ KeepsUp n (r.measure context.tempo) (value e.start) := by
    rw [(placed_of_mem_place f_mem).start.holds.1.lt_iff (placed_of_mem_place e_mem).finish.holds.1,
      not_lt, value_finish he chord, value_start he hf, KeepsUp]
  refine ⟨in_time, ?_, ?_, ?_⟩
  · intro cues cued k hk hk'
    have timed := Schedule.isTimed_of_placed fun x hx => Schedule.placed_of_schedule scheduled hx
    have off := (Schedule.cues_of_mem_notes cued e_mem hk).2
    have on := (Schedule.cues_of_mem_notes cued f_mem hk').1
    rw [(Schedule.precedes_iff timed cued off on rfl rfl).1]
    exact in_time
  · rintro rfl
    exact keepsUp_one (Tempo.value_measure _).2 _
  · intro a b place low digits start measure
    rw [start, measure]
    exact keepsUp_grid low digits

def again (before : List Command) : Program :=
  .ofCommands (before ++ [.chord "G4" "major" "2m", .rest "1m", .chord "G4" "major" "1m"])

def ofAgain (before : List Command) : (again before).Repeat 2 where
  before := (ofCommands before).statements
  first := ⟨none, .chord "G4" "major" "2m"⟩
  between := [⟨none, .rest "1m"⟩]
  last := ⟨none, .chord "G4" "major" "1m"⟩
  after := []
  split := by simp [again, ofCommands]
  long := by decide +kernel
  steady := by decide
  count := rfl

def gMajor : List Pitch := [⟨.g, 4⟩, ⟨.b, 4⟩, ⟨.d, 5⟩]

theorem struck_again_iff_standard :
    let s : Schedule Float := (again []).place .standard .measureAligned
    (again []).schedule {} = .ok s ∧
      .chord gMajor 0 4 ∈ (ofAgain []).chordEvents .standard ∧
      .chord gMajor 4 2 ∈ (ofAgain []).lastEvents .standard ∧
      ¬ (4 : Float) < (Event.chord gMajor 0 4).finish := by
  intro s
  have scheduled : (again []).schedule {} = .ok s := by decide +kernel
  have first : Event.chord gMajor 0 4 ∈ (ofAgain []).chordEvents .standard := by decide +kernel
  have last : Event.chord gMajor 4 2 ∈ (ofAgain []).lastEvents .standard := by decide +kernel
  have start : value 0 = (0 : Nat) * 2 ^ (0 : Int) := by decide +kernel
  have measure : (ofAgain []).measure .standard = (2 : Nat) * 2 ^ (0 : Int) := by decide +kernel
  obtain ⟨inTime, -, -, grid⟩ := struck_again_iff scheduled rfl first rfl last
  exact ⟨scheduled, first, last, inTime.2 (grid 0 2 0 (by decide) (by decide) start measure)⟩

def slow : List Command := [.setTempo { bpm := 7 }, .rest "1m", .rest "1m", .rest "1m"]

def slowSchedule : Schedule Float := (again slow).place .standard .measureAligned

def slowCues : List (Cue Float) := slowSchedule.cues.toOption.getD []

/-- The chord ends just after it is struck again, so that it is silent from then on. -/
theorem struck_again_slow :
    let e : Event Float :=
      .chord gMajor (.ofBits 0x4059B6DB6DB6DB6E) (.ofBits 0x4051249249249249)
    let f : Event Float :=
      .chord gMajor (.ofBits 0x40656DB6DB6DB6DB) (.ofBits 0x4041249249249249)
    (again slow).schedule {} = .ok slowSchedule ∧
      e ∈ (ofAgain slow).chordEvents .standard ∧ f ∈ (ofAgain slow).lastEvents .standard ∧
      f.start < e.finish ∧ slowSchedule.cues = .ok slowCues ∧
      ∀ k ∈ e.notes, k ∈ f.notes ∧
        Cue.Precedes slowCues ⟨f.start, .noteOn, .lead, k⟩ ⟨e.finish, .noteOff, .lead, k⟩ ∧
        ¬ Cue.Precedes slowCues ⟨e.finish, .noteOff, .lead, k⟩ ⟨f.start, .noteOn, .lead, k⟩ := by
  unfold Cue.Precedes
  decide +kernel

end Program.Repeat

end ChordScript
