import ChordScript.Proofs.Schedule.Exact
import ChordScript.Proofs.Schedule.Outcome
import Mathlib.Algebra.BigOperators.Group.List.Basic

/-!
# The closed form of a schedule

Where each command goes and what it becomes, read off the program without walking through it: a
command begins at the sum of the steps of the commands before it. Main statement:
`schedule_eq_closedForm`.
-/

namespace ChordScript

def Chord.bassTable : List (PitchClass × Quality) :=
  [(.a, .minor), (.e, .minor), (.f, .major), (.c, .major)]

theorem Chord.bass?_eq (c : Chord) :
    c.bass? = if (c.root.pitchClass, c.quality) ∈ bassTable then some ⟨c.root.pitchClass, 2⟩
      else none := by
  obtain ⟨⟨pitchClass, octave⟩, quality⟩ := c
  cases pitchClass <;> cases quality <;> rfl

namespace Command

def tempo? : Command → Option Tempo
  | .setTempo tempo => some tempo
  | _ => none

def faultOf {α : Type} (found : Option α) (error : ScriptError) : List ScriptError :=
  if found.isNone then [error] else []

def faults : Command → List ScriptError
  | .setTempo _ => []
  | .chord root quality duration =>
    faultOf (Quality.read? quality) (.chordQuality quality) ++
      faultOf (Pitch.read? root) (.rootFormat root) ++
      faultOf (NoteValue.read? duration) (.duration duration)
  | .note pitch duration =>
    faultOf (NoteValue.read? duration) (.duration duration) ++
      faultOf (Pitch.read? pitch) (.rootFormat pitch)
  | .rest duration => faultOf (NoteValue.read? duration) (.duration duration)

def bassOf? (root quality : String) : Option Pitch := do
  let root ← Pitch.read? root
  let quality ← Quality.read? quality
  if (root.pitchClass, quality) ∈ Chord.bassTable then some ⟨root.pitchClass, 2⟩ else none

end Command

structure Timed where
  line : Option Nat
  command : Command
  tempo : Tempo

namespace Timed

def measure (x : Timed) : Rat := 240 / x.tempo.bpm

def length? (x : Timed) : Option Rat :=
  (x.command.duration?.bind NoteValue.read?).map fun v => v.wholeNotes * 240 / x.tempo.bpm

def step (d : Discipline) (x : Timed) : Rat :=
  match d with
  | .measureAligned => x.measure
  | .sequential => x.length?.getD 0

def events (x : Timed) (start : Rat) : List (Event Rat) :=
  match x.command, x.length? with
  | .chord root quality _, some length =>
    match Command.resolveChord root quality with
    | .ok pitches =>
      .chord pitches start length ::
        ((Command.bassOf? root quality).map (.note .bass · start x.measure)).toList
    | .error _ => []
  | .note pitch _, some length => ((Pitch.read? pitch).map (.note .lead · start length)).toList
  | .rest _, some length => [.rest start length]
  | _, _ => []

def diagnostic? (x : Timed) : Option Diagnostic := x.command.faults.head?.map (⟨x.line, ·⟩)

end Timed

namespace Program

def tempoAfter (tempo : Tempo) (before : List Statement) : Tempo :=
  (before.filterMap (·.command.tempo?)).getLast?.getD tempo

def timed (tempo : Tempo) (statements : List Statement) : List Timed :=
  statements.zipIdx.filterMap fun (s, i) =>
    if s.command.tempo?.isSome then none
    else some ⟨s.line, s.command, tempoAfter tempo (statements.take i)⟩

def placed (d : Discipline) (commands : List Timed) : List (Event Rat) :=
  commands.zipIdx.flatMap fun (x, i) => x.events ((commands.take i).map (·.step d)).sum

end Program

namespace Command

theorem chordEvents_rat (c : Chord) (v : NoteValue) (t : Tempo) (start : Rat) :
    chordEvents c v t start =
      .chord c.pitches start (v.wholeNotes * 240 / t.bpm) ::
        ((if (c.root.pitchClass, c.quality) ∈ Chord.bassTable then
          some (⟨c.root.pitchClass, 2⟩ : Pitch)
        else none).map (.note .bass · start (240 / t.bpm))).toList := by
  rw [chordEvents, Chord.bass?_eq, NoteValue.seconds_whole, NoteValue.seconds_rat,
    Tempo.measure_rat]

end Command

namespace Timed

section

attribute [local simp] Command.events Command.faults Command.faultOf Command.readQuality
  Command.readPitch Command.readNoteValue Command.resolveChord Command.bassOf? Command.duration?
  events length? bind Except.bind pure Except.pure

theorem events_command (x : Timed) (start : Rat) :
    x.command.events x.tempo start =
      match x.command.faults.head? with
      | some error => .error error
      | none => .ok (x.events start) := by
  obtain ⟨line, command, tempo⟩ := x
  cases command with
  | setTempo t => rfl
  | chord root quality duration =>
    cases hq : Quality.read? quality with
    | none => simp [hq]
    | some q =>
      cases hr : Pitch.read? root with
      | none => simp [hq, hr]
      | some r =>
        cases hd : NoteValue.read? duration with
        | none => simp [hq, hr, hd]
        | some v => simp [hq, hr, hd, Command.chordEvents_rat, measure]
  | note pitch duration =>
    cases hd : NoteValue.read? duration with
    | none => simp [hd]
    | some v => cases hp : Pitch.read? pitch <;> simp [hd, hp, NoteValue.seconds_rat]
  | rest duration =>
    cases hd : NoteValue.read? duration <;> simp [hd, NoteValue.seconds_rat]

theorem events_of_faults {x : Timed} (h : x.command.faults ≠ []) (start : Rat) :
    x.events start = [] := by
  obtain ⟨line, command, tempo⟩ := x
  cases command with
  | setTempo t => rfl
  | chord root quality duration =>
    cases hq : Quality.read? quality <;> cases hr : Pitch.read? root <;>
      cases hd : NoteValue.read? duration <;> simp_all
  | note pitch duration =>
    cases hd : NoteValue.read? duration <;> cases hp : Pitch.read? pitch <;> simp_all
  | rest duration =>
    cases hd : NoteValue.read? duration <;> simp_all

end

theorem length?_eq (x : Timed) : x.length? = x.command.writtenSeconds? x.tempo := by
  simp only [length?, Command.writtenSeconds?, NoteValue.seconds_rat]

theorem length?_pos {x : Timed} {length : Rat} (h : x.length? = some length) : 0 < length := by
  rw [length?_eq, Command.writtenSeconds?, Option.map_eq_some_iff] at h
  obtain ⟨v, read, rfl⟩ := h
  obtain ⟨token, -, read⟩ := Option.bind_eq_some_iff.1 read
  exact NoteValue.seconds_pos (NoteValue.isPositive_of_read? read) x.tempo

theorem offset_advance (d : Discipline) (x : Timed) (cursor : Cursor Rat) :
    (d.advance x.tempo x.command cursor).offset = cursor.offset + x.step d := by
  cases d with
  | measureAligned =>
    rw [Discipline.advance, Cursor.offset_advanceMeasure, Tempo.measure_rat]
    rfl
  | sequential =>
    simp only [Discipline.advance, step, ← length?_eq]
    cases h : x.length? with
    | none => simp
    | some length => exact Cursor.offset_advance (length?_pos h)

end Timed

namespace Program

theorem tempoAfter_cons (tempo : Tempo) (s : Statement) (before : List Statement) :
    tempoAfter tempo (s :: before) = tempoAfter (s.command.tempo?.getD tempo) before := by
  rw [tempoAfter, tempoAfter, List.filterMap_cons]
  cases s.command.tempo? with
  | none => rfl
  | some t => simp [List.getLast?_cons]

theorem timed_cons (tempo : Tempo) (s : Statement) (rest : List Statement) :
    timed tempo (s :: rest) =
      match s.command.tempo? with
      | some t => timed t rest
      | none => ⟨s.line, s.command, tempo⟩ :: timed tempo rest := by
  have shifted : (rest.zipIdx 1).filterMap (fun (r, i) =>
      if r.command.tempo?.isSome then none
      else some ⟨r.line, r.command, tempoAfter tempo ((s :: rest).take i)⟩) =
      timed (s.command.tempo?.getD tempo) rest := by
    rw [timed, show (1 : Nat) = 0 + 1 from rfl, List.zipIdx_succ, List.filterMap_map]
    simp only [Function.comp_def, List.take_succ_cons, tempoAfter_cons]
  rw [timed, List.zipIdx_cons, List.filterMap_cons]
  cases h : s.command.tempo? with
  | none => simpa [h, tempoAfter] using shifted
  | some t => simpa [h] using shifted

theorem timed_append (tempo : Tempo) (a b : List Statement) :
    timed tempo (a ++ b) = timed tempo a ++ timed (tempoAfter tempo a) b := by
  induction a generalizing tempo with
  | nil => rfl
  | cons s rest ih =>
    rw [List.cons_append, timed_cons, timed_cons, tempoAfter_cons]
    cases s.command.tempo? with
    | none => exact congrArg (_ :: ·) (ih tempo)
    | some t => exact ih t

def placedFrom (d : Discipline) (start : Rat) : List Timed → List (Event Rat)
  | [] => []
  | x :: rest => x.events start ++ placedFrom d (start + x.step d) rest

theorem placedFrom_eq (d : Discipline) (start : Rat) (commands : List Timed) :
    placedFrom d start commands =
      commands.zipIdx.flatMap fun (x, i) =>
        x.events (start + ((commands.take i).map (·.step d)).sum) := by
  induction commands generalizing start with
  | nil => rfl
  | cons x rest ih =>
    rw [placedFrom, ih, List.zipIdx_cons, List.zipIdx_succ, List.flatMap_cons, List.flatMap_map]
    simp [add_assoc]

theorem placedFrom_append (d : Discipline) (start : Rat) (a b : List Timed) :
    placedFrom d start (a ++ b) =
      placedFrom d start a ++ placedFrom d (start + (a.map (·.step d)).sum) b := by
  induction a generalizing start with
  | nil => simp [placedFrom]
  | cons x rest ih =>
    rw [List.cons_append, placedFrom, placedFrom, ih, List.append_assoc, List.map_cons,
      List.sum_cons, add_assoc]

theorem placed_eq (d : Discipline) (commands : List Timed) :
    placed d commands = placedFrom d 0 commands := by
  simp only [placedFrom_eq, placed, zero_add]

end Program

namespace Walk

variable (d : Discipline)

theorem outcome_tempo {τ : Type} [Seconds τ] (w : Walk τ) {c : Command} {t : Tempo}
    (h : c.tempo? = some t) : w.outcome c = .tempo t := by
  cases c <;> cases h
  rfl

theorem next_tempo {τ : Type} [Seconds τ] (w : Walk τ) {c : Command} {t : Tempo}
    (h : c.tempo? = some t) : w.next d c = ⟨t, w.cursor⟩ := by
  cases c <;> cases h
  rfl

theorem outcome_eq {τ : Type} [Seconds τ] (w : Walk τ) {c : Command} (timed : c.tempo? = none) :
    w.outcome c =
      match c.events w.tempo w.cursor.offset with
      | .ok events => .placed events
      | .error error => .dropped error := by
  cases c with
  | setTempo t => cases timed
  | chord | note | rest => rfl

theorem outcome_timed (w : Walk Rat) {c : Command} (h : c.tempo? = none) (line : Option Nat) :
    w.outcome c =
      match c.faults.head? with
      | some error => .dropped error
      | none => .placed ((Timed.mk line c w.tempo).events w.cursor.offset) := by
  have resolved := Timed.events_command ⟨line, c, w.tempo⟩ w.cursor.offset
  simp only at resolved
  rw [outcome_eq w h, resolved]
  cases c.faults.head? <;> rfl

theorem next_timed {τ : Type} [Seconds τ] (w : Walk τ) {c : Command} (h : c.tempo? = none) :
    w.next d c = ⟨w.tempo, d.advance w.tempo c w.cursor⟩ := by
  cases c <;> cases h <;> rfl

theorem events_outcome (w : Walk Rat) (c : Command) (line : Option Nat) :
    (w.outcome c).events = (Timed.mk line c w.tempo).events w.cursor.offset := by
  cases h : c.tempo? with
  | some t =>
    cases c <;> cases h
    rfl
  | none =>
    have unresolved (faulty : c.faults ≠ []) :
        (Timed.mk line c w.tempo).events w.cursor.offset = [] :=
      Timed.events_of_faults faulty w.cursor.offset
    rw [outcome_timed w h line]
    cases faults : c.faults with
    | nil => rfl
    | cons error more => exact (unresolved (by simp [faults])).symm

theorem outcomes_events (w : Walk Rat) (statements : List Statement) :
    (outcomes d w statements).flatMap (·.2.events) =
      Program.placedFrom d w.cursor.offset (Program.timed w.tempo statements) := by
  induction statements generalizing w with
  | nil => rfl
  | cons s rest ih =>
    rw [outcomes, List.flatMap_cons, ih, Program.timed_cons]
    cases h : s.command.tempo? with
    | some t =>
      rw [outcome_tempo w h, next_tempo d w h]
      rfl
    | none =>
      have offset := Timed.offset_advance d ⟨s.line, s.command, w.tempo⟩ w.cursor
      simp only at offset
      rw [events_outcome w s.command s.line, next_timed d w h, Program.placedFrom, ← offset]

theorem outcomes_diagnostics (w : Walk Rat) (statements : List Statement) :
    (outcomes d w statements).filterMap Outcome.diagnostic? =
      (Program.timed w.tempo statements).filterMap Timed.diagnostic? := by
  induction statements generalizing w with
  | nil => rfl
  | cons s rest ih =>
    rw [outcomes, List.filterMap_cons, ih, Program.timed_cons]
    cases h : s.command.tempo? with
    | some t =>
      rw [outcome_tempo w h, next_tempo d w h]
      rfl
    | none =>
      rw [outcome_timed w h s.line, next_timed d w h, List.filterMap_cons, Timed.diagnostic?]
      cases s.command.faults.head? <;> rfl

theorem offset_finish (w : Walk Rat) (statements : List Statement) :
    (finish d w statements).cursor.offset =
      w.cursor.offset + ((Program.timed w.tempo statements).map (·.step d)).sum := by
  induction statements generalizing w with
  | nil => simp [finish, Program.timed]
  | cons s rest ih =>
    rw [finish_cons, ih, Program.timed_cons]
    cases h : s.command.tempo? with
    | some t => rw [next_tempo d w h]
    | none =>
      rw [next_timed d w h, List.map_cons, List.sum_cons, ← add_assoc]
      exact congrArg (· + _) (Timed.offset_advance d ⟨s.line, s.command, w.tempo⟩ w.cursor)

end Walk

namespace Program

theorem place_eq (p : Program) (tempo : Tempo) (d : Discipline) :
    p.place tempo d =
      { discipline := d
        events := placed d (timed tempo p.statements)
        finalCursor := ((timed tempo p.statements).map (·.step d)).sum
        diagnostics := (timed tempo p.statements).filterMap Timed.diagnostic? } := by
  simp only [place, Walk.outcomes_events, Walk.outcomes_diagnostics, Walk.offset_finish, placed_eq]
  simp [Walk.start, Cursor.start]

/-- A schedule that comes about is given by the chosen discipline and the sums of steps. -/
theorem schedule_eq_closedForm {p : Program} {context : Context} {s : Schedule Rat}
    (h : p.schedule context = .ok s) :
    Discipline.choose context.discipline p.commands = some s.discipline ∧
      s.events = placed s.discipline (timed context.tempo p.statements) ∧
      s.diagnostics = (timed context.tempo p.statements).filterMap Timed.diagnostic? ∧
      s.finalCursor = ((timed context.tempo p.statements).map (·.step s.discipline)).sum := by
  obtain ⟨d, chosen, placed, -⟩ := schedule_eq_ok.1 h
  rw [place_eq] at placed
  subst placed
  exact ⟨chosen, rfl, rfl, rfl⟩

def changing : Program :=
  .ofCommands [.chord "A2" "minor" "2m", .setTempo { bpm := 60 }, .chord "Gx" "minor" "1m",
    .chord "C3" "major" "1/2"]

theorem schedule_eq_closedForm_changing :
    let s : Schedule Rat := changing.place .standard .measureAligned
    changing.schedule {} = .ok s ∧
      s.events = placed .measureAligned (timed .standard changing.statements) ∧
      s.events.map (·.start) = [0, 0, 6, 6] ∧
      s.diagnostics = [⟨none, .rootFormat "Gx"⟩] ∧
      s.finalCursor = 10 := by
  intro s
  have scheduled : changing.schedule {} = .ok s := by decide +kernel
  obtain ⟨-, events, diagnostics, finalCursor⟩ := schedule_eq_closedForm scheduled
  refine ⟨scheduled, events, ?_, ?_, ?_⟩
  · rw [events]
    decide +kernel
  · rw [diagnostics]
    decide +kernel
  · rw [finalCursor]
    decide +kernel

end Program

end ChordScript
