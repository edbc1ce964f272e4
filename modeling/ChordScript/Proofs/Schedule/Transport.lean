import ChordScript.Proofs.Compile.Merge
import ChordScript.Proofs.Schedule.ClosedForm

/-!
# Schedules over other numbers

A walk asks little of the numbers that it counts time in: to begin at zero, to add up lengths, and
to tell whether a length is of use. A function that carries this over from one kind of numbers to
another carries whole schedules over. Main statement: `map_schedule`.
-/

namespace ChordScript

variable {τ σ : Type}

def Event.map (f : τ → σ) (e : Event τ) : Event σ :=
  ⟨e.kind, e.voice, e.pitches, f e.start, f e.duration⟩

def Cursor.map (f : τ → σ) (c : Cursor τ) : Cursor σ := ⟨f c.offset, c.measure⟩

def Walk.map (f : τ → σ) (w : Walk τ) : Walk σ := ⟨w.tempo, w.cursor.map f⟩

def Outcome.map (f : τ → σ) : Outcome τ → Outcome σ
  | .tempo t => .tempo t
  | .placed events => .placed (events.map (.map f))
  | .dropped error => .dropped error

def Schedule.map (f : τ → σ) (s : Schedule τ) : Schedule σ :=
  ⟨s.discipline, s.events.map (.map f), f s.finalCursor, s.diagnostics⟩

theorem Outcome.events_map (f : τ → σ) (o : Outcome τ) :
    (o.map f).events = o.events.map (.map f) := by
  cases o <;> rfl

theorem Outcome.diagnostic?_comp_map (f : τ → σ) :
    diagnostic? ∘ Prod.map id (Outcome.map f) = diagnostic? := by
  funext ⟨s, o⟩
  cases o <;> rfl

structure Seconds.Carries [Seconds τ] [Seconds σ] (f : τ → σ) : Prop where
  zero : f Seconds.zero = Seconds.zero
  add (a b : τ) : f (a + b) = f a + f b
  isFinite (a : τ) : Seconds.isFinite (f a) = Seconds.isFinite a
  lt (a b : τ) : Seconds.lt (f a) (f b) = Seconds.lt a b
  measure (t : Tempo) : f t.measure = t.measure
  seconds {v : NoteValue} (positive : v.IsPositive) (t : Tempo) : f (v.seconds t) = v.seconds t

section

variable [Seconds τ] [Seconds σ] {f : τ → σ} (h : Seconds.Carries f)

include h

theorem Cursor.map_advance (c : Cursor τ) (length : τ) :
    (c.map f).advance (f length) = (c.advance length).map f := by
  rw [advance, advance, h.isFinite, ← h.zero, h.lt]
  split
  · simp [map, h.add]
  · rfl

theorem Command.map_writtenSeconds? (tempo : Tempo) (c : Command) :
    (c.writtenSeconds? tempo : Option τ).map f = c.writtenSeconds? tempo := by
  rw [writtenSeconds?, writtenSeconds?, Option.map_map]
  refine Option.map_congr fun v read => ?_
  obtain ⟨token, -, read⟩ := Option.bind_eq_some_iff.1 read
  exact h.seconds (NoteValue.isPositive_of_read? read) tempo

theorem Discipline.map_advance (d : Discipline) (tempo : Tempo) (c : Command) (cursor : Cursor τ) :
    d.advance tempo c (cursor.map f) = (d.advance tempo c cursor).map f := by
  cases d with
  | measureAligned =>
    rw [advance, advance, Cursor.advanceMeasure, ← h.measure, cursor.map_advance h]
    rfl
  | sequential =>
    rw [advance, advance, ← c.map_writtenSeconds? h]
    cases (c.writtenSeconds? tempo : Option τ) with
    | none => rfl
    | some length => exact cursor.map_advance h length

namespace Command

theorem map_chordEvents (chord : Chord) {value : NoteValue} (positive : value.IsPositive)
    (tempo : Tempo) (start : τ) :
    (chordEvents chord value tempo start).map (.map f) =
      chordEvents chord value tempo (f start) := by
  have whole : f (NoteValue.seconds (.division 1 false) tempo) =
      NoteValue.seconds (.division 1 false) tempo := h.seconds (by decide) tempo
  cases bass : chord.bass? <;>
    simp [chordEvents, bass, Event.map, Event.chord, Event.note, h.seconds positive, whole]

attribute [local simp] readQuality readPitch readNoteValue bind Except.bind pure Except.pure
  Except.map in
theorem map_events (c : Command) (tempo : Tempo) (start : τ) :
    (c.events tempo start).map (List.map (.map f)) = c.events tempo (f start) := by
  have positive {token : String} {v : NoteValue} (read : NoteValue.read? token = some v) :
      v.IsPositive := NoteValue.isPositive_of_read? read
  cases c with
  | setTempo t => rfl
  | chord root quality duration =>
    cases hq : Quality.read? quality <;> cases hr : Pitch.read? root <;>
      cases hd : NoteValue.read? duration with
    | none => simp [events, hq, hr, hd]
    | some v => simp [events, hq, hr, hd, ← map_chordEvents h _ (positive hd)]
  | note pitch duration =>
    cases hp : Pitch.read? pitch <;> cases hd : NoteValue.read? duration with
    | none => simp [events, hd]
    | some v => simp [events, hd, hp, Event.map, Event.note, h.seconds (positive hd)]
  | rest duration =>
    cases hd : NoteValue.read? duration with
    | none => simp [events, hd]
    | some v => simp [events, hd, Event.map, Event.rest, h.seconds (positive hd)]

end Command

namespace Walk

theorem map_outcome (w : Walk τ) (c : Command) : (w.map f).outcome c = (w.outcome c).map f := by
  cases timed : c.tempo? with
  | some t =>
    rw [outcome_tempo _ timed, outcome_tempo _ timed]
    rfl
  | none =>
    have resolved := c.map_events h w.tempo w.cursor.offset
    rw [outcome_eq _ timed, outcome_eq _ timed, map, Cursor.map, ← resolved]
    cases c.events w.tempo w.cursor.offset <;> rfl

theorem map_next (d : Discipline) (w : Walk τ) (c : Command) :
    (w.map f).next d c = (w.next d c).map f := by
  cases timed : c.tempo? with
  | some t =>
    rw [next_tempo d _ timed, next_tempo d _ timed]
    rfl
  | none =>
    rw [next_timed d _ timed, next_timed d _ timed, map, d.map_advance h]
    rfl

theorem map_outcomes (d : Discipline) (w : Walk τ) (statements : List Statement) :
    outcomes d (w.map f) statements = (outcomes d w statements).map (.map id (.map f)) := by
  induction statements generalizing w with
  | nil => rfl
  | cons s rest ih =>
    rw [outcomes, outcomes, map_outcome h, map_next h, ih, List.map_cons]
    rfl

theorem map_finish (d : Discipline) (w : Walk τ) (statements : List Statement) :
    (w.map f).finish d statements = (w.finish d statements).map f := by
  induction statements generalizing w with
  | nil => rfl
  | cons s rest ih =>
    rw [finish_cons, finish_cons, map_next h, ih]

theorem map_start (tempo : Tempo) : (start tempo : Walk τ).map f = start tempo := by
  rw [map, Cursor.map, start, start, Cursor.start, Cursor.start, h.zero]

end Walk

namespace Program

theorem map_place (p : Program) (tempo : Tempo) (d : Discipline) :
    (p.place tempo d : Schedule τ).map f = p.place tempo d := by
  simp only [place, Schedule.map, ← Walk.map_start h, Walk.map_outcomes h, Walk.map_finish h,
    List.map_flatMap, List.flatMap_map, List.filterMap_map, Prod.map_snd, Outcome.events_map,
    Outcome.diagnostic?_comp_map]
  rfl

theorem map_schedule (p : Program) (context : Context) :
    (p.schedule context : Run τ).map (.map f) = p.schedule context := by
  rw [schedule, schedule]
  cases Discipline.choose context.discipline p.commands with
  | none => rfl
  | some d =>
    simp only [← map_place h, Schedule.map, List.isEmpty_map]
    split <;> rfl

end Program

end

end ChordScript
