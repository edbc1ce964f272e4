import ChordScript.Chord
import ChordScript.Cursor
import ChordScript.Event
import ChordScript.NoteValue
import ChordScript.Program

/-!
# Schedules

A program is walked through from its first statement to its last. The walk carries the tempo in
force and the cursor; each statement sets the tempo, is placed as events at the cursor, or is
dropped with an error. The discipline says how far the cursor moves.
-/

namespace ChordScript

inductive Discipline
  | measureAligned
  | sequential
  deriving DecidableEq, Repr

structure Context where
  tempo : Tempo := .standard
  discipline : Option Discipline := none
  deriving DecidableEq, Repr

structure Schedule (τ : Type) where
  discipline : Discipline
  events : List (Event τ)
  finalCursor : τ
  diagnostics : List Diagnostic
  deriving DecidableEq

def Discipline.choose (asked : Option Discipline) (commands : List Command) : Option Discipline :=
  match asked, commands.any (·.isChord), commands.any (·.isNote) with
  | _, true, true => none
  | some .sequential, true, _ => none
  | some .measureAligned, _, true => none
  | some d, _, _ => some d
  | none, true, false => some .measureAligned
  | none, false, _ => some .sequential

section

variable {τ : Type} [Seconds τ]

namespace Command

def readQuality (name : String) : Except ScriptError Quality :=
  (Quality.read? name).elim (.error (.chordQuality name)) .ok

def readPitch (token : String) : Except ScriptError Pitch :=
  (Pitch.read? token).elim (.error (.rootFormat token)) .ok

def readNoteValue (token : String) : Except ScriptError NoteValue :=
  (NoteValue.read? token).elim (.error (.duration token)) .ok

def resolveChord (root quality : String) : Except ScriptError (List Pitch) := do
  let quality ← readQuality quality
  let root ← readPitch root
  return Chord.pitches ⟨root, quality⟩

def chordEvents (chord : Chord) (value : NoteValue) (tempo : Tempo) (start : τ) :
    List (Event τ) :=
  .chord chord.pitches start (value.seconds tempo) ::
    (chord.bass?.map fun pitch =>
      .note .bass pitch start (NoteValue.seconds (.division 1 false) tempo)).toList

/-- The events of a command that begins at `start`. Of several faults, a chord reports its quality
before its root and both before its duration, a note its duration before its pitch. -/
def events (tempo : Tempo) (start : τ) : Command → Except ScriptError (List (Event τ))
  | .setTempo _ => .ok []
  | .chord root quality duration => do
    let quality ← readQuality quality
    let root ← readPitch root
    let value ← readNoteValue duration
    return chordEvents ⟨root, quality⟩ value tempo start
  | .note pitch duration => do
    let value ← readNoteValue duration
    let pitch ← readPitch pitch
    return [.note .lead pitch start (value.seconds tempo)]
  | .rest duration => do
    let value ← readNoteValue duration
    return [.rest start (value.seconds tempo)]

def writtenSeconds? (tempo : Tempo) (c : Command) : Option τ :=
  (c.duration?.bind NoteValue.read?).map (·.seconds tempo)

end Command

def Discipline.advance (d : Discipline) (tempo : Tempo) (c : Command) (cursor : Cursor τ) :
    Cursor τ :=
  match d with
  | .measureAligned => cursor.advanceMeasure tempo
  | .sequential =>
    match c.writtenSeconds? tempo with
    | some seconds => cursor.advance seconds
    | none => cursor

inductive Outcome (τ : Type)
  | tempo (tempo : Tempo)
  | placed (events : List (Event τ))
  | dropped (error : ScriptError)
  deriving DecidableEq

structure Walk (τ : Type) where
  tempo : Tempo
  cursor : Cursor τ
  deriving DecidableEq

namespace Walk

def start (tempo : Tempo) : Walk τ := ⟨tempo, .start⟩

def outcome (w : Walk τ) : Command → Outcome τ
  | .setTempo tempo => .tempo tempo
  | c =>
    match c.events w.tempo w.cursor.offset with
    | .ok events => .placed events
    | .error error => .dropped error

def next (d : Discipline) (w : Walk τ) : Command → Walk τ
  | .setTempo tempo => { w with tempo }
  | c => { w with cursor := d.advance w.tempo c w.cursor }

def outcomes (d : Discipline) : Walk τ → List Statement → List (Statement × Outcome τ)
  | _, [] => []
  | w, s :: rest => (s, w.outcome s.command) :: outcomes d (w.next d s.command) rest

def finish (d : Discipline) (w : Walk τ) (statements : List Statement) : Walk τ :=
  statements.foldl (fun w s => w.next d s.command) w

theorem outcomes_append (d : Discipline) (w : Walk τ) (a b : List Statement) :
    outcomes d w (a ++ b) = outcomes d w a ++ outcomes d (w.finish d a) b := by
  induction a generalizing w with
  | nil => rfl
  | cons s a ih => simp [outcomes, ih, finish]

end Walk

namespace Outcome

def events : Outcome τ → List (Event τ)
  | .placed events => events
  | _ => []

def diagnostic? : Statement × Outcome τ → Option Diagnostic
  | (s, .dropped error) => some ⟨s.line, error⟩
  | _ => none

end Outcome

namespace Program

def place (p : Program) (tempo : Tempo) (d : Discipline) : Schedule τ :=
  let outcomes := Walk.outcomes d (.start tempo) p.statements
  { discipline := d
    events := outcomes.flatMap (·.2.events)
    finalCursor := (Walk.finish d (.start tempo) p.statements).cursor.offset
    diagnostics := outcomes.filterMap Outcome.diagnostic? }

def schedule (p : Program) (context : Context) : Except Rejected (Schedule τ) :=
  match Discipline.choose context.discipline p.commands with
  | none => .error ⟨.ambiguousScheduling, []⟩
  | some d =>
    let placed : Schedule τ := p.place context.tempo d
    if placed.events.isEmpty then .error ⟨.nothingToSchedule, placed.diagnostics⟩ else .ok placed

end Program

/-- When the last event stops sounding, which may be after the final cursor. -/
def Schedule.soundingEnd (s : Schedule τ) : τ :=
  (s.events.map (·.finish)).foldl Seconds.later s.finalCursor

end

end ChordScript
