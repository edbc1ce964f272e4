import ChordScript.Compile
import ChordScript.Journal

namespace ChordScript

def EventKind.title : EventKind → String
  | .chordOn => "ChordOn"
  | .noteOn => "NoteOn"
  | .rest => "Rest"

def Voice.title : Voice → String
  | .lead => "Lead"
  | .bass => "Bass"

def Discipline.title : Discipline → String
  | .measureAligned => "MeasureAligned"
  | .sequential => "Sequential"

def PitchClass.title : PitchClass → String
  | .c => "C"
  | .cSharp => "CSharp"
  | .d => "D"
  | .dSharp => "DSharp"
  | .e => "E"
  | .f => "F"
  | .fSharp => "FSharp"
  | .g => "G"
  | .gSharp => "GSharp"
  | .a => "A"
  | .aSharp => "ASharp"
  | .b => "B"

def Pitch.describe (p : Pitch) : String :=
  "Pitch \x7b class: " ++ p.pitchClass.title ++ ", octave: " ++
    .ofList (Text.signedNumeral p.octave) ++ " \x7d"

open Journal

def Diagnostic.skipEntry (d : Diagnostic) : Entry :=
  ⟨.debug, .reader,
    "Skipping line " ++ numeralText (d.line.getD 0) ++ ": " ++ d.error.message⟩

def Program.readJournal (text : String) : List Entry :=
  (Program.readDiagnostics text).map (·.skipEntry)

def Event.placedEntry (e : Event Float) : Entry :=
  ⟨.debug, .scheduler,
    e.kind.title ++ " [" ++ ", ".intercalate (e.pitches.map (·.describe)) ++ "] at " ++
      secondsText e.start ++ " for " ++ secondsText e.duration⟩

def Outcome.entries (s : Statement) : Outcome Float → List Entry
  | .tempo t => [⟨.debug, .scheduler, "Tempo set to " ++ t.text⟩]
  | .placed events => events.map (·.placedEntry)
  | .dropped error =>
    [⟨.debug, .scheduler, "Dropping '" ++ s.command.text ++ "': " ++ error.message⟩]

def Program.scheduleJournal (p : Program) (context : Context) : List Entry :=
  match Discipline.choose context.discipline p.commands with
  | none => []
  | some d =>
    let outcomes := Walk.outcomes d (.start context.tempo) p.statements
    let opening : Entry :=
      ⟨.debug, .scheduler, "Scheduling " ++ numeralText p.size ++ " commands, " ++ d.title⟩
    let closing : List Entry :=
      match p.schedule context with
      | .ok s =>
        [⟨.info, .scheduler,
          "Scheduled " ++ numeralText s.events.length ++ " events over " ++
            secondsText s.finalCursor⟩]
      | .error _ => []
    opening :: outcomes.flatMap (fun (s, o) => o.entries s) ++ closing

def compileJournal (text : String) (context : Context) : List Entry :=
  Program.readJournal text ++ (Program.read text).scheduleJournal context

end ChordScript
