import ChordScript.Text.Numeral

namespace ChordScript

inductive ScriptError
  | rootFormat (token : String)
  | chordQuality (name : String)
  | duration (token : String)
  | tempo (argument : String)
  | malformedLine (line : String)
  | ambiguousScheduling
  | nothingToSchedule
  deriving DecidableEq, Repr

namespace ScriptError

def message : ScriptError → String
  | .rootFormat token => "invalid root note format: '" ++ token ++ "'"
  | .chordQuality name => "unsupported chord quality: '" ++ name ++ "'"
  | .duration token => "invalid duration: '" ++ token ++ "'"
  | .tempo argument => "invalid tempo: '" ++ argument ++ "'"
  | .malformedLine line => "malformed command line: '" ++ line ++ "'"
  | .ambiguousScheduling =>
    "program mixes chord and note commands; cannot pick a scheduling model"
  | .nothingToSchedule => "program produced no events to schedule"

end ScriptError

structure Diagnostic where
  line : Option Nat
  error : ScriptError
  deriving DecidableEq, Repr

def Diagnostic.message (d : Diagnostic) : String :=
  match d.line with
  | some n => "line " ++ .ofList (Text.numeral n) ++ ": " ++ d.error.message
  | none => d.error.message

structure Rejected where
  error : ScriptError
  diagnostics : List Diagnostic
  deriving DecidableEq, Repr

def Rejected.message (r : Rejected) : String := r.error.message

end ChordScript
