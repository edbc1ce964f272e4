import ChordScript.Decimal.Layout

namespace ChordScript

namespace Journal

inductive Level
  | error
  | warn
  | info
  | debug
  | trace
  deriving DecidableEq, Repr

def Level.rank : Level → Nat
  | .error => 0
  | .warn => 1
  | .info => 2
  | .debug => 3
  | .trace => 4

def Level.name : Level → String
  | .error => "ERROR"
  | .warn => "WARN"
  | .info => "INFO"
  | .debug => "DEBUG"
  | .trace => "TRACE"

inductive Origin
  | main
  | reader
  | scheduler
  | listing
  | player
  | ports
  deriving DecidableEq, Repr

def Origin.name : Origin → String
  | .main => "chord_runner"
  | .reader => "chord_runner::model::program::parser"
  | .scheduler => "chord_runner::scheduler"
  | .listing => "chord_runner::sink"
  | .player => "chord_runner::sink::midi_sink"
  | .ports => "chord_runner::midi"

structure Entry where
  level : Level
  origin : Origin
  message : String
  deriving DecidableEq, Repr

def upTo (level : Level) (entries : List Entry) : List Entry :=
  entries.filter fun e => e.level.rank ≤ level.rank

def seconds (x : Float) : List Char := Decimal.toPlaces 3 (.ofFloat x)

def secondsText (x : Float) : String := .ofList (seconds x) ++ "s"

def numeralText (n : Nat) : String := .ofList (Text.numeral n)

end Journal

def Journal.Entry.line (e : Entry) : String :=
  e.level.name ++ .ofList (.replicate (5 - e.level.name.length) ' ') ++ " [" ++ e.origin.name ++
    "] " ++ e.message

end ChordScript
