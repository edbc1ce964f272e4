import ChordScript.CommandLine
import ChordScript.Files
import ChordScript.Listing
import ChordScript.Midi.Journal
import ChordScript.Midi.Port
import ChordScript.Settings.Reader

/-!
# A session

One run of the command line: settings and source are read and compiled, and the schedule is dumped,
played or listed. A session writes journal entries and texts, and ends with a status.
-/

namespace ChordScript

structure Surroundings where
  read : String → Except FileError ByteArray
  ports : Midi.Ports := {}
  sendFails : Nat → Bool := fun _ => false
  clock : Midi.Clock := {}

def Surroundings.text (w : Surroundings) (name : String) : Except FileError String := do
  let content ← w.read name
  (String.fromUTF8? content).elim (.error .notText) .ok

inductive SessionError
  | settingsFile (name : String) (error : FileError)
  | settings (name : String) (error : SettingsError)
  | source (error : FileError)
  | midi (error : Midi.OpenError)
  | play (error : Midi.PlayError)

def SessionError.message : SessionError → String
  | .settingsFile name e => "Could not read config file " ++ name ++ ": " ++ e.message
  | .settings name _ => "Invalid config file " ++ name
  | .source e => e.message
  | .midi e => e.message
  | .play e => e.message

inductive Output
  | entry (entry : Journal.Entry)
  | text (text : String)

inductive Status
  | done
  | badArguments
  | rejected
  | failed
  | crashed
  deriving DecidableEq, Repr

def Status.code : Status → Nat
  | .done => 0
  | .badArguments => 1
  | .rejected => 1
  | .failed => 2
  | .crashed => 101

structure Session where
  outputs : List Output
  status : Status

namespace Session

open Journal

def entries (es : List Entry) : List Output := es.map .entry

def errorEntry (message : String) : Entry := ⟨.error, .main, message⟩

def warning (d : Diagnostic) : Entry := ⟨.warn, .main, d.message⟩

def ofError (before : List Entry) (e : SessionError) : Session :=
  ⟨entries (before ++ [errorEntry e.message]), .failed⟩

def loadSettings (w : Surroundings) : Option String → Except SessionError Settings
  | none => .ok Settings.standard
  | some name =>
    match w.text name with
    | .error e => .error (.settingsFile name e)
    | .ok yaml => (Settings.read yaml).mapError (.settings name)

def play (w : Surroundings) (settings : Settings) (s : Schedule Float) : Session :=
  let port := settings.midi.port
  let opening := w.ports.journal port
  match w.ports.open port with
  | .error e => ofError opening (.midi e)
  | .ok _ =>
    let player : Midi.Player :=
      .ofLine settings.midi.voicing { fails := w.sendFails } settings.playback.startDelay w.clock
    let played := player.play s
    let journal := opening ++ player.playJournal s ++ played.player.closeJournal
    match played.ending with
    | .completed => ⟨entries journal, .done⟩
    | .failed e => ofError journal (.play e)
    | .crashed => ⟨entries journal, .crashed⟩

def perform (o : Options) (w : Surroundings) (settings : Settings) (s : Schedule Float) :
    Session :=
  let dump : List Output := if o.dump then [.text s.dump] else []
  let rest : Session :=
    if o.play then play w settings s
    else if o.dump then ⟨[], .done⟩
    else ⟨entries s.listing, .done⟩
  { rest with outputs := dump ++ rest.outputs }

def runText (o : Options) (w : Surroundings) (settings : Settings) (text : String) : Session :=
  let compiling := compileJournal text settings.context
  match compile (τ := Float) text settings.context with
  | .error r =>
    ⟨entries (compiling ++ r.diagnostics.map warning ++ [errorEntry r.message]), .rejected⟩
  | .ok s =>
    let rest := perform o w settings s
    { rest with outputs := entries (compiling ++ s.diagnostics.map warning) ++ rest.outputs }

def runAll (o : Options) (w : Surroundings) : Session :=
  match loadSettings w o.settings with
  | .error e => ofError [] e
  | .ok settings =>
    match w.text o.source with
    | .error e => ofError [] (.source e)
    | .ok text => runText o w settings text

def isShown (level : Level) : Output → Bool
  | .entry e => e.level.rank ≤ level.rank
  | .text _ => true

def run (o : Options) (w : Surroundings) : Session :=
  let all := runAll o w
  { all with outputs := all.outputs.filter (isShown o.level) }

def ofArguments (args : List String) (w : Surroundings) : Session :=
  match Options.read args with
  | .ok o => run o w
  | .error .help => ⟨[.text CommandLine.helpText], .done⟩
  | .error .version => ⟨[.text CommandLine.versionText], .done⟩
  | .error .badArguments => ⟨[], .badArguments⟩

end Session

end ChordScript
