import ChordScript.Journal

/-!
# The command line

What the arguments ask for. Short flags may be joined, and the value of an option may follow it in
the same argument or in the next one. Arguments are taken from the first to the last, and whether an
option was given too often or lacks its value is judged at the end. So a question for help or for the
version is answered unless something before it is not understood.
-/

namespace ChordScript

structure Options where
  verbosity : Nat
  source : String
  settings : Option String
  dump : Bool
  play : Bool
  deriving DecidableEq, Repr

namespace Options

def level (o : Options) : Journal.Level :=
  match o.verbosity with
  | 0 => .info
  | 1 => .debug
  | _ => .trace

end Options

inductive NoRun
  | badArguments
  | help
  | version
  deriving DecidableEq, Repr

structure Arguments where
  verbosity : Nat := 0
  dumps : Nat := 0
  plays : Nat := 0
  configs : Nat := 0
  settings : Option String := none
  source : Option String := none
  waiting : Bool := false
  deriving DecidableEq, Repr

namespace Arguments

def moreVerbose (a : Arguments) : Arguments := { a with verbosity := a.verbosity + 1 }

def config (a : Arguments) (value : List Char) : Arguments :=
  let a := { a with configs := a.configs + 1 }
  if value.isEmpty then { a with waiting := true }
  else { a with settings := some (.ofList (value.dropWhile (· == '='))) }

def withSource (a : Arguments) (name : String) : Except NoRun Arguments :=
  if a.source.isSome then .error .badArguments else .ok { a with source := some name }

def short (a : Arguments) : List Char → Except NoRun Arguments
  | [] => .ok a
  | 'v' :: flags => a.moreVerbose.short flags
  | 'c' :: value => .ok (a.config value)
  | 'h' :: _ => .error .help
  | 'V' :: _ => .error .version
  | _ => .error .badArguments

/-- Takes a long flag, after any number of hyphens. A value after an equals sign is passed over if
the flag has none. -/
def long (a : Arguments) (flag : List Char) : Except NoRun Arguments :=
  let flag := flag.dropWhile (· == '-')
  let value := flag.dropWhile (· != '=')
  match String.ofList (flag.takeWhile (· != '=')) with
  | "verbose" => .ok a.moreVerbose
  | "config" => .ok (a.config value)
  | "dump" => .ok { a with dumps := a.dumps + 1 }
  | "play" => .ok { a with plays := a.plays + 1 }
  | "help" => .error .help
  | "version" => .error .version
  | _ => .error .badArguments

def isFlag (arg : String) : Bool := arg.toList.head? == some '-' && arg.toList != ['-']

/-- Takes an argument in front of any `--`. A flag ends the wait for a value, which then stays away. -/
def takeOne (a : Arguments) (arg : String) : Except NoRun Arguments :=
  if isFlag arg then
    let a := { a with waiting := false }
    if "--".toList.isPrefixOf arg.toList then a.long arg.toList else a.short (arg.toList.drop 1)
  else if a.waiting then .ok { a with settings := some arg, waiting := false }
  else a.withSource arg

def take (a : Arguments) : (plain : Bool) → List String → Except NoRun Arguments
  | _, [] => .ok a
  | true, arg :: args => do (← a.withSource arg).take true args
  | false, "--" :: args => a.take true args
  | false, arg :: args => do (← a.takeOne arg).take false args

/-- Only `-v` may be given more than once, and settings that are asked for must have got a name. -/
def options (a : Arguments) : Except NoRun Options :=
  match a.source with
  | none => .error .badArguments
  | some source =>
    if 1 < a.configs || 1 < a.dumps || 1 < a.plays || (a.configs = 1 && a.settings.isNone) then
      .error .badArguments
    else .ok ⟨a.verbosity, source, a.settings, 0 < a.dumps, 0 < a.plays⟩

end Arguments

def Options.read (args : List String) : Except NoRun Options := do
  (← ({} : Arguments).take false args).options

namespace CommandLine

def versionText : String := "chord-runner 0.1.0\n"

def usageText : String := "USAGE:\n    chord-runner [FLAGS] [OPTIONS] <source>\n"

def helpText : String :=
  versionText ++ "Turns chord and note scripts into timed playback\n\n" ++ usageText ++
    "\nFLAGS:\n" ++
    "        --dump       Print the schedule as YAML\n" ++
    "    -h, --help       Prints help information\n" ++
    "        --play       Play the schedule on a MIDI output instead of logging it\n" ++
    "    -V, --version    Prints version information\n" ++
    "    -v, --verbose    \n" ++
    "\nOPTIONS:\n" ++
    "    -c, --config <config>    YAML config file\n" ++
    "\nARGS:\n" ++
    "    <source>    The program to run, one command per line\n"

end CommandLine

end ChordScript
