import ChordScript.Session

open ChordScript

def errorNumber (code : UInt32) : Nat := min code.toNat (Nat.pow 2 32 - code.toNat)

def fileError : IO.Error → FileError
  | .inappropriateType _ code _ => if errorNumber code = 20 then .notDirectory else .directory
  | .invalidArgument _ code _ => if errorNumber code = 36 then .nameTooLong else .missing
  | _ => .missing

def readFile (name : String) : IO (Except FileError ByteArray) := do
  try
    return .ok (← IO.FS.readBinFile name)
  catch error =>
    return .error (fileError error)

def write : Output → IO Unit
  | .entry e => IO.println e.line
  | .text text => IO.print text

def main (args : List String) : IO UInt32 := do
  let names :=
    match Options.read args with
    | .ok o => o.source :: o.settings.toList
    | .error _ => []
  let files ← names.mapM fun name => return (name, ← readFile name)
  let now ← IO.monoNanosNow
  let session :=
    Session.ofArguments args
      { read := fun name => (files.lookup name).getD (.error .missing)
        clock := { shows := fun _ => now } }
  session.outputs.forM write
  if session.status = .badArguments then IO.eprint CommandLine.usageText
  return .ofNat session.status.code
