/-!
# Files and their names

A tree of directories, and what a name leads to from a place in it. A name is a path of steps between
slashes; every step but the last has to lead to a directory, and so has the last one if a slash
follows it.
-/

namespace ChordScript

inductive FileError
  | missing
  | notDirectory
  | directory
  | nameTooLong
  | notText
  deriving DecidableEq, Repr

def FileError.message : FileError → String
  | .missing => "No such file or directory (os error 2)"
  | .notDirectory => "Not a directory (os error 20)"
  | .directory => "Is a directory (os error 21)"
  | .nameTooLong => "File name too long (os error 36)"
  | .notText => "stream did not contain valid UTF-8"

namespace Files

inductive Entry
  | file (content : ByteArray)
  | directory (entries : List (String × Entry))

/-- The entries of a directory, of the one around it, and so on up to the root. -/
abbrev Place := List (List (String × Entry))

inductive Found
  | file (content : ByteArray)
  | place (place : Place)

def longestStep : Nat := 255

def longestName : Nat := 4095

def Place.up : Place → Place
  | _ :: around :: rest => around :: rest
  | place => place

def Place.enter (place : Place) (step : String) : Except FileError Found :=
  if longestStep < step.utf8ByteSize then .error .nameTooLong
  else
    match (place.headD []).lookup step with
    | none => .error .missing
    | some (.file content) => .ok (.file content)
    | some (.directory entries) => .ok (.place (entries :: place))

def Found.next (step : String) : Found → Except FileError Found
  | .file _ => .error .notDirectory
  | .place here =>
    if step = "" ∨ step = "." then .ok (.place here)
    else if step = ".." then .ok (.place here.up)
    else here.enter step

def Found.follow : List String → Found → Except FileError Found
  | [], found => .ok found
  | step :: steps, found => do (← found.next step).follow steps

def steps (name : String) : List String := (name.toList.splitOnP (· == '/')).map .ofList

def Place.origin (place : Place) (name : String) : Place :=
  if name.toList.head? = some '/' then place.drop (place.length - 1) else place

def Place.read (place : Place) (name : String) : Except FileError ByteArray :=
  if name = "" then .error .missing
  else if longestName < name.utf8ByteSize then .error .nameTooLong
  else
    match (Found.place (place.origin name)).follow (steps name) with
    | .ok (.file content) => .ok content
    | .ok (.place _) => .error .directory
    | .error error => .error error

end Files

end ChordScript
