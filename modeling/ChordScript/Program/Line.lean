import ChordScript.Command
import ChordScript.Pitch.Spelling
import ChordScript.ScriptError
import ChordScript.Text.Blank

namespace ChordScript.Line

def isNameChar (c : Char) : Bool :=
  c.isAlphanum || c == '_'

def isBrace (c : Char) : Bool := c == '{' || c == '}'

def isBlockHeader (line : List Char) : Bool :=
  line.getLast? == some '{' &&
    let header := Text.trim line.dropLast
    !header.isEmpty && header.all isNameChar

def isInert (line : List Char) : Bool :=
  line.isEmpty || ['/', '/'].isPrefixOf line || ['#'].isPrefixOf line ||
    line.all (fun c => isBrace c || Text.isBlank c) || isBlockHeader line

def setTempoKeyword : List Char := "setTempo".toList

def isSetTempo (word : List Char) : Bool :=
  word == setTempoKeyword || (setTempoKeyword ++ ['(']).isPrefixOf word

def splitAtDigits (s : List Char) : List Char × List Char × List Char :=
  let before := s.takeWhile (!·.isDigit)
  let rest := s.dropWhile (!·.isDigit)
  (before, Text.digits rest, Text.afterDigits rest)

/-- The first number of an argument, unless a minus sign stands right before it or a point right
after it. -/
def tempoOfArgument? (argument : List Char) : Option Tempo :=
  let (before, digits, after) := splitAtDigits argument
  if digits.isEmpty || before.getLast? == some '-' || after.head? == some '.' then none
  else Tempo.ofNat? (Text.valueOf digits)

def readSetTempo (line : List Char) : Except ScriptError Command :=
  let argument := Text.trim (line.drop setTempoKeyword.length)
  if argument.isEmpty || argument == ['(', ')'] then .error (.malformedLine (.ofList line))
  else
    match tempoOfArgument? argument with
    | some tempo => .ok (.setTempo tempo)
    | none => .error (.tempo (.ofList argument))

def beginsWithLetter (word : String) : Bool := (Letter.scan word.toList).isSome

/-- The commands that take time are told by their keyword and the number of words; a note needs no
keyword if its pitch begins with the letter of a note. -/
def commandOfWords? : List String → Option Command
  | [keyword, root, quality, duration] =>
    if keyword = "chord" then some (.chord root quality duration) else none
  | [keyword, pitch, duration] =>
    if keyword = "play" then some (.note pitch duration) else none
  | [word, duration] =>
    if word = "rest" then some (.rest duration)
    else if beginsWithLetter word then some (.note word duration)
    else none
  | _ => none

def readCommand (line : List Char) : Except ScriptError Command :=
  if (Text.words line).head?.any isSetTempo then readSetTempo line
  else
    match commandOfWords? ((Text.words line).map .ofList) with
    | some command => .ok command
    | none => .error (.malformedLine (.ofList line))

def read (line : List Char) : Except ScriptError (Option Command) :=
  let line := Text.trim line
  if isInert line then .ok none else (readCommand line).map some

end ChordScript.Line
