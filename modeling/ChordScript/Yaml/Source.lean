namespace ChordScript.Yaml

structure Spot where
  char : Char
  index : Nat
  line : Nat
  column : Nat
  deriving DecidableEq, Repr

abbrev Source := List Spot

def endChar : Char := '\x00'

/-- Only a line feed begins a new line of spots; with a carriage return before it, it is one spot
where that stands. -/
def spotsFrom (index line column : Nat) : List Char → Source
  | [] => [⟨endChar, index, line, column⟩]
  | '\r' :: '\n' :: s => ⟨'\n', index, line, column⟩ :: spotsFrom (index + 2) (line + 1) 0 s
  | c :: s =>
    if c = endChar then [⟨endChar, index, line, column⟩]
    else
      ⟨c, index, line, column⟩ ::
        if c = '\n' then spotsFrom (index + 1) (line + 1) 0 s
        else spotsFrom (index + 1) line (column + 1) s

def spots (text : String) : Source := spotsFrom 0 0 0 text.toList

def isBreak (c : Char) : Bool := c == '\n' || c == '\r'

def isBreakOrEnd (c : Char) : Bool := isBreak c || c == endChar

def isGap (c : Char) : Bool := c == ' ' || c == '\t'

def isGapOrEnd (c : Char) : Bool := isGap c || isBreakOrEnd c

def isFlow (c : Char) : Bool := c == ',' || c == '[' || c == ']' || c == '{' || c == '}'

def isNameChar (c : Char) : Bool := c.isAlphanum || c == '_' || c == '-'

def hexDigit? (c : Char) : Option Nat :=
  if c.isDigit then some (c.toNat - '0'.toNat)
  else if 'a' ≤ c ∧ c ≤ 'f' then some (c.toNat - 'a'.toNat + 10)
  else if 'A' ≤ c ∧ c ≤ 'F' then some (c.toNat - 'A'.toNat + 10)
  else none

namespace Source

def spot (s : Source) : Spot := s.headD ⟨endChar, 0, 0, 0⟩

def peek (s : Source) : Char := s.spot.char

def advance (s : Source) (n : Nat) : Source := s.drop n

def peekAt (s : Source) (n : Nat) : Char := (s.advance n).peek

def column (s : Source) : Nat := s.spot.column

def skipWhile (p : Char → Bool) (s : Source) : Source := s.dropWhile fun x => p x.char

def charsWhile (p : Char → Bool) (s : Source) : List Char :=
  (s.takeWhile fun x => p x.char).map (·.char)

def skipBreak (s : Source) : Source := if isBreak s.peek then s.advance 1 else s

def restOfLine? (s : Source) : Option Source :=
  let s := s.skipWhile isGap
  let s := if s.peek = '#' then s.skipWhile (!isBreakOrEnd ·) else s
  if isBreakOrEnd s.peek then some s.skipBreak else none

def atMarker (s : Source) (c : Char) : Bool :=
  s.column == 0 && s.peek == c && s.peekAt 1 == c && s.peekAt 2 == c && isGapOrEnd (s.peekAt 3)

def atDocumentMarker (s : Source) : Bool := s.atMarker '-' || s.atMarker '.'

end Source

end ChordScript.Yaml
