import ChordScript.Yaml.Source

namespace ChordScript.Yaml.Block

inductive Chomping
  | strip
  | clip
  | keep
  deriving DecidableEq, Repr

structure Header where
  chomping : Chomping := .clip
  increment : Nat := 0

def chomping? : Char → Option Chomping
  | '+' => some .keep
  | '-' => some .strip
  | _ => none

def increment? (s : Source) : Option (Nat × Source) :=
  if s.peek = '0' then none
  else if s.peek.isDigit then some (s.peek.toNat - '0'.toNat, s.advance 1)
  else some (0, s)

def readIndicators (s : Source) : Option (Header × Source) :=
  match chomping? s.peek with
  | some chomping => do
    let (increment, s) ← increment? (s.advance 1)
    return (⟨chomping, increment⟩, s)
  | none => do
    let (increment, s') ← increment? s
    match increment, chomping? s'.peek with
    | _ + 1, some chomping => return (⟨chomping, increment⟩, s'.advance 1)
    | _, _ => return (⟨.clip, increment⟩, s')

structure State where
  literal : Bool
  chomping : Chomping
  parent : Int
  indent : Nat
  deepest : Nat := 0
  inLine : Bool := false
  text : List Char := []
  broken : Bool := false
  blankLines : Nat := 0
  afterGap : Bool := false

namespace State

def settle (st : State) (column : Nat) : State :=
  if st.indent = 0 then
    { st with indent := max (max (max st.deepest column) (st.parent + 1).toNat) 1 }
  else st

/-- Begins a line with its first character. In a folded scalar a line break between two lines that
do not begin with a gap becomes a space, or the blank lines between them. -/
def beginLine (st : State) (c : Char) : State :=
  let folds := !st.literal && st.broken && !st.afterGap && !isGap c
  let joint : List Char :=
    if folds then (if st.blankLines = 0 then [' '] else [])
    else if st.broken then ['\n']
    else []
  { st with
    inLine := true
    text := c :: (.replicate st.blankLines '\n' ++ joint ++ st.text)
    broken := false
    blankLines := 0
    afterGap := isGap c }

def finish (st : State) : String :=
  let last : List Char := if st.broken && st.chomping != .strip then ['\n'] else []
  let blank : List Char := if st.chomping = .keep then .replicate st.blankLines '\n' else []
  .ofList (blank ++ last ++ st.text).reverse

def read (st : State) : Source → Option (String × Source)
  | [] => some (st.finish, [])
  | x :: s =>
    if st.inLine then
      if x.char = endChar then some (st.finish, x :: s)
      else if isBreak x.char then { st with inLine := false, broken := true }.read s
      else { st with text := x.char :: st.text }.read s
    else if (st.indent = 0 ∨ x.column < st.indent) ∧ x.char = ' ' then st.read s
    else if (st.indent = 0 ∨ x.column < st.indent) ∧ x.char = '\t' then none
    else if isBreak x.char then
      { st with deepest := max st.deepest x.column, blankLines := st.blankLines + 1 }.read s
    else
      let st := st.settle x.column
      if x.column = st.indent ∧ x.char ≠ endChar then (st.beginLine x.char).read s
      else some (st.finish, x :: s)

end State

def read (literal : Bool) (parent : Int) (s : Source) : Option (String × Source) := do
  let (header, s) ← readIndicators s
  let s ← s.restOfLine?
  let indent := if header.increment = 0 then 0 else parent.toNat + header.increment
  State.read { literal, chomping := header.chomping, parent, indent } s

end ChordScript.Yaml.Block
