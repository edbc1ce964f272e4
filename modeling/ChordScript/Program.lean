import ChordScript.Program.Line

namespace ChordScript

structure Statement where
  line : Option Nat
  command : Command
  deriving DecidableEq, Repr

structure Program where
  statements : List Statement
  deriving DecidableEq, Repr

namespace Program

def ofCommands (commands : List Command) : Program := ⟨commands.map (⟨none, ·⟩)⟩

def commands (p : Program) : List Command := p.statements.map (·.command)

def size (p : Program) : Nat := p.statements.length

def text (p : Program) : String := .join (p.commands.map fun c => c.text ++ "\n")

def readLines (text : String) : List (Nat × Except ScriptError (Option Command)) :=
  ((Text.lines text.toList).zipIdx 1).map fun (line, n) => (n, Line.read line)

def statement? : Nat × Except ScriptError (Option Command) → Option Statement
  | (n, .ok (some command)) => some ⟨some n, command⟩
  | _ => none

def diagnostic? : Nat × Except ScriptError (Option Command) → Option Diagnostic
  | (n, .error error) => some ⟨some n, error⟩
  | _ => none

def read (text : String) : Program := ⟨(readLines text).filterMap statement?⟩

def readDiagnostics (text : String) : List Diagnostic := (readLines text).filterMap diagnostic?

end Program

end ChordScript
