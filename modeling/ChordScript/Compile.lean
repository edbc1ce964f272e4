import ChordScript.Schedule
import ChordScript.StableSort

namespace ChordScript

def Diagnostic.before (a b : Diagnostic) : Bool :=
  match a.line, b.line with
  | none, some _ => true
  | some m, some n => m < n
  | _, none => false

def Diagnostic.merge (a b : List Diagnostic) : List Diagnostic :=
  StableSort.sort Diagnostic.before (a ++ b)

def compile {τ : Type} [Seconds τ] (text : String) (context : Context) :
    Except Rejected (Schedule τ) :=
  let found := Program.readDiagnostics text
  match (Program.read text).schedule context with
  | .ok s => .ok { s with diagnostics := Diagnostic.merge found s.diagnostics }
  | .error r => .error { r with diagnostics := Diagnostic.merge found r.diagnostics }

end ChordScript
